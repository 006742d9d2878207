import ValueFlow.Proofs.Domain.Canonical
import ValueFlow.Proofs.Sequences
/-!
How often a value can be widened.

There are two measures. The looseness of a value is at most seven, and a widening that changes a
canonical value raises it, whatever the integers are. The height is raised by every step up in the
order, but it counts the 64-bit integers between the ends of an interval. Widening an old value by
a newer one therefore ends after seven changes, while widening the newer by the old one can go on
as long as there are integers.
-/

namespace ValueFlow

namespace Sign

def rank : Sign → Nat
  | bottom => 0
  | negative | zero | positive => 1
  | nonNegative | nonPositive => 2
  | top => 3

theorem rank_le (a : Sign) : a.rank ≤ 3 := by cases a <;> decide

theorem rank_pos {a : Sign} (h : a ≠ .bottom) : 0 < a.rank := by
  cases a with
  | bottom => exact absurd rfl h
  | _ => exact Nat.succ_pos _

theorem eq_or_rank_lt {a b : Sign} (h : a.leq b = true) : b = a ∨ a.rank < b.rank := by
  revert h
  cases a <;> cases b <;> decide

end Sign

namespace Nullability

def rank : Nullability → Nat
  | bottom => 0
  | notNull | definitelyNull => 1
  | nullable => 2
  | top => 3

theorem rank_le (a : Nullability) : a.rank ≤ 3 := by cases a <;> decide

theorem rank_pos {a : Nullability} (h : a ≠ .bottom) : 0 < a.rank := by
  cases a with
  | bottom => exact absurd rfl h
  | _ => exact Nat.succ_pos _

theorem eq_or_rank_lt {a b : Nullability} (h : a.leq b = true) : b = a ∨ a.rank < b.rank := by
  revert h
  cases a <;> cases b <;> decide

end Nullability

namespace Bound

def place : Bound → Nat
  | negInf => 0
  | finite n => (n.toInt - Int64.minValue.toInt).toNat + 1
  | posInf => 2 ^ 64 + 1

theorem place_finite (n : Int64) :
    ((finite n).place : Int) = n.toInt - Int64.minValue.toInt + 1 := by
  have := Int64.minValue_le_toInt n
  simp only [place]
  omega

theorem place_le (b : Bound) : b.place ≤ 2 ^ 64 + 1 := by
  cases b with
  | negInf => exact Nat.zero_le _
  | posInf => exact Nat.le_refl _
  | finite n =>
      have := place_finite n
      have := Int64.toInt_lt n
      have : Int64.minValue.toInt = -2 ^ 63 := rfl
      omega

theorem eq_or_place_lt {a b : Bound} (h : a ≤ b) : b = a ∨ a.place < b.place := by
  cases a with
  | negInf =>
      cases b with
      | negInf => exact .inl rfl
      | finite | posInf => exact .inr (Nat.succ_pos _)
  | posInf => exact .inl (posInf_le h)
  | finite m =>
      cases b with
      | negInf => cases h
      | posInf =>
          right
          have := place_finite m
          have := Int64.toInt_lt m
          have : Int64.minValue.toInt = -2 ^ 63 := rfl
          have : posInf.place = 2 ^ 64 + 1 := rfl
          omega
      | finite n =>
          rw [finite_le_finite] at h
          have hm := place_finite m
          have hn := place_finite n
          rcases Int.lt_or_eq_of_le h with hlt | heq
          · right
            omega
          · exact .inl (congrArg finite (Int64.toInt_inj.1 heq.symm))

theorem place_mono {a b : Bound} (h : a ≤ b) : a.place ≤ b.place := by
  rcases eq_or_place_lt h with rfl | h
  · exact Nat.le_refl _
  · exact Nat.le_of_lt h

end Bound

namespace Interval

variable {r s : Interval}

def openEnds (r : Interval) : Nat :=
  (if r.lo = .negInf then 1 else 0) + (if r.hi = .posInf then 1 else 0)

theorem openEnds_le (r : Interval) : r.openEnds ≤ 2 := by
  unfold openEnds
  split <;> split <;> decide

/-- Widening changes nothing or opens an end. -/
theorem widen_eq_or_openEnds_lt (hr : r.isEmpty = false) (s : Interval) :
    r.widen s = r ∨ r.openEnds < (r.widen s).openEnds := by
  cases hs : s.isEmpty with
  | true =>
      left
      rw [widen, hr, hs]
      rfl
  | false =>
      have hwiden : r.widen s = ⟨if s.lo < r.lo then .negInf else r.lo,
          if r.hi < s.hi then .posInf else r.hi⟩ := by
        rw [widen, hr, hs]
        rfl
      have hlo : s.lo < r.lo → r.lo ≠ .negInf := fun h hinf => h (hinf ▸ Bound.negInf_le s.lo)
      have hhi : r.hi < s.hi → r.hi ≠ .posInf := fun h hinf => h (hinf ▸ Bound.le_posInf s.hi)
      rw [hwiden, openEnds, openEnds]
      dsimp only
      by_cases h : s.lo < r.lo
      · right
        rw [if_pos h, if_pos rfl, if_neg (hlo h)]
        by_cases h' : r.hi < s.hi
        · rw [if_pos h', if_pos rfl, if_neg (hhi h')]
          decide
        · rw [if_neg h']
          omega
      · rw [if_neg h]
        by_cases h' : r.hi < s.hi
        · right
          rw [if_pos h', if_pos rfl, if_neg (hhi h')]
          omega
        · left
          rw [if_neg h']

def spread (r : Interval) : Nat := (2 ^ 64 + 1 - r.lo.place) + r.hi.place

theorem spread_le (r : Interval) : r.spread ≤ 2 ^ 65 + 2 := by
  have := r.hi.place_le
  unfold spread
  omega

theorem eq_or_spread_lt (hr : r.isEmpty = false) (h : r.leq s = true) :
    s = r ∨ r.spread < s.spread := by
  obtain ⟨-, hlo, hhi⟩ := leq_iff.1 h hr
  have hlo' := Bound.place_mono hlo
  have hhi' := Bound.place_mono hhi
  have hbound := r.lo.place_le
  unfold spread
  rcases Bound.eq_or_place_lt hlo with hlo | hlo
  · rcases Bound.eq_or_place_lt hhi with hhi | hhi
    · left
      cases r
      cases s
      cases hlo
      cases hhi
      rfl
    · right
      omega
  · right
    omega

end Interval

namespace Value

variable {a b : Value}

theorem components_of_not_isBottom (h : a.isBottom = false) :
    a.sign ≠ .bottom ∧ a.nullability ≠ .bottom ∧ a.range.isEmpty = false := by
  simpa [isBottom, and_assoc] using h

/-- How much a value leaves open, apart from where its ends lie. -/
def looseness (v : Value) : Nat :=
  if v.isBottom then 0 else v.sign.rank + v.nullability.rank + v.range.openEnds - 1

theorem looseness_le (v : Value) : v.looseness ≤ 7 := by
  have := v.sign.rank_le
  have := v.nullability.rank_le
  have := v.range.openEnds_le
  unfold looseness
  split <;> omega

theorem looseness_pos (h : a.isBottom = false) : 0 < a.looseness := by
  obtain ⟨hsign, hnull, -⟩ := components_of_not_isBottom h
  have := Sign.rank_pos hsign
  have := Nullability.rank_pos hnull
  rw [looseness, h, if_neg Bool.false_ne_true]
  omega

/-- If each component stays or rises, the value stays or the sum of its components rises. -/
theorem eq_or_sum_lt (measure : Interval → Nat)
    (hsign : b.sign = a.sign ∨ a.sign.rank < b.sign.rank)
    (hnull : b.nullability = a.nullability ∨ a.nullability.rank < b.nullability.rank)
    (hrange : b.range = a.range ∨ measure a.range < measure b.range) :
    b = a ∨ a.sign.rank + a.nullability.rank + measure a.range <
      b.sign.rank + b.nullability.rank + measure b.range := by
  obtain ⟨s, n, r⟩ := a
  obtain ⟨s', n', r'⟩ := b
  dsimp only at *
  rcases hsign with rfl | hsign
  · rcases hnull with rfl | hnull
    · rcases hrange with rfl | hrange
      · exact .inl rfl
      · exact .inr (Nat.add_lt_add_left hrange _)
    · right
      rcases hrange with rfl | hrange <;> omega
  · right
    rcases hnull with rfl | hnull <;> rcases hrange with rfl | hrange <;> omega

/-- Widening a canonical value changes nothing or makes it looser. -/
theorem widen_eq_or_looseness_lt (ha : a.Canonical) (hb : b.Canonical) :
    a.widen b = a ∨ a.looseness < (a.widen b).looseness := by
  cases hbot : a.isBottom with
  | true =>
      have hwiden : a.widen b = b := by rw [widen, hbot, if_pos rfl]
      have hzero : a.looseness = 0 := by rw [looseness, hbot, if_pos rfl]
      cases hbot' : b.isBottom with
      | true => exact .inl (by rw [hwiden, ha hbot, hb hbot'])
      | false =>
          right
          rw [hwiden, hzero]
          exact looseness_pos hbot'
  | false =>
      cases hbot' : b.isBottom with
      | true =>
          left
          rw [widen, hbot, hbot']
          rfl
      | false =>
          have hwiden : a.widen b = ⟨a.sign.join b.sign, a.nullability.join b.nullability,
              a.range.widen b.range⟩ := by
            rw [widen, hbot, hbot']
            rfl
          have hup : (a.widen b).isBottom = false := Bool.eq_false_iff.2 fun h =>
            absurd (hbot.symm.trans (isBottom_of_leq (leq_widen_left a b) h)) Bool.false_ne_true
          have hstep := eq_or_sum_lt (a := a) (b := a.widen b) Interval.openEnds
            (hwiden ▸ Sign.eq_or_rank_lt (Sign.leq_join_left _ _))
            (hwiden ▸ Nullability.eq_or_rank_lt (Nullability.leq_join_left _ _))
            (hwiden ▸ Interval.widen_eq_or_openEnds_lt (components_of_not_isBottom hbot).2.2 _)
          refine hstep.imp_right fun h => ?_
          have hpos := looseness_pos hbot
          rw [looseness, hbot, if_neg Bool.false_ne_true] at hpos ⊢
          rw [looseness, hup, if_neg Bool.false_ne_true]
          omega

section Chains

variable {x y z : Nat → Value}

/-- What widens a value decides whether the result is canonical: a value that is not replaced
describes something. -/
theorem canonical_widen (a : Value) (hb : b.Canonical) : (a.widen b).Canonical := by
  cases hbot : a.isBottom with
  | true => rwa [widen, hbot, if_pos rfl]
  | false => exact (canonical_of_not_isBottom hbot).widen hb

theorem canonical_join (a : Value) (hb : b.Canonical) : (a.join b).Canonical := by
  cases hbot : a.isBottom with
  | true => rwa [join_bottom_left hbot]
  | false => exact (canonical_of_not_isBottom hbot).join hb

/-- Whether a sequence goes up, is above another one, and has at most seven changes. A first value
that is not canonical does not count: it describes nothing and is replaced by the first step. -/
structure Ascends (x y : Nat → Value) : Prop where
  up : ∀ k, (x k).leq (x (k + 1)) = true
  above : ∀ k, (y k).leq (x (k + 1)) = true
  changes_le : (x 0).Canonical → (changes x).encard ≤ 7
  changes_tail_le : (changes fun k => x (k + 1)).encard ≤ 7

theorem changes_widen_le (hx : ∀ k, x (k + 1) = (x k).widen (z k)) (hz : ∀ k, (z k).Canonical)
    (hstart : (x 0).Canonical) : (changes x).encard ≤ (7 : Nat) := by
  have hcanonical (k : Nat) : (x k).Canonical := by
    cases k with
    | zero => exact hstart
    | succ k => exact hx k ▸ canonical_widen _ (hz k)
  refine encard_changes_le_of_rank looseness (fun k => ?_) fun k => looseness_le _
  rw [hx k]
  exact widen_eq_or_looseness_lt (hcanonical k) (hz k)

theorem ascends_of_widen (hx : ∀ k, x (k + 1) = (x k).widen (z k)) (hz : ∀ k, (z k).Canonical)
    (hyz : ∀ k, (y k).leq (z k) = true) : Ascends x y where
  up k := hx k ▸ leq_widen_left _ _
  above k := leq_trans (hyz k) (hx k ▸ leq_widen_right _ _)
  changes_le := changes_widen_le hx hz
  changes_tail_le := changes_widen_le (fun k => hx (k + 1)) (fun k => hz (k + 1))
    (hx 0 ▸ canonical_widen _ (hz 0))

/-- The values reached from a first one when others widen it. -/
def widened (start : Value) (y : Nat → Value) : Nat → Value
  | 0 => start
  | k + 1 => AbstractDomain.widen (widened start y k) (y k) k

/-- The values reached when each of the others is first joined to what was reached before. -/
def widenedByJoin (start : Value) (y : Nat → Value) : Nat → Value
  | 0 => start
  | k + 1 =>
      let old := widenedByJoin start y k
      AbstractDomain.widen old (AbstractDomain.join old (y k)) k

/-- However long values are widened, by whatever integers, they change at most seven times. -/
theorem ascends_widened (start : Value) (hy : ∀ k, (y k).Canonical) :
    Ascends (widened start y) y ∧ Ascends (widenedByJoin start y) y :=
  ⟨ascends_of_widen (fun _ => rfl) hy fun _ => leq_refl _,
    ascends_of_widen (z := fun k => join (widenedByJoin start y k) (y k)) (fun _ => rfl)
      (fun k => canonical_join _ (hy k)) fun _ => leq_join_right _ _⟩

/-- Values each of which changes one more component. -/
def loosening : Nat → Value
  | 0 => constant 0
  | 1 => ⟨.positive, .notNull, .constant 0⟩
  | 2 => ⟨.negative, .notNull, .constant 0⟩
  | 3 => ⟨.top, .definitelyNull, .constant 0⟩
  | 4 => ⟨.top, .top, .constant 0⟩
  | 5 => ⟨.top, .top, .atMost 0⟩
  | _ => top

theorem canonical_loosening (k : Nat) : (loosening k).Canonical := by
  unfold loosening
  split <;> exact canonical_of_not_isBottom (by decide)

/-- Seven changes are possible. -/
theorem ascends_widened_loosening :
    (Ascends (widened bottom loosening) loosening ∧
      Ascends (widenedByJoin bottom loosening) loosening) ∧
      ∀ k < 7, widened bottom loosening (k + 1) ≠ widened bottom loosening k :=
  ⟨ascends_widened bottom canonical_loosening, by decide +kernel⟩

end Chains

def height (v : Value) : Nat :=
  if v.isBottom then 0 else v.sign.rank + v.nullability.rank + v.range.spread

theorem height_le (v : Value) : v.height ≤ 2 ^ 65 + 8 := by
  have := v.sign.rank_le
  have := v.nullability.rank_le
  have := v.range.spread_le
  unfold height
  split <;> omega

/-- Of two canonical values in the order, the larger is the same or higher. -/
theorem eq_or_height_lt (ha : a.Canonical) (hb : b.Canonical) (h : a.leq b = true) :
    b = a ∨ a.height < b.height := by
  cases hbot : a.isBottom with
  | true =>
      have hzero : a.height = 0 := by rw [height, hbot, if_pos rfl]
      cases hbot' : b.isBottom with
      | true => exact .inl (by rw [ha hbot, hb hbot'])
      | false =>
          right
          have := Sign.rank_pos (components_of_not_isBottom hbot').1
          rw [hzero, height, hbot', if_neg Bool.false_ne_true]
          omega
  | false =>
      have hbot' : b.isBottom = false := Bool.eq_false_iff.2 fun h' =>
        absurd (hbot.symm.trans (isBottom_of_leq h h')) Bool.false_ne_true
      obtain ⟨hsign, hnull, hrange⟩ := leq_iff.1 h hbot
      rw [height, height, hbot, hbot', if_neg Bool.false_ne_true, if_neg Bool.false_ne_true]
      exact eq_or_sum_lt Interval.spread (Sign.eq_or_rank_lt hsign)
        (Nullability.eq_or_rank_lt hnull)
        (Interval.eq_or_spread_lt (components_of_not_isBottom hbot).2.2 hrange)

end Value

end ValueFlow
