import ValueFlow.Domain.Interval
/-!
Ends of intervals, as ends for exact integers.

Arithmetic on ends is compared with arithmetic on integers of any size. A result that leaves the
64-bit integers becomes an infinity, so an end for results is only known up to that
(`StaysBelow`, `StaysAbove`); `Interval.ofArith` turns such ends into proper ones.
-/

namespace ValueFlow

namespace Bound

variable {a b c : Bound} {m n : Int}

/-- A bound as a lower end for an integer. -/
def IsBelow : Bound → Int → Prop
  | negInf, _ => True
  | finite l, n => l.toInt ≤ n
  | posInf, _ => False

/-- A bound as an upper end for an integer. -/
def IsAbove : Bound → Int → Prop
  | negInf, _ => False
  | finite h, n => n ≤ h.toInt
  | posInf, _ => True

/-- A lower end for a result, which is infinite where no 64-bit integer is low enough. -/
def StaysBelow : Bound → Int → Prop
  | negInf, _ => True
  | finite l, n => l.toInt ≤ n
  | posInf, n => Int64.maxValue.toInt < n

/-- An upper end for a result, which is infinite where no 64-bit integer is high enough. -/
def StaysAbove : Bound → Int → Prop
  | negInf, n => n < Int64.minValue.toInt
  | finite h, n => n ≤ h.toInt
  | posInf, _ => True

theorem le_def : a ≤ b ↔ a.le b = true := Iff.rfl

theorem lt_def : a < b ↔ ¬ b ≤ a := Iff.rfl

theorem finite_le_finite {k l : Int64} : finite k ≤ finite l ↔ k.toInt ≤ l.toInt := by
  rw [le_def, le, decide_eq_true_eq, Int64.le_iff_toInt_le]

theorem le_total (a b : Bound) : a ≤ b ∨ b ≤ a := by
  cases a with
  | negInf => exact .inl rfl
  | posInf => exact .inr (by cases b <;> rfl)
  | finite k =>
      cases b with
      | negInf => exact .inr rfl
      | posInf => exact .inl rfl
      | finite l =>
          rw [finite_le_finite, finite_le_finite]
          exact Int.le_total _ _

theorem le_of_lt (h : a < b) : a ≤ b := (le_total a b).resolve_right h

theorem le_negInf (h : a ≤ negInf) : a = negInf := by
  cases a with
  | negInf => rfl
  | finite | posInf => cases h

theorem posInf_le (h : posInf ≤ a) : a = posInf := by
  cases a with
  | posInf => rfl
  | finite | negInf => cases h

theorem le_refl (a : Bound) : a ≤ a := (le_total a a).elim id id

theorem IsBelow.mono (h : a ≤ b) (hb : b.IsBelow n) : a.IsBelow n := by
  cases b with
  | negInf => rw [le_negInf h]; exact trivial
  | posInf => exact hb.elim
  | finite l =>
      cases a with
      | negInf => exact trivial
      | finite k => exact Int.le_trans (finite_le_finite.1 h) hb
      | posInf => cases h

theorem IsAbove.mono (h : a ≤ b) (ha : a.IsAbove n) : b.IsAbove n := by
  cases a with
  | posInf => rw [posInf_le h]; exact trivial
  | negInf => exact ha.elim
  | finite k =>
      cases b with
      | negInf => cases h
      | finite l => exact Int.le_trans ha (finite_le_finite.1 h)
      | posInf => exact trivial

theorem StaysBelow.mono (h : a ≤ b) (hb : b.StaysBelow n) : a.StaysBelow n := by
  cases b with
  | negInf => rw [le_negInf h]; exact trivial
  | posInf =>
      cases a with
      | negInf => exact trivial
      | finite k => exact Int.le_trans (Int64.toInt_le k) (Int.le_of_lt hb)
      | posInf => exact hb
  | finite l =>
      cases a with
      | negInf => exact trivial
      | finite k => exact Int.le_trans (finite_le_finite.1 h) hb
      | posInf => cases h

theorem StaysAbove.mono (h : a ≤ b) (ha : a.StaysAbove n) : b.StaysAbove n := by
  cases a with
  | posInf => rw [posInf_le h]; exact trivial
  | negInf =>
      cases b with
      | negInf => exact ha
      | finite l => exact Int.le_trans (Int.le_of_lt ha) (Int64.minValue_le_toInt l)
      | posInf => exact trivial
  | finite k =>
      cases b with
      | negInf => cases h
      | finite l => exact Int.le_trans ha (finite_le_finite.1 h)
      | posInf => exact trivial

theorem IsBelow.trans_le (h : a.IsBelow m) (hmn : m ≤ n) : a.IsBelow n := by
  cases a with
  | negInf => exact trivial
  | finite k => exact Int.le_trans h hmn
  | posInf => exact h.elim

theorem IsAbove.trans_le (h : a.IsAbove n) (hmn : m ≤ n) : a.IsAbove m := by
  cases a with
  | negInf => exact h.elim
  | finite k => exact Int.le_trans hmn h
  | posInf => exact trivial

/-- Ends on both sides of an integer do not cross. -/
theorem le_of_isBelow_of_isAbove (ha : a.IsBelow n) (hb : b.IsAbove n) : a ≤ b := by
  cases a with
  | negInf => exact rfl
  | posInf => exact ha.elim
  | finite k =>
      cases b with
      | negInf => exact hb.elim
      | posInf => exact rfl
      | finite l => exact finite_le_finite.2 (Int.le_trans ha hb)

theorem le_of_isAbove_of_isBelow (ha : a.IsAbove m) (hb : b.IsBelow n) (h : a ≤ b) : m ≤ n := by
  have hn := hb.mono h
  cases a with
  | negInf => exact ha.elim
  | finite k => exact Int.le_trans ha hn
  | posInf => exact hn.elim

theorem lt_of_isAbove_of_isBelow (ha : a.IsAbove m) (hb : b.IsBelow n) (h : a < b) : m < n :=
  Int.not_le.1 fun hle => h (le_of_isBelow_of_isAbove (hb.trans_le hle) ha)

theorem le_finite_iff {k : Int64} : a ≤ finite k ↔ a.IsBelow k.toInt := by
  cases a with
  | negInf => exact ⟨fun _ => trivial, fun _ => rfl⟩
  | finite l => exact finite_le_finite
  | posInf => exact ⟨(nomatch ·), False.elim⟩

theorem finite_le_iff {k : Int64} : finite k ≤ a ↔ a.IsAbove k.toInt := by
  cases a with
  | negInf => exact ⟨(nomatch ·), False.elim⟩
  | finite l => exact finite_le_finite
  | posInf => exact ⟨fun _ => trivial, fun _ => rfl⟩

section Extremes

theorem lower_le_left (a b : Bound) : a.lower b ≤ a := by
  rw [lower]
  split
  · exact le_of_lt ‹_›
  · exact le_refl a

theorem lower_le_right (a b : Bound) : a.lower b ≤ b := by
  rw [lower]
  split
  · exact le_refl b
  · next h => exact Classical.byContradiction h

theorem le_upper_left (a b : Bound) : a ≤ a.upper b := by
  rw [upper]
  split
  · exact le_of_lt ‹_›
  · exact le_refl a

theorem le_upper_right (a b : Bound) : b ≤ a.upper b := by
  rw [upper]
  split
  · exact le_refl b
  · next h => exact Classical.byContradiction h

theorem IsBelow.upper (ha : a.IsBelow n) (hb : b.IsBelow n) : (a.upper b).IsBelow n := by
  rw [Bound.upper]
  split
  · exact hb
  · exact ha

theorem IsAbove.lower (ha : a.IsAbove n) (hb : b.IsAbove n) : (a.lower b).IsAbove n := by
  rw [Bound.lower]
  split
  · exact hb
  · exact ha

theorem lower_negInf_left (b : Bound) : lower negInf b = negInf := if_neg fun h => h rfl

theorem lower_negInf_right (a : Bound) : lower a negInf = negInf := by
  rw [lower]
  split
  · rfl
  · next h => exact le_negInf (Classical.byContradiction h)

theorem upper_posInf_left (b : Bound) : upper posInf b = posInf := if_neg fun h => h (by cases b <;> rfl)

theorem upper_posInf_right (a : Bound) : upper a posInf = posInf := by
  rw [upper]
  split
  · rfl
  · next h => exact posInf_le (Classical.byContradiction h)

end Extremes

section Arithmetic

/-- A 64-bit integer that stands for an exact result. -/
theorem toInt_ofInt_of_fits (hmin : ¬ n < Int64.minValue.toInt) (hmax : ¬ Int64.maxValue.toInt < n) :
    (Int64.ofInt n).toInt = n := by
  rw [Int64.toInt_minValue] at hmin
  rw [Int64.toInt_maxValue] at hmax
  exact Int64.toInt_ofInt_of_le (by omega) (by omega)

theorem stays_below_ofExact (h : m ≤ n) : (ofExact m).StaysBelow n := by
  rw [ofExact]
  split
  · exact trivial
  · next hmin =>
      split
      · exact Int.lt_of_lt_of_le ‹_› h
      · next hmax =>
          show (Int64.ofInt m).toInt ≤ n
          rwa [toInt_ofInt_of_fits hmin hmax]

theorem stays_above_ofExact (h : n ≤ m) : (ofExact m).StaysAbove n := by
  rw [ofExact]
  split
  · exact Int.lt_of_le_of_lt h ‹_›
  · next hmin =>
      split
      · exact trivial
      · next hmax =>
          show n ≤ (Int64.ofInt m).toInt
          rwa [toInt_ofInt_of_fits hmin hmax]

theorem stays_below_add (ha : a.IsBelow m) (hb : b.IsBelow n) : (a.add b).StaysBelow (m + n) := by
  cases a with
  | negInf => exact trivial
  | posInf => exact ha.elim
  | finite k =>
      cases b with
      | negInf => exact trivial
      | posInf => exact hb.elim
      | finite l => exact stays_below_ofExact (Int.add_le_add ha hb)

theorem stays_above_add (ha : a.IsAbove m) (hb : b.IsAbove n) : (a.add b).StaysAbove (m + n) := by
  cases a with
  | negInf => exact ha.elim
  | posInf =>
      cases b with
      | negInf => exact hb.elim
      | finite | posInf => exact trivial
  | finite k =>
      cases b with
      | negInf => exact hb.elim
      | posInf => exact trivial
      | finite l => exact stays_above_ofExact (Int.add_le_add ha hb)

theorem stays_below_neg (h : a.IsAbove n) : a.neg.StaysBelow (-n) := by
  cases a with
  | negInf => exact h.elim
  | posInf => exact trivial
  | finite k => exact stays_below_ofExact (Int.neg_le_neg h)

theorem stays_above_neg (h : a.IsBelow n) : a.neg.StaysAbove (-n) := by
  cases a with
  | negInf => exact trivial
  | posInf => exact h.elim
  | finite k => exact stays_above_ofExact (Int.neg_le_neg h)

end Arithmetic

section Products

variable {x l h : Bound}

theorem mul_comm (a b : Bound) : a.mul b = b.mul a := by
  cases a <;> cases b <;> simp only [mul, Int.mul_comm]

/-- The product of an infinity and an integer is decided by the sign of the integer. -/
theorem mul_finite_of_sign (k : Int64) (hinf : a = negInf ∨ a = posInf) :
    (0 < k.toInt ∧ a.mul (finite k) = a) ∨ (k.toInt < 0 ∧ a.mul (finite k) = a.neg) ∨
      (k.toInt = 0 ∧ a.mul (finite k) = finite 0) := by
  rcases Int.lt_trichotomy k.toInt 0 with hneg | hzero | hpos
  · refine .inr (.inl ⟨hneg, ?_⟩)
    rcases hinf with rfl | rfl <;> simp [mul, signum, neg, Int.sign_eq_neg_one_of_neg hneg]
  · refine .inr (.inr ⟨hzero, ?_⟩)
    rcases hinf with rfl | rfl <;> simp [mul, signum, hzero]
  · refine .inl ⟨hpos, ?_⟩
    rcases hinf with rfl | rfl <;> simp [mul, signum, Int.sign_eq_one_of_pos hpos]

/-- An end times an integer as a lower end. -/
def ScaledBelow (x : Bound) (n t : Int) : Prop :=
  match x with
  | negInf => 0 < n ∨ n = 0 ∧ 0 ≤ t
  | finite k => k.toInt * n ≤ t
  | posInf => n < 0 ∨ n = 0 ∧ 0 ≤ t

/-- An end times an integer as an upper end. -/
def ScaledAbove (x : Bound) (n t : Int) : Prop :=
  match x with
  | negInf => n < 0 ∨ n = 0 ∧ t ≤ 0
  | finite k => t ≤ k.toInt * n
  | posInf => 0 < n ∨ n = 0 ∧ t ≤ 0

theorem scaled_infinite (hn : 0 ≤ n) : 0 < n ∨ n = 0 ∧ m * n = 0 := by
  rcases Int.le_iff_lt_or_eq.1 hn with h | rfl
  · exact .inl h
  · exact .inr ⟨rfl, Int.mul_zero m⟩

/-- The least product with an integer lies at one of the ends of the other factor. -/
theorem exists_scaledBelow (hx : a.IsBelow m) (hy : b.IsAbove m) (n : Int) :
    a.ScaledBelow n (m * n) ∨ b.ScaledBelow n (m * n) := by
  rcases Int.le_total 0 n with hn | hn
  · left
    cases a with
    | posInf => exact hx.elim
    | negInf => exact (scaled_infinite hn).imp_right fun h => ⟨h.1, Int.le_of_eq h.2.symm⟩
    | finite k => exact Int.mul_le_mul_of_nonneg_right hx hn
  · right
    cases b with
    | negInf => exact hy.elim
    | posInf =>
        rcases Int.le_iff_lt_or_eq.1 hn with h | rfl
        · exact .inl h
        · exact .inr ⟨rfl, Int.le_of_eq (Int.mul_zero m).symm⟩
    | finite k => exact Int.mul_le_mul_of_nonpos_right hy hn

/-- The greatest product with an integer lies at one of the ends of the other factor. -/
theorem exists_scaledAbove (hx : a.IsBelow m) (hy : b.IsAbove m) (n : Int) :
    a.ScaledAbove n (m * n) ∨ b.ScaledAbove n (m * n) := by
  rcases Int.le_total 0 n with hn | hn
  · right
    cases b with
    | negInf => exact hy.elim
    | posInf => exact (scaled_infinite hn).imp_right fun h => ⟨h.1, Int.le_of_eq h.2⟩
    | finite k => exact Int.mul_le_mul_of_nonneg_right hy hn
  · left
    cases a with
    | posInf => exact hx.elim
    | negInf =>
        rcases Int.le_iff_lt_or_eq.1 hn with h | rfl
        · exact .inl h
        · exact .inr ⟨rfl, Int.le_of_eq (Int.mul_zero m)⟩
    | finite k => exact Int.mul_le_mul_of_nonpos_right hx hn

/-- The least product of an end lies at one of the ends of the other factor. -/
theorem stays_below_mul (ht : x.ScaledBelow n m) (hl : l.IsBelow n) (hh : h.IsAbove n) :
    (x.mul l).StaysBelow m ∨ (x.mul h).StaysBelow m := by
  cases x with
  | negInf =>
      right
      cases h with
      | negInf => exact hh.elim
      | posInf => exact trivial
      | finite k =>
          have hk : n ≤ k.toInt := hh
          rcases mul_finite_of_sign k (.inl rfl) with ⟨-, he⟩ | ⟨hneg, -⟩ | ⟨hzero, he⟩
          · rw [he]
            exact trivial
          · rcases ht with ht | ⟨ht, -⟩ <;> omega
          · rw [he]
            exact ht.elim (fun ht => by omega) fun ht => ht.2
  | posInf =>
      left
      cases l with
      | negInf => exact trivial
      | posInf => exact hl.elim
      | finite k =>
          have hk : k.toInt ≤ n := hl
          rcases mul_finite_of_sign k (.inr rfl) with ⟨hpos, -⟩ | ⟨-, he⟩ | ⟨hzero, he⟩
          · rcases ht with ht | ⟨ht, -⟩ <;> omega
          · rw [he]
            exact trivial
          · rw [he]
            exact ht.elim (fun ht => by omega) fun ht => ht.2
  | finite k =>
      have hk : k.toInt * n ≤ m := ht
      rcases Int.le_total 0 k.toInt with hnonneg | hnonpos
      · left
        cases l with
        | posInf => exact hl.elim
        | finite j =>
            exact stays_below_ofExact
              (Int.le_trans (Int.mul_le_mul_of_nonneg_left hl hnonneg) hk)
        | negInf =>
            rw [mul_comm]
            rcases mul_finite_of_sign k (.inl rfl) with ⟨-, he⟩ | ⟨hneg, -⟩ | ⟨hzero, he⟩
            · rw [he]
              exact trivial
            · omega
            · rw [hzero, Int.zero_mul] at hk
              rw [he]
              exact hk
      · right
        cases h with
        | negInf => exact hh.elim
        | finite j =>
            exact stays_below_ofExact
              (Int.le_trans (Int.mul_le_mul_of_nonpos_left hnonpos hh) hk)
        | posInf =>
            rw [mul_comm]
            rcases mul_finite_of_sign k (.inr rfl) with ⟨hpos, -⟩ | ⟨-, he⟩ | ⟨hzero, he⟩
            · omega
            · rw [he]
              exact trivial
            · rw [hzero, Int.zero_mul] at hk
              rw [he]
              exact hk

/-- The greatest product of an end lies at one of the ends of the other factor. -/
theorem stays_above_mul (ht : x.ScaledAbove n m) (hl : l.IsBelow n) (hh : h.IsAbove n) :
    (x.mul l).StaysAbove m ∨ (x.mul h).StaysAbove m := by
  cases x with
  | negInf =>
      left
      cases l with
      | negInf => exact trivial
      | posInf => exact hl.elim
      | finite k =>
          have hk : k.toInt ≤ n := hl
          rcases mul_finite_of_sign k (.inl rfl) with ⟨hpos, -⟩ | ⟨-, he⟩ | ⟨hzero, he⟩
          · rcases ht with ht | ⟨ht, -⟩ <;> omega
          · rw [he]
            exact trivial
          · rw [he]
            exact ht.elim (fun ht => by omega) fun ht => ht.2
  | posInf =>
      right
      cases h with
      | negInf => exact hh.elim
      | posInf => exact trivial
      | finite k =>
          have hk : n ≤ k.toInt := hh
          rcases mul_finite_of_sign k (.inr rfl) with ⟨-, he⟩ | ⟨hneg, -⟩ | ⟨hzero, he⟩
          · rw [he]
            exact trivial
          · rcases ht with ht | ⟨ht, -⟩ <;> omega
          · rw [he]
            exact ht.elim (fun ht => by omega) fun ht => ht.2
  | finite k =>
      have hk : m ≤ k.toInt * n := ht
      rcases Int.le_total 0 k.toInt with hnonneg | hnonpos
      · right
        cases h with
        | negInf => exact hh.elim
        | finite j =>
            exact stays_above_ofExact
              (Int.le_trans hk (Int.mul_le_mul_of_nonneg_left hh hnonneg))
        | posInf =>
            rw [mul_comm]
            rcases mul_finite_of_sign k (.inr rfl) with ⟨-, he⟩ | ⟨hneg, -⟩ | ⟨hzero, he⟩
            · rw [he]
              exact trivial
            · omega
            · rw [hzero, Int.zero_mul] at hk
              rw [he]
              exact hk
      · left
        cases l with
        | posInf => exact hl.elim
        | finite j =>
            exact stays_above_ofExact
              (Int.le_trans hk (Int.mul_le_mul_of_nonpos_left hnonpos hl))
        | negInf =>
            rw [mul_comm]
            rcases mul_finite_of_sign k (.inl rfl) with ⟨hpos, -⟩ | ⟨-, he⟩ | ⟨hzero, he⟩
            · omega
            · rw [he]
              exact trivial
            · rw [hzero, Int.zero_mul] at hk
              rw [he]
              exact hk

end Products

section Quotients

variable {d dl dh : Int64}

theorem le_fdiv_iff_of_pos {k a b : Int} (hb : 0 < b) : k ≤ a.fdiv b ↔ k * b ≤ a := by
  rw [Int.fdiv_eq_ediv_of_nonneg a (Int.le_of_lt hb), Int.le_ediv_iff_mul_le hb]

theorem le_fdiv_iff_of_neg {k a b : Int} (hb : b < 0) : k ≤ a.fdiv b ↔ a ≤ k * b := by
  rw [← Int.neg_fdiv_neg, le_fdiv_iff_of_pos (Int.neg_pos_of_neg hb), Int.mul_neg, Int.neg_le_neg_iff]

theorem floorDiv_of_pos (hd : 0 < d.toInt) (ha : a = negInf ∨ a = posInf) : a.floorDiv d = a := by
  have hd' : 0 < d := Int64.lt_iff_toInt_lt.2 hd
  rcases ha with rfl | rfl <;> simp [floorDiv, hd']

theorem floorDiv_of_neg (hd : d.toInt < 0) (ha : a = negInf ∨ a = posInf) :
    a.floorDiv d = a.neg := by
  have hd' : ¬ 0 < d := fun h => Int.lt_asymm hd (Int64.lt_iff_toInt_lt.1 h)
  rcases ha with rfl | rfl <;> simp [floorDiv, hd']

/-- The least quotient by positive divisors lies at one of the ends of the divisors. -/
theorem stays_below_floorDiv_of_pos (hpos : 0 < dl.toInt) (hl : dl.toInt ≤ n) (hh : n ≤ dh.toInt)
    (ha : a.IsBelow m) :
    (a.floorDiv dl).StaysBelow (m.fdiv n) ∨ (a.floorDiv dh).StaysBelow (m.fdiv n) := by
  cases a with
  | negInf => exact .inl (by rw [floorDiv_of_pos hpos (.inl rfl)]; exact trivial)
  | posInf => exact ha.elim
  | finite k =>
      have hk : k.toInt ≤ m := ha
      rcases Int.lt_or_le k.toInt 0 with hneg | hnonneg
      · refine .inl (stays_below_ofExact ((le_fdiv_iff_of_pos (by omega)).2 ?_))
        have hq := (le_fdiv_iff_of_pos hpos).1 (Int.le_refl (k.toInt.fdiv dl.toInt))
        have hq0 := Int.fdiv_neg_of_neg_of_pos hneg hpos
        have := Int.mul_le_mul_of_nonpos_left (Int.le_of_lt hq0) hl
        omega
      · refine .inr (stays_below_ofExact ((le_fdiv_iff_of_pos (by omega)).2 ?_))
        have hq := (le_fdiv_iff_of_pos (by omega)).1 (Int.le_refl (k.toInt.fdiv dh.toInt))
        have hq0 : 0 ≤ k.toInt.fdiv dh.toInt := Int.fdiv_nonneg hnonneg (by omega)
        have := Int.mul_le_mul_of_nonneg_left hh hq0
        omega

/-- The greatest quotient by positive divisors lies at one of the ends of the divisors. -/
theorem stays_above_floorDiv_of_pos (hpos : 0 < dl.toInt) (hl : dl.toInt ≤ n) (hh : n ≤ dh.toInt)
    (ha : a.IsAbove m) :
    (a.floorDiv dl).StaysAbove (m.fdiv n) ∨ (a.floorDiv dh).StaysAbove (m.fdiv n) := by
  cases a with
  | posInf => exact .inl (by rw [floorDiv_of_pos hpos (.inr rfl)]; exact trivial)
  | negInf => exact ha.elim
  | finite k =>
      have hk : m ≤ k.toInt := ha
      have hq := (le_fdiv_iff_of_pos (by omega)).1 (Int.le_refl (m.fdiv n))
      rcases Int.lt_or_le (m.fdiv n) 0 with hneg | hnonneg
      · refine .inr (stays_above_ofExact ((le_fdiv_iff_of_pos (by omega)).2 ?_))
        have := Int.mul_le_mul_of_nonpos_left (Int.le_of_lt hneg) hh
        omega
      · refine .inl (stays_above_ofExact ((le_fdiv_iff_of_pos hpos).2 ?_))
        have := Int.mul_le_mul_of_nonneg_left hl hnonneg
        omega

/-- The least quotient by negative divisors lies at one of the ends of the divisors. -/
theorem stays_below_floorDiv_of_neg (hneg : dh.toInt < 0) (hl : dl.toInt ≤ n) (hh : n ≤ dh.toInt)
    (ha : a.IsAbove m) :
    (a.floorDiv dl).StaysBelow (m.fdiv n) ∨ (a.floorDiv dh).StaysBelow (m.fdiv n) := by
  cases a with
  | posInf => exact .inr (by rw [floorDiv_of_neg hneg (.inr rfl)]; exact trivial)
  | negInf => exact ha.elim
  | finite k =>
      have hk : m ≤ k.toInt := ha
      rcases Int.lt_or_le 0 k.toInt with hpos | hnonpos
      · refine .inr (stays_below_ofExact ((le_fdiv_iff_of_neg (by omega)).2 ?_))
        have hq := (le_fdiv_iff_of_neg hneg).1 (Int.le_refl (k.toInt.fdiv dh.toInt))
        have hq0 : k.toInt.fdiv dh.toInt ≤ 0 :=
          Int.fdiv_nonpos_of_nonneg_of_nonpos (Int.le_of_lt hpos) (by omega)
        have := Int.mul_le_mul_of_nonpos_left hq0 hh
        omega
      · refine .inl (stays_below_ofExact ((le_fdiv_iff_of_neg (by omega)).2 ?_))
        have hq := (le_fdiv_iff_of_neg (by omega)).1 (Int.le_refl (k.toInt.fdiv dl.toInt))
        have hq0 : 0 ≤ k.toInt.fdiv dl.toInt :=
          Int.fdiv_nonneg_of_nonpos_of_nonpos hnonpos (by omega)
        have := Int.mul_le_mul_of_nonneg_left hl hq0
        omega

/-- The greatest quotient by negative divisors lies at one of the ends of the divisors. -/
theorem stays_above_floorDiv_of_neg (hneg : dh.toInt < 0) (hl : dl.toInt ≤ n) (hh : n ≤ dh.toInt)
    (ha : a.IsBelow m) :
    (a.floorDiv dl).StaysAbove (m.fdiv n) ∨ (a.floorDiv dh).StaysAbove (m.fdiv n) := by
  cases a with
  | negInf => exact .inr (by rw [floorDiv_of_neg hneg (.inl rfl)]; exact trivial)
  | posInf => exact ha.elim
  | finite k =>
      have hk : k.toInt ≤ m := ha
      have hq := (le_fdiv_iff_of_neg (by omega)).1 (Int.le_refl (m.fdiv n))
      rcases Int.lt_or_le (m.fdiv n) 0 with hqneg | hqnonneg
      · refine .inl (stays_above_ofExact ((le_fdiv_iff_of_neg (by omega)).2 ?_))
        have := Int.mul_le_mul_of_nonpos_left (Int.le_of_lt hqneg) hl
        omega
      · refine .inr (stays_above_ofExact ((le_fdiv_iff_of_neg hneg).2 ?_))
        have := Int.mul_le_mul_of_nonneg_left hh hqnonneg
        omega

end Quotients

section Neighbours

theorem toInt_pred {k : Int64} (h : k ≠ Int64.minValue) : (k - 1).toInt = k.toInt - 1 := by
  have hne : k.toInt ≠ Int64.minValue.toInt := fun he => h (Int64.toInt.inj he)
  have hlow := k.le_toInt
  have hhigh := k.toInt_lt
  rw [Int64.toInt_minValue] at hne
  rw [Int64.toInt_sub, Int64.toInt_one, Int.bmod_eq_of_le] <;> omega

theorem toInt_succ {k : Int64} (h : k ≠ Int64.maxValue) : (k + 1).toInt = k.toInt + 1 := by
  have hne : k.toInt ≠ Int64.maxValue.toInt := fun he => h (Int64.toInt.inj he)
  have hlow := k.le_toInt
  have hhigh := k.toInt_lt
  rw [Int64.toInt_maxValue] at hne
  rw [Int64.toInt_add, Int64.toInt_one, Int.bmod_eq_of_le] <;> omega

theorem isAbove_pred (h : a.IsAbove m) (hlt : n < m) : a.pred.IsAbove n := by
  cases a with
  | negInf => exact h.elim
  | posInf => exact trivial
  | finite k =>
      have hk : m ≤ k.toInt := h
      show n ≤ (if k = Int64.minValue then k else k - 1).toInt
      split
      · omega
      · next hne =>
          rw [toInt_pred hne]
          omega

theorem isBelow_succ (h : a.IsBelow m) (hlt : m < n) : a.succ.IsBelow n := by
  cases a with
  | posInf => exact h.elim
  | negInf => exact trivial
  | finite k =>
      have hk : k.toInt ≤ m := h
      show (if k = Int64.maxValue then k else k + 1).toInt ≤ n
      split
      · omega
      · next hne =>
          rw [toInt_succ hne]
          omega

end Neighbours

end Bound

end ValueFlow
