import ValueFlow.Proofs.Domain.Bounds
import ValueFlow.Proofs.Domain.Signs
/-!
Intervals over-approximate exact arithmetic.

`Holds` is membership of an integer of any size. Every operation on intervals holds the results of
the operation on integers that its arguments hold.
-/

namespace ValueFlow

namespace Interval

variable {r s : Interval} {m n : Int}

/-- Whether an integer lies between the bounds. -/
structure Holds (r : Interval) (n : Int) : Prop where
  lo : r.lo.IsBelow n
  hi : r.hi.IsAbove n

theorem Holds.lo_le_hi (h : r.Holds n) : r.lo ≤ r.hi := Bound.le_of_isBelow_of_isAbove h.lo h.hi

theorem Holds.not_isEmpty (h : r.Holds n) : r.isEmpty = false := by
  rw [isEmpty, decide_eq_false_iff_not]
  exact fun hlt => hlt h.lo_le_hi

theorem holds_top (n : Int) : top.Holds n := ⟨trivial, trivial⟩

theorem contains_iff {k : Int64} : r.contains k = true ↔ r.Holds k.toInt := by
  rw [contains, Bool.and_eq_true, Bool.and_eq_true, decide_eq_true_eq, decide_eq_true_eq,
    Bound.le_finite_iff, Bound.finite_le_iff]
  constructor
  · rintro ⟨⟨-, hlo⟩, hhi⟩
    exact ⟨hlo, hhi⟩
  · intro h
    exact ⟨⟨by rw [h.not_isEmpty]; rfl, h.lo⟩, h.hi⟩

theorem holds_between {lo hi : Bound} (hlo : lo.IsBelow n) (hhi : hi.IsAbove n) :
    (between lo hi).Holds n := by
  rw [between, if_neg]
  · exact ⟨hlo, hhi⟩
  · rintro (h | rfl | rfl)
    · exact h (Bound.le_of_isBelow_of_isAbove hlo hhi)
    · exact hlo
    · exact hhi

theorem holds_ofArith {lo hi : Bound} (hlo : lo.StaysBelow n) (hhi : hi.StaysAbove n) :
    (ofArith lo hi).Holds n := by
  rw [ofArith]
  refine holds_between ?_ ?_
  · cases lo with
    | negInf => exact trivial
    | finite l => exact hlo
    | posInf => exact Int.le_of_lt hlo
  · cases hi with
    | negInf => exact Int.le_of_lt hhi
    | finite l => exact hhi
    | posInf => exact trivial

theorem holds_constant (k : Int64) : (constant k).Holds k.toInt :=
  holds_between (Int.le_refl _) (Int.le_refl _)

/-- An interval with equal bounds holds one integer. -/
theorem Holds.eq_constant {k : Int64} (h : r.Holds n) (hk : r.constant? = some k) :
    n = k.toInt := by
  obtain ⟨lo, hi⟩ := r
  cases lo with
  | negInf | posInf => cases hk
  | finite a =>
      cases hi with
      | negInf | posInf => cases hk
      | finite b =>
          have hlo : a.toInt ≤ n := h.lo
          have hhi : n ≤ b.toInt := h.hi
          have hk : (if a = b then some a else none) = some k := hk
          split at hk
          · next hab =>
              cases hk
              subst hab
              omega
          · cases hk

theorem holds_atLeast {k : Int64} (h : k.toInt ≤ n) : (atLeast k).Holds n := by
  rw [atLeast]
  exact holds_between h trivial

theorem holds_atMost {k : Int64} (h : n ≤ k.toInt) : (atMost k).Holds n := by
  rw [atMost]
  exact holds_between trivial h

section Ends

variable {k : Int64}

theorem Holds.dropLow (h : r.Holds n) (hne : n ≠ k.toInt) :
    Holds (if r.lo = .finite k then between (Bound.finite k).succ r.hi else r) n := by
  split
  · next hlo =>
      have hle : k.toInt ≤ n := by
        have := h.lo
        rwa [hlo] at this
      have hk : (Bound.finite k).IsBelow k.toInt := Int.le_refl _
      exact holds_between (Bound.isBelow_succ hk (by omega)) h.hi
  · exact h

theorem Holds.dropHigh (h : r.Holds n) (hne : n ≠ k.toInt) :
    Holds (if r.hi = .finite k then between r.lo (Bound.finite k).pred else r) n := by
  split
  · next hhi =>
      have hle : n ≤ k.toInt := by
        have := h.hi
        rwa [hhi] at this
      have hk : (Bound.finite k).IsAbove k.toInt := Int.le_refl _
      exact holds_between h.lo (Bound.isAbove_pred hk (by omega))
  · exact h

end Ends

section Lattice

theorem Holds.join_left (h : r.Holds n) (s : Interval) : (r.join s).Holds n := by
  rw [join, h.not_isEmpty, if_neg Bool.false_ne_true]
  split
  · exact h
  · exact ⟨h.lo.mono (Bound.lower_le_left ..), h.hi.mono (Bound.le_upper_left ..)⟩

theorem Holds.join_right (h : s.Holds n) (r : Interval) : (r.join s).Holds n := by
  rw [join, h.not_isEmpty, if_neg Bool.false_ne_true]
  split
  · exact h
  · exact ⟨h.lo.mono (Bound.lower_le_right ..), h.hi.mono (Bound.le_upper_right ..)⟩

theorem Holds.widen_right (h : s.Holds n) (r : Interval) : (r.widen s).Holds n := by
  rw [widen, h.not_isEmpty, if_neg Bool.false_ne_true]
  split
  · exact h
  · constructor
    · show Bound.IsBelow (if s.lo < r.lo then .negInf else r.lo) n
      split
      · exact trivial
      · next hlo => exact h.lo.mono (Classical.byContradiction hlo)
    · show Bound.IsAbove (if r.hi < s.hi then .posInf else r.hi) n
      split
      · exact trivial
      · next hhi => exact h.hi.mono (Classical.byContradiction hhi)

theorem Holds.meet (hr : r.Holds n) (hs : s.Holds n) : (r.meet s).Holds n :=
  holds_between (hr.lo.upper hs.lo) (hr.hi.lower hs.hi)

theorem Holds.mono (h : r.Holds n) (hle : r.leq s = true) : s.Holds n := by
  rw [leq, h.not_isEmpty, Bool.false_or, Bool.and_eq_true, Bool.and_eq_true, decide_eq_true_eq,
    decide_eq_true_eq] at hle
  exact ⟨h.lo.mono hle.1.2, h.hi.mono hle.2⟩

end Lattice

section Arithmetic

theorem Holds.add (hr : r.Holds m) (hs : s.Holds n) : (r.add s).Holds (m + n) := by
  rw [Interval.add, hr.not_isEmpty, hs.not_isEmpty]
  exact holds_ofArith (Bound.stays_below_add hr.lo hs.lo) (Bound.stays_above_add hr.hi hs.hi)

theorem Holds.negate (h : r.Holds n) : r.negate.Holds (-n) := by
  rw [Interval.negate, h.not_isEmpty, if_neg Bool.false_ne_true]
  exact holds_ofArith (Bound.stays_below_neg h.hi) (Bound.stays_above_neg h.lo)

theorem Holds.sub (hr : r.Holds m) (hs : s.Holds n) : (r.sub s).Holds (m - n) := by
  rw [Int.sub_eq_add_neg]
  exact hr.add hs.negate

/-- The hull of four results holds what lies between one of them and another. -/
theorem holds_hull {a b c d : Bound}
    (hlo : (a.StaysBelow n ∨ b.StaysBelow n) ∨ c.StaysBelow n ∨ d.StaysBelow n)
    (hhi : (a.StaysAbove n ∨ b.StaysAbove n) ∨ c.StaysAbove n ∨ d.StaysAbove n) :
    (hull a b c d).Holds n := by
  have lower := Bound.lower_le_left
  have lower' := Bound.lower_le_right
  have upper := Bound.le_upper_left
  have upper' := Bound.le_upper_right
  refine holds_ofArith ?_ ?_
  · rcases hlo with (ha | hb) | hc | hd
    · exact ((ha.mono (lower a b)).mono (lower _ c)).mono (lower _ d)
    · exact ((hb.mono (lower' a b)).mono (lower _ c)).mono (lower _ d)
    · exact (hc.mono (lower' _ c)).mono (lower _ d)
    · exact hd.mono (lower' _ d)
  · rcases hhi with (ha | hb) | hc | hd
    · exact ((ha.mono (upper a b)).mono (upper _ c)).mono (upper _ d)
    · exact ((hb.mono (upper' a b)).mono (upper _ c)).mono (upper _ d)
    · exact (hc.mono (upper' _ c)).mono (upper _ d)
    · exact hd.mono (upper' _ d)

theorem Holds.mul (hr : r.Holds m) (hs : s.Holds n) : (r.mul s).Holds (m * n) := by
  rw [Interval.mul, hr.not_isEmpty, hs.not_isEmpty]
  have below : ∀ {x : Bound}, x.ScaledBelow n (m * n) →
      (x.mul s.lo).StaysBelow (m * n) ∨ (x.mul s.hi).StaysBelow (m * n) := fun hx =>
    Bound.stays_below_mul hx hs.lo hs.hi
  have above : ∀ {x : Bound}, x.ScaledAbove n (m * n) →
      (x.mul s.lo).StaysAbove (m * n) ∨ (x.mul s.hi).StaysAbove (m * n) := fun hx =>
    Bound.stays_above_mul hx hs.lo hs.hi
  exact holds_hull ((Bound.exists_scaledBelow hr.lo hr.hi n).imp below below)
    ((Bound.exists_scaledAbove hr.lo hr.hi n).imp above above)

/-- An interval of divisors that are not zero has one sign. -/
theorem Holds.pos_or_neg {dl dh : Int64} (hs : (⟨.finite dl, .finite dh⟩ : Interval).Holds n)
    (hzero : contains ⟨.finite dl, .finite dh⟩ 0 = false) : 0 < dl.toInt ∨ dh.toInt < 0 := by
  have hl : dl.toInt ≤ n := hs.lo
  have hh : n ≤ dh.toInt := hs.hi
  have hnot : ¬ (⟨.finite dl, .finite dh⟩ : Interval).Holds 0 := fun h => by
    have := contains_iff (k := 0).2 h
    rw [hzero] at this
    cases this
  refine Classical.byContradiction fun hcontra => hnot ⟨?_, ?_⟩
  · show dl.toInt ≤ 0
    omega
  · show 0 ≤ dh.toInt
    omega

theorem Holds.floorDiv (hr : r.Holds m) (hs : s.Holds n) : (r.floorDiv s).Holds (m.fdiv n) := by
  rw [Interval.floorDiv, hr.not_isEmpty, hs.not_isEmpty]
  obtain ⟨lo, hi⟩ := s
  cases lo with
  | negInf | posInf => exact holds_top _
  | finite dl =>
      cases hi with
      | negInf | posInf => exact holds_top _
      | finite dh =>
          have hl : dl.toInt ≤ n := hs.lo
          have hh : n ≤ dh.toInt := hs.hi
          cases hzero : contains ⟨.finite dl, .finite dh⟩ 0 with
          | true => exact holds_top _
          | false =>
              rcases hs.pos_or_neg hzero with hpos | hneg
              · exact holds_hull (.inl (Bound.stays_below_floorDiv_of_pos hpos hl hh hr.lo))
                  (.inr (Bound.stays_above_floorDiv_of_pos hpos hl hh hr.hi))
              · exact holds_hull (.inr (Bound.stays_below_floorDiv_of_neg hneg hl hh hr.hi))
                  (.inl (Bound.stays_above_floorDiv_of_neg hneg hl hh hr.lo))

theorem Holds.modulo (hr : r.Holds m) (hs : s.Holds n) : (r.modulo s).Holds (m.fmod n) := by
  rw [Interval.modulo, hr.not_isEmpty, hs.not_isEmpty]
  cases hzero : s.contains 0 with
  | true => exact holds_top _
  | false =>
      simp only [Bool.or_self, Bool.false_eq_true, if_false]
      split
      · next hlo =>
          have hn : 0 < n := Int.not_le.1 fun h =>
            hlo (Bound.le_finite_iff.2 (hs.lo.trans_le h))
          split
          · next hsmall =>
              have hm : 0 ≤ m := hr.lo.mono hsmall.1
              have hmn : m < n := Int.not_le.1 fun h =>
                hsmall.2 (Bound.le_of_isBelow_of_isAbove (hs.lo.trans_le h) hr.hi)
              rw [Int.fmod_eq_of_lt hm hmn]
              exact hr
          · exact holds_between (Int.fmod_nonneg_of_pos m hn)
              (Bound.isAbove_pred hs.hi (Int.fmod_lt_of_pos m hn))
      · next hlo =>
          have hlo' : s.lo.IsBelow 0 := Bound.le_finite_iff.1 (Classical.byContradiction hlo)
          have hn : n < 0 := Int.not_le.1 fun h => by
            have hholds : s.Holds (0 : Int64).toInt := ⟨hlo', hs.hi.trans_le h⟩
            rw [contains_iff.2 hholds] at hzero
            cases hzero
          have hpos := Int.neg_pos_of_neg hn
          have hlow := Int.fmod_nonneg_of_pos (-m) hpos
          have hhigh := Int.fmod_lt_of_pos (-m) hpos
          rw [Int.neg_fmod_neg] at hlow hhigh
          refine holds_between (Bound.isBelow_succ hs.lo (by omega)) ?_
          show m.fmod n ≤ 0
          omega

end Arithmetic

section Signs

theorem holds_ofSign {a : Sign} (h : a.Admits n) : (ofSign a).Holds n := by
  rw [Sign.Admits] at h
  rcases Sign.Atom.ofInt_cases n with ⟨hn, e⟩ | ⟨rfl, e⟩ | ⟨hn, e⟩
  · rw [e] at h
    have hle : n ≤ -1 := by omega
    cases a with
    | bottom | zero | positive | nonNegative => exact absurd h (by decide)
    | negative => exact holds_atMost hle
    | nonPositive => exact holds_atMost (Int.le_of_lt hn)
    | top => exact holds_top n
  · rw [e] at h
    cases a with
    | bottom | negative | positive => exact absurd h (by decide)
    | zero => exact holds_constant 0
    | nonNegative => exact holds_atLeast (Int.le_refl 0)
    | nonPositive => exact holds_atMost (Int.le_refl 0)
    | top => exact holds_top 0
  · rw [e] at h
    have hle : 1 ≤ n := by omega
    cases a with
    | bottom | zero | negative | nonPositive => exact absurd h (by decide)
    | positive => exact holds_atLeast hle
    | nonNegative => exact holds_atLeast (Int.le_of_lt hn)
    | top => exact holds_top n

theorem Holds.sign (h : r.Holds n) : r.sign.Admits n := by
  rw [Interval.sign, h.not_isEmpty, if_neg Bool.false_ne_true, Sign.Admits]
  rcases Sign.Atom.ofInt_cases n with ⟨hn, e⟩ | ⟨rfl, e⟩ | ⟨hn, e⟩
  · have hlo : r.lo < .finite 0 := fun hle => Int.not_le.2 hn (h.lo.mono hle)
    rw [e, decide_eq_true hlo]
    exact Sign.admits_ofAtoms_neg _ _
  · have hlo : r.lo ≤ .finite 0 := Bound.le_finite_iff.2 h.lo
    have hhi : .finite 0 ≤ r.hi := Bound.finite_le_iff.2 h.hi
    rw [e, decide_eq_true hlo, decide_eq_true hhi]
    exact Sign.admits_ofAtoms_zero _ _
  · have hhi : .finite 0 < r.hi := fun hle => Int.not_le.2 hn (h.hi.mono hle)
    rw [e, decide_eq_true hhi]
    exact Sign.admits_ofAtoms_pos _ _

end Signs

section Top

/-- Only the interval of all integers is above it. -/
theorem eq_top_of_leq (h : leq top s = true) : s = top := by
  rw [leq, Bool.or_eq_true, Bool.and_eq_true, Bool.and_eq_true, decide_eq_true_eq,
    decide_eq_true_eq] at h
  rcases h with h | h
  · exact absurd h (by decide)
  · obtain ⟨lo, hi⟩ := s
    have hlo : lo = .negInf := Bound.le_negInf h.1.2
    have hhi : hi = .posInf := Bound.posInf_le h.2
    rw [hlo, hhi]
    rfl

theorem leq_top (r : Interval) : r.leq top = true := by
  have hhi : r.hi ≤ .posInf := by cases r.hi <;> rfl
  rw [leq, decide_eq_true (show top.lo ≤ r.lo from rfl), decide_eq_true (show r.hi ≤ top.hi from hhi)]
  exact Bool.or_true _

theorem top_join (s : Interval) : join top s = top := by
  rw [join, if_neg (by decide)]
  split
  · rfl
  · show (⟨Bound.lower .negInf s.lo, Bound.upper .posInf s.hi⟩ : Interval) = top
    rw [Bound.lower_negInf_left, Bound.upper_posInf_left]
    rfl

theorem join_top (r : Interval) : r.join top = top := by
  rw [join]
  split
  · rfl
  · rw [if_neg (by decide)]
    show (⟨Bound.lower r.lo .negInf, Bound.upper r.hi .posInf⟩ : Interval) = top
    rw [Bound.lower_negInf_right, Bound.upper_posInf_right]
    rfl

theorem top_widen (s : Interval) : widen top s = top := by
  rw [widen, if_neg (by decide)]
  split
  · rfl
  · show (⟨if s.lo < .negInf then .negInf else .negInf,
      if .posInf < s.hi then .posInf else .posInf⟩ : Interval) = top
    rw [ite_self, ite_self]
    rfl

theorem widen_top (r : Interval) : r.widen top = top := by
  rw [widen]
  split
  · rfl
  · rw [if_neg (by decide)]
    have hlo : (if Bound.negInf < r.lo then Bound.negInf else r.lo) = .negInf := by
      split
      · rfl
      · next h => exact Bound.le_negInf (Classical.byContradiction h)
    have hhi : (if r.hi < Bound.posInf then Bound.posInf else r.hi) = .posInf := by
      split
      · rfl
      · next h => exact Bound.posInf_le (Classical.byContradiction h)
    show (⟨if Bound.negInf < r.lo then .negInf else r.lo,
      if r.hi < Bound.posInf then .posInf else r.hi⟩ : Interval) = top
    rw [hlo, hhi]
    rfl

end Top

end Interval

end ValueFlow
