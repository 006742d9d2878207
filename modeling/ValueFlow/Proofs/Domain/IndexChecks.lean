import ValueFlow.Domain.IndexCheck
import ValueFlow.Proofs.Domain.Operators
import ValueFlow.Proofs.Domain.Reduction
/-!
Checks of an index, as statements about all pairs of a described length and a described index.

A reduced number describes the 64-bit integers between its bounds, where an infinite bound reaches
to the last integer on its side (`Bound.clamp`). An index is in range from `-n` to `n - 1` for a
length `n`, a window that is widest for the greatest length and narrowest for the least one, and
the check compares the index with these two. Only where the container is empty for certain is the
widest window empty as well: an index on both sides of it is always out of range, which the check
calls possible (`StraddlesEmpty`). Main statement: `exact_or_straddlesEmpty`.
-/

namespace ValueFlow

namespace Bound

variable {a b : Bound} {k : Int}

/-- The 64-bit integer that a bound reaches to. -/
def clamp : Bound → Int
  | negInf => Int64.minValue.toInt
  | finite n => n.toInt
  | posInf => Int64.maxValue.toInt

theorem minValue_le_clamp (b : Bound) : Int64.minValue.toInt ≤ b.clamp := by
  cases b with
  | negInf => exact Int.le_refl _
  | finite n => exact Int64.minValue_le_toInt n
  | posInf => exact Int64.minValue_le_toInt Int64.maxValue

theorem clamp_le_maxValue (b : Bound) : b.clamp ≤ Int64.maxValue.toInt := by
  cases b with
  | negInf => exact Int64.toInt_le Int64.minValue
  | finite n => exact Int64.toInt_le n
  | posInf => exact Int.le_refl _

theorem isBelow_iff_clamp_le (hb : b ≠ posInf) (hk : Int64.minValue.toInt ≤ k) :
    b.IsBelow k ↔ b.clamp ≤ k := by
  cases b with
  | negInf => exact ⟨fun _ => hk, fun _ => trivial⟩
  | finite n => exact Iff.rfl
  | posInf => exact absurd rfl hb

theorem isAbove_iff_le_clamp (hb : b = negInf → Int64.minValue.toInt < k)
    (hk : k ≤ Int64.maxValue.toInt) : b.IsAbove k ↔ k ≤ b.clamp := by
  cases b with
  | negInf => exact ⟨False.elim, fun h => absurd (hb rfl) (Int.not_lt.2 h)⟩
  | finite n => exact Iff.rfl
  | posInf => exact ⟨fun _ => hk, fun _ => trivial⟩

/-- Between what two bounds reach to, every integer is a 64-bit one. -/
theorem exists_toInt_eq (hlo : a.clamp ≤ k) (hhi : k ≤ b.clamp) : ∃ n : Int64, n.toInt = k := by
  have hmin := minValue_le_clamp a
  have hmax := clamp_le_maxValue b
  exact ⟨Int64.ofInt k, toInt_ofInt_of_fits (by omega) (by omega)⟩

theorem clamp_le_clamp (h : a ≤ b) : a.clamp ≤ b.clamp := by
  cases a with
  | negInf => exact minValue_le_clamp b
  | posInf =>
      cases posInf_le h
      exact Int.le_refl _
  | finite m =>
      cases b with
      | negInf => cases h
      | finite n => exact finite_le_finite.1 h
      | posInf => exact Int64.toInt_le m

section Comparisons

variable {n : Int64} (hn : 0 ≤ n.toInt)
include hn

theorem finite_le_iff_clamp : finite n ≤ b ↔ n.toInt ≤ b.clamp := by
  have hmin : Int64.minValue.toInt < 0 := by decide
  exact finite_le_iff.trans
    (isAbove_iff_le_clamp (fun _ => Int.lt_of_lt_of_le hmin hn) (Int64.toInt_le n))

/-- The opposite of an integer that is not negative is a 64-bit one, and not the least of them. -/
theorem lt_neg_iff_clamp : b < (finite n).neg ↔ b.clamp < -n.toInt := by
  have hmax := Int64.toInt_le n
  have hlimits : Int64.minValue.toInt < -Int64.maxValue.toInt := by decide
  have hneg : (Int64.ofInt (-n.toInt)).toInt = -n.toInt :=
    toInt_ofInt_of_fits (by omega) (by omega)
  have habove := isAbove_iff_le_clamp (b := b) (k := -n.toInt) (fun _ => by omega) (by omega)
  rw [neg, ofExact, if_neg (by omega), if_neg (by omega), lt_def, finite_le_iff, hneg, habove,
    Int.not_le]

end Comparisons

end Bound

namespace Value

variable {v : Value} {k : Int64}

/-- A number whose components agree describes the integers between its bounds. -/
theorem Agrees.containsInt_iff_clamp (hv : v.Agrees) (hnum : v.isNumeric = true) :
    v.containsInt k = true ↔
      v.range.lo.clamp ≤ k.toInt ∧ k.toInt ≤ v.range.hi.clamp := by
  rw [containsInt_iff,
    ← Bound.isBelow_iff_clamp_le hv.proper.lo (Int64.minValue_le_toInt k),
    ← Bound.isAbove_iff_le_clamp (fun h => absurd h hv.proper.hi) (Int64.toInt_le k)]
  constructor
  · intro h
    exact ⟨h.range.lo, h.range.hi⟩
  · rintro ⟨hlo, hhi⟩
    have hholds : v.range.Holds k.toInt := ⟨hlo, hhi⟩
    refine ⟨?_, ?_, hholds⟩
    · rw [hv.nullability hnum]
      rfl
    · rw [hv.sign]
      exact hholds.sign

end Value

namespace IndexCheck

/-- Whether an index names one of so many elements, where a negative one counts from the end. -/
def InRange (n i : Int64) : Prop := -n.toInt ≤ i.toInt ∧ i.toInt < n.toInt

/-- Whether enough is known of a length and an index for a finding. -/
structure Checkable (length index : Value) : Prop where
  reducedLength : length.IsReduced
  reducedIndex : index.IsReduced
  someLength : length.isBottom = false
  someIndex : index.isBottom = false
  numericLength : length.isNumeric = true
  numericIndex : index.isNumeric = true
  nonNegative : length.range.leq (.atLeast 0) = true
  boundedLength : length.range.hi.isFinite = true
  boundedIndex : index.range.lo.isFinite = true ∨ index.range.hi.isFinite = true

/-- Whether a container is empty for certain and its index may lie on both sides of zero. -/
def StraddlesEmpty (length index : Value) : Prop :=
  length.range.hi = .finite 0 ∧ index.containsInt (-1) = true ∧ index.containsInt 0 = true

/-- Whether each verdict says of all pairs just what its name says. -/
structure Exact (length index : Value) : Prop where
  inBounds : check length index = .inBounds ↔ ∀ n i, length.containsInt n = true →
    index.containsInt i = true → InRange n i
  definite : check length index = .definite ↔ ∀ n i, length.containsInt n = true →
    index.containsInt i = true → ¬ InRange n i
  possible : check length index = .possible ↔
    (∃ n i, length.containsInt n = true ∧ index.containsInt i = true ∧ InRange n i) ∧
    ∃ n i, length.containsInt n = true ∧ index.containsInt i = true ∧ ¬ InRange n i

namespace Checkable

variable {length index : Value} (h : Checkable length index)
include h

theorem agreesLength : length.Agrees := by
  have hagrees := Value.agrees_reduce (v := length) (by rw [h.reducedLength]; exact h.someLength)
  rwa [h.reducedLength] at hagrees

theorem agreesIndex : index.Agrees := by
  have hagrees := Value.agrees_reduce (v := index) (by rw [h.reducedIndex]; exact h.someIndex)
  rwa [h.reducedIndex] at hagrees

/-- The lengths lie between two integers. -/
theorem exists_lengths : ∃ a b : Int64, length.range = ⟨.finite a, .finite b⟩ ∧
    0 ≤ a.toInt ∧ a.toInt ≤ b.toInt := by
  have hempty := Value.not_isEmpty_of_not_isBottom h.someLength
  obtain ⟨-, hlo, -⟩ := Interval.leq_iff.1 h.nonNegative hempty
  have hle := Interval.isEmpty_eq_false_iff.1 hempty
  have hbounded := h.boundedLength
  generalize length.range = r at hlo hle hbounded
  obtain ⟨lo, hi⟩ := r
  cases hi with
  | negInf | posInf => cases hbounded
  | finite b =>
      cases lo with
      | negInf => cases hlo
      | posInf => cases hle
      | finite a => exact ⟨a, b, rfl, Bound.finite_le_finite.1 hlo, Bound.finite_le_finite.1 hle⟩

theorem clamp_le : index.range.lo.clamp ≤ index.range.hi.clamp :=
  Bound.clamp_le_clamp
    (Interval.isEmpty_eq_false_iff.1 (Value.not_isEmpty_of_not_isBottom h.someIndex))

theorem index_iff {i : Int64} : index.containsInt i = true ↔
    index.range.lo.clamp ≤ i.toInt ∧ i.toInt ≤ index.range.hi.clamp :=
  h.agreesIndex.containsInt_iff_clamp h.numericIndex

variable {a b : Int64} (hr : length.range = ⟨.finite a, .finite b⟩)
include hr

theorem length_iff {n : Int64} : length.containsInt n = true ↔
    a.toInt ≤ n.toInt ∧ n.toInt ≤ b.toInt := by
  rw [h.agreesLength.containsInt_iff_clamp h.numericLength, hr]
  exact Iff.rfl

/-- The check compares the index with the windows of the greatest and of the least length. -/
theorem check_eq (ha : 0 ≤ a.toInt) (hab : a.toInt ≤ b.toInt) : check length index =
    if b.toInt ≤ index.range.lo.clamp ∨ index.range.hi.clamp < -b.toInt then .definite
    else if a.toInt ≤ index.range.hi.clamp ∨ index.range.lo.clamp < -a.toInt then .possible
    else .inBounds := by
  have hfinite : (!index.range.lo.isFinite && !index.range.hi.isFinite) = false := by
    rcases h.boundedIndex with hlo | hhi
    · rw [hlo, Bool.not_true, Bool.false_and]
    · rw [hhi, Bool.not_true, Bool.and_false]
  have hb := Int.le_trans ha hab
  have hhi : (!(Bound.finite b).isFinite) = false := rfl
  unfold check
  dsimp only
  rw [h.someLength, h.someIndex, h.numericLength, h.numericIndex, hr]
  simp only [hhi, hfinite, Bool.not_true, Bool.or_self, Bool.false_eq_true, if_false,
    Bound.finite_le_iff_clamp hb, Bound.lt_neg_iff_clamp hb, Bound.finite_le_iff_clamp ha,
    Bound.lt_neg_iff_clamp ha]

/-- Some pair is in range if the index meets the window of the greatest length. -/
theorem exists_inRange_iff (ha : 0 ≤ a.toInt) (hab : a.toInt ≤ b.toInt) :
    (∃ n i, length.containsInt n = true ∧ index.containsInt i = true ∧ InRange n i) ↔
      0 < b.toInt ∧ index.range.lo.clamp < b.toInt ∧ -b.toInt ≤ index.range.hi.clamp := by
  have hpq := h.clamp_le
  constructor
  · rintro ⟨n, i, hn, hi, hlow, hhigh⟩
    rw [h.length_iff hr] at hn
    rw [h.index_iff] at hi
    omega
  · rintro ⟨hpos, hlo, hhi⟩
    -- the least index that is not below the window
    obtain ⟨i, hi⟩ : ∃ i : Int64, i.toInt = max index.range.lo.clamp (-b.toInt) :=
      Bound.exists_toInt_eq (Int.le_max_left _ _) (Int.max_le.2 ⟨hpq, hhi⟩)
    refine ⟨b, i, (h.length_iff hr).2 ⟨hab, Int.le_refl _⟩, h.index_iff.2 ?_, ?_, ?_⟩ <;> omega

/-- Some pair is out of range if the index leaves the window of the least length. -/
theorem exists_not_inRange_iff (hab : a.toInt ≤ b.toInt) :
    (∃ n i, length.containsInt n = true ∧ index.containsInt i = true ∧ ¬ InRange n i) ↔
      a.toInt ≤ index.range.hi.clamp ∨ index.range.lo.clamp < -a.toInt := by
  have hpq := h.clamp_le
  constructor
  · rintro ⟨n, i, hn, hi, hout⟩
    rw [h.length_iff hr] at hn
    rw [h.index_iff] at hi
    unfold InRange at hout
    omega
  · have ha := (h.length_iff hr).2 ⟨Int.le_refl _, hab⟩
    rintro (hhi | hlo)
    · obtain ⟨i, hi⟩ := Bound.exists_toInt_eq hpq (Int.le_refl _)
      refine ⟨a, i, ha, h.index_iff.2 ⟨by omega, by omega⟩, fun hin => ?_⟩
      have := hin.2
      omega
    · obtain ⟨i, hi⟩ := Bound.exists_toInt_eq (Int.le_refl _) hpq
      refine ⟨a, i, ha, h.index_iff.2 ⟨by omega, by omega⟩, fun hin => ?_⟩
      have := hin.1
      omega

theorem straddlesEmpty_iff : StraddlesEmpty length index ↔
    b.toInt = 0 ∧ index.range.lo.clamp ≤ -1 ∧ 0 ≤ index.range.hi.clamp := by
  have hpq := h.clamp_le
  have hzero : Bound.finite b = .finite 0 ↔ b.toInt = 0 :=
    ⟨fun he => congrArg Int64.toInt (Bound.finite.inj he),
      fun he => congrArg Bound.finite (Int64.toInt.inj he)⟩
  have hone : (-1 : Int64).toInt = -1 := rfl
  rw [StraddlesEmpty, hr, hzero, h.index_iff, h.index_iff, hone, Int64.toInt_zero]
  omega

end Checkable

/-- Where enough is known for a finding, the verdicts are exact, unless the index straddles a
container that is certainly empty. It is then out of range for certain, which is called possible. -/
theorem exact_or_straddlesEmpty {length index : Value} (h : Checkable length index) :
    (¬ StraddlesEmpty length index → Exact length index) ∧
    (StraddlesEmpty length index → check length index = .possible ∧
      ∀ n i, length.containsInt n = true → index.containsInt i = true → ¬ InRange n i) := by
  obtain ⟨a, b, hr, ha, hab⟩ := h.exists_lengths
  have hpq := h.clamp_le
  have hin := h.exists_inRange_iff hr ha hab
  have hout := h.exists_not_inRange_iff hr hab
  have hall : (∀ n i, length.containsInt n = true → index.containsInt i = true → InRange n i) ↔
      ¬ ∃ n i, length.containsInt n = true ∧ index.containsInt i = true ∧ ¬ InRange n i := by
    simp only [not_exists, not_and, Classical.not_not]
  have hnone : (∀ n i, length.containsInt n = true → index.containsInt i = true → ¬ InRange n i) ↔
      ¬ ∃ n i, length.containsInt n = true ∧ index.containsInt i = true ∧ InRange n i := by
    simp only [not_exists, not_and]
  rw [h.straddlesEmpty_iff hr, hnone, hin]
  constructor
  · intro hstraddles
    refine ⟨?_, ?_, ?_⟩
    · rw [hall, hout, h.check_eq hr ha hab]
      split_ifs <;> simp only [true_iff, false_iff] <;> omega
    · rw [hnone, hin, h.check_eq hr ha hab]
      split_ifs <;> simp only [true_iff, false_iff] <;> omega
    · rw [hin, hout, h.check_eq hr ha hab]
      split_ifs <;> simp only [true_iff, false_iff] <;> omega
  · intro hstraddles
    rw [h.check_eq hr ha hab, if_neg (by omega), if_pos (by omega)]
    exact ⟨rfl, by omega⟩

/-- Two or three elements and an index from -3 upwards. The index has no greatest integer, and -3
is in range for three elements only. -/
theorem exact_or_straddlesEmpty_upwards :
    Checkable (.intIn (.finite 2 3)) (.intIn (.atLeast (-3))) ∧
    check (.intIn (.finite 2 3)) (.intIn (.atLeast (-3))) = .possible ∧
    Exact (.intIn (.finite 2 3)) (.intIn (.atLeast (-3))) := by
  have hcheckable : Checkable (.intIn (.finite 2 3)) (.intIn (.atLeast (-3))) :=
    ⟨rfl, rfl, rfl, rfl, rfl, rfl, rfl, rfl, .inl rfl⟩
  obtain ⟨hexact, -⟩ := exact_or_straddlesEmpty hcheckable
  exact ⟨hcheckable, rfl, hexact fun hstraddles => absurd hstraddles.1 (by decide)⟩

/-- Of no elements, neither the last nor the first one exists, but the verdict is not definite. -/
theorem not_exact_empty : Checkable (.constant 0) (.intIn (.finite (-1) 0)) ∧
    ¬ Exact (.constant 0) (.intIn (.finite (-1) 0)) := by
  have hcheckable : Checkable (.constant 0) (.intIn (.finite (-1) 0)) :=
    ⟨rfl, rfl, rfl, rfl, rfl, rfl, rfl, rfl, .inl rfl⟩
  refine ⟨hcheckable, fun hexact => ?_⟩
  obtain ⟨hin, -⟩ := hexact.possible.1 rfl
  rw [hcheckable.exists_inRange_iff (a := 0) (b := 0) rfl (by decide) (by decide)] at hin
  exact absurd hin.1 (by decide)

end IndexCheck

end ValueFlow
