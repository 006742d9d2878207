import ValueFlow.Proofs.Domain.Values
/-!
What operators and verdicts on descriptions say of the described values.

Descriptions are taken as they stand: components need not be reduced by each other, bounds may
cross, and an interval may end where the 64-bit integers do. Main statements: arithmetic describes
every exact result that is a 64-bit integer (`containsInt_arithmetic`), and verdicts, truth values
and restrictions hold of every described value (`verdicts_hold`).
-/

namespace ValueFlow

namespace Value

section Arithmetic

theorem containsInt_iff {v : Value} {n : Int64} : v.containsInt n = true ↔ v.Fits n.toInt :=
  describes_int_iff

/-- Whatever fits two descriptions, each exact result that is a 64-bit integer fits the result on
the descriptions; and so does the opposite number. -/
theorem containsInt_arithmetic {l : Value} {a : Int64} (hl : l.containsInt a = true) :
    (∀ (op : BinOp) (r : Value) (b c : Int64), r.containsInt b = true →
      op.result? a.toInt b.toInt = some c.toInt → (binary op l r).containsInt c = true) ∧
    ∀ c : Int64, c.toInt = -a.toInt → l.negate.containsInt c = true := by
  rw [containsInt_iff] at hl
  constructor
  · intro op r b c hr hc
    rw [containsInt_iff] at hr ⊢
    exact fits_result hc hl hr
  · intro c hc
    rw [containsInt_iff, hc]
    exact hl.negate

/-- The greatest integer, divided by an interval of divisors that ends at the least one, and its
opposite. The operands are not reduced: both intervals give signs that the descriptions lack. -/
theorem containsInt_arithmetic_greatest :
    containsInt ⟨.top, .nullable, ⟨.finite 0, .finite Int64.maxValue⟩⟩ Int64.maxValue = true ∧
    containsInt ⟨.top, .top, ⟨.finite Int64.minValue, .finite (-2)⟩⟩ (-2) = true ∧
    containsInt (binary .floorDiv ⟨.top, .nullable, ⟨.finite 0, .finite Int64.maxValue⟩⟩
      ⟨.top, .top, ⟨.finite Int64.minValue, .finite (-2)⟩⟩) (-4611686018427387904) = true ∧
    containsInt (negate ⟨.top, .nullable, ⟨.finite 0, .finite Int64.maxValue⟩⟩)
      (-9223372036854775807) = true := by
  have hl : containsInt ⟨.top, .nullable, ⟨.finite 0, .finite Int64.maxValue⟩⟩ Int64.maxValue =
      true := by decide
  have hr : containsInt ⟨.top, .top, ⟨.finite Int64.minValue, .finite (-2)⟩⟩ (-2) = true := by
    decide
  obtain ⟨hbinary, hnegate⟩ := containsInt_arithmetic hl
  exact ⟨hl, hr, hbinary .floorDiv _ _ _ hr (by decide), hnegate _ (by decide)⟩

end Arithmetic

section Verdicts

/-- A comparison with a verdict turns out so for all described values that can be compared, a
description with a truth value describes only values with it, restricting keeps every value that
compares as asked, and excluding an integer keeps everything else. -/
theorem verdicts_hold {l r : Value} {u v : Scalar} (hu : l.describes u = true)
    (hv : r.describes v = true) :
    (∀ op verdict outcome, compare? op l r = some verdict →
      Scalar.compare? op u v = some outcome → outcome = verdict) ∧
    (∀ verdict, l.truthiness = some verdict → u.truth = verdict) ∧
    (∀ op, Scalar.compare? op u v = some true → (l.restrict op r).describes u = true) ∧
    ∀ n, u ≠ .int n → (l.exclude n).describes u = true := by
  refine ⟨?_, ?_, ?_, ?_⟩
  · intro op verdict outcome hverdict houtcome
    exact (eq_of_compare? hu hv houtcome hverdict).symm
  · intro verdict hverdict
    exact truth_of_truthiness hu hverdict
  · intro op h
    exact describes_restrict hu hv h
  · intro n hn
    exact describes_exclude hu hn

/-- The least integer, described without its sign. -/
theorem verdicts_hold_least :
    describes ⟨.top, .notNull, ⟨.finite Int64.minValue, .finite (-1)⟩⟩ (.int Int64.minValue) = true ∧
    describes ⟨.nonNegative, .top, .top⟩ (.int 3) = true ∧
    Scalar.truth (.int Int64.minValue) = true ∧
    describes (restrict ⟨.top, .notNull, ⟨.finite Int64.minValue, .finite (-1)⟩⟩ .lt
      ⟨.nonNegative, .top, .top⟩) (.int Int64.minValue) = true ∧
    describes (exclude ⟨.top, .notNull, ⟨.finite Int64.minValue, .finite (-1)⟩⟩ (-1))
      (.int Int64.minValue) = true := by
  have hu : describes ⟨.top, .notNull, ⟨.finite Int64.minValue, .finite (-1)⟩⟩
      (.int Int64.minValue) = true := by decide
  have hv : describes ⟨.nonNegative, .top, .top⟩ (.int 3) = true := by decide
  obtain ⟨-, htruth, hrestrict, hexclude⟩ := verdicts_hold hu hv
  exact ⟨hu, hv, htruth true (by decide), hrestrict .lt (by decide), hexclude (-1) (by decide)⟩

end Verdicts

end Value

end ValueFlow
