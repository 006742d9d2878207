import ValueFlow.Proofs.Domain.Operators
/-!
The results of builtin functions.

Descriptions of arguments are taken as they stand, so bounds may cross and a bound may be an
infinity on the wrong side, of which nothing is described. The extremum of several arguments goes
through their intervals with one choice of bounds, which is compared with the choice of integers
(`Picks`). A range is the list of all integers that a walk in steps meets before its end
(`mem_steps_iff`). Main statement: `containsInt_call`.
-/

namespace ValueFlow

namespace Bound

variable {a b : Bound} {m n : Int}

theorem StaysAbove.isAbove (h : b.StaysAbove n) (hn : Int64.minValue.toInt ≤ n) : b.IsAbove n := by
  cases b with
  | negInf => exact absurd h (Int.not_lt.2 hn)
  | finite k => exact h
  | posInf => exact trivial

/-- Whether a choice between bounds follows a choice between integers. -/
structure Picks (pick : Bound → Bound → Bound) (op : Int → Int → Int) : Prop where
  below : ∀ {a b m n}, a.IsBelow m → b.IsBelow n → (pick a b).IsBelow (op m n)
  above : ∀ {a b m n}, a.IsAbove m → b.IsAbove n → (pick a b).IsAbove (op m n)

theorem picks_lower : Picks lower min where
  below {a b m n} ha hb := by
    rcases Int.le_total m n with h | h
    · rw [Int.min_eq_left h]
      exact ha.mono (lower_le_left a b)
    · rw [Int.min_eq_right h]
      exact hb.mono (lower_le_right a b)
  above ha hb := (ha.trans_le (Int.min_le_left ..)).lower (hb.trans_le (Int.min_le_right ..))

theorem picks_upper : Picks upper max where
  below ha hb := (ha.trans_le (Int.le_max_left ..)).upper (hb.trans_le (Int.le_max_right ..))
  above {a b m n} ha hb := by
    rcases Int.le_total m n with h | h
    · rw [Int.max_eq_right h]
      exact hb.mono (le_upper_right a b)
    · rw [Int.max_eq_left h]
      exact ha.mono (le_upper_left a b)

end Bound

namespace Scalar

variable {start stop step n : Int} {vs : List Int64} {ks : List Int}

/-- A range holds what is reached from its start in steps and lies before its end. -/
theorem mem_steps_iff (hstep : step ≠ 0) : n ∈ steps start stop step ↔
    ∃ i : Nat, n = start + i * step ∧ if 0 < step then n < stop else stop < n := by
  have hcount (i : Nat) : (i : Int) < (if 0 < step then (stop - start + step - 1) / step
      else (start - stop - step - 1) / -step) ↔
      if 0 < step then start + i * step < stop else stop < start + i * step := by
    split
    · next hpos =>
        rw [← Int.add_one_le_iff, Int.le_ediv_iff_mul_le hpos, Int.add_mul, Int.one_mul]
        omega
    · next hnot =>
        have hpos : 0 < -step := by omega
        rw [← Int.add_one_le_iff, Int.le_ediv_iff_mul_le hpos, Int.add_mul, Int.one_mul,
          Int.mul_neg]
        omega
  rw [steps, List.mem_map]
  constructor
  · rintro ⟨i, hi, rfl⟩
    rw [List.mem_range, Int.lt_toNat] at hi
    exact ⟨i, rfl, (hcount i).1 hi⟩
  · rintro ⟨i, rfl, hi⟩
    exact ⟨i, List.mem_range.2 (Int.lt_toNat.2 ((hcount i).2 hi)), rfl⟩

/-- No range goes beyond its ends. -/
theorem between_of_mem_steps (hstep : step ≠ 0) (h : n ∈ steps start stop step) :
    min start stop ≤ n ∧ n ≤ max start stop := by
  obtain ⟨i, rfl, hi⟩ := (mem_steps_iff hstep).1 h
  split at hi
  · next hpos =>
      have := Int.mul_nonneg (Int.natCast_nonneg i) (Int.le_of_lt hpos)
      omega
  · next hnot =>
      have := Int.mul_nonpos_of_nonneg_of_nonpos (Int.natCast_nonneg i) (Int.not_lt.1 hnot)
      omega

/-- A range between 64-bit integers holds 64-bit integers. -/
theorem exists_toInt_eq_of_mem_range? (hks : range? (vs.map .int) = some ks) (hmem : n ∈ ks) :
    ∃ k : Int64, k.toInt = n := by
  have fits (a b c : Int64) (hstep : c.toInt ≠ 0) (h : n ∈ steps a.toInt b.toInt c.toInt) :
      ∃ k : Int64, k.toInt = n := by
    obtain ⟨hlo, hhi⟩ := between_of_mem_steps hstep h
    have := Int64.minValue_le_toInt a
    have := Int64.minValue_le_toInt b
    have := Int64.toInt_le a
    have := Int64.toInt_le b
    exact ⟨Int64.ofInt n, Bound.toInt_ofInt_of_fits (by omega) (by omega)⟩
  match vs with
  | [stop] =>
      cases hks
      exact fits 0 stop 1 (by decide) hmem
  | [start, stop] =>
      cases hks
      exact fits start stop 1 (by decide) hmem
  | [start, stop, step] =>
      have hks : (if step = 0 then Option.none
        else some (steps start.toInt stop.toInt step.toInt)) = some ks := hks
      split at hks
      · cases hks
      · next hstep =>
          cases hks
          exact fits start stop step (fun h => hstep (Int64.toInt.inj h)) hmem
  | [] | _ :: _ :: _ :: _ :: _ => cases hks

end Scalar

namespace Builtin

open Value

variable {args : List Value} {vs : List Int64} {v : Value} {n k : Int64}

theorem containsInt_absolute (hv : v.Fits n.toInt) (hk : k.toInt = n.toInt.natAbs) :
    (absolute v).containsInt k = true := by
  have hlo := hv.range.lo
  have hhi := hv.range.hi
  apply describes_intIn
  split
  · next hnonneg =>
      have hn : 0 ≤ n.toInt := Bound.IsBelow.mono hnonneg hlo
      rw [hk, Int.natAbs_of_nonneg hn]
      exact hv.range
  · split
    · next hnonpos =>
        have hn : n.toInt ≤ 0 := Bound.IsAbove.mono hnonpos hhi
        rw [hk, Int.ofNat_natAbs_of_nonpos hn]
        exact hv.range.negate
    · have hmin := Int64.minValue_le_toInt k
      refine Interval.holds_between ?_ ?_
      · show (0 : Int64).toInt ≤ k.toInt
        rw [hk, Int64.toInt_zero]
        exact Int.natCast_nonneg _
      · rcases Int.le_total 0 n.toInt with hn | hn
        · rw [hk, Int.natAbs_of_nonneg hn]
          exact hhi.mono (Bound.le_upper_right _ _)
        · rw [Int.ofNat_natAbs_of_nonpos hn] at hk
          rw [hk] at hmin ⊢
          exact ((Bound.stays_above_neg hlo).isAbove hmin).mono (Bound.le_upper_left _ _)

section Extremes

variable {pick : Bound → Bound → Bound} {op : Int → Int → Int} {acc : Interval} {m : Int}

/-- The extremum of the intervals so far holds the extremum of the integers so far. -/
theorem holds_extremum (hpick : Bound.Picks pick op)
    (hargs : List.Forall₂ (fun a v => a.containsInt v = true) args vs) (hacc : acc.Holds m) :
    (args.foldl (fun acc arg => extremumRange pick acc arg.range) acc).Holds
      ((vs.map Int64.toInt).foldl op m) := by
  induction hargs generalizing acc m with
  | nil => exact hacc
  | cons harg hrest ih =>
      have hv := (containsInt_iff.1 harg).range
      exact ih (Interval.holds_between (hpick.below hacc.lo hv.lo) (hpick.above hacc.hi hv.hi))

theorem containsInt_extremum {first : Value} (hpick : Bound.Picks pick op)
    (hfirst : first.containsInt n = true)
    (hargs : List.Forall₂ (fun a v => a.containsInt v = true) args vs)
    (hk : k.toInt = (vs.map Int64.toInt).foldl op n.toInt) :
    (extremum pick (first :: args)).containsInt k = true := by
  show (if (first :: args).all isNumeric then intIn _ else top).describes (.int k) = true
  split
  · apply describes_intIn
    rw [hk]
    exact holds_extremum hpick hargs (containsInt_iff.1 hfirst).range
  · exact describes_top (.int k)

end Extremes

/-- Whatever integers the arguments of a builtin function describe: the result describes the
absolute value, the least and the greatest of them, and a loop over a range of them binds a value
that describes each integer of the range, so that it describes nothing only if there is none. -/
theorem containsInt_call (hargs : List.Forall₂ (fun a v => a.containsInt v = true) args vs)
    (length : Option Value) :
    (∀ n k : Int64, vs.head? = some n → k.toInt = n.toInt.natAbs →
      (call .abs args length).containsInt k = true) ∧
    (∀ k : Int64, (vs.map Int64.toInt).min? = some k.toInt →
      (call .min args length).containsInt k = true) ∧
    (∀ k : Int64, (vs.map Int64.toInt).max? = some k.toInt →
      (call .max args length).containsInt k = true) ∧
    ∀ ks, Scalar.range? (vs.map .int) = some ks →
      (∀ k : Int64, k.toInt ∈ ks → (rangeElement args).containsInt k = true) ∧
      ((rangeElement args).isBottom = true → ks = []) := by
  refine ⟨?_, ?_, ?_, ?_⟩
  · intro n k hn hk
    cases hargs with
    | nil => cases hn
    | @cons v _ _ _ hv _ =>
        cases hn
        show (if v.isNumeric then absolute v else top).describes (.int k) = true
        split
        · exact containsInt_absolute (containsInt_iff.1 hv) hk
        · exact describes_top (.int k)
  · intro k hk
    cases hargs with
    | nil => cases hk
    | cons hfirst hrest =>
        rw [List.map_cons, List.min?_cons', Option.some.injEq] at hk
        exact containsInt_extremum Bound.picks_lower hfirst hrest hk.symm
  · intro k hk
    cases hargs with
    | nil => cases hk
    | cons hfirst hrest =>
        rw [List.map_cons, List.max?_cons', Option.some.injEq] at hk
        exact containsInt_extremum Bound.picks_upper hfirst hrest hk.symm
  · intro ks hks
    have hscalars : List.Forall₂ (fun a v => a.describes v = true) args (vs.map .int) :=
      List.forall₂_map_right_iff.2 hargs
    have hmem (k : Int64) (hk : k.toInt ∈ ks) : (rangeElement args).containsInt k = true :=
      describes_rangeElement hscalars hks hk (Scalar.ofInt?_toInt k)
    refine ⟨hmem, fun hbottom => List.eq_nil_iff_forall_not_mem.2 fun i hi => ?_⟩
    obtain ⟨k, rfl⟩ := Scalar.exists_toInt_eq_of_mem_range? hks hi
    have hsome := not_isBottom_of_describes (u := .int k) (hmem k hi)
    exact absurd (hsome.symm.trans hbottom) Bool.false_ne_true

/-- The integers -3 and 2, the first one described by an interval that begins at the least integer
and without its sign. -/
theorem containsInt_call_pair :
    let args : List Value := [⟨.top, .nullable, .finite Int64.minValue 5⟩, constant 2]
    args.head?.any (·.containsInt (-3)) = true ∧
    (call .abs args Option.none).containsInt 3 = true ∧
    (call .min args Option.none).containsInt (-3) = true ∧
    (call .max args Option.none).containsInt 2 = true ∧
    (rangeElement args).containsInt 1 = true ∧ (rangeElement args).isBottom = false := by
  intro args
  have hargs : List.Forall₂ (fun a v => a.containsInt v = true) args [-3, 2] :=
    .cons (by decide) (.cons (by decide) .nil)
  obtain ⟨habs, hmin, hmax, hrange⟩ := containsInt_call hargs Option.none
  obtain ⟨hmem, hbottom⟩ := hrange _ rfl
  refine ⟨by decide, habs (-3) 3 rfl (by decide), hmin (-3) (by decide), hmax 2 (by decide),
    hmem 1 (by decide), ?_⟩
  rw [← Bool.not_eq_true]
  intro h
  exact absurd (hbottom h) (by decide)

end Builtin

end ValueFlow
