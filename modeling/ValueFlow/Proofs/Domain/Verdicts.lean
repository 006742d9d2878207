import ValueFlow.Proofs.Domain.Reduction
/-!
A verdict that is certain narrows nothing.

Of a value whose truth is known, all that is described has that truth, and in a comparison that is
known to hold, all that is described compares as asked. Restricting to it gives the value back, if
its components agree. Main statements: `restrict_eq_self`, `truthy_eq_self` and `falsy_eq_self`.
-/

namespace ValueFlow

namespace Value

variable {a b v : Value} {op : CompOp} {o : Bool}

section Comparisons

theorem identicalToNone?_comm (a b : Value) : identicalToNone? b a = identicalToNone? a b := by
  unfold identicalToNone?
  cases a.nullability <;> cases b.nullability <;> rfl

theorem numericEquality?_comm (a b : Value) : numericEquality? b a = numericEquality? a b := by
  have hmeet : b.range.meet a.range = a.range.meet b.range := by
    rw [Interval.meet, Interval.meet, Bound.upper_comm, Bound.lower_comm]
  unfold numericEquality?
  rw [Bool.or_comm, hmeet]
  split
  · rfl
  · cases a.range.constant? with
    | none => cases b.range.constant? <;> rfl
    | some m =>
        cases b.range.constant? with
        | none => rfl
        | some n => exact congrArg some (Bool.beq_comm)

/-- A comparison read from right to left has the same verdict. -/
theorem compare?_flip (op : CompOp) (a b : Value) : compare? op.flip b a = compare? op a b := by
  unfold compare?
  rw [Bool.or_comm, identicalToNone?_comm, numericEquality?_comm,
    Bool.or_comm (!b.isNumeric) (!a.isNumeric)]
  cases op <;> rfl

/-- The verdict on two numbers, if one of two exclusive cases is known. -/
def ordered? (a b : Value) (yes no : Bool) : Option Bool :=
  if !a.isNumeric || !b.isNumeric then .none
  else if yes then some true
  else if no then some false
  else .none

theorem ordered?_eq_true {yes no : Bool} (h : ordered? a b yes no = some true) :
    a.isNumeric = true ∧ b.isNumeric = true ∧ yes = true := by
  unfold ordered? at h
  cases ha : a.isNumeric <;> cases hb : b.isNumeric <;> cases yes <;> cases no <;> simp_all

theorem ordered?_swap {yes no : Bool} (hone : yes = true → no = false)
    (h : ordered? a b yes no = some o) : ordered? a b no yes = some (!o) := by
  unfold ordered? at h ⊢
  split at h
  · cases h
  · next hnum =>
      rw [if_neg hnum]
      cases yes with
      | true =>
          rw [hone rfl]
          cases h
          rfl
      | false =>
          cases no with
          | true =>
              cases h
              rfl
          | false => cases h

/-- Of two intervals that have integers, not each one ends before the other begins. -/
theorem not_le_of_lt {r s : Interval} (hr : r.isEmpty = false) (hs : s.isEmpty = false)
    (h : r.hi < s.lo) : ¬ s.hi ≤ r.lo := by
  rw [Interval.isEmpty_eq_false_iff] at hr hs
  exact fun hle => h (Bound.le_trans hs (Bound.le_trans hle hr))

/-- The opposite comparison has the opposite verdict. -/
theorem compare?_negate (ha : a.isBottom = false) (hb : b.isBottom = false)
    (h : compare? op a b = some o) : compare? op.negate a b = some (!o) := by
  have hra := not_isEmpty_of_not_isBottom ha
  have hrb := not_isEmpty_of_not_isBottom hb
  rw [compare?, ha, hb] at h ⊢
  cases op with
  | eq | is => exact congrArg (Option.map not) h
  | notEq | isNot =>
      obtain ⟨x, hx, rfl⟩ := Option.map_eq_some_iff.1 h
      rw [Bool.not_not]
      exact hx
  | lt =>
      refine ordered?_swap (fun hyes => ?_) h
      rw [decide_eq_true_eq] at hyes
      exact decide_eq_false (not_le_of_lt hra hrb hyes)
  | gt =>
      refine ordered?_swap (fun hyes => ?_) h
      rw [decide_eq_true_eq] at hyes
      exact decide_eq_false (not_le_of_lt hrb hra hyes)
  | ltE =>
      refine ordered?_swap (fun hyes => ?_) h
      rw [decide_eq_true_eq] at hyes
      exact decide_eq_false fun hno => not_le_of_lt hrb hra hno hyes
  | gtE =>
      refine ordered?_swap (fun hyes => ?_) h
      rw [decide_eq_true_eq] at hyes
      exact decide_eq_false fun hno => not_le_of_lt hra hrb hno hyes

end Comparisons

section Restrictions

theorem Agrees.meet_intIn_eq_self {r : Interval} (ha : a.Agrees) (hnum : a.isNumeric = true)
    (h : a.range.leq r = true) : a.meet (intIn r) = a := by
  apply ha.meet_eq_self
  apply ha.finer_reduce
  refine ⟨?_, ?_, h⟩
  · rw [ha.sign]
    exact Interval.sign_leq_sign ha.not_isEmpty h
  · rw [ha.nullability hnum]
    exact Nullability.leq_refl _

/-- Excluding an integer that does not lie in the interval changes nothing. -/
theorem Agrees.exclude_eq_self {n : Int64} (ha : a.Agrees) (h : a.range.contains n = false) :
    a.exclude n = a := by
  have hle := Interval.isEmpty_eq_false_iff.1 ha.not_isEmpty
  have hnot : ¬ (a.range.lo ≤ .finite n ∧ .finite n ≤ a.range.hi) := by
    rw [Interval.contains, ha.not_isEmpty] at h
    simpa using h
  have hlo : a.range.lo ≠ .finite n := fun he => hnot ⟨he ▸ Bound.le_refl _, he ▸ hle⟩
  have hhi : a.range.hi ≠ .finite n := fun he => hnot ⟨he ▸ hle, he ▸ Bound.le_refl _⟩
  have hsign : ¬ (n = 0 ∧ a.sign.meet .zero = a.sign) := by
    rintro ⟨rfl, hzero⟩
    have hsigned : a.range.leq (.ofSign .zero) = true := by
      refine Interval.leq_trans (Interval.leq_ofSign_sign ha.not_isEmpty) ?_
      rw [← ha.sign, ← hzero]
      exact Interval.ofSign_leq_ofSign (Sign.meet_leq_right _ _)
    obtain ⟨-, hlo', hhi'⟩ := Interval.leq_iff.1 hsigned ha.not_isEmpty
    exact hnot ⟨Bound.le_trans hle hhi', Bound.le_trans hlo' hle⟩
  unfold exclude
  simp only [if_neg hlo, if_neg hhi, if_neg hsign]
  exact ha.reduce_eq

theorem eq_of_constant? {r : Interval} {n : Int64} (h : r.constant? = some n) :
    r = ⟨.finite n, .finite n⟩ := by
  obtain ⟨lo, hi⟩ := r
  cases lo with
  | negInf | posInf => cases h
  | finite k =>
      cases hi with
      | negInf | posInf => cases h
      | finite l =>
          have h : (if k = l then some k else .none) = some n := h
          split at h
          · next hkl =>
              cases h
              rw [hkl]
          · cases h

/-- An interval that is known to be apart from that of a constant does not contain it. -/
theorem not_contains_of_numericEquality? {n : Int64} (h : numericEquality? a b = some false)
    (hn : b.range.constant? = some n) : a.range.contains n = false := by
  refine Bool.eq_false_iff.2 fun hcontains => ?_
  have hholds := Interval.contains_iff.1 hcontains
  unfold numericEquality? at h
  split at h
  · cases h
  · rw [hn] at h
    cases hm : a.range.constant? with
    | some m =>
        rw [hm] at h
        rw [Int64.toInt.inj (hholds.eq_constant hm)] at h
        simp at h
    | none =>
        rw [hm] at h
        have hconstant : b.range.Holds n.toInt := by
          rw [eq_of_constant? hn]
          exact ⟨Int.le_refl _, Int.le_refl _⟩
        rw [(hholds.meet hconstant).not_isEmpty] at h
        cases h

/-- The values of which one is known to be `None` and the other is known not to be. -/
theorem identicalToNone?_eq_false (h : identicalToNone? a b = some false) :
    a.nullability = .definitelyNull ∧ b.nullability = .notNull ∨
      a.nullability = .notNull ∧ b.nullability = .definitelyNull := by
  unfold identicalToNone? at h
  cases ha : a.nullability <;> cases hb : b.nullability <;> simp_all

theorem identicalToNone?_eq_true (h : identicalToNone? a b = some true) :
    a.nullability = .definitelyNull ∧ b.nullability = .definitelyNull := by
  unfold identicalToNone? at h
  cases ha : a.nullability <;> cases hb : b.nullability <;> simp_all

theorem Agrees.not_isNumeric (ha : a.Agrees) (h : a.nullability = .definitelyNull) :
    a.isNumeric = false := by
  refine Bool.eq_false_iff.2 fun hnum => ?_
  rw [ha.nullability hnum] at h
  cases h

theorem Agrees.meet_notNull_eq_self (ha : a.Agrees) (h : a.nullability = .notNull) :
    a.meet notNull = a :=
  ha.meet_eq_self ⟨Sign.leq_top _, h ▸ Nullability.leq_refl _, Interval.leq_top _⟩

theorem Agrees.meet_none_eq_self (ha : a.Agrees) (h : a.nullability = .definitelyNull) :
    a.meet none = a :=
  ha.meet_eq_self ⟨Sign.leq_top _, h ▸ Nullability.leq_refl _, Interval.leq_top _⟩

/-- Two values that are known to be equal integers are the same. -/
theorem Agrees.eq_of_numericEquality? (ha : a.Agrees) (hb : b.Agrees)
    (h : numericEquality? a b = some true) : a = b ∧ a.isNumeric = true := by
  unfold numericEquality? at h
  split at h
  · cases h
  · next hnum =>
      simp only [Bool.or_eq_true, Bool.not_eq_true', not_or, Bool.not_eq_false] at hnum
      refine ⟨?_, hnum.1⟩
      split at h
      · next m n hm hn =>
          have hmn : m = n := by simpa using h
          have hrange : a.range = b.range := by
            rw [eq_of_constant? hm, eq_of_constant? hn, hmn]
          rw [Value.mk.injEq, ha.sign, hb.sign, hrange, ha.nullability hnum.1,
            hb.nullability hnum.2]
          exact ⟨rfl, rfl, rfl⟩
      · split at h <;> cases h

/-- Values of which only one is `None` need not be told apart. -/
theorem Agrees.restrict_isNot_eq_self (ha : a.Agrees) (h : identicalToNone? a b = some false) :
    a.restrict .isNot b = a := by
  unfold restrict
  dsimp only
  rcases identicalToNone?_eq_false h with ⟨hnull, hnull'⟩ | ⟨hnull, hnull'⟩
  · rw [hnull', if_neg (by decide), ha.not_isNumeric hnull]
    split <;> rfl
  · rw [if_pos hnull']
    exact ha.meet_notNull_eq_self hnull

/-- Integers that are known to differ need not be told apart. -/
theorem Agrees.restrict_notEq_eq_self (ha : a.Agrees) (hb : b.Agrees)
    (h : numericEquality? a b = some false) : a.restrict .notEq b = a := by
  have hnull : b.nullability ≠ .definitelyNull := by
    intro hnull
    rw [numericEquality?, hb.not_isNumeric hnull, Bool.not_false, Bool.or_true, if_pos rfl] at h
    cases h
  unfold restrict
  dsimp only
  rw [if_neg hnull]
  split
  · next n hn =>
      split
      · exact ha.exclude_eq_self (not_contains_of_numericEquality? h hn)
      · rfl
  · rfl

/-- Restricting to what is known to hold of all described values changes nothing. -/
theorem Agrees.restrict_eq_self (ha : a.Agrees) (hb : b.Agrees)
    (h : compare? op a b = some true) : a.restrict op b = a := by
  have hra := ha.not_isEmpty
  have hle := Interval.isEmpty_eq_false_iff.1 hb.not_isEmpty
  have within {r : Interval} (hnum : a.isNumeric = true) (hnum' : b.isNumeric = true)
      (hr : a.range.leq r = true) : (if b.isNumeric then a.meet (intIn r) else a) = a := by
    rw [if_pos hnum']
    exact ha.meet_intIn_eq_self hnum hr
  rw [compare?, ha.notBottom, hb.notBottom] at h
  cases op with
  | lt =>
      obtain ⟨hnum, hnum', hyes⟩ := ordered?_eq_true h
      rw [decide_eq_true_eq] at hyes
      have hlt : a.range.hi < b.range.hi := fun hle' => hyes (Bound.le_trans hle hle')
      exact within hnum hnum' (Interval.leq_between hra ha.proper (Bound.negInf_le _)
        (Bound.le_pred_of_lt hlt))
  | ltE =>
      obtain ⟨hnum, hnum', hyes⟩ := ordered?_eq_true h
      rw [decide_eq_true_eq] at hyes
      exact within hnum hnum' (Interval.leq_between hra ha.proper (Bound.negInf_le _)
        (Bound.le_trans hyes hle))
  | gt =>
      obtain ⟨hnum, hnum', hyes⟩ := ordered?_eq_true h
      rw [decide_eq_true_eq] at hyes
      have hlt : b.range.lo < a.range.lo := fun hle' => hyes (Bound.le_trans hle' hle)
      exact within hnum hnum' (Interval.leq_between hra ha.proper (Bound.succ_le_of_lt hlt)
        (Bound.le_posInf _))
  | gtE =>
      obtain ⟨hnum, hnum', hyes⟩ := ordered?_eq_true h
      rw [decide_eq_true_eq] at hyes
      exact within hnum hnum' (Interval.leq_between hra ha.proper (Bound.le_trans hle hyes)
        (Bound.le_posInf _))
  | is =>
      obtain ⟨hnull, hnull'⟩ := identicalToNone?_eq_true h
      unfold restrict
      dsimp only
      rw [if_pos hnull']
      exact ha.meet_none_eq_self hnull
  | isNot =>
      obtain ⟨x, hx, hnot⟩ := Option.map_eq_some_iff.1 h
      cases x with
      | true => cases hnot
      | false => exact ha.restrict_isNot_eq_self hx
  | eq =>
      unfold restrict
      dsimp only
      rcases Option.or_eq_some_iff.1 h with hnull | ⟨-, hnum⟩
      · obtain ⟨hnull, hnull'⟩ := identicalToNone?_eq_true hnull
        rw [if_pos hnull']
        exact ha.meet_none_eq_self hnull
      · obtain ⟨rfl, hnumeric⟩ := ha.eq_of_numericEquality? hb hnum
        rw [if_neg, hnumeric]
        · exact ha.meet_eq_self (.refl a)
        · rw [ha.nullability hnumeric]
          decide
  | notEq =>
      obtain ⟨x, hx, hnot⟩ := Option.map_eq_some_iff.1 h
      cases x with
      | true => cases hnot
      | false =>
          rcases Option.or_eq_some_iff.1 hx with hnull | ⟨-, hnum⟩
          · exact ha.restrict_isNot_eq_self hnull
          · exact ha.restrict_notEq_eq_self hb hnum

end Restrictions

section Truth

theorem isBottom_eq_false_of_truthiness (h : v.truthiness = some o) : v.isBottom = false := by
  unfold truthiness at h
  split at h
  · cases h
  · next hv => exact Bool.eq_false_iff.2 hv

/-- What is known when all described values have the same truth: that they are `None`, zero, or
integers other than zero. -/
theorem truthiness_cases (h : v.truthiness = some o) :
    v.nullability = .definitelyNull ∧ o = false ∨
      v.isNumeric = true ∧ v.nullability = .notNull ∧
        (v.range.constant? = some 0 ∧ o = false ∨ v.range.contains 0 = false ∧ o = true) := by
  unfold truthiness at h
  split at h
  · cases h
  · split at h
    · next hnull => exact .inl ⟨hnull, (Option.some.inj h).symm⟩
    · split at h
      · next hnum =>
          rw [Bool.and_eq_true, decide_eq_true_eq] at hnum
          refine .inr ⟨hnum.1, hnum.2, ?_⟩
          split at h
          · next hzero => exact .inl ⟨hzero, (Option.some.inj h).symm⟩
          · split at h
            · cases h
            · next hzero => exact .inr ⟨Bool.eq_false_iff.2 hzero, (Option.some.inj h).symm⟩
      · cases h

theorem Agrees.truthy_eq_self (hv : v.Agrees) (h : v.truthiness = some true) : v.truthy = v := by
  rcases truthiness_cases h with ⟨-, ho⟩ | ⟨hnum, hnull, ⟨-, ho⟩ | ⟨hzero, -⟩⟩
  · cases ho
  · cases ho
  · unfold truthy
    dsimp only
    rw [hv.meet_notNull_eq_self hnull, if_pos hnum]
    exact hv.exclude_eq_self hzero

theorem Agrees.falsy_eq_self (hv : v.Agrees) (h : v.truthiness = some false) : v.falsy = v := by
  rcases truthiness_cases h with ⟨hnull, -⟩ | ⟨hnum, hnull, ⟨hzero, -⟩ | ⟨-, ho⟩⟩
  · rw [falsy, hv.not_isNumeric hnull]
    rfl
  · rw [falsy, if_pos hnum]
    refine hv.meet_eq_self ?_
    have hrange : v.range = Interval.constant 0 := eq_of_constant? hzero
    have hsign : v.sign = .zero := by
      rw [hv.sign, hrange]
      rfl
    exact ⟨hsign ▸ Sign.leq_refl _, hnull ▸ Nullability.leq_refl _, hrange ▸ Interval.leq_refl _⟩
  · cases ho

theorem truthiness_of_definitelyNull (hv : v.isBottom = false)
    (hnull : v.nullability = .definitelyNull) : v.truthiness = some false := by
  rw [truthiness, hv, if_neg Bool.false_ne_true, if_pos hnull]

theorem truthiness_of_isNumeric (hv : v.isBottom = false) (hnum : v.isNumeric = true)
    (hnull : v.nullability = .notNull) : v.truthiness =
      if v.range.constant? = some 0 then some false
      else if v.range.contains 0 then .none else some true := by
  rw [truthiness, hv, hnum, hnull]
  rfl

/-- What is known of the truth of more values is known of the truth of fewer. -/
theorem Finer.truthiness (h : a.Finer b) (ha : a.isBottom = false) (hb : b.truthiness = some o) :
    a.truthiness = some o := by
  have hbelow : ∀ n : Nullability, n = .definitelyNull ∨ n = .notNull →
      a.nullability.leq n = true → a.nullability = n := by
    intro n hn hle
    have hne := (isBottom_eq_false_iff.1 ha).2.1
    rcases hn with rfl | rfl <;> revert hne hle <;> cases a.nullability <;> decide
  have hra := not_isEmpty_of_not_isBottom ha
  rcases truthiness_cases hb with ⟨hnull, rfl⟩ | ⟨hnum, hnull, hrange⟩
  · exact truthiness_of_definitelyNull ha (hbelow _ (.inl rfl) (hnull ▸ h.nullability))
  · rw [truthiness_of_isNumeric ha (h.isNumeric hnum)
      (hbelow _ (.inr rfl) (hnull ▸ h.nullability))]
    obtain ⟨-, hlo, hhi⟩ := Interval.leq_iff.1 h.range hra
    rcases hrange with ⟨hzero, rfl⟩ | ⟨hzero, rfl⟩
    · have hle := Interval.isEmpty_eq_false_iff.1 hra
      rw [eq_of_constant? hzero] at hlo hhi
      have hrange : a.range = ⟨.finite 0, .finite 0⟩ := by
        rw [Interval.mk.injEq]
        exact ⟨Bound.le_antisymm (Bound.le_trans hle hhi) hlo,
          Bound.le_antisymm hhi (Bound.le_trans hlo hle)⟩
      rw [hrange]
      rfl
    · have hapart : a.range.contains 0 = false := by
        refine Bool.eq_false_iff.2 fun hcontains => ?_
        have hholds := (Interval.contains_iff.1 hcontains).mono h.range
        rw [Interval.contains_iff.2 hholds] at hzero
        cases hzero
      rw [if_neg, hapart]
      · rfl
      · intro hconstant
        rw [eq_of_constant? hconstant] at hapart
        cases hapart

theorem truthiness_ofTruth (x : Option Bool) : (ofTruth x).truthiness = x := by
  cases x with
  | none => decide
  | some b => cases b <;> decide

/-- Where the negation of a value is certain, so is the value. -/
theorem truthiness_of_unary_not (h : (unary .not v).truthiness = some o) :
    v.truthiness = some !o := by
  unfold unary at h
  split at h
  · next hv =>
      rw [isBottom_eq_false_of_truthiness h] at hv
      cases hv
  · rw [truthiness_ofTruth] at h
    obtain ⟨x, hx, rfl⟩ := Option.map_eq_some_iff.1 h
    rw [Bool.not_not]
    exact hx

/-- Where the truth of a comparison is certain, so is the verdict. -/
theorem compare?_of_truthiness (h : (comparison op a b).truthiness = some o) :
    a.isBottom = false ∧ b.isBottom = false ∧ compare? op a b = some o := by
  unfold comparison at h
  split at h
  · cases h
  · next hbottom =>
      rw [truthiness_ofTruth] at h
      rw [Bool.not_eq_true, Bool.or_eq_false_iff] at hbottom
      exact ⟨hbottom.1, hbottom.2, h⟩

/-- Where the truth of a join is certain, so is that of its left side. -/
theorem truthiness_of_join (ha : a.isBottom = false) (h : (a.join b).truthiness = some o) :
    a.truthiness = some o := by
  cases hb : b.isBottom with
  | true => rwa [join, ha, hb, if_neg Bool.false_ne_true, if_pos rfl] at h
  | false =>
      rw [join_eq ha hb] at h
      refine Finer.truthiness ?_ ha h
      exact ⟨Sign.leq_join_left _ _, Nullability.leq_join_left _ _, Interval.leq_join_left _ _⟩

end Truth

end Value

end ValueFlow
