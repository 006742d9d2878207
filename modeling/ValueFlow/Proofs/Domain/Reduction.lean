import ValueFlow.Proofs.Domain.Canonical
/-!
Components that refine each other.

A reduced value is the least of all values between it and what it was reduced from, so reducing
again changes nothing and different ways to the same reduction meet. `Agrees` says what the
components of a reduced value have to do with each other; the sign is then that of the interval.
Main statements: `reduce_congr`, `agrees_reduce` and `Agrees.meet_eq_self`. Operators and joins of
reduced values give reduced values.
-/

namespace ValueFlow

namespace Sign

/-- More admitted atoms make a greater sign. -/
theorem ofAtoms_leq {neg zero pos neg' zero' pos' : Bool} (hneg : neg = true → neg' = true)
    (hzero : zero = true → zero' = true) (hpos : pos = true → pos' = true) :
    (ofAtoms neg zero pos).leq (ofAtoms neg' zero' pos') = true := by
  revert hneg hzero hpos
  cases neg <;> cases zero <;> cases pos <;> cases neg' <;> cases zero' <;> cases pos' <;> decide

end Sign

namespace Interval

variable {r s t : Interval}

/-- Whether an interval can be the canonical form of one: no bound is the infinity on the other
side. -/
structure Proper (r : Interval) : Prop where
  lo : r.lo ≠ .posInf
  hi : r.hi ≠ .negInf

theorem proper_of_isEmpty_between {lo hi : Bound} (h : (between lo hi).isEmpty = false) :
    (between lo hi).Proper := by
  unfold between at h ⊢
  split
  · next hbottom =>
      rw [if_pos hbottom] at h
      cases h
  · next hproper =>
      rw [not_or, not_or] at hproper
      exact ⟨hproper.2.1, hproper.2.2⟩

/-- An interval between two bounds is below the interval of the bounds. -/
theorem leq_between {lo hi : Bound} (hr : r.isEmpty = false) (hproper : r.Proper)
    (hlo : lo ≤ r.lo) (hhi : r.hi ≤ hi) : r.leq (between lo hi) = true := by
  have hle : lo ≤ hi := Bound.le_trans hlo (Bound.le_trans (isEmpty_eq_false_iff.1 hr) hhi)
  rw [between, if_neg]
  · exact leq_of_reaches hr hlo hhi
  · rintro (h | rfl | rfl)
    · exact h hle
    · exact hproper.lo (Bound.posInf_le hlo)
    · exact hproper.hi (Bound.le_negInf hhi)

theorem leq_meet (hr : r.isEmpty = false) (hproper : r.Proper) (hs : r.leq s = true)
    (ht : r.leq t = true) : r.leq (s.meet t) = true := by
  obtain ⟨-, hlo, hhi⟩ := leq_iff.1 hs hr
  obtain ⟨-, hlo', hhi'⟩ := leq_iff.1 ht hr
  exact leq_between hr hproper (Bound.upper_le hlo hlo') (Bound.le_lower hhi hhi')

theorem leq_antisymm (hr : r.isEmpty = false) (hrs : r.leq s = true) (hsr : s.leq r = true) :
    r = s := by
  obtain ⟨hs, hlo, hhi⟩ := leq_iff.1 hrs hr
  obtain ⟨-, hlo', hhi'⟩ := leq_iff.1 hsr hs
  rw [show r = ⟨r.lo, r.hi⟩ from rfl, Bound.le_antisymm hlo' hlo, Bound.le_antisymm hhi hhi']

theorem sign_eq (h : r.isEmpty = false) : r.sign = Sign.ofAtoms (decide (r.lo < .finite 0))
    (decide (r.lo ≤ .finite 0) && decide (.finite 0 ≤ r.hi)) (decide (.finite 0 < r.hi)) := by
  rw [sign, h, if_neg Bool.false_ne_true]

theorem sign_leq_sign (hr : r.isEmpty = false) (h : r.leq s = true) :
    r.sign.leq s.sign = true := by
  obtain ⟨hs, hlo, hhi⟩ := leq_iff.1 h hr
  rw [sign_eq hr, sign_eq hs]
  simp only [Bound.lt_def]
  apply Sign.ofAtoms_leq
  · simp only [decide_eq_true_eq]
    exact fun hneg hle => hneg (Bound.le_trans hle hlo)
  · simp only [Bool.and_eq_true, decide_eq_true_eq]
    exact fun hzero => ⟨Bound.le_trans hlo hzero.1, Bound.le_trans hzero.2 hhi⟩
  · simp only [decide_eq_true_eq]
    exact fun hpos hle => hpos (Bound.le_trans hhi hle)

theorem sign_ofSign (a : Sign) : (ofSign a).sign = a := by cases a <;> decide

theorem ofSign_leq_ofSign {a b : Sign} (h : a.leq b = true) :
    (ofSign a).leq (ofSign b) = true := by
  revert h
  cases a <;> cases b <;> decide

/-- The sign of an interval is below each sign that admits all its integers. -/
theorem sign_leq_of_leq_ofSign {a : Sign} (hr : r.isEmpty = false)
    (h : r.leq (ofSign a) = true) : r.sign.leq a = true := by
  have hle := sign_leq_sign hr h
  rwa [sign_ofSign] at hle

theorem leq_ofSign_sign (h : r.isEmpty = false) : r.leq (ofSign r.sign) = true := by
  have hle := isEmpty_eq_false_iff.1 h
  rw [sign_eq h]
  by_cases hneg : r.lo < .finite 0
  · have hlo : r.lo ≤ .finite 0 := Bound.le_of_lt hneg
    by_cases hpos : .finite 0 < r.hi
    · have htop : ∀ zero, ofSign (Sign.ofAtoms true zero true) = top := by
        intro zero
        cases zero <;> rfl
      rw [decide_eq_true hneg, decide_eq_true hpos, htop]
      exact leq_top r
    · have hhi : r.hi ≤ .finite 0 := Decidable.not_not.1 hpos
      rw [decide_eq_true hneg, decide_eq_false hpos, decide_eq_true hlo]
      by_cases hzero : .finite 0 ≤ r.hi
      · rw [decide_eq_true hzero]
        exact leq_of_reaches h (Bound.negInf_le _) hhi
      · rw [decide_eq_false hzero]
        exact leq_of_reaches h (Bound.negInf_le _) (Bound.le_pred_of_lt hzero)
  · have hlo : .finite 0 ≤ r.lo := Decidable.not_not.1 hneg
    have hhi : .finite 0 ≤ r.hi := Bound.le_trans hlo hle
    rw [decide_eq_false hneg, decide_eq_true hhi]
    by_cases hpos : .finite 0 < r.hi
    · rw [decide_eq_true hpos]
      by_cases hzero : r.lo ≤ .finite 0
      · rw [decide_eq_true hzero]
        exact leq_of_reaches h hlo (Bound.le_posInf _)
      · rw [decide_eq_false hzero]
        exact leq_of_reaches h (Bound.succ_le_of_lt hzero) (Bound.le_posInf _)
    · have hhi' : r.hi ≤ .finite 0 := Decidable.not_not.1 hpos
      rw [decide_eq_false hpos, decide_eq_true (Bound.le_trans hle hhi')]
      exact leq_of_reaches h hlo hhi'

theorem sign_constant (n : Int64) : (constant n).sign = Sign.of n := by
  have hholds := holds_constant n
  apply Sign.leq_antisymm
  · have hsign := holds_ofSign (Sign.admits_of n)
    exact sign_leq_of_leq_ofSign hholds.not_isEmpty
      (between_leq (Bound.le_finite_iff.2 hsign.lo) (Bound.finite_le_iff.2 hsign.hi))
  · refine Sign.leq_iff.2 fun x hx => ?_
    have hadmits := Sign.contains_iff.2 hholds.sign
    rw [Sign.contains] at hadmits
    rw [Sign.of] at hx
    revert hx hadmits
    cases Sign.Atom.of n <;> cases x <;> first | exact fun _ h => h | exact fun h => by cases h

end Interval

namespace Value

variable {a b v w : Value} {u : Scalar}

/-- Whether each component is below. -/
structure Finer (a b : Value) : Prop where
  sign : a.sign.leq b.sign = true
  nullability : a.nullability.leq b.nullability = true
  range : a.range.leq b.range = true

/-- Whether the components make nothing more of each other: some value has all of them, the sign
is that of the interval, and what must be an integer is not `None`. -/
structure Agrees (v : Value) : Prop where
  notBottom : v.isBottom = false
  proper : v.range.Proper
  sign : v.sign = v.range.sign
  nullability : v.isNumeric = true → v.nullability = .notNull

namespace Finer

theorem refl (a : Value) : a.Finer a :=
  ⟨Sign.leq_refl _, Nullability.leq_refl _, Interval.leq_refl _⟩

theorem trans {c : Value} (hab : a.Finer b) (hbc : b.Finer c) : a.Finer c :=
  ⟨Sign.leq_trans hab.sign hbc.sign, Nullability.leq_trans hab.nullability hbc.nullability,
    Interval.leq_trans hab.range hbc.range⟩

theorem leq (h : a.Finer b) : a.leq b = true :=
  leq_iff.2 fun _ => ⟨h.sign, h.nullability, h.range⟩

theorem under (h : a.Finer b) : a.Under b := under_of_leq h.sign h.nullability h.range

theorem not_isBottom (h : a.Finer b) (ha : a.isBottom = false) : b.isBottom = false :=
  Bool.eq_false_iff.2 fun hb => absurd (ha.symm.trans (isBottom_of_leq h.leq hb)) Bool.false_ne_true

theorem antisymm (hab : a.Finer b) (hba : b.Finer a) (ha : a.isBottom = false) : a = b := by
  rw [Value.mk.injEq]
  exact ⟨Sign.leq_antisymm hab.sign hba.sign,
    Nullability.leq_antisymm hab.nullability hba.nullability,
    Interval.leq_antisymm (not_isEmpty_of_not_isBottom ha) hab.range hba.range⟩

end Finer

theorem bottom_finer (v : Value) : bottom.Finer v where
  sign := Sign.leq_iff.2 fun x h => by cases x <;> cases h
  nullability := by cases v.nullability <;> rfl
  range := Interval.bottom_leq _

theorem isBottom_eq_false_iff : v.isBottom = false ↔
    v.sign ≠ .bottom ∧ v.nullability ≠ .bottom ∧ v.range.isEmpty = false := by
  rw [isBottom, Bool.or_eq_false_iff, Bool.or_eq_false_iff, decide_eq_false_iff_not,
    decide_eq_false_iff_not, and_assoc]

theorem isNumeric_eq_false_iff : v.isNumeric = false ↔ v.sign = .top ∧ v.range = .top := by
  simp [isNumeric]

/-- Below a value of which a numeric component is known, one is known. -/
theorem Finer.isNumeric (h : a.Finer b) (hb : b.isNumeric = true) : a.isNumeric = true := by
  rw [← Bool.not_eq_false, isNumeric_eq_false_iff] at hb ⊢
  rintro ⟨hsign, hrange⟩
  exact hb ⟨h.under.sign_top hsign, h.under.range_top hrange⟩

section Reducing

/-- The components that reducing gives, unless one of them is empty. -/
def refined (v : Value) : Value :=
  let range := v.range.meet (.ofSign v.sign)
  let sign := v.sign.meet range.sign
  { sign
    nullability :=
      if sign ≠ .top ∨ range ≠ .top then v.nullability.meet .notNull else v.nullability
    range }

theorem reduce_eq (v : Value) : v.reduce =
    if v.isBottom then bottom else if v.refined.isBottom then bottom else v.refined := rfl

theorem refined_finer (v : Value) : v.refined.Finer v where
  sign := Sign.meet_leq_left _ _
  nullability := by
    unfold refined
    dsimp only
    split
    · exact Nullability.meet_leq_left _ _
    · exact Nullability.leq_refl _
  range := Interval.meet_leq_left _ _

theorem reduce_finer (v : Value) : v.reduce.Finer v := by
  rw [reduce_eq]
  split
  · exact bottom_finer v
  · split
    · exact bottom_finer v
    · exact refined_finer v

/-- Reducing keeps what a value describes and adds nothing. -/
theorem describes_reduce_iff : v.reduce.describes u = true ↔ v.describes u = true :=
  ⟨(reduce_finer v).under.describes, describes_reduce⟩

theorem agrees_refined (h : v.refined.isBottom = false) : v.refined.Agrees := by
  obtain ⟨-, -, hrange⟩ := isBottom_eq_false_iff.1 h
  refine ⟨h, Interval.proper_of_isEmpty_between hrange, ?_, ?_⟩
  · -- the interval lies within the old sign, so its own sign is below that
    have hsign := Interval.sign_leq_of_leq_ofSign hrange (Interval.meet_leq_right _ _)
    exact Sign.leq_antisymm (Sign.meet_leq_right _ _) (Sign.leq_meet hsign (Sign.leq_refl _))
  · intro hnum
    have hnull : v.refined.nullability = v.nullability.meet .notNull := by
      rw [isNumeric, Bool.or_eq_true, decide_eq_true_eq, decide_eq_true_eq] at hnum
      exact if_pos hnum
    have hmeet : ∀ n : Nullability, n.meet .notNull ≠ .bottom → n.meet .notNull = .notNull := by
      intro n
      cases n <;> decide
    rw [hnull]
    exact hmeet _ (hnull ▸ (isBottom_eq_false_iff.1 h).2.1)

/-- A reduced value is empty in the canonical way, or its components agree. -/
theorem reduce_cases (v : Value) : v.reduce = bottom ∨ v.reduce.Agrees := by
  rw [reduce_eq]
  split
  · exact .inl rfl
  · split
    · exact .inl rfl
    · next h => exact .inr (agrees_refined (Bool.eq_false_iff.2 h))

theorem agrees_reduce (h : v.reduce.isBottom = false) : v.reduce.Agrees := by
  refine (reduce_cases v).resolve_left fun hv => ?_
  rw [hv] at h
  cases h

/-- What agrees and is finer than a value is finer than its reduction. -/
theorem Agrees.finer_reduce (ha : a.Agrees) (h : a.Finer v) : a.Finer v.reduce := by
  have hempty := not_isEmpty_of_not_isBottom ha.notBottom
  have hsigned : a.range.leq (.ofSign v.sign) = true := by
    have hown := Interval.leq_ofSign_sign hempty
    rw [← ha.sign] at hown
    exact Interval.leq_trans hown (Interval.ofSign_leq_ofSign h.sign)
  have hrange := Interval.leq_meet hempty ha.proper h.range hsigned
  have hsign : a.sign.leq v.refined.sign = true := by
    refine Sign.leq_meet h.sign ?_
    rw [ha.sign]
    exact Interval.sign_leq_sign hempty hrange
  have hnull : a.nullability.leq v.refined.nullability = true := by
    show a.nullability.leq (if _ then _ else _) = true
    split
    · next hnum =>
        have hfiner : a.Finer ⟨v.refined.sign, a.nullability, v.refined.range⟩ :=
          ⟨hsign, Nullability.leq_refl _, hrange⟩
        have hnumeric : a.isNumeric = true := by
          apply hfiner.isNumeric
          rw [isNumeric, Bool.or_eq_true, decide_eq_true_eq, decide_eq_true_eq]
          exact hnum
        refine Nullability.leq_meet h.nullability ?_
        rw [ha.nullability hnumeric]
        exact Nullability.leq_refl _
    · exact h.nullability
  have hrefined : a.Finer v.refined := ⟨hsign, hnull, hrange⟩
  rw [reduce_eq, h.not_isBottom ha.notBottom, hrefined.not_isBottom ha.notBottom]
  exact hrefined

/-- What is reduced and finer than a value is finer than its reduction. -/
theorem Finer.reduce (h : a.reduce.Finer v) : a.reduce.Finer v.reduce := by
  rcases reduce_cases a with ha | ha
  · rw [ha]
    exact bottom_finer _
  · exact ha.finer_reduce h

/-- Each of two values that stand above the reduction of the other reduces to the same. -/
theorem reduce_congr (hab : a.reduce.Finer b) (hba : b.reduce.Finer a) : a.reduce = b.reduce := by
  have hle := hab.reduce
  have hge := hba.reduce
  rcases reduce_cases a with ha | ha
  · rcases reduce_cases b with hb | hb
    · rw [ha, hb]
    · exact (hge.antisymm hle hb.notBottom).symm
  · exact hle.antisymm hge ha.notBottom

theorem Agrees.reduce_eq (h : v.Agrees) : v.reduce = v :=
  (reduce_finer v).antisymm (h.finer_reduce (.refl v))
    ((h.finer_reduce (.refl v)).not_isBottom h.notBottom)

theorem meet_finer_left (a b : Value) : (a.meet b).Finer a :=
  (reduce_finer _).trans
    ⟨Sign.meet_leq_left _ _, Nullability.meet_leq_left _ _, Interval.meet_leq_left _ _⟩

/-- Values that are not below it do not narrow a value. -/
theorem Agrees.meet_eq_self (ha : a.Agrees) (h : a.Finer b) : a.meet b = a := by
  have hempty := not_isEmpty_of_not_isBottom ha.notBottom
  have hle : a.Finer (a.meet b) := by
    apply ha.finer_reduce
    exact ⟨Sign.leq_meet (Sign.leq_refl _) h.sign,
      Nullability.leq_meet (Nullability.leq_refl _) h.nullability,
      Interval.leq_meet hempty ha.proper (Interval.leq_refl _) h.range⟩
  exact (hle.antisymm (meet_finer_left a b) ha.notBottom).symm

end Reducing

section Agreeing

theorem Agrees.not_isEmpty (h : v.Agrees) : v.range.isEmpty = false :=
  not_isEmpty_of_not_isBottom h.notBottom

theorem Agrees.join (ha : a.Agrees) (hb : b.Agrees) : (a.join b).Agrees := by
  have hnotBottom := not_isBottom_join_left ha.notBottom b
  have hleft : a.Finer (a.join b) := by
    rw [join_eq ha.notBottom hb.notBottom]
    exact ⟨Sign.leq_join_left _ _, Nullability.leq_join_left _ _, Interval.leq_join_left _ _⟩
  have hright : b.Finer (a.join b) := by
    rw [join_eq ha.notBottom hb.notBottom]
    exact ⟨Sign.leq_join_right _ _, Nullability.leq_join_right _ _, Interval.leq_join_right _ _⟩
  have hempty := not_isEmpty_of_not_isBottom hnotBottom
  refine ⟨hnotBottom, ?_, ?_, ?_⟩
  · obtain ⟨-, hlo, hhi⟩ := Interval.leq_iff.1 hleft.range ha.not_isEmpty
    refine ⟨fun h => ha.proper.lo (Bound.posInf_le (h ▸ hlo)),
      fun h => ha.proper.hi (Bound.le_negInf (h ▸ hhi))⟩
  · apply Sign.leq_antisymm
    · have hsign := Sign.join_leq (Interval.sign_leq_sign ha.not_isEmpty hleft.range)
        (Interval.sign_leq_sign hb.not_isEmpty hright.range)
      rw [← ha.sign, ← hb.sign] at hsign
      rw [join_eq ha.notBottom hb.notBottom] at hsign ⊢
      exact hsign
    · apply Interval.sign_leq_of_leq_ofSign hempty
      have ha' := Interval.leq_ofSign_sign ha.not_isEmpty
      have hb' := Interval.leq_ofSign_sign hb.not_isEmpty
      rw [← ha.sign] at ha'
      rw [← hb.sign] at hb'
      have hjoin := Interval.join_leq
        (Interval.leq_trans ha' (Interval.ofSign_leq_ofSign hleft.sign))
        (Interval.leq_trans hb' (Interval.ofSign_leq_ofSign hright.sign))
      rw [join_eq ha.notBottom hb.notBottom] at hjoin ⊢
      exact hjoin
  · intro hnum
    have hnull : (a.join b).nullability = a.nullability.join b.nullability := by
      rw [join_eq ha.notBottom hb.notBottom]
    rw [hnull, ha.nullability (hleft.isNumeric hnum), hb.nullability (hright.isNumeric hnum)]
    rfl

/-- Whether reducing changes nothing. -/
def IsReduced (v : Value) : Prop := v.reduce = v

theorem Agrees.isReduced (h : v.Agrees) : v.IsReduced := h.reduce_eq

theorem isReduced_bottom : bottom.IsReduced := rfl

theorem IsReduced.agrees (h : v.IsReduced) (hv : v.isBottom = false) : v.Agrees := by
  rw [IsReduced] at h
  rw [← h] at hv ⊢
  exact agrees_reduce hv

theorem isReduced_reduce (v : Value) : v.reduce.IsReduced := by
  rcases reduce_cases v with h | h
  · rw [h]
    exact isReduced_bottom
  · exact h.reduce_eq

theorem isReduced_make (s : Sign) (n : Nullability) (r : Interval) : (make s n r).IsReduced :=
  isReduced_reduce _

theorem IsReduced.ite {p : Prop} [Decidable p] (hv : v.IsReduced) (hw : w.IsReduced) :
    (if p then v else w).IsReduced := by
  split
  · exact hv
  · exact hw

theorem IsReduced.join (ha : a.IsReduced) (hb : b.IsReduced) : (a.join b).IsReduced := by
  cases hbottom : a.isBottom with
  | true => rwa [join_bottom_left hbottom]
  | false =>
      cases hbottom' : b.isBottom with
      | true => rwa [Value.join, hbottom, if_neg Bool.false_ne_true, if_pos hbottom']
      | false => exact ((ha.agrees hbottom).join (hb.agrees hbottom')).isReduced

theorem isReduced_top : top.IsReduced := rfl

theorem isReduced_notNull : notNull.IsReduced := rfl

theorem isReduced_none : none.IsReduced := rfl

theorem isReduced_constant (n : Int64) : (constant n).IsReduced := by
  have hbottom := not_isBottom_of_describes (describes_constant n)
  refine Agrees.isReduced ⟨hbottom, ?_, ?_, fun _ => rfl⟩
  · exact Interval.proper_of_isEmpty_between (not_isEmpty_of_not_isBottom hbottom)
  · exact (Interval.sign_constant n).symm

theorem isReduced_literal (l : Literal) : l.value.IsReduced := by
  cases l with
  | int | bool => exact isReduced_constant _
  | none => exact isReduced_none
  | str => exact isReduced_notNull

theorem isReduced_ofTruth (o : Option Bool) : (ofTruth o).IsReduced := by
  cases o with
  | none =>
      show anyBool.IsReduced
      exact isReduced_make _ _ _
  | some b => exact isReduced_constant _

theorem isReduced_binary (op : BinOp) (a b : Value) : (binary op a b).IsReduced := by
  refine isReduced_bottom.ite (.ite ?_ ?_)
  · cases op <;> first | exact isReduced_top | exact isReduced_notNull
  · cases op <;> first | exact isReduced_make _ _ _ | exact isReduced_notNull

theorem isReduced_unary (op : UnaryOp) (hv : v.IsReduced) : (unary op v).IsReduced := by
  refine hv.ite ?_
  cases op with
  | not => exact isReduced_ofTruth _
  | neg => exact hv.ite ((isReduced_make _ _ _).ite isReduced_notNull)
  | pos => exact hv.ite isReduced_notNull

theorem isReduced_comparison (op : CompOp) (a b : Value) : (comparison op a b).IsReduced :=
  isReduced_bottom.ite (isReduced_ofTruth _)

end Agreeing

end Value

end ValueFlow
