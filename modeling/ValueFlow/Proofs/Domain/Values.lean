import Mathlib.Data.List.Forall2
import ValueFlow.Analysis.Evaluate
import ValueFlow.Proofs.Domain.Exact
import ValueFlow.Proofs.Domain.Intervals
/-!
Abstract values over-approximate the values of runs.

Whatever the operands describe, the results of operators describe the results of runs, known
outcomes are the outcomes of runs, and narrowing keeps every value that satisfies the condition.
Descriptions need not be reduced.
-/

namespace ValueFlow

namespace Nullability

variable {a b : Nullability}

theorem mayBeNonNull_join_left (h : a.mayBeNonNull = true) (b : Nullability) :
    (a.join b).mayBeNonNull = true := by
  revert h
  cases a <;> cases b <;> decide

theorem mayBeNonNull_join_right (h : b.mayBeNonNull = true) (a : Nullability) :
    (a.join b).mayBeNonNull = true := by
  revert h
  cases a <;> cases b <;> decide

theorem mayBeNull_join_left (h : a.mayBeNull = true) (b : Nullability) :
    (a.join b).mayBeNull = true := by
  revert h
  cases a <;> cases b <;> decide

theorem mayBeNull_join_right (h : b.mayBeNull = true) (a : Nullability) :
    (a.join b).mayBeNull = true := by
  revert h
  cases a <;> cases b <;> decide

theorem leq_top (a : Nullability) : a.leq .top = true := by cases a <;> decide

theorem top_join (b : Nullability) : join .top b = .top := by cases b <;> rfl

theorem join_top (a : Nullability) : a.join .top = .top := by cases a <;> rfl

theorem mayBeNonNull_meet (ha : a.mayBeNonNull = true) (hb : b.mayBeNonNull = true) :
    (a.meet b).mayBeNonNull = true := by
  revert ha hb
  cases a <;> cases b <;> decide

theorem mayBeNull_meet (ha : a.mayBeNull = true) (hb : b.mayBeNull = true) :
    (a.meet b).mayBeNull = true := by
  revert ha hb
  cases a <;> cases b <;> decide

theorem mayBeNonNull_mono (h : a.mayBeNonNull = true) (hle : a.leq b = true) :
    b.mayBeNonNull = true := by
  revert h hle
  cases a <;> cases b <;> decide

theorem mayBeNull_mono (h : a.mayBeNull = true) (hle : a.leq b = true) : b.mayBeNull = true := by
  revert h hle
  cases a <;> cases b <;> decide

end Nullability

namespace Value

variable {a b v w : Value} {n : Int64} {u : Scalar}

/-- Whether an integer of any size fits the components of a description. -/
structure Fits (v : Value) (n : Int) : Prop where
  nonNull : v.nullability.mayBeNonNull = true
  sign : v.sign.Admits n
  range : v.range.Holds n

theorem describes_int_iff : v.describes (.int n) = true ↔ v.Fits n.toInt := by
  rw [describes, containsInt, Bool.and_eq_true, Bool.and_eq_true, Sign.contains_iff,
    Interval.contains_iff]
  exact ⟨fun h => ⟨h.1.1, h.1.2, h.2⟩, fun h => ⟨⟨h.nonNull, h.sign⟩, h.range⟩⟩

theorem describes_none_iff : v.describes .none = true ↔
    v.nullability.mayBeNull = true ∧ v.sign = .top ∧ v.range = .top := by
  rw [describes, containsNone, Bool.and_eq_true, Bool.and_eq_true, decide_eq_true_eq,
    decide_eq_true_eq, and_assoc]

theorem Fits.not_isBottom {k : Int} (h : v.Fits k) : v.isBottom = false := by
  have hnull : v.nullability ≠ .bottom := fun he => by
    have := h.nonNull
    rw [he] at this
    cases this
  rw [isBottom, decide_eq_false h.sign.ne_bottom, decide_eq_false hnull, h.range.not_isEmpty]
  rfl

theorem not_isBottom_of_describes (h : v.describes u = true) : v.isBottom = false := by
  cases u with
  | int n => exact (describes_int_iff.1 h).not_isBottom
  | none =>
      obtain ⟨hnull, hsign, hrange⟩ := describes_none_iff.1 h
      rw [isBottom, hsign, hrange]
      cases hv : v.nullability with
      | bottom => rw [hv] at hnull; cases hnull
      | notNull | definitelyNull | nullable | top => rfl

theorem not_isNumeric_of_describes_none (h : v.describes .none = true) : v.isNumeric = false := by
  obtain ⟨-, hsign, hrange⟩ := describes_none_iff.1 h
  rw [isNumeric, hsign, hrange]
  rfl

/-- A numeric description describes only integers. -/
theorem exists_int_of_isNumeric (h : v.describes u = true) (hnum : v.isNumeric = true) :
    ∃ n, u = .int n := by
  cases u with
  | int n => exact ⟨n, rfl⟩
  | none =>
      rw [not_isNumeric_of_describes_none h] at hnum
      cases hnum

theorem fits_anyInt (k : Int) : anyInt.Fits k := ⟨rfl, Sign.admits_top k, Interval.holds_top k⟩

theorem fits_top (k : Int) : top.Fits k := ⟨rfl, Sign.admits_top k, Interval.holds_top k⟩

theorem describes_notNull (n : Int64) : notNull.describes (.int n) = true :=
  describes_int_iff.2 (fits_anyInt n.toInt)

theorem describes_anyInt (n : Int64) : anyInt.describes (.int n) = true := describes_notNull n

theorem describes_top (u : Scalar) : top.describes u = true := by
  cases u with
  | int n => exact describes_int_iff.2 (fits_top n.toInt)
  | none => rfl

theorem describes_constant (n : Int64) : (constant n).describes (.int n) = true :=
  describes_int_iff.2 ⟨rfl, Sign.admits_of n, Interval.holds_constant n⟩

theorem describes_ofBool (b : Bool) : (ofBool b).describes (.ofBool b) = true := by
  cases b <;> exact describes_constant _

section Reduction

theorem Fits.reduce {k : Int} (h : v.Fits k) : v.reduce.Fits k := by
  rw [Value.reduce, h.not_isBottom, if_neg Bool.false_ne_true]
  have hrange := h.range.meet (Interval.holds_ofSign h.sign)
  have hfits : Fits ⟨v.sign.meet (v.range.meet (.ofSign v.sign)).sign,
      if v.sign.meet (v.range.meet (.ofSign v.sign)).sign ≠ .top ∨
        v.range.meet (.ofSign v.sign) ≠ .top then v.nullability.meet .notNull else v.nullability,
      v.range.meet (.ofSign v.sign)⟩ k := by
    refine ⟨?_, h.sign.meet hrange.sign, hrange⟩
    show Nullability.mayBeNonNull (if _ then _ else _) = true
    split
    · exact Nullability.mayBeNonNull_meet h.nonNull rfl
    · exact h.nonNull
  dsimp only
  rw [hfits.not_isBottom]
  exact hfits

theorem describes_reduce (h : v.describes u = true) : v.reduce.describes u = true := by
  cases u with
  | int n => exact describes_int_iff.2 (describes_int_iff.1 h).reduce
  | none =>
      obtain ⟨s, nullability, r⟩ := v
      obtain ⟨hnull, hsign, hrange⟩ := describes_none_iff.1 h
      cases hsign
      cases hrange
      cases nullability with
      | bottom | notNull => cases hnull
      | definitelyNull | nullable | top => rfl

theorem fits_make {s : Sign} {nullability : Nullability} {r : Interval} {k : Int}
    (hnull : nullability.mayBeNonNull = true) (hs : s.Admits k) (hr : r.Holds k) :
    (make s nullability r).Fits k :=
  Fits.reduce ⟨hnull, hs, hr⟩

theorem describes_intIn {r : Interval} (h : r.Holds n.toInt) :
    (intIn r).describes (.int n) = true :=
  describes_int_iff.2 (fits_make rfl h.sign h)

theorem describes_anyBool (b : Bool) : anyBool.describes (.ofBool b) = true := by
  cases b <;> exact describes_intIn (Interval.contains_iff.1 (by decide))

theorem describes_ofTruth {o : Option Bool} {b : Bool} (h : ∀ b', o = some b' → b' = b) :
    (ofTruth o).describes (.ofBool b) = true := by
  cases o with
  | none => exact describes_anyBool b
  | some b' =>
      rw [h b' rfl]
      exact describes_ofBool b

end Reduction

section Lattice

/-- Whether every component of a description is above that of another. -/
structure Under (a b : Value) : Prop where
  sign : ∀ {n}, a.sign.Admits n → b.sign.Admits n
  sign_top : a.sign = .top → b.sign = .top
  nonNull : a.nullability.mayBeNonNull = true → b.nullability.mayBeNonNull = true
  null : a.nullability.mayBeNull = true → b.nullability.mayBeNull = true
  null_top : a.nullability = .top → b.nullability = .top
  range : ∀ {n}, a.range.Holds n → b.range.Holds n
  range_top : a.range = .top → b.range = .top

theorem Under.describes (h : a.Under b) (ha : a.describes u = true) : b.describes u = true := by
  cases u with
  | int n =>
      have ha := describes_int_iff.1 ha
      exact describes_int_iff.2 ⟨h.nonNull ha.nonNull, h.sign ha.sign, h.range ha.range⟩
  | none =>
      obtain ⟨hnull, hsign, hrange⟩ := describes_none_iff.1 ha
      exact describes_none_iff.2 ⟨h.null hnull, h.sign_top hsign, h.range_top hrange⟩

theorem under_join_left (a b : Value) :
    a.Under ⟨a.sign.join b.sign, a.nullability.join b.nullability, a.range.join b.range⟩ where
  sign h := h.join_left _
  sign_top h := by
    show a.sign.join b.sign = .top
    rw [h, Sign.top_join]
  nonNull h := Nullability.mayBeNonNull_join_left h _
  null h := Nullability.mayBeNull_join_left h _
  null_top h := by
    show a.nullability.join b.nullability = .top
    rw [h, Nullability.top_join]
  range h := h.join_left _
  range_top h := by
    show a.range.join b.range = .top
    rw [h, Interval.top_join]

theorem under_join_right (a b : Value) :
    b.Under ⟨a.sign.join b.sign, a.nullability.join b.nullability, a.range.join b.range⟩ where
  sign h := h.join_right _
  sign_top h := by
    show a.sign.join b.sign = .top
    rw [h, Sign.join_top]
  nonNull h := Nullability.mayBeNonNull_join_right h _
  null h := Nullability.mayBeNull_join_right h _
  null_top h := by
    show a.nullability.join b.nullability = .top
    rw [h, Nullability.join_top]
  range h := h.join_right _
  range_top h := by
    show a.range.join b.range = .top
    rw [h, Interval.join_top]

theorem under_widen_right (a b : Value) :
    b.Under ⟨a.sign.join b.sign, a.nullability.join b.nullability, a.range.widen b.range⟩ where
  sign := (under_join_right a b).sign
  sign_top := (under_join_right a b).sign_top
  nonNull := (under_join_right a b).nonNull
  null := (under_join_right a b).null
  null_top := (under_join_right a b).null_top
  range h := h.widen_right _
  range_top h := by
    show a.range.widen b.range = .top
    rw [h, Interval.widen_top]

theorem under_of_leq (hsign : a.sign.leq b.sign = true)
    (hnull : a.nullability.leq b.nullability = true) (hrange : a.range.leq b.range = true) :
    a.Under b where
  sign h := h.mono hsign
  sign_top h := by
    rw [h] at hsign
    cases hb : b.sign <;> rw [hb] at hsign <;> revert hsign <;> decide
  nonNull h := Nullability.mayBeNonNull_mono h hnull
  null h := Nullability.mayBeNull_mono h hnull
  null_top h := by
    rw [h] at hnull
    cases hb : b.nullability <;> rw [hb] at hnull <;> revert hnull <;> decide
  range h := h.mono hrange
  range_top h := Interval.eq_top_of_leq (h ▸ hrange)

theorem describes_join_left (h : a.describes u = true) (b : Value) :
    (a.join b).describes u = true := by
  rw [join, not_isBottom_of_describes h, if_neg Bool.false_ne_true]
  split
  · exact h
  · exact (under_join_left a b).describes h

theorem describes_join_right (h : b.describes u = true) (a : Value) :
    (a.join b).describes u = true := by
  rw [join, not_isBottom_of_describes h]
  split
  · exact h
  · exact (under_join_right a b).describes h

theorem describes_meet (ha : a.describes u = true) (hb : b.describes u = true) :
    (a.meet b).describes u = true := by
  refine describes_reduce ?_
  cases u with
  | int n =>
      have ha := describes_int_iff.1 ha
      have hb := describes_int_iff.1 hb
      exact describes_int_iff.2 ⟨Nullability.mayBeNonNull_meet ha.nonNull hb.nonNull,
        ha.sign.meet hb.sign, ha.range.meet hb.range⟩
  | none =>
      obtain ⟨hnull, hsign, hrange⟩ := describes_none_iff.1 ha
      obtain ⟨hnull', hsign', hrange'⟩ := describes_none_iff.1 hb
      refine describes_none_iff.2 ⟨Nullability.mayBeNull_meet hnull hnull', ?_, ?_⟩
      · rw [hsign, hsign']; rfl
      · rw [hrange, hrange']; rfl

end Lattice

section Operators

theorem ofInt?_eq_some {k : Int} (h : Scalar.ofInt? k = some u) :
    ∃ n, u = .int n ∧ n.toInt = k := by
  rw [Scalar.ofInt?] at h
  split at h
  · next hfits =>
      cases h
      exact ⟨_, rfl, Bound.toInt_ofInt_of_fits (Int.not_lt.2 hfits.1) (Int.not_lt.2 hfits.2)⟩
  · cases h

/-- Operators describe the exact results on described integers, reduced or not. -/
theorem fits_result {i j k : Int} {op : BinOp} (h : op.result? i j = some k) (ha : a.Fits i)
    (hb : b.Fits j) : (binary op a b).Fits k := by
  unfold binary
  rw [ha.not_isBottom, hb.not_isBottom]
  cases hnum : !a.isNumeric || !b.isNumeric with
  | true =>
      cases op with
      | add | mul => exact fits_top k
      | sub | floorDiv | mod | bitAnd | bitOr | bitXor => exact fits_anyInt k
  | false =>
      cases op with
      | add =>
          cases h
          exact fits_make rfl (ha.sign.add hb.sign) (ha.range.add hb.range)
      | sub =>
          cases h
          exact fits_make rfl (ha.sign.sub hb.sign) (ha.range.sub hb.range)
      | mul =>
          cases h
          exact fits_make rfl (ha.sign.mul hb.sign) (ha.range.mul hb.range)
      | floorDiv =>
          obtain ⟨-, h⟩ := Option.ite_none_left_eq_some.1 h
          cases h
          exact fits_make rfl (ha.sign.floorDiv hb.sign) (ha.range.floorDiv hb.range)
      | mod =>
          obtain ⟨-, h⟩ := Option.ite_none_left_eq_some.1 h
          cases h
          exact fits_make rfl (ha.sign.modulo hb.sign) (ha.range.modulo hb.range)
      | bitAnd | bitOr | bitXor => exact fits_anyInt k

theorem Fits.negate {i : Int} (h : v.Fits i) : v.negate.Fits (-i) := by
  rw [Value.negate, h.not_isBottom, if_neg Bool.false_ne_true]
  split
  · exact fits_make rfl h.sign.negate h.range.negate
  · exact fits_anyInt _

theorem describes_binary {op : BinOp} {x y : Scalar} (h : Scalar.binary? op x y = some u)
    (ha : a.describes x = true) (hb : b.describes y = true) :
    (binary op a b).describes u = true := by
  cases x with
  | none => cases h
  | int n =>
      cases y with
      | none => cases h
      | int m =>
          have h : Scalar.arith? n m op = some u := h
          rw [Scalar.arith?_eq] at h
          obtain ⟨_, hexact, h⟩ := Option.bind_eq_some_iff.1 h
          obtain ⟨k, rfl, rfl⟩ := ofInt?_eq_some h
          exact describes_int_iff.2
            (fits_result hexact (describes_int_iff.1 ha) (describes_int_iff.1 hb))

/-- The truth that is known is that of every described value. -/
theorem truth_of_truthiness {o : Bool} (h : v.describes u = true) (ho : v.truthiness = some o) :
    u.truth = o := by
  rw [truthiness, not_isBottom_of_describes h, if_neg Bool.false_ne_true] at ho
  split at ho
  · next hnull =>
      cases u with
      | none => exact Option.some.inj ho
      | int n =>
          have := (describes_int_iff.1 h).nonNull
          rw [hnull] at this
          cases this
  · split at ho
    · next hnum =>
        rw [Bool.and_eq_true, decide_eq_true_eq] at hnum
        obtain ⟨n, rfl⟩ := exists_int_of_isNumeric h hnum.1
        have hfits := describes_int_iff.1 h
        have hzero : n = 0 ↔ n.toInt = 0 := ⟨fun h => h ▸ rfl, fun h => Int64.toInt.inj h⟩
        rw [Scalar.truth]
        split at ho
        · next hconst =>
            cases ho
            exact decide_eq_false (not_not_intro (hzero.2 (hfits.range.eq_constant hconst)))
        · split at ho
          · cases ho
          · next hnot =>
              cases ho
              refine decide_eq_true fun hn => hnot (Interval.contains_iff.2 ?_)
              have := hfits.range
              rwa [hzero.1 hn] at this
    · cases ho

theorem describes_unary {op : UnaryOp} {x : Scalar} (h : Scalar.unary? op x = some u)
    (hv : v.describes x = true) : (unary op v).describes u = true := by
  unfold unary
  rw [not_isBottom_of_describes hv, if_neg Bool.false_ne_true]
  cases op with
  | not =>
      cases h
      refine describes_ofTruth fun b' hb' => ?_
      obtain ⟨o, ho, rfl⟩ := Option.map_eq_some_iff.1 hb'
      rw [truth_of_truthiness hv ho]
  | neg =>
      cases x with
      | none => cases h
      | int n =>
          obtain ⟨k, rfl, hk⟩ := ofInt?_eq_some h
          apply describes_int_iff.2
          rw [hk]
          exact (describes_int_iff.1 hv).negate
  | pos =>
      cases x with
      | none => cases h
      | int n =>
          cases h
          show (if v.isNumeric then v else anyInt).describes _ = true
          split
          · exact hv
          · exact describes_anyInt n

end Operators

section Comparison

variable {x y : Scalar} {o o' : Bool}

theorem eq_none_of_definitelyNull (h : v.describes u = true)
    (hnull : v.nullability = .definitelyNull) : u = .none := by
  cases u with
  | none => rfl
  | int n =>
      have := (describes_int_iff.1 h).nonNull
      rw [hnull] at this
      cases this

theorem ne_none_of_notNull (h : v.describes u = true) (hnull : v.nullability = .notNull) :
    u ≠ .none := by
  rintro rfl
  have := (describes_none_iff.1 h).1
  rw [hnull] at this
  cases this

variable (ha : a.describes x = true) (hb : b.describes y = true)
include ha hb

theorem eq_of_identicalToNone? (h : identicalToNone? a b = some o) : o = decide (x = y) := by
  rw [identicalToNone?] at h
  split at h
  · next hna hnb =>
      cases h
      rw [eq_none_of_definitelyNull ha hna, eq_none_of_definitelyNull hb hnb]
      rfl
  · next hna hnb =>
      cases h
      rw [eq_none_of_definitelyNull ha hna]
      exact (decide_eq_false fun he => ne_none_of_notNull hb hnb he.symm).symm
  · next hna hnb =>
      cases h
      rw [eq_none_of_definitelyNull hb hnb]
      exact (decide_eq_false (ne_none_of_notNull ha hna)).symm
  · cases h

theorem eq_of_numericEquality? (h : numericEquality? a b = some o) : o = decide (x = y) := by
  rw [numericEquality?] at h
  split at h
  · cases h
  · next hnum =>
      rw [Bool.or_eq_true, not_or, Bool.not_eq_true, Bool.not_eq_true, Bool.not_eq_false',
        Bool.not_eq_false'] at hnum
      obtain ⟨m, rfl⟩ := exists_int_of_isNumeric ha hnum.1
      obtain ⟨n, rfl⟩ := exists_int_of_isNumeric hb hnum.2
      have hm := (describes_int_iff.1 ha).range
      have hn := (describes_int_iff.1 hb).range
      split at h
      · next hca hcb =>
          cases h
          rw [Int64.toInt.inj (hm.eq_constant hca), Int64.toInt.inj (hn.eq_constant hcb)]
          simp only [Scalar.int.injEq]
          exact Bool.beq_eq_decide_eq _ _
      · split at h
        · next hempty =>
            cases h
            refine (decide_eq_false fun he => ?_).symm
            cases he
            rw [(hm.meet hn).not_isEmpty] at hempty
            cases hempty
        · cases h

/-- The outcome that is known of two orders of bounds. -/
theorem eq_of_order {yes no : Bool} {p : Int → Int → Prop} [DecidableRel p]
    (h : (if !a.isNumeric || !b.isNumeric then .none
      else if yes then some true else if no then some false else .none) = some o')
    (hyes : yes = true → ∀ {m n}, a.range.Holds m → b.range.Holds n → p m n)
    (hno : no = true → ∀ {m n}, a.range.Holds m → b.range.Holds n → ¬ p m n) :
    ∃ m n : Int64, x = .int m ∧ y = .int n ∧ o' = decide (p m.toInt n.toInt) := by
  split at h
  · cases h
  · next hnum =>
      rw [Bool.or_eq_true, not_or, Bool.not_eq_true, Bool.not_eq_true, Bool.not_eq_false',
        Bool.not_eq_false'] at hnum
      obtain ⟨m, rfl⟩ := exists_int_of_isNumeric ha hnum.1
      obtain ⟨n, rfl⟩ := exists_int_of_isNumeric hb hnum.2
      have hm := (describes_int_iff.1 ha).range
      have hn := (describes_int_iff.1 hb).range
      refine ⟨m, n, rfl, rfl, ?_⟩
      split at h
      · next hy =>
          cases h
          exact (decide_eq_true (hyes hy hm hn)).symm
      · split at h
        · next hy =>
            cases h
            exact (decide_eq_false (hno hy hm hn)).symm
        · cases h

/-- The outcome that is known is that of every pair of described values. -/
theorem eq_of_compare? {op : CompOp} (h : Scalar.compare? op x y = some o)
    (h' : compare? op a b = some o') : o' = o := by
  unfold compare? at h'
  rw [not_isBottom_of_describes ha, not_isBottom_of_describes hb] at h'
  have equal : ∀ {t}, (identicalToNone? a b).or (numericEquality? a b) = some t →
      t = decide (x = y) := by
    intro t ht
    rcases Option.or_eq_some_iff.1 ht with h | ⟨-, h⟩
    · exact eq_of_identicalToNone? ha hb h
    · exact eq_of_numericEquality? ha hb h
  cases op with
  | eq =>
      cases h
      exact equal h'
  | notEq =>
      cases h
      obtain ⟨t, ht, rfl⟩ := Option.map_eq_some_iff.1 h'
      rw [equal ht, decide_not]
  | is =>
      rw [Scalar.compare?_is h]
      exact eq_of_identicalToNone? ha hb h'
  | isNot =>
      obtain ⟨t, ht, rfl⟩ := Option.map_eq_some_iff.1 h'
      rw [Scalar.compare?_isNot h, eq_of_identicalToNone? ha hb ht, decide_not]
  | lt =>
      obtain ⟨m, n, rfl, rfl, rfl⟩ := eq_of_order ha hb h'
        (fun hy _ _ hm hn => Bound.lt_of_isAbove_of_isBelow hm.hi hn.lo (of_decide_eq_true hy))
        (fun hy _ _ hm hn => Int.not_lt.2
          (Bound.le_of_isAbove_of_isBelow hn.hi hm.lo (of_decide_eq_true hy)))
      cases h
      exact decide_eq_decide.2 Int64.lt_iff_toInt_lt.symm
  | ltE =>
      obtain ⟨m, n, rfl, rfl, rfl⟩ := eq_of_order ha hb h'
        (fun hy _ _ hm hn => Bound.le_of_isAbove_of_isBelow hm.hi hn.lo (of_decide_eq_true hy))
        (fun hy _ _ hm hn => Int.not_le.2
          (Bound.lt_of_isAbove_of_isBelow hn.hi hm.lo (of_decide_eq_true hy)))
      cases h
      exact decide_eq_decide.2 Int64.le_iff_toInt_le.symm
  | gt =>
      obtain ⟨m, n, rfl, rfl, rfl⟩ := eq_of_order ha hb h'
        (fun hy _ _ hm hn => Bound.lt_of_isAbove_of_isBelow hn.hi hm.lo (of_decide_eq_true hy))
        (fun hy _ _ hm hn => Int.not_lt.2
          (Bound.le_of_isAbove_of_isBelow hm.hi hn.lo (of_decide_eq_true hy)))
      cases h
      exact decide_eq_decide.2 Int64.lt_iff_toInt_lt.symm
  | gtE =>
      obtain ⟨m, n, rfl, rfl, rfl⟩ := eq_of_order ha hb h'
        (fun hy _ _ hm hn => Bound.le_of_isAbove_of_isBelow hn.hi hm.lo (of_decide_eq_true hy))
        (fun hy _ _ hm hn => Int.not_le.2
          (Bound.lt_of_isAbove_of_isBelow hm.hi hn.lo (of_decide_eq_true hy)))
      cases h
      exact decide_eq_decide.2 Int64.le_iff_toInt_le.symm

theorem describes_comparison {op : CompOp} (h : Scalar.compare? op x y = some o) :
    (comparison op a b).describes (.ofBool o) = true := by
  rw [comparison, not_isBottom_of_describes ha, not_isBottom_of_describes hb]
  exact describes_ofTruth fun o' ho' => eq_of_compare? ha hb h ho'

end Comparison

section Narrowing

/-- Excluding an integer keeps every other value. -/
theorem describes_exclude (h : v.describes u = true) (hne : u ≠ .int n) :
    (v.exclude n).describes u = true := by
  refine describes_reduce ?_
  cases u with
  | none =>
      obtain ⟨hnull, hsign, hrange⟩ := describes_none_iff.1 h
      refine describes_none_iff.2 ⟨hnull, ?_, ?_⟩
      · rw [hsign, if_neg fun hn => nomatch hn.2]
      · rw [hrange]
        rfl
  | int m =>
      have hfits := describes_int_iff.1 h
      have hmn : m.toInt ≠ n.toInt := fun he => hne (congrArg _ (Int64.toInt.inj he))
      refine describes_int_iff.2 ⟨hfits.nonNull, ?_, (hfits.range.dropLow hmn).dropHigh hmn⟩
      show Sign.Admits (if _ then _ else _) _
      split
      · next hzero =>
          have hsign := hfits.sign
          rw [← hzero.2] at hsign
          exact absurd ((Sign.eq_zero_of_admits_meet_zero hsign).trans (hzero.1 ▸ rfl)) hmn
      · exact hfits.sign

theorem describes_truthy (h : v.describes u = true) (htrue : u.truth = true) :
    v.truthy.describes u = true := by
  cases u with
  | none => cases htrue
  | int n =>
      have hmeet := describes_meet h (describes_notNull n)
      show (if (v.meet .notNull).isNumeric then (v.meet .notNull).exclude 0
        else v.meet .notNull).describes _ = true
      split
      · refine describes_exclude hmeet fun he => ?_
        cases he
        cases htrue
      · exact hmeet

theorem describes_falsy (h : v.describes u = true) (hfalse : u.truth = false) :
    v.falsy.describes u = true := by
  rw [falsy]
  split
  · next hnum =>
      obtain ⟨n, rfl⟩ := exists_int_of_isNumeric h hnum
      have hn : n = 0 := Classical.byContradiction fun hn => by
        rw [Scalar.truth, decide_eq_true hn] at hfalse
        cases hfalse
      subst hn
      exact describes_meet h (describes_constant 0)
  · exact h

/-- Narrowing to an interval keeps the integers that it holds. -/
theorem describes_within {w : Value} {r : Interval} (hv : v.describes (.int n) = true)
    (hr : r.Holds n.toInt) :
    (if w.isNumeric then v.meet (intIn r) else v).describes (.int n) = true := by
  split
  · exact describes_meet hv (describes_intIn hr)
  · exact hv

theorem describes_none_self : none.describes .none = true := rfl

theorem ne_none_iff : u ≠ .none ↔ ∃ n, u = .int n := by
  cases u with
  | int n => exact ⟨fun _ => ⟨n, rfl⟩, fun _ => (nomatch ·)⟩
  | none => exact ⟨fun h => absurd rfl h, fun ⟨_, h⟩ => nomatch h⟩

theorem describes_notNull_of_ne (h : u ≠ .none) : notNull.describes u = true := by
  obtain ⟨n, rfl⟩ := ne_none_iff.1 h
  exact describes_notNull n

/-- A description with one integer describes nothing else. -/
theorem eq_int_of_constant? (h : v.describes u = true) (hc : v.range.constant? = some n) :
    u = .int n := by
  cases u with
  | none =>
      rw [(describes_none_iff.1 h).2.2] at hc
      cases hc
  | int m =>
      exact congrArg _ (Int64.toInt.inj ((describes_int_iff.1 h).range.eq_constant hc))

/-- Narrowing by being unequal keeps every value that differs from the other side. -/
theorem describes_apart {y : Scalar} (hv : v.describes u = true) (hw : w.describes y = true)
    (hne : u ≠ y) :
    (if w.nullability = .definitelyNull then v.meet notNull
      else match w.range.constant? with
        | some c => if v.isNumeric then v.exclude c else v
        | .none => v).describes u = true := by
  split
  · next hnull =>
      rw [eq_none_of_definitelyNull hw hnull] at hne
      exact describes_meet hv (describes_notNull_of_ne hne)
  · split
    · next c hc =>
        split
        · refine describes_exclude hv fun he => hne ?_
          rw [he, eq_int_of_constant? hw hc]
        · exact hv
    · exact hv

/-- Restricting a description keeps every value that compares as asked. -/
theorem describes_restrict {op : CompOp} {y : Scalar} (hv : v.describes u = true)
    (hw : w.describes y = true) (h : Scalar.compare? op u y = some true) :
    (v.restrict op w).describes u = true := by
  cases op with
  | lt =>
      obtain ⟨m, n, rfl, rfl, hlt⟩ := Scalar.compare?_lt h
      exact describes_within hv (Interval.holds_between trivial
        (Bound.isAbove_pred (describes_int_iff.1 hw).range.hi hlt))
  | ltE =>
      obtain ⟨m, n, rfl, rfl, hle⟩ := Scalar.compare?_ltE h
      exact describes_within hv (Interval.holds_between trivial
        ((describes_int_iff.1 hw).range.hi.trans_le hle))
  | gt =>
      rw [← Scalar.compare?_flip] at h
      obtain ⟨m, n, rfl, rfl, hlt⟩ := Scalar.compare?_lt h
      exact describes_within hv (Interval.holds_between
        (Bound.isBelow_succ (describes_int_iff.1 hw).range.lo hlt) trivial)
  | gtE =>
      rw [← Scalar.compare?_flip] at h
      obtain ⟨m, n, rfl, rfl, hle⟩ := Scalar.compare?_ltE h
      exact describes_within hv (Interval.holds_between
        ((describes_int_iff.1 hw).range.lo.trans_le hle) trivial)
  | eq =>
      have he : u = y := of_decide_eq_true (Option.some.inj h)
      subst he
      show (if _ then _ else if _ then _ else _ : Value).describes u = true
      split
      · next hnull =>
          rw [eq_none_of_definitelyNull hw hnull] at hv ⊢
          exact describes_meet hv describes_none_self
      · split
        · exact describes_meet hv hw
        · exact hv
  | is =>
      have he : u = y := of_decide_eq_true (Scalar.compare?_is h).symm
      subst he
      show (if _ then _ else if _ then _ else _ : Value).describes u = true
      split
      · next hnull =>
          rw [eq_none_of_definitelyNull hw hnull] at hv ⊢
          exact describes_meet hv describes_none_self
      · split
        · next hnull =>
            exact describes_meet hv (describes_notNull_of_ne (ne_none_of_notNull hw hnull))
        · exact hv
  | notEq => exact describes_apart hv hw (of_decide_eq_true (Option.some.inj h))
  | isNot => exact describes_apart hv hw (of_decide_eq_true (Scalar.compare?_isNot h).symm)

end Narrowing

section Ranges

variable {k : Int}

theorem describes_element {r : Interval} (h : Scalar.ofInt? k = some u) (hr : r.Holds k) :
    (intIn r).describes u = true := by
  obtain ⟨n, rfl, rfl⟩ := ofInt?_eq_some h
  exact describes_intIn hr

theorem describes_anyInt_of_ofInt? (h : Scalar.ofInt? k = some u) :
    anyInt.describes u = true := by
  obtain ⟨n, rfl, rfl⟩ := ofInt?_eq_some h
  exact describes_anyInt n

/-- What a loop over a range binds describes every integer of the range. -/
theorem describes_rangeElement {args : List Value} {vs : List Scalar} {ks : List Int}
    (hargs : List.Forall₂ (fun a v => a.describes v = true) args vs)
    (hks : Scalar.range? vs = some ks) (hmem : k ∈ ks) (hu : Scalar.ofInt? k = some u) :
    (Builtin.rangeElement args).describes u = true := by
  unfold Scalar.range? at hks
  split at hks
  · next stop =>
      cases hargs with
      | cons hstop hrest =>
          cases hrest
          cases hks
          obtain ⟨hlo, hhi⟩ := Scalar.lt_of_mem_steps hmem
          show (if _ then _ else _ : Value).describes u = true
          split
          · exact describes_element hu (Interval.holds_between hlo
              (Bound.isAbove_pred (describes_int_iff.1 hstop).range.hi hhi))
          · exact describes_element hu (Interval.holds_between hlo trivial)
  · next start stop =>
      cases hargs with
      | cons hstart hrest =>
          cases hrest with
          | cons hstop hnil =>
              cases hnil
              cases hks
              obtain ⟨hlo, hhi⟩ := Scalar.lt_of_mem_steps hmem
              show (if _ then intIn (.between _ (if _ then _ else _)) else _ : Value).describes u
                = true
              split
              · refine describes_element hu (Interval.holds_between
                  ((describes_int_iff.1 hstart).range.lo.trans_le hlo) ?_)
                split
                · exact Bound.isAbove_pred (describes_int_iff.1 hstop).range.hi hhi
                · exact trivial
              · exact describes_anyInt_of_ofInt? hu
  · cases hargs with
    | cons _ hrest =>
        cases hrest with
        | cons _ hrest =>
            cases hrest with
            | cons _ hnil =>
                cases hnil
                exact describes_anyInt_of_ofInt? hu
  · cases hks

end Ranges

end Value

end ValueFlow
