import ValueFlow.Analysis.Builtin
import ValueFlow.Analysis.Condition
import ValueFlow.Analysis.Evaluate
import ValueFlow.Proofs.Domain.Order
import ValueFlow.Proofs.Domain.Values
/-!
Joins of canonical values can be taken in any order.

A value is canonical if it describes something or is the canonical description of nothing. Every
operation on values gives canonical values, and on those the join is commutative and associative.
-/

namespace ValueFlow

namespace Bound

variable {a b c : Bound}

theorem lower_comm (a b : Bound) : a.lower b = b.lower a :=
  le_antisymm (le_lower (lower_le_right a b) (lower_le_left a b))
    (le_lower (lower_le_right b a) (lower_le_left b a))

theorem upper_comm (a b : Bound) : a.upper b = b.upper a :=
  le_antisymm (upper_le (le_upper_right b a) (le_upper_left b a))
    (upper_le (le_upper_right a b) (le_upper_left a b))

theorem lower_assoc (a b c : Bound) : (a.lower b).lower c = a.lower (b.lower c) := by
  refine le_antisymm (le_lower ?_ (le_lower ?_ (lower_le_right _ _)))
    (le_lower (le_lower (lower_le_left _ _) ?_) ?_)
  · exact le_trans (lower_le_left _ _) (lower_le_left _ _)
  · exact le_trans (lower_le_left _ _) (lower_le_right _ _)
  · exact le_trans (lower_le_right _ _) (lower_le_left _ _)
  · exact le_trans (lower_le_right _ _) (lower_le_right _ _)

theorem upper_assoc (a b c : Bound) : (a.upper b).upper c = a.upper (b.upper c) := by
  refine le_antisymm (upper_le (upper_le (le_upper_left _ _) ?_) ?_)
    (upper_le ?_ (upper_le ?_ (le_upper_right _ _)))
  · exact le_trans (le_upper_left _ _) (le_upper_right _ _)
  · exact le_trans (le_upper_right _ _) (le_upper_right _ _)
  · exact le_trans (le_upper_left _ _) (le_upper_left _ _)
  · exact le_trans (le_upper_right _ _) (le_upper_left _ _)

end Bound

namespace Sign

theorem join_comm (a b : Sign) : a.join b = b.join a := by
  cases a <;> cases b <;> rfl

theorem join_assoc (a b c : Sign) : (a.join b).join c = a.join (b.join c) := by
  cases a <;> cases b <;> cases c <;> rfl

theorem join_self (a : Sign) : a.join a = a := by cases a <;> rfl

end Sign

namespace Nullability

theorem join_comm (a b : Nullability) : a.join b = b.join a := by
  cases a <;> cases b <;> rfl

theorem join_assoc (a b c : Nullability) : (a.join b).join c = a.join (b.join c) := by
  cases a <;> cases b <;> cases c <;> rfl

theorem join_self (a : Nullability) : a.join a = a := by cases a <;> rfl

end Nullability

namespace Interval

variable {r s t : Interval}

theorem join_eq (hr : r.isEmpty = false) (hs : s.isEmpty = false) :
    r.join s = ⟨r.lo.lower s.lo, r.hi.upper s.hi⟩ := by
  rw [join, hr, hs, if_neg Bool.false_ne_true, if_neg Bool.false_ne_true]

theorem not_isEmpty_of_leq (hr : r.isEmpty = false) (h : r.leq s = true) : s.isEmpty = false :=
  (leq_iff.1 h hr).1

theorem join_self (hr : r.isEmpty = false) : r.join r = r := by
  rw [join_eq hr hr, Bound.lower, Bound.upper, ite_self, ite_self]

theorem join_comm (hr : r.isEmpty = false) (hs : s.isEmpty = false) : r.join s = s.join r := by
  rw [join_eq hr hs, join_eq hs hr, Bound.lower_comm, Bound.upper_comm]

theorem join_assoc (hr : r.isEmpty = false) (hs : s.isEmpty = false) (ht : t.isEmpty = false) :
    (r.join s).join t = r.join (s.join t) := by
  have hrs := not_isEmpty_of_leq hr (leq_join_left r s)
  have hst := not_isEmpty_of_leq hs (leq_join_left s t)
  rw [join_eq hrs ht, join_eq hr hst, join_eq hr hs, join_eq hs ht, Bound.lower_assoc,
    Bound.upper_assoc]

end Interval

namespace Value

/-- Whether a value describes something or is the canonical description of nothing. -/
def Canonical (v : Value) : Prop := v.isBottom = true → v = bottom

variable {a b c v w : Value}

theorem canonical_of_not_isBottom (h : v.isBottom = false) : v.Canonical :=
  fun hv => absurd (h.symm.trans hv) Bool.false_ne_true

theorem canonical_bottom : bottom.Canonical := fun _ => rfl

theorem Canonical.ite {p : Prop} [Decidable p] (hv : v.Canonical) (hw : w.Canonical) :
    (if p then v else w).Canonical := by
  split
  · exact hv
  · exact hw

theorem canonical_or_bottom (v : Value) : (if v.isBottom then bottom else v).Canonical := by
  split
  · exact canonical_bottom
  · next h => exact canonical_of_not_isBottom (Bool.eq_false_iff.2 h)

theorem canonical_reduce (v : Value) : v.reduce.Canonical :=
  canonical_bottom.ite (canonical_or_bottom _)

theorem canonical_make (sign : Sign) (nullability : Nullability) (range : Interval) :
    (make sign nullability range).Canonical := canonical_reduce _

theorem canonical_meet (a b : Value) : (a.meet b).Canonical := canonical_make _ _ _

theorem canonical_intIn (range : Interval) : (intIn range).Canonical := canonical_make _ _ _

theorem canonical_top : top.Canonical := canonical_of_not_isBottom rfl

theorem canonical_notNull : notNull.Canonical := canonical_of_not_isBottom rfl

theorem canonical_anyInt : anyInt.Canonical := canonical_notNull

theorem canonical_none : none.Canonical := canonical_of_not_isBottom rfl

theorem canonical_constant (n : Int64) : (constant n).Canonical :=
  canonical_of_not_isBottom (not_isBottom_of_describes (describes_constant n))

theorem canonical_ofBool (b : Bool) : (ofBool b).Canonical := canonical_constant _

theorem canonical_ofTruth (b : Option Bool) : (ofTruth b).Canonical := by
  cases b with
  | none =>
      show anyBool.Canonical
      exact canonical_intIn _
  | some b => exact canonical_ofBool b

theorem Canonical.join (ha : a.Canonical) (hb : b.Canonical) : (a.join b).Canonical := by
  intro h
  rw [ha (isBottom_of_leq (leq_join_left a b) h), hb (isBottom_of_leq (leq_join_right a b) h)]
  rfl

theorem Canonical.widen (ha : a.Canonical) (hb : b.Canonical) : (a.widen b).Canonical := by
  intro h
  rw [ha (isBottom_of_leq (leq_widen_left a b) h), hb (isBottom_of_leq (leq_widen_right a b) h)]
  rfl

theorem canonical_joinAll {vs : List Value} (h : ∀ v ∈ vs, v.Canonical) :
    (AbstractDomain.joinAll vs).Canonical :=
  List.foldlRecOn vs _ canonical_bottom fun _ ha _ hv => ha.join (h _ hv)

theorem canonical_negate (hv : v.Canonical) : v.negate.Canonical :=
  .ite hv (.ite (canonical_make _ _ _) canonical_anyInt)

theorem canonical_unary (op : UnaryOp) (hv : v.Canonical) : (unary op v).Canonical := by
  refine .ite hv ?_
  cases op with
  | not => exact canonical_ofTruth _
  | neg => exact canonical_negate hv
  | pos => exact .ite hv canonical_anyInt

theorem canonical_comparison (op : CompOp) (a b : Value) : (comparison op a b).Canonical :=
  .ite canonical_bottom (canonical_ofTruth _)

theorem canonical_binary (op : BinOp) (a b : Value) : (binary op a b).Canonical := by
  refine .ite canonical_bottom (.ite ?_ ?_)
  · cases op <;> first | exact canonical_top | exact canonical_anyInt
  · cases op <;> first | exact canonical_make _ _ _ | exact canonical_anyInt

theorem join_bottom_left (h : a.isBottom = true) (b : Value) : a.join b = b := by
  rw [join, if_pos h]

theorem join_eq (ha : a.isBottom = false) (hb : b.isBottom = false) :
    a.join b = ⟨a.sign.join b.sign, a.nullability.join b.nullability, a.range.join b.range⟩ := by
  rw [join, ha, hb, if_neg Bool.false_ne_true, if_neg Bool.false_ne_true]

theorem not_isEmpty_of_not_isBottom (h : v.isBottom = false) : v.range.isEmpty = false := by
  rw [isBottom, Bool.or_eq_false_iff] at h
  exact h.2

theorem not_isBottom_join_left (ha : a.isBottom = false) (b : Value) : (a.join b).isBottom = false :=
  Bool.eq_false_iff.2 fun h => absurd (ha.symm.trans (isBottom_of_leq (leq_join_left a b) h))
    Bool.false_ne_true

theorem join_of_canonical_bottom (ha : a.Canonical) (hb : b.isBottom = true) (hb' : b.Canonical) :
    a.join b = a := by
  cases h : a.isBottom with
  | true => rw [join_bottom_left h, ha h, hb' hb]
  | false => rw [join, h, if_neg Bool.false_ne_true, if_pos hb]

theorem join_self (v : Value) : v.join v = v := by
  cases h : v.isBottom with
  | true => exact join_bottom_left h v
  | false =>
      rw [join_eq h h, Sign.join_self, Nullability.join_self,
        Interval.join_self (not_isEmpty_of_not_isBottom h)]

/-- The order of two canonical values in a join does not matter. -/
theorem join_comm (ha : a.Canonical) (hb : b.Canonical) : a.join b = b.join a := by
  cases h : a.isBottom with
  | true => rw [join_bottom_left h, join_of_canonical_bottom hb h ha]
  | false =>
      cases h' : b.isBottom with
      | true => rw [join_of_canonical_bottom ha h' hb, join_bottom_left h']
      | false =>
          rw [join_eq h h', join_eq h' h, Sign.join_comm, Nullability.join_comm,
            Interval.join_comm (not_isEmpty_of_not_isBottom h) (not_isEmpty_of_not_isBottom h')]

/-- Canonical values can be joined in any grouping. -/
theorem join_assoc (ha : a.Canonical) (hb : b.Canonical) (hc : c.Canonical) :
    (a.join b).join c = a.join (b.join c) := by
  cases h : a.isBottom with
  | true => rw [join_bottom_left h, join_bottom_left h]
  | false =>
      cases h' : b.isBottom with
      | true => rw [join_of_canonical_bottom ha h' hb, join_bottom_left h']
      | false =>
          have hab := not_isBottom_join_left h b
          cases h'' : c.isBottom with
          | true =>
              rw [join_of_canonical_bottom (ha.join hb) h'' hc, join_of_canonical_bottom hb h'' hc]
          | false =>
              have hbc := not_isBottom_join_left h' c
              rw [join_eq hab h'', join_eq h hbc, join_eq h h', join_eq h' h'', Sign.join_assoc,
                Nullability.join_assoc, Interval.join_assoc (not_isEmpty_of_not_isBottom h)
                  (not_isEmpty_of_not_isBottom h') (not_isEmpty_of_not_isBottom h'')]

end Value

end ValueFlow
