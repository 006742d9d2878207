import ValueFlow.Heap.Field
import ValueFlow.Proofs.Domain.Order
/-!
The order of the contents of fields.
-/

namespace ValueFlow

namespace HeapValue

variable {a b c : HeapValue} {op : Value → Value → Value}

theorem leq_iff : a.leq b = true ↔ a.abstraction.leq b.abstraction = true := by
  rw [leq, Bool.or_eq_true, decide_eq_true_eq]
  refine ⟨?_, .inr⟩
  rintro (rfl | h)
  · exact Value.leq_refl _
  · exact h

theorem leq_refl (a : HeapValue) : a.leq a = true := leq_iff.2 (Value.leq_refl _)

theorem leq_trans (hab : a.leq b = true) (hbc : b.leq c = true) : a.leq c = true :=
  leq_iff.2 (Value.leq_trans (leq_iff.1 hab) (leq_iff.1 hbc))

theorem leq_mergeBy_left (hop : ∀ v w : Value, v.leq (op v w) = true) (a b : HeapValue) :
    a.leq (mergeBy op a b) = true := by
  unfold mergeBy
  split
  · exact leq_refl a
  · exact leq_iff.2 (hop _ _)

theorem leq_mergeBy_right (hop : ∀ v w : Value, w.leq (op v w) = true) (a b : HeapValue) :
    b.leq (mergeBy op a b) = true := by
  unfold mergeBy
  split
  · next h => exact h ▸ leq_refl a
  · exact leq_iff.2 (hop _ _)

theorem leq_join_left (a b : HeapValue) : a.leq (a.join b) = true :=
  leq_mergeBy_left Value.leq_join_left a b

theorem leq_join_right (a b : HeapValue) : b.leq (a.join b) = true :=
  leq_mergeBy_right Value.leq_join_right a b

theorem join_leq (ha : a.leq c = true) (hb : b.leq c = true) : (a.join b).leq c = true := by
  unfold join mergeBy
  split
  · exact ha
  · exact leq_iff.2 (Value.join_leq (leq_iff.1 ha) (leq_iff.1 hb))

end HeapValue

namespace Slot

variable {s t u : Slot} {a b : HeapValue}

def join (s t : Slot) : Slot := s.mergeBy HeapValue.join t

/-- The slot for contents that need not be there. -/
def ofOption : Option HeapValue → Slot
  | some v => holds v
  | none => unset

@[simp] theorem join_unset (s : Slot) : s.join unset = s := by cases s <;> rfl

theorem join_holds_ne_unknown (h : s ≠ unknown) (v : HeapValue) : s.join (holds v) ≠ unknown := by
  cases s with
  | unknown => exact absurd rfl h
  | unset => exact fun h' => nomatch h'
  | holds a => exact fun h' => nomatch h'

theorem leq_unknown (s : Slot) : s.leq unknown = true := by cases s <;> rfl

theorem leq_refl (s : Slot) : s.leq s = true := by
  cases s with
  | unset => rfl
  | unknown => rfl
  | holds v => exact HeapValue.leq_refl v

theorem leq_trans (hst : s.leq t = true) (htu : t.leq u = true) : s.leq u = true := by
  cases s with
  | unset => rfl
  | unknown =>
      cases t with
      | unknown => exact htu
      | unset => cases hst
      | holds => cases hst
  | holds a =>
      cases u with
      | unknown => rfl
      | unset =>
          cases t with
          | unset => cases hst
          | unknown => cases htu
          | holds => cases htu
      | holds c =>
          cases t with
          | unset => cases hst
          | unknown => cases htu
          | holds b => exact HeapValue.leq_trans hst htu

theorem leq_mergeBy_left {op : HeapValue → HeapValue → HeapValue}
    (hop : ∀ a b : HeapValue, a.leq (op a b) = true) (s t : Slot) : s.leq (s.mergeBy op t) = true := by
  cases s with
  | unset => rfl
  | unknown => cases t <;> rfl
  | holds a =>
      cases t with
      | unset => exact HeapValue.leq_refl a
      | unknown => rfl
      | holds b => exact hop a b

theorem leq_mergeBy_right {op : HeapValue → HeapValue → HeapValue}
    (hop : ∀ a b : HeapValue, b.leq (op a b) = true) (s t : Slot) : t.leq (s.mergeBy op t) = true := by
  cases t with
  | unset => rfl
  | unknown => cases s <;> rfl
  | holds b =>
      cases s with
      | unset => exact HeapValue.leq_refl b
      | unknown => rfl
      | holds a => exact hop a b

theorem leq_join_left (s t : Slot) : s.leq (s.join t) = true :=
  leq_mergeBy_left HeapValue.leq_join_left s t

theorem leq_join_right (s t : Slot) : t.leq (s.join t) = true :=
  leq_mergeBy_right HeapValue.leq_join_right s t

theorem join_leq (hs : s.leq u = true) (ht : t.leq u = true) : (s.join t).leq u = true := by
  cases s with
  | unset => exact ht
  | unknown => cases t <;> exact hs
  | holds a =>
      cases t with
      | unset => exact hs
      | unknown => exact ht
      | holds b =>
          cases u with
          | unset => exact hs
          | unknown => rfl
          | holds c => exact HeapValue.join_leq hs ht

theorem join_mono_right (s : Slot) (h : t.leq u = true) : (s.join t).leq (s.join u) = true :=
  join_leq (leq_join_left s u) (leq_trans h (leq_join_right s u))

end Slot

end ValueFlow
