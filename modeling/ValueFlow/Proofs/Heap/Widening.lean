import Mathlib.Data.Finset.Prod
import ValueFlow.Proofs.Domain.Widening
import ValueFlow.Proofs.Heap.Lattice
import ValueFlow.Proofs.Sequences
/-!
Widening heaps again and again.

The contents of a field change only a few times: first they become merged contents, and then each
change makes the merged value looser. The sets of a heap change at most once for each member, as
they only grow or only shrink. Over finitely many objects and fields a sequence of widenings is
therefore constant from some point on.
-/

namespace ValueFlow

namespace HeapValue

variable {a b : HeapValue}

/-- How much contents leave open: nothing as long as they were not merged. -/
def looseness : HeapValue → Nat
  | merged v => v.looseness + 1
  | _ => 0

theorem looseness_le (a : HeapValue) : a.looseness ≤ 8 := by
  cases a with
  | merged v => exact Nat.succ_le_succ v.looseness_le
  | _ => exact Nat.zero_le _

theorem widen_of_ne (h : a ≠ b) (n : Nat) :
    a.widen b n = .merged (a.abstraction.widen b.abstraction) := if_neg h

/-- Widening contents changes nothing or makes them looser. -/
theorem widen_eq_or_looseness_lt (ha : a.Canonical) (hb : b.Canonical) (n : Nat) :
    a.widen b n = a ∨ a.looseness < (a.widen b n).looseness := by
  by_cases h : a = b
  · exact .inl (if_pos h)
  · rw [widen_of_ne h]
    cases a with
    | merged v =>
        rcases Value.widen_eq_or_looseness_lt ha hb with hv | hv
        · exact .inl (congrArg merged hv)
        · exact .inr (Nat.succ_lt_succ hv)
    | _ => exact .inr (Nat.succ_pos _)

theorem Canonical.widen (ha : a.Canonical) (hb : b.Canonical) (n : Nat) :
    (a.widen b n).Canonical := ha.mergeBy (fun _ _ => Value.Canonical.widen) hb

end HeapValue

namespace Slot

variable {s t : Slot}

def looseness : Slot → Nat
  | unset => 0
  | holds a => a.looseness + 1
  | unknown => 10

theorem looseness_le (s : Slot) : s.looseness ≤ 10 := by
  cases s with
  | unset => exact Nat.zero_le _
  | holds a => exact Nat.succ_le_succ (Nat.le_succ_of_le a.looseness_le)
  | unknown => exact Nat.le_refl _

theorem widen_eq_or_looseness_lt (hs : s.Canonical) (ht : t.Canonical) (n : Nat) :
    s.mergeBy (fun a b => a.widen b n) t = s ∨
      s.looseness < (s.mergeBy (fun a b => a.widen b n) t).looseness := by
  cases s with
  | unset =>
      cases t with
      | unset => exact .inl rfl
      | unknown | holds => exact .inr (Nat.succ_pos _)
  | unknown => cases t <;> exact .inl rfl
  | holds a =>
      cases t with
      | unset => exact .inl rfl
      | unknown => exact .inr (Nat.succ_lt_succ (Nat.lt_succ_of_le a.looseness_le))
      | holds b =>
          rcases HeapValue.widen_eq_or_looseness_lt (hs a rfl) (ht b rfl) n with h | h
          · exact .inl (congrArg holds h)
          · exact .inr (Nat.succ_lt_succ h)

end Slot

/-- How much a log of writes to one field leaves open. -/
def logLooseness (log : Option HeapValue) : Nat := log.elim 0 (·.looseness + 1)

theorem logLooseness_le (log : Option HeapValue) : logLooseness log ≤ 9 := by
  cases log with
  | none => exact Nat.zero_le _
  | some a => exact Nat.succ_le_succ a.looseness_le

theorem merge_widen_eq_or_logLooseness_lt {a b : Option HeapValue} (ha : ∀ v ∈ a, v.Canonical)
    (hb : ∀ v ∈ b, v.Canonical) (n : Nat) :
    Option.merge (fun v w => v.widen w n) a b = a ∨
      logLooseness a < logLooseness (Option.merge (fun v w => v.widen w n) a b) := by
  cases a with
  | none =>
      cases b with
      | none => exact .inl rfl
      | some w => exact .inr (Nat.succ_pos _)
  | some v =>
      cases b with
      | none => exact .inl rfl
      | some w =>
          rcases HeapValue.widen_eq_or_looseness_lt (ha v rfl) (hb w rfl) n with h | h
          · exact .inl (congrArg some h)
          · exact .inr (Nat.succ_lt_succ h)

namespace Heap

variable {h k : Heap} {objects : Finset Nat} {fields : Finset HeapField}

/-- Whether a heap says something only about some objects and fields. -/
structure Within (objects : Finset Nat) (fields : Finset HeapField) (h : Heap) : Prop where
  entries : ∀ key v, h.fields.get? key = some v → key ∈ objects ×ˢ fields
  initialized : ∀ o ∈ h.initialized, o ∈ objects
  allocated : ∀ o ∈ h.allocated, o ∈ objects
  summary : ∀ o ∈ h.summary, o ∈ objects
  mustWritten : ∀ key ∈ h.mustWritten, key ∈ objects ×ˢ fields
  mayWritten : ∀ key v, h.mayWritten.get? key = some v → key ∈ objects ×ˢ fields
  invalidated : ∀ o ∈ h.invalidated, o ∈ objects

theorem within_bottom : bottom.Within objects fields where
  entries _ _ h := nomatch h
  initialized _ h := nomatch h
  allocated _ h := nomatch h
  summary _ h := nomatch h
  mustWritten _ h := nomatch h
  mayWritten _ _ h := nomatch h
  invalidated _ h := nomatch h

theorem Within.mergeBy {op : HeapValue → HeapValue → HeapValue} (hh : h.Within objects fields)
    (hk : k.Within objects fields) : (h.mergeBy op k).Within objects fields := by
  cases hr : h.reachable with
  | false =>
      rw [mergeBy_of_unreachable_left hr]
      exact hk
  | true =>
      cases hr' : k.reachable with
      | false =>
          rw [mergeBy_of_unreachable_right hr hr']
          exact hh
      | true =>
          obtain ⟨hallocated, hsummary⟩ : (h.mergeBy op k).allocated = _ ∧
            (h.mergeBy op k).summary = _ := mergeBy_eq hr hr'
          obtain ⟨hinit, hmust, hmay, hinv⟩ : (h.mergeBy op k).initialized = _ ∧
            (h.mergeBy op k).mustWritten = _ ∧ (h.mergeBy op k).mayWritten = _ ∧
              (h.mergeBy op k).invalidated = _ := mergeBy_of_reachable hr hr'
          constructor
          · intro key v hv
            rw [← value?_slot, slot_mergeBy hr hr'] at hv
            cases hs : h.fields.get? key with
            | some a => exact hh.entries key a hs
            | none =>
                cases ht : k.fields.get? key with
                | some b => exact hk.entries key b ht
                | none =>
                    rw [slot_eq h, slot_eq k, hs, ht] at hv
                    revert hv
                    cases h.initialized.contains key.1 <;> cases k.initialized.contains key.1 <;>
                      exact fun hv => nomatch hv
          · exact fun o ho => hh.initialized o (SortedSet.mem_inter.1 (hinit ▸ ho)).1
          · exact fun o ho => (SortedSet.mem_union.1 (hallocated ▸ ho)).elim (hh.allocated o)
              (hk.allocated o)
          · exact fun o ho => (SortedSet.mem_union.1 (hsummary ▸ ho)).elim (hh.summary o)
              (hk.summary o)
          · exact fun key hkey => hh.mustWritten key (SortedSet.mem_inter.1 (hmust ▸ hkey)).1
          · intro key v hv
            rw [hmay, SortedMap.get?_unionWith] at hv
            cases hs : h.mayWritten.get? key with
            | some a => exact hh.mayWritten key a hs
            | none =>
                rw [hs, Option.merge_none_left] at hv
                exact hk.mayWritten key v hv
          · exact fun o ho => (SortedSet.mem_union.1 (hinv ▸ ho)).elim (hh.invalidated o)
              (hk.invalidated o)

/-- What is known of an object as a whole. -/
def objectPart (h : Heap) (o : Nat) : Bool × Bool × Bool × Bool :=
  (h.initialized.contains o, h.allocated.contains o, h.summary.contains o, h.invalidated.contains o)

def fieldPart (h : Heap) (key : FieldKey) : Slot × Bool × Option HeapValue :=
  (h.slot key, h.mustWritten.contains key, h.mayWritten.get? key)

theorem Within.ext (hh : h.Within objects fields) (hk : k.Within objects fields)
    (hr : h.reachable = k.reachable) (hobjects : ∀ o ∈ objects, h.objectPart o = k.objectPart o)
    (hfields : ∀ key ∈ objects ×ˢ fields, h.fieldPart key = k.fieldPart key) : h = k := by
  have hset {α : Type} [SortKey α] {s t : SortedSet α} {P : α → Prop} (hs : ∀ a ∈ s, P a)
      (ht : ∀ a ∈ t, P a) (heq : ∀ a, P a → s.contains a = t.contains a) (a : α) :
      a ∈ s ↔ a ∈ t := by
    rw [← SortedSet.contains_iff, ← SortedSet.contains_iff]
    constructor
    · intro ha
      rwa [← heq a (hs a (SortedSet.contains_iff.1 ha))]
    · intro ha
      rwa [heq a (ht a (SortedSet.contains_iff.1 ha))]
  have hmap {m n : SortedMap FieldKey HeapValue} {P : FieldKey → Prop}
      (hm : ∀ key v, m.get? key = some v → P key) (hn : ∀ key v, n.get? key = some v → P key)
      (heq : ∀ key, P key → m.get? key = n.get? key) (key : FieldKey) :
      m.get? key = n.get? key := by
    refine Option.ext fun v => ⟨fun hv => ?_, fun hv => ?_⟩
    · rwa [← heq key (hm key v hv)]
    · rwa [heq key (hn key v hv)]
  refine eq_of_parts hr ?_ ?_ ?_ ?_ ?_ ?_ ?_
  · refine hmap hh.entries hk.entries fun key hkey => ?_
    have hslot : h.slot key = k.slot key := congrArg (·.1) (hfields key hkey)
    rw [← value?_slot, ← value?_slot, hslot]
  · exact hset hh.initialized hk.initialized fun o ho => congrArg (·.1) (hobjects o ho)
  · exact hset hh.allocated hk.allocated fun o ho => congrArg (·.2.1) (hobjects o ho)
  · exact hset hh.summary hk.summary fun o ho => congrArg (·.2.2.1) (hobjects o ho)
  · exact hset hh.mustWritten hk.mustWritten fun key hkey => congrArg (·.2.1) (hfields key hkey)
  · exact hmap hh.mayWritten hk.mayWritten fun key hkey => congrArg (·.2.2) (hfields key hkey)
  · exact hset hh.invalidated hk.invalidated fun o ho => congrArg (·.2.2.2) (hobjects o ho)

section Step

variable {n : Nat}

theorem widen_of_unreachable_right (hh : h.reachable = true) (hk : k.reachable = false) :
    h.widen k n = h := mergeBy_of_unreachable_right hh hk

theorem slot_widen_eq_or_looseness_lt (hr : h.reachable = true) (hh : h.Canonical)
    (hk : k.Canonical) (key : FieldKey) : (h.widen k n).slot key = h.slot key ∨
      (h.slot key).looseness < ((h.widen k n).slot key).looseness := by
  cases hr' : k.reachable with
  | false => exact .inl (by rw [widen_of_unreachable_right hr hr'])
  | true =>
      rw [Heap.widen, slot_mergeBy hr hr']
      exact Slot.widen_eq_or_looseness_lt (hh key).slot (hk key).slot n

theorem log_widen_eq_or_looseness_lt (hr : h.reachable = true) (hh : h.Canonical)
    (hk : k.Canonical) (key : FieldKey) :
    (h.widen k n).mayWritten.get? key = h.mayWritten.get? key ∨
      logLooseness (h.mayWritten.get? key) < logLooseness ((h.widen k n).mayWritten.get? key) := by
  cases hr' : k.reachable with
  | false => exact .inl (by rw [widen_of_unreachable_right hr hr'])
  | true =>
      rw [Heap.widen, (mergeBy_of_reachable hr hr').2.2.1, SortedMap.get?_unionWith]
      exact merge_widen_eq_or_logLooseness_lt (hh key).log (hk key).log n

/-- What a widening keeps, once it is so. -/
theorem widen_keeps (hr : h.reachable = true) (k : Heap) (n : Nat) :
    (h.widen k n).reachable = true ∧
      (∀ o, h.initialized.contains o = false → (h.widen k n).initialized.contains o = false) ∧
      (∀ o, h.allocated.contains o = true → (h.widen k n).allocated.contains o = true) ∧
      (∀ o, h.summary.contains o = true → (h.widen k n).summary.contains o = true) ∧
      (∀ o, h.invalidated.contains o = true → (h.widen k n).invalidated.contains o = true) ∧
      ∀ key, h.mustWritten.contains key = false →
        (h.widen k n).mustWritten.contains key = false := by
  have hbelow := leq_iff.1 (leq_widen h k n).1 hr
  simp only [SortedSet.contains_iff, SortedSet.contains_eq_false_iff]
  exact ⟨hbelow.reachable, fun o ho ho' => ho (hbelow.initialized o ho'), hbelow.allocated,
    hbelow.summary, hbelow.invalidated, fun key hkey hkey' => hkey (hbelow.mustWritten key hkey')⟩

end Step

section Sequence

variable {x y : Nat → Heap} {n : Nat → Nat} (hstep : ∀ k, x (k + 1) = (x k).widen (y k) (n k))
include hstep

theorem proper_of_widens (h0 : (x 0).Proper) (hy : ∀ k, (y k).Proper) (k : Nat) :
    (x k).Proper := by
  induction k with
  | zero => exact h0
  | succ k ih =>
      rw [hstep]
      exact ih.widen (hy k) _

theorem within_of_widens (h0 : (x 0).Within objects fields)
    (hy : ∀ k, (y k).Within objects fields) (k : Nat) : (x k).Within objects fields := by
  induction k with
  | zero => exact h0
  | succ k ih =>
      rw [hstep]
      exact ih.mergeBy (hy k)

theorem encard_changes_objectPart_le (hr : ∀ k, (x k).reachable = true) (o : Nat) :
    (changes fun k => (x k).objectPart o).encard ≤ (4 : Nat) := by
  have keeps (k : Nat) := widen_keeps (hr k) (y k) (n k)
  exact encard_changes_pair_le
    (encard_changes_le_one false fun k hk => hstep k ▸ (keeps k).2.1 o hk)
    (encard_changes_pair_le
      (encard_changes_le_one true fun k hk => hstep k ▸ (keeps k).2.2.1 o hk)
      (encard_changes_pair_le
        (encard_changes_le_one true fun k hk => hstep k ▸ (keeps k).2.2.2.1 o hk)
        (encard_changes_le_one true fun k hk => hstep k ▸ (keeps k).2.2.2.2.1 o hk)))

theorem encard_changes_fieldPart_le (hr : ∀ k, (x k).reachable = true)
    (hx : ∀ k, (x k).Canonical) (hy : ∀ k, (y k).Canonical) (key : FieldKey) :
    (changes fun k => (x k).fieldPart key).encard ≤ (20 : Nat) := by
  have hslot := encard_changes_le_of_rank Slot.looseness (x := fun k => (x k).slot key)
    (fun k => hstep k ▸ slot_widen_eq_or_looseness_lt (hr k) (hx k) (hy k) key)
    fun k => Slot.looseness_le _
  have hlog := encard_changes_le_of_rank logLooseness (x := fun k => (x k).mayWritten.get? key)
    (fun k => hstep k ▸ log_widen_eq_or_looseness_lt (hr k) (hx k) (hy k) key)
    fun k => logLooseness_le _
  have hmust := encard_changes_le_one (b := fun k => (x k).mustWritten.contains key) false
    fun k hk => hstep k ▸ (widen_keeps (hr k) (y k) (n k)).2.2.2.2.2 key hk
  exact encard_changes_pair_le hslot (encard_changes_pair_le hmust hlog)

/-- Reachable heaps change at most as often as their objects and fields do. -/
theorem encard_changes_le (hr : ∀ k, (x k).reachable = true)
    (hx : ∀ k, (x k).Canonical) (hy : ∀ k, (y k).Canonical)
    (hwithin : ∀ k, (x k).Within objects fields) :
    (changes x).encard ≤ (objects.card * 4 + (objects ×ˢ fields).card * 20 : Nat) := by
  refine encard_changes_le_families objects (objects ×ˢ fields) (fun o k => (x k).objectPart o)
    (fun key k => (x k).fieldPart key) (fun o _ => encard_changes_objectPart_le hstep hr o)
    (fun key _ => encard_changes_fieldPart_le hstep hr hx hy key) fun k hobjects hfields => ?_
  exact (hwithin (k + 1)).ext (hwithin k) (by rw [hr, hr]) hobjects hfields

/-- Widening over finitely many objects and fields settles. -/
theorem stabilizes_of_widens (h0 : (x 0).Proper) (hy : ∀ k, (y k).Proper)
    (hwithin : (x 0).Within objects fields) (hwithin' : ∀ k, (y k).Within objects fields) :
    Stabilizes x := by
  have hx := proper_of_widens hstep h0 hy
  refine stabilizes_of_reached reachable bottom (fun k hk => ?_) (fun first hr => ?_)
    fun k _ hk => (hx (k + 1)).eq_bottom hk
  · rw [hstep]
    exact (widen_keeps hk _ _).1
  · have htail := encard_changes_le (x := fun k => x (first + k)) (y := fun k => y (first + k))
      (fun k => hstep (first + k)) hr (fun k => (hx _).canonical) (fun k => (hy _).canonical)
      fun k => within_of_widens hstep hwithin hwithin' _
    exact stabilizes_of_encard_le htail

end Sequence

end Heap

end ValueFlow
