import ValueFlow.Proofs.Heap.Canonical
import ValueFlow.Proofs.State.Order
/-!
The order of heaps.

One heap is below another when it is so part by part: slots and logged writes are below, what may
have happened did so in both, and what happened on every path of the larger happened on every path
of the smaller. Merging two heaps gives an upper bound whenever merging two contents does, and the
join is the least one.
-/

namespace ValueFlow

namespace Heap

variable {h k l : Heap} {op : HeapValue → HeapValue → HeapValue}

/-- Whether all parts of a heap are below those of a reachable one. -/
structure Below (h k : Heap) : Prop where
  reachable : k.reachable = true
  slot : ∀ key, (h.slot key).leq (k.slot key) = true
  initialized : ∀ o ∈ k.initialized, o ∈ h.initialized
  allocated : ∀ o ∈ h.allocated, o ∈ k.allocated
  summary : ∀ o ∈ h.summary, o ∈ k.summary
  mustWritten : ∀ key ∈ k.mustWritten, key ∈ h.mustWritten
  mayWritten : ∀ key v, h.mayWritten.get? key = some v →
    ∃ w, k.mayWritten.get? key = some w ∧ v.leq w = true
  invalidated : ∀ o ∈ h.invalidated, o ∈ k.invalidated

theorem slot_of_not_mem_keys {key : FieldKey} (hkey : key ∉ h.fields.keys) :
    h.slot key = if h.initialized.contains key.1 then .unset else .unknown := by
  have hnone : h.fields.get? key = none :=
    Option.eq_none_iff_forall_not_mem.2 fun v hv => hkey (SortedMap.mem_keys.2 ⟨v, hv⟩)
  rw [slot_eq, hnone]
  rfl

theorem exists_slot_eq_holds {key : FieldKey} (hkey : key ∈ h.fields.keys) :
    ∃ v, h.slot key = .holds v := by
  obtain ⟨v, hv⟩ := SortedMap.mem_keys.1 hkey
  rw [slot_eq, hv]
  exact ⟨v, rfl⟩

/-- A field without an entry in either heap is below as soon as its object is. -/
theorem slot_leq_of_not_mem_keys (hinit : ∀ o ∈ k.initialized, o ∈ h.initialized) {key : FieldKey}
    (hh : key ∉ h.fields.keys) (hk : key ∉ k.fields.keys) :
    (h.slot key).leq (k.slot key) = true := by
  rw [slot_of_not_mem_keys hh, slot_of_not_mem_keys hk]
  cases hmem : k.initialized.contains key.1 with
  | false => exact Slot.leq_unknown _
  | true =>
      rw [SortedSet.contains_iff.2 (hinit _ (SortedSet.contains_iff.1 hmem))]
      rfl

theorem leq_iff : h.leq k = true ↔ (h.reachable = true → h.Below k) := by
  cases hr : h.reachable with
  | false =>
      rw [leq, hr]
      exact iff_of_true rfl fun h => absurd h Bool.false_ne_true
  | true =>
      simp only [leq, hr, Bool.not_true, Bool.false_or, Bool.and_eq_true, SortedSet.subset_iff,
        SortedMap.all_iff, Option.any_eq_true, List.all_eq_true, forall_const]
      constructor
      · rintro ⟨⟨⟨⟨⟨⟨⟨hreach, hallocated⟩, hsummary⟩, hinv⟩, hinit⟩, hmust⟩, hmay⟩, hslots⟩
        refine ⟨hreach, fun key => ?_, hinit, hallocated, hsummary, hmust, hmay, hinv⟩
        by_cases hkey : key ∈ h.fields.keys ++ k.fields.keys
        · exact hslots key hkey
        · rw [List.mem_append, not_or] at hkey
          exact slot_leq_of_not_mem_keys hinit hkey.1 hkey.2
      · intro hle
        exact ⟨⟨⟨⟨⟨⟨⟨hle.reachable, hle.allocated⟩, hle.summary⟩, hle.invalidated⟩,
          hle.initialized⟩, hle.mustWritten⟩, hle.mayWritten⟩, fun key _ => hle.slot key⟩

theorem Below.trans (hhk : h.Below k) (hkl : k.Below l) : h.Below l where
  reachable := hkl.reachable
  slot key := Slot.leq_trans (hhk.slot key) (hkl.slot key)
  initialized o ho := hhk.initialized o (hkl.initialized o ho)
  allocated o ho := hkl.allocated o (hhk.allocated o ho)
  summary o ho := hkl.summary o (hhk.summary o ho)
  mustWritten key hkey := hhk.mustWritten key (hkl.mustWritten key hkey)
  mayWritten key v hv := by
    obtain ⟨w, hw, hle⟩ := hhk.mayWritten key v hv
    obtain ⟨u, hu, hle'⟩ := hkl.mayWritten key w hw
    exact ⟨u, hu, HeapValue.leq_trans hle hle'⟩
  invalidated o ho := hkl.invalidated o (hhk.invalidated o ho)

theorem leq_trans (hhk : h.leq k = true) (hkl : k.leq l = true) : h.leq l = true := by
  refine leq_iff.2 fun hh => ?_
  have hbelow := leq_iff.1 hhk hh
  exact hbelow.trans (leq_iff.1 hkl hbelow.reachable)

section Merging

theorem mergeBy_of_unreachable_left (hh : h.reachable = false) : h.mergeBy op k = k := by
  rw [mergeBy, hh]
  rfl

theorem mergeBy_of_unreachable_right (hh : h.reachable = true) (hk : k.reachable = false) :
    h.mergeBy op k = h := by
  rw [mergeBy, hh, hk]
  rfl

/-- Two reachable heaps are below their merge, if contents are. -/
theorem below_mergeBy (hleft : ∀ a b : HeapValue, a.leq (op a b) = true)
    (hright : ∀ a b : HeapValue, b.leq (op a b) = true) (hh : h.reachable = true)
    (hk : k.reachable = true) : h.Below (h.mergeBy op k) ∧ k.Below (h.mergeBy op k) := by
  obtain ⟨hallocated, hsummary⟩ : (h.mergeBy op k).allocated = _ ∧ (h.mergeBy op k).summary = _ :=
    mergeBy_eq hh hk
  obtain ⟨hinit, hmust, hmay, hinv⟩ : (h.mergeBy op k).initialized = _ ∧
    (h.mergeBy op k).mustWritten = _ ∧ (h.mergeBy op k).mayWritten = _ ∧
      (h.mergeBy op k).invalidated = _ := mergeBy_of_reachable hh hk
  have hreach := reachable_mergeBy op hh hk
  constructor
  · refine ⟨hreach, fun key => ?_, fun o ho => ?_, fun o ho => ?_, fun o ho => ?_,
      fun key hkey => ?_, fun key v hv => ?_, fun o ho => ?_⟩
    · rw [slot_mergeBy hh hk]
      exact Slot.leq_mergeBy_left hleft _ _
    · exact (SortedSet.mem_inter.1 (hinit ▸ ho)).1
    · exact hallocated ▸ SortedSet.mem_union.2 (.inl ho)
    · exact hsummary ▸ SortedSet.mem_union.2 (.inl ho)
    · exact (SortedSet.mem_inter.1 (hmust ▸ hkey)).1
    · rw [hmay, SortedMap.get?_unionWith, hv]
      cases k.mayWritten.get? key with
      | none => exact ⟨v, rfl, HeapValue.leq_refl v⟩
      | some w => exact ⟨op v w, rfl, hleft v w⟩
    · exact hinv ▸ SortedSet.mem_union.2 (.inl ho)
  · refine ⟨hreach, fun key => ?_, fun o ho => ?_, fun o ho => ?_, fun o ho => ?_,
      fun key hkey => ?_, fun key v hv => ?_, fun o ho => ?_⟩
    · rw [slot_mergeBy hh hk]
      exact Slot.leq_mergeBy_right hright _ _
    · exact (SortedSet.mem_inter.1 (hinit ▸ ho)).2
    · exact hallocated ▸ SortedSet.mem_union.2 (.inr ho)
    · exact hsummary ▸ SortedSet.mem_union.2 (.inr ho)
    · exact (SortedSet.mem_inter.1 (hmust ▸ hkey)).2
    · rw [hmay, SortedMap.get?_unionWith, hv]
      cases h.mayWritten.get? key with
      | none => exact ⟨v, rfl, HeapValue.leq_refl v⟩
      | some w => exact ⟨op w v, rfl, hright w v⟩
    · exact hinv ▸ SortedSet.mem_union.2 (.inr ho)

theorem leq_mergeBy (hleft : ∀ a b : HeapValue, a.leq (op a b) = true)
    (hright : ∀ a b : HeapValue, b.leq (op a b) = true) (h k : Heap) :
    h.leq (h.mergeBy op k) = true ∧ k.leq (h.mergeBy op k) = true := by
  cases hh : h.reachable with
  | false =>
      rw [mergeBy_of_unreachable_left hh]
      exact ⟨leq_iff.2 fun h' => absurd (hh.symm.trans h') Bool.false_ne_true, leq_refl k⟩
  | true =>
      cases hk : k.reachable with
      | false =>
          rw [mergeBy_of_unreachable_right hh hk]
          exact ⟨leq_refl h, leq_iff.2 fun h' => absurd (hk.symm.trans h') Bool.false_ne_true⟩
      | true =>
          obtain ⟨hbelow, hbelow'⟩ := below_mergeBy hleft hright hh hk
          exact ⟨leq_iff.2 fun _ => hbelow, leq_iff.2 fun _ => hbelow'⟩

theorem leq_join (h k : Heap) : h.leq (h.join k) = true ∧ k.leq (h.join k) = true :=
  leq_mergeBy HeapValue.leq_join_left HeapValue.leq_join_right h k

theorem leq_widen (h k : Heap) (n : Nat) :
    h.leq (h.widen k n) = true ∧ k.leq (h.widen k n) = true :=
  leq_mergeBy (HeapValue.leq_mergeBy_left Value.leq_widen_left)
    (HeapValue.leq_mergeBy_right Value.leq_widen_right) h k

theorem Joins.below {j : Heap} (hj : Joins j h k) (hhl : h.Below l) (hkl : k.Below l) :
    j.Below l where
  reachable := hhl.reachable
  slot key := by
    rw [hj.slot]
    exact Slot.join_leq (hhl.slot key) (hkl.slot key)
  initialized o ho := (hj.initialized o).2 ⟨hhl.initialized o ho, hkl.initialized o ho⟩
  allocated o ho := ((hj.allocated o).1 ho).elim (hhl.allocated o) (hkl.allocated o)
  summary o ho := ((hj.summary o).1 ho).elim (hhl.summary o) (hkl.summary o)
  mustWritten key hkey :=
    (hj.mustWritten key).2 ⟨hhl.mustWritten key hkey, hkl.mustWritten key hkey⟩
  mayWritten key v hv := by
    rw [hj.mayWritten] at hv
    have hleft := hhl.mayWritten key
    have hright := hkl.mayWritten key
    cases hw : h.mayWritten.get? key with
    | none =>
        rw [hw, Option.merge_none_left] at hv
        exact hright v hv
    | some w =>
        cases hu : k.mayWritten.get? key with
        | none =>
            rw [hu, Option.merge_none_right, hw] at hv
            exact hleft v (hw.trans hv)
        | some u =>
            rw [hw, hu] at hv
            cases hv
            obtain ⟨t, ht, hle⟩ := hleft w hw
            obtain ⟨t', ht', hle'⟩ := hright u hu
            cases ht.symm.trans ht'
            exact ⟨t, ht, HeapValue.join_leq hle hle'⟩
  invalidated o ho := ((hj.invalidated o).1 ho).elim (hhl.invalidated o) (hkl.invalidated o)

/-- The join is below whatever is above both heaps. -/
theorem join_leq (hhl : h.leq l = true) (hkl : k.leq l = true) : (h.join k).leq l = true := by
  cases hh : h.reachable with
  | false =>
      rw [join, mergeBy_of_unreachable_left hh]
      exact hkl
  | true =>
      cases hk : k.reachable with
      | false =>
          rw [join, mergeBy_of_unreachable_right hh hk]
          exact hhl
      | true => exact leq_iff.2 fun _ =>
          (joins_join hh hk).below (leq_iff.1 hhl hh) (leq_iff.1 hkl hk)

end Merging

/-- Whether a heap with canonical contents is reachable or the one unreachable heap. -/
structure Proper (h : Heap) : Prop where
  reached : h.reachable = true ∨ h = bottom
  canonical : h.Canonical

theorem Proper.eq_bottom (hh : h.Proper) (hr : h.reachable = false) : h = bottom :=
  hh.reached.resolve_left fun h' => Bool.false_ne_true (hr.symm.trans h')

theorem joins_self (h : Heap) (hr : h.reachable = true) : Joins h h h where
  reachable := hr
  slot key := by
    cases h.slot key with
    | unset | unknown => rfl
    | holds v => exact congrArg Slot.holds (HeapValue.join_self v).symm
  initialized _ := (and_self_iff).symm
  allocated _ := (or_self_iff).symm
  summary _ := (or_self_iff).symm
  mustWritten _ := (and_self_iff).symm
  mayWritten key := by
    cases h.mayWritten.get? key with
    | none => rfl
    | some v => exact congrArg some (HeapValue.join_self v).symm
  invalidated _ := (or_self_iff).symm

theorem join_self (h : Heap) : h.join h = h := by
  cases hr : h.reachable with
  | false => exact mergeBy_of_unreachable_left hr
  | true =>
      exact (joins_join hr hr).eq (joins_self h hr) (fun _ => rfl) (fun _ => .rfl) (fun _ => .rfl)
        (fun _ => .rfl) (fun _ => .rfl) (fun _ => rfl) fun _ => .rfl

theorem bottom_join (h : Heap) : bottom.join h = h := rfl

theorem Proper.join_bottom (hh : h.Proper) : h.join bottom = h := by
  rcases hh.reached with hr | rfl
  · exact mergeBy_of_unreachable_right hr rfl
  · rfl

theorem Proper.join_comm (hh : h.Proper) (hk : k.Proper) : h.join k = k.join h := by
  rcases hh.reached with hr | rfl
  · rcases hk.reached with hr' | rfl
    · exact Heap.join_comm hr hr' hh.canonical hk.canonical
    · exact hh.join_bottom
  · exact hk.join_bottom.symm

theorem Proper.join_assoc (hh : h.Proper) (hk : k.Proper) (hl : l.Proper) :
    (h.join k).join l = h.join (k.join l) := by
  rcases hh.reached with hr | rfl
  · rcases hk.reached with hr' | rfl
    · rcases hl.reached with hr'' | rfl
      · exact Heap.join_assoc hr hr' hr'' hh.canonical hk.canonical hl.canonical
      · rw [hk.join_bottom]
        exact mergeBy_of_unreachable_right (reachable_mergeBy _ hr hr') rfl
    · rw [hh.join_bottom, bottom_join]
  · rfl

theorem Proper.widen (hh : h.Proper) (hk : k.Proper) (n : Nat) : (h.widen k n).Proper := by
  refine ⟨?_, hh.canonical.widen hk.canonical n⟩
  rcases hh.reached with hr | rfl
  · rcases hk.reached with hr' | rfl
    · exact .inl (reachable_mergeBy _ hr hr')
    · exact .inl ((congrArg reachable (mergeBy_of_unreachable_right hr rfl)).trans hr)
  · exact hk.reached

end Heap

end ValueFlow
