import Mathlib.Data.List.Nodup
import ValueFlow.Proofs.Heap.Replay
/-!
Merged effects cover the effects that are merged.
-/

namespace ValueFlow

namespace HeapEffects

variable {e f : HeapEffects} {op : HeapValue → HeapValue → HeapValue}

/-- Whether no field is written twice. -/
structure Distinct (e : HeapEffects) : Prop where
  must : (e.mustWrites.map HeapWrite.key).Nodup
  may : (e.mayWrites.map HeapWrite.key).Nodup
  apart : ∀ w ∈ e.mustWrites, ∀ w' ∈ e.mayWrites, w.key ≠ w'.key

/-- Whether one call does nothing that another does not do, and all that the other always does. -/
structure CoveredBy (e f : HeapEffects) : Prop where
  allocations : ∀ a ∈ e.allocations, ∃ b ∈ f.allocations,
    b.object = a.object ∧ (a.summary = true → b.summary = true)
  invalidated : ∀ o ∈ e.invalidated, o ∈ f.invalidated
  writes : ∀ w ∈ e.mustWrites ++ e.mayWrites, ∃ w' ∈ f.mustWrites ++ f.mayWrites,
    w'.key = w.key ∧ w.value.leq w'.value = true
  must : ∀ w ∈ f.mustWrites, ∃ w' ∈ e.mustWrites, w'.key = w.key

theorem CoveredBy.refl (e : HeapEffects) : e.CoveredBy e where
  allocations a ha := ⟨a, ha, rfl, id⟩
  invalidated _ ho := ho
  writes w hw := ⟨w, hw, rfl, HeapValue.leq_refl _⟩
  must w hw := ⟨w, hw, rfl⟩

theorem distinct_ofExit (exit : Heap) : (ofExit .top exit).Distinct := by
  cases hexit : exit.reachable with
  | false =>
      have hnone : ofExit .top exit = .none := by simp [ofExit, hexit]
      rw [hnone]
      exact ⟨List.nodup_nil, List.nodup_nil, fun _ hw => absurd hw List.not_mem_nil⟩
  | true =>
      refine ⟨nodup_mustWrites hexit, nodup_mayWrites hexit, fun w hw w' hw' hkey => ?_⟩
      rw [mem_mustWrites hexit, Track.mustValue] at hw
      rw [mem_mayWrites hexit, Track.mayValue, ← hkey] at hw'
      split at hw
      · next hmust =>
          rw [if_pos hmust] at hw'
          cases hw'
      · cases hw

theorem distinct_unknown (objects : SortedSet Nat) : (unknown objects).Distinct :=
  ⟨List.nodup_nil, List.nodup_nil, fun _ hw => nomatch hw⟩

theorem get?_byField {writes : List HeapWrite} (h : (writes.map HeapWrite.key).Nodup)
    {w : HeapWrite} (hw : w ∈ writes) : (byField writes).get? w.key = some w.value :=
  SortedMap.get?_ofList_map_of_mem HeapWrite.key HeapWrite.value hw
    fun _ hb hkey => List.inj_on_of_nodup_map h hb hw hkey

theorem exists_of_get?_byField {writes : List HeapWrite} {key : FieldKey} {v : HeapValue}
    (h : (byField writes).get? key = some v) : ∃ w ∈ writes, w.key = key ∧ w.value = v := by
  rcases SortedMap.get?_foldl_insert h with h | h
  · obtain ⟨w, hw, he⟩ := List.mem_map.1 h
    cases he
    exact ⟨w, hw, rfl, rfl⟩
  · cases h

/-- Collecting allocations keeps every one, with its flag. -/
theorem exists_allocation {l : List Allocation} {a : Allocation} (ha : a ∈ l) :
    ∃ s, (l.foldl (fun m a => SortedMap.insertWith or m a.object a.summary) ∅).get? a.object =
      some s ∧ (a.summary = true → s = true) := by
  have hpairs : ∀ m : SortedMap Nat Bool,
      l.foldl (fun m a => SortedMap.insertWith or m a.object a.summary) m =
        (l.map fun a => (a.object, a.summary)).foldl (fun m p => m.insertWith or p.1 p.2) m := by
    intro m
    rw [List.foldl_map]
  rw [hpairs]
  exact SortedMap.exists_get?_foldl_insertWith (r := fun s t => s = true → t = true) (fun _ => id)
    (fun hab hbc ha => hbc (hab ha)) (fun _ _ ha => by rw [ha]; rfl)
    (fun _ _ hb => by rw [hb, Bool.or_true]) (.inr (List.mem_map_of_mem ha))

/-- The fields that both of two calls always write. -/
def mustFields (op : HeapValue → HeapValue → HeapValue) (e f : HeapEffects) :
    SortedMap FieldKey HeapValue :=
  (byField e.mustWrites).filterMap fun key v => ((byField f.mustWrites).get? key).map (op v)

/-- The fields that only one of two calls always writes, and those that one writes sometimes. -/
def sometimes (e f : HeapEffects) : List (SortedMap FieldKey HeapValue) :=
  [(byField e.mustWrites).filter fun key _ => !(byField f.mustWrites).contains key,
    (byField f.mustWrites).filter fun key _ => !(byField e.mustWrites).contains key,
    byField e.mayWrites, byField f.mayWrites]

section Upper

variable (hleft : ∀ a b : HeapValue, a.leq (op a b) = true)
  (hright : ∀ a b : HeapValue, b.leq (op a b) = true)
include hleft hright

/-- A union of maps is above each of them. -/
theorem exists_get?_unions {maps : List (SortedMap FieldKey HeapValue)}
    {acc : SortedMap FieldKey HeapValue} {key : FieldKey} {v : HeapValue}
    (h : acc.get? key = some v ∨ ∃ m ∈ maps, m.get? key = some v) :
    ∃ u, (maps.foldl (SortedMap.unionWith op) acc).get? key = some u ∧ v.leq u = true := by
  induction maps generalizing acc v with
  | nil =>
      rcases h with h | ⟨m, hm, -⟩
      · exact ⟨v, h, HeapValue.leq_refl v⟩
      · cases hm
  | cons m rest ih =>
      have later : acc.get? key = some v ∨ m.get? key = some v → ∃ u,
          ((m :: rest).foldl (SortedMap.unionWith op) acc).get? key = some u ∧ v.leq u = true := by
        intro hv
        rw [SortedMap.get?_eq_some_iff (m := m)] at hv
        obtain ⟨u, hu, hle⟩ := SortedMap.exists_get?_foldl_insertWith
          (r := fun a b => HeapValue.leq a b = true) HeapValue.leq_refl HeapValue.leq_trans hleft
          hright hv
        obtain ⟨w, hw, hle'⟩ := ih (.inl hu)
        exact ⟨w, hw, HeapValue.leq_trans hle hle'⟩
      rcases h with h | ⟨m', hm', h⟩
      · exact later (.inl h)
      · rcases List.mem_cons.1 hm' with rfl | hm'
        · exact later (.inr h)
        · exact ih (.inr ⟨m', hm', h⟩)

/-- What is not always written is written on some path of the merged effects. -/
theorem exists_mayWrite (e f : HeapEffects) {key : FieldKey} {v : HeapValue}
    (hmust : (mustFields op e f).get? key = .none)
    (hv : ∃ m ∈ sometimes e f, m.get? key = some v) :
    ∃ w ∈ (mergeBy op e f).mayWrites, w.key = key ∧ v.leq w.value = true := by
  obtain ⟨u, hu, hle⟩ := exists_get?_unions hleft hright
    (.inr hv : (∅ : SortedMap FieldKey HeapValue).get? key = some v ∨ _)
  refine ⟨⟨key.1, key.2, u⟩, HeapWrite.mem_map_ofEntry.2 ?_, rfl, hle⟩
  rw [SortedMap.get?_filter]
  show Option.filter (fun _ => !(mustFields op e f).contains key)
    (((sometimes e f).foldl (SortedMap.unionWith op) ∅).get? key) = some u
  rw [hu, SortedMap.contains, hmust]
  rfl

theorem coveredBy_mergeBy (e : HeapEffects) (hf : f.Distinct) : f.CoveredBy (mergeBy op e f) := by
  have hfields : ∀ key, (mustFields op e f).get? key = ((byField e.mustWrites).get? key).bind
      fun v => ((byField f.mustWrites).get? key).map (op v) := SortedMap.get?_filterMap _ _
  constructor
  · intro a ha
    obtain ⟨s, hs, hle⟩ := exists_allocation (List.mem_append_right e.allocations ha)
    refine ⟨⟨a.object, s⟩, ?_, rfl, hle⟩
    exact List.mem_map.2 ⟨(a.object, s), SortedMap.get?_eq_some_iff.1 hs, rfl⟩
  · intro o ho
    exact SortedSet.mem_union.2 (.inr ho)
  · intro w hw
    rcases List.mem_append.1 hw with hw | hw
    · have htheirs := get?_byField hf.must hw
      cases hours : (byField e.mustWrites).get? w.key with
      | some a =>
          have hmust := hfields w.key
          rw [hours, htheirs] at hmust
          refine ⟨⟨w.object, w.field, op a w.value⟩, List.mem_append_left _ ?_, rfl, hright a w.value⟩
          exact HeapWrite.mem_map_ofEntry.2 hmust
      | none =>
          have hmust := hfields w.key
          rw [hours] at hmust
          obtain ⟨w', hw', hkey, hle⟩ := exists_mayWrite hleft hright e f (v := w.value) hmust
            ⟨_, List.mem_cons_of_mem _ List.mem_cons_self, by
              rw [SortedMap.get?_filter, htheirs, SortedMap.contains, hours]
              rfl⟩
          exact ⟨w', List.mem_append_right _ hw', hkey, hle⟩
    · have hmust := hfields w.key
      have htheirs : (byField f.mustWrites).get? w.key = .none := by
        refine Option.eq_none_iff_forall_not_mem.2 fun v hv => ?_
        obtain ⟨w', hw', hkey, -⟩ := exists_of_get?_byField hv
        exact hf.apart w' hw' w hw hkey
      have hnone : (mustFields op e f).get? w.key = .none := by
        rw [hmust, htheirs]
        cases (byField e.mustWrites).get? w.key <;> rfl
      obtain ⟨w', hw', hkey, hle⟩ := exists_mayWrite hleft hright e f hnone
        ⟨_, List.mem_cons_of_mem _ (List.mem_cons_of_mem _ (List.mem_cons_of_mem _
          List.mem_cons_self)), get?_byField hf.may hw⟩
      exact ⟨w', List.mem_append_right _ hw', hkey, hle⟩
  · intro w hw
    have hmust := HeapWrite.mem_map_ofEntry.1 hw
    obtain ⟨a, -, ha⟩ := Option.bind_eq_some_iff.1 ((hfields w.key).symm.trans hmust)
    obtain ⟨b, hb, -⟩ := Option.map_eq_some_iff.1 ha
    obtain ⟨w', hw', hkey, -⟩ := exists_of_get?_byField hb
    exact ⟨w', hw', hkey⟩

end Upper

theorem coveredBy_widen (e : HeapEffects) (hf : f.Distinct) (n : Nat) :
    f.CoveredBy (e.widen f n) :=
  coveredBy_mergeBy (HeapValue.leq_mergeBy_left Value.leq_widen_left)
    (HeapValue.leq_mergeBy_right Value.leq_widen_right) e hf

end HeapEffects

end ValueFlow
