import ValueFlow.Proofs.Heap.Writings
import ValueFlow.Proofs.State.Stores
/-!
The fields that effects list.

Every field that is written on each path is also in the log of what was written, though its contents
may be gone by then. So the effects of a heap list each logged field exactly once, as it is written
on each path or on some path only, and merged effects list what the merged ones do.
-/

namespace ValueFlow

/-- Whether what is written on every path is logged. -/
def Track.Logged (t : Track) : Prop := t.must = true → t.log.isSome = true

namespace Track

variable {t : Track}

theorem Logged.create (h : t.Logged) : t.create.Logged := by
  unfold Track.create
  split
  · exact h
  · exact h

theorem logged_write (weakly : Bool) (v : HeapValue) (t : Track) : (t.write weakly v).Logged :=
  fun _ => rfl

end Track

namespace Heap

variable {h k : Heap}

/-- Whether a heap is built from the one at an entry by operations on heaps. -/
inductive Built : Heap → Prop
  | top : Built .top
  | allocate {h : Heap} (hh : Built h) (object : Nat) : Built (h.allocate object)
  | markSummary {h : Heap} (hh : Built h) (object : Nat) : Built (h.markSummary object)
  | setField {h : Heap} (hh : Built h) (targets : SortedSet Nat) (field : HeapField)
      (value : HeapValue) : Built (h.setField targets field value)
  | weakUpdate {h : Heap} (hh : Built h) (object : Nat) (field : HeapField) (value : HeapValue) :
      Built (h.weakUpdate object field value)
  | invalidate {h : Heap} (hh : Built h) (object : Nat) : Built (h.invalidate object)
  | entryView {h : Heap} (hh : Built h) : Built h.entryView
  | join {h k : Heap} (hh : Built h) (hk : Built k) : Built (h.join k)
  | widen {h k : Heap} (hh : Built h) (hk : Built k) (n : Nat) : Built (h.widen k n)

theorem Built.reachable (hh : h.Built) : h.reachable = true := by
  induction hh with
  | top => rfl
  | allocate _ object ih => rwa [reachable_allocate]
  | markSummary _ _ ih => exact ih
  | setField _ targets field value ih => rwa [reachable_setField]
  | weakUpdate _ object field value ih => rwa [reachable_weakUpdate]
  | invalidate _ object ih => rwa [reachable_invalidate]
  | entryView _ ih => exact ih
  | join _ _ ihh ihk => exact reachable_mergeBy _ ihh ihk
  | widen _ _ _ ihh ihk => exact reachable_mergeBy _ ihh ihk

/-- Whether all that is written on every path is logged. -/
def Logged (h : Heap) : Prop := ∀ key, (h.track key).Logged

theorem Logged.of_tracks (hh : h.Logged)
    (hstep : ∀ key, (h.track key).Logged → (k.track key).Logged) : k.Logged :=
  fun key => hstep key (hh key)

theorem logged_of_mustWritten_eq (h : Heap) (hempty : h.mustWritten = ∅) : h.Logged := by
  intro key hmust
  rw [track, hempty] at hmust
  cases hmust

/-- What is written on every path of both heaps is logged in both. -/
theorem Logged.mergeBy {op : HeapValue → HeapValue → HeapValue} (hh : h.Logged)
    (hr : h.reachable = true) (hr' : k.reachable = true) : (h.mergeBy op k).Logged := by
  obtain ⟨-, hmust, hmay, -⟩ : _ ∧ (h.mergeBy op k).mustWritten = _ ∧
    (h.mergeBy op k).mayWritten = _ ∧ _ := mergeBy_of_reachable hr hr'
  intro key hkey
  have hlog : (h.mayWritten.get? key).isSome = true := by
    refine hh key (SortedSet.contains_iff.2 ?_)
    rw [track, hmust, SortedSet.contains_iff] at hkey
    exact (SortedSet.mem_inter.1 hkey).1
  rw [track, hmay, SortedMap.get?_unionWith]
  obtain ⟨v, hv⟩ := Option.isSome_iff_exists.1 hlog
  rw [hv]
  cases k.mayWritten.get? key <;> rfl

theorem Built.logged (hh : h.Built) : h.Logged := by
  induction hh with
  | top => exact logged_of_mustWritten_eq _ rfl
  | allocate _ object ih =>
      refine ih.of_tracks fun key hkey => ?_
      rw [track_allocate]
      split
      · exact hkey.create
      · exact hkey
  | markSummary _ object ih => exact ih
  | setField _ targets field value ih =>
      refine ih.of_tracks fun key hkey => ?_
      rw [track_setField, Track.perform]
      split
      · exact Track.logged_write _ _ _
      · exact hkey
  | weakUpdate _ object field value ih =>
      refine ih.of_tracks fun key hkey => ?_
      rw [track_weakUpdate]
      split
      · exact Track.logged_write _ _ _
      · exact hkey
  | invalidate _ object ih => exact ih
  | entryView => exact logged_of_mustWritten_eq _ rfl
  | join hh hk ihh _ => exact ihh.mergeBy hh.reachable hk.reachable
  | widen hh hk _ ihh _ => exact ihh.mergeBy hh.reachable hk.reachable

theorem Logged.mem_keys (hh : h.Logged) {key : FieldKey} (hkey : key ∈ h.mustWritten) :
    key ∈ h.mayWritten.keys :=
  SortedMap.mem_keys.2 (Option.isSome_iff_exists.1 (hh key (SortedSet.contains_iff.2 hkey)))

end Heap

theorem SortedMap.sorted_keys {κ ν : Type} [SortKey κ] (m : SortedMap κ ν) :
    m.keys.Pairwise fun a b => SortKey.before a b = true :=
  List.pairwise_map.2 m.sorted

namespace HeapEffects

variable {e f : HeapEffects} {entry exit : Heap} {key : FieldKey}
  {op : HeapValue → HeapValue → HeapValue}

/-- The fields listed as written on every path. -/
def mustKeys (e : HeapEffects) : List FieldKey := e.mustWrites.map HeapWrite.key

/-- The fields listed as written on some path only. -/
def mayKeys (e : HeapEffects) : List FieldKey := e.mayWrites.map HeapWrite.key

/-- Whether both lists are strictly sorted by object and field, and no field is in both. -/
structure Orderly (e : HeapEffects) : Prop where
  must : e.mustKeys.Pairwise fun a b => SortKey.before a b = true
  may : e.mayKeys.Pairwise fun a b => SortKey.before a b = true
  disjoint : e.mustKeys.Disjoint e.mayKeys

theorem Orderly.nodup (he : e.Orderly) : (e.mustKeys ++ e.mayKeys).Nodup :=
  List.Nodup.append (he.must.imp SortKey.ne_of_before) (he.may.imp SortKey.ne_of_before) he.disjoint

/-- Whether effects list each field that a heap logs exactly once, among what is always written if
it is written on every path and among the rest otherwise. -/
structure ListsLog (e : HeapEffects) (exit : Heap) : Prop where
  orderly : e.Orderly
  once : ∀ key, (e.mustKeys ++ e.mayKeys).count key = if key ∈ exit.mayWritten.keys then 1 else 0
  must : ∀ key, key ∈ e.mustKeys ↔ key ∈ exit.mustWritten
  may : ∀ key, key ∈ e.mayKeys ↔ key ∈ exit.mayWritten.keys ∧ key ∉ exit.mustWritten

/-- Whether effects list what either of two others lists, as always written what both list so. -/
structure ListsBoth (m e f : HeapEffects) : Prop where
  orderly : m.Orderly
  keys : ∀ key, key ∈ m.mustKeys ++ m.mayKeys ↔
    key ∈ e.mustKeys ++ e.mayKeys ∨ key ∈ f.mustKeys ++ f.mayKeys
  must : ∀ key, key ∈ m.mustKeys ↔ key ∈ e.mustKeys ∧ key ∈ f.mustKeys

section Exit

theorem mustKeys_ofExit (hr : exit.reachable = true) (hlogged : exit.Logged) (entry : Heap) :
    (ofExit entry exit).mustKeys = exit.mustWritten.toList := by
  rw [mustKeys, ofExit, if_neg (by rw [hr]; decide)]
  dsimp only
  rw [List.map_filterMap]
  refine (List.filterMap_congr fun key hkey => ?_).trans List.filterMap_some
  obtain ⟨v, hv⟩ : ∃ v, exit.mayWritten.get? key = some v :=
    SortedMap.mem_keys.1 (hlogged.mem_keys hkey)
  rw [hv]
  cases exit.fields.get? key <;> rfl

theorem mayKeys_ofExit (hr : exit.reachable = true) (entry : Heap) :
    (ofExit entry exit).mayKeys =
      exit.mayWritten.keys.filter fun key => !exit.mustWritten.contains key := by
  rw [mayKeys, ofExit, if_neg (by rw [hr]; decide)]
  dsimp only
  rw [List.map_map, SortedMap.keys, List.filter_map]
  rfl

theorem mem_mayKeys_ofExit (hr : exit.reachable = true) (entry : Heap) :
    key ∈ (ofExit entry exit).mayKeys ↔ key ∈ exit.mayWritten.keys ∧ key ∉ exit.mustWritten := by
  rw [mayKeys_ofExit hr, List.mem_filter, Bool.not_eq_true', SortedSet.contains_eq_false_iff]

theorem orderly_ofExit (hr : exit.reachable = true) (hlogged : exit.Logged) (entry : Heap) :
    (ofExit entry exit).Orderly where
  must := mustKeys_ofExit hr hlogged entry ▸ exit.mustWritten.sorted
  may := mayKeys_ofExit hr entry ▸ exit.mayWritten.sorted_keys.filter _
  disjoint key hmust hmay := by
    rw [mustKeys_ofExit hr hlogged entry] at hmust
    exact ((mem_mayKeys_ofExit hr entry).1 hmay).2 hmust

theorem count_ofExit (hr : exit.reachable = true) (hlogged : exit.Logged) (entry : Heap)
    (key : FieldKey) : ((ofExit entry exit).mustKeys ++ (ofExit entry exit).mayKeys).count key =
      if key ∈ exit.mayWritten.keys then 1 else 0 := by
  rw [(orderly_ofExit hr hlogged entry).nodup.count]
  refine if_congr ?_ rfl rfl
  rw [List.mem_append, mustKeys_ofExit hr hlogged, mem_mayKeys_ofExit hr]
  by_cases hmust : key ∈ exit.mustWritten
  · exact iff_of_true (.inl hmust) (hlogged.mem_keys hmust)
  · exact ⟨fun h => (h.resolve_left hmust).1, fun h => .inr ⟨h, hmust⟩⟩

theorem listsLog_ofExit (hr : exit.reachable = true) (hlogged : exit.Logged) (entry : Heap) :
    (ofExit entry exit).ListsLog exit where
  orderly := orderly_ofExit hr hlogged entry
  once := count_ofExit hr hlogged entry
  must key := by
    rw [mustKeys_ofExit hr hlogged]
    exact SortedSet.mem_def.symm
  may _ := mem_mayKeys_ofExit hr entry

end Exit

section Merging

theorem keys_entries (m : SortedMap FieldKey HeapValue) :
    (m.entries.map HeapWrite.ofEntry).map HeapWrite.key = m.keys := by
  rw [List.map_map]
  rfl

theorem mem_keys_byField {writes : List HeapWrite} :
    key ∈ (byField writes).keys ↔ key ∈ writes.map HeapWrite.key := by
  rw [SortedMap.mem_keys]
  constructor
  · rintro ⟨v, hv⟩
    obtain ⟨w, hw, rfl, -⟩ := exists_of_get?_byField hv
    exact List.mem_map_of_mem hw
  · intro h
    obtain ⟨w, hw, rfl⟩ := List.mem_map.1 h
    refine Option.isSome_iff_exists.1 (SortedMap.isSome_get?_foldl_insert ?_)
    exact .inl (List.mem_map.2 ⟨_, List.mem_map_of_mem hw, rfl⟩)

theorem orderly_mergeBy (op : HeapValue → HeapValue → HeapValue) (e f : HeapEffects) :
    (mergeBy op e f).Orderly where
  must := by
    rw [mustKeys, mustWrites_mergeBy, keys_entries]
    exact SortedMap.sorted_keys _
  may := by
    rw [mayKeys, mayWrites_mergeBy, keys_entries]
    exact SortedMap.sorted_keys _
  disjoint key hmust hmay := by
    obtain ⟨w, hw, rfl⟩ := List.mem_map.1 hmust
    obtain ⟨w', hw', hkey⟩ := List.mem_map.1 hmay
    exact (distinct_mergeBy op e f).apart w hw w' hw' hkey.symm

theorem mem_mustKeys_mergeBy :
    key ∈ (mergeBy op e f).mustKeys ↔ key ∈ e.mustKeys ∧ key ∈ f.mustKeys := by
  rw [mustKeys, mustWrites_mergeBy, keys_entries, SortedMap.mem_keys, mustKeys, mustKeys,
    ← mem_keys_byField, ← mem_keys_byField, SortedMap.mem_keys, SortedMap.mem_keys,
    get?_mustFields]
  cases (byField e.mustWrites).get? key <;> cases (byField f.mustWrites).get? key <;> simp

theorem mem_keys_iff : key ∈ e.mustKeys ++ e.mayKeys ↔
    ((byField e.mustWrites).get? key).isSome = true ∨
      ((byField e.mayWrites).get? key).isSome = true := by
  rw [List.mem_append, mustKeys, mayKeys, ← mem_keys_byField, ← mem_keys_byField,
    SortedMap.mem_keys, SortedMap.mem_keys, Option.isSome_iff_exists, Option.isSome_iff_exists]

/-- Merged effects list the fields of both sides: what is not always written by both is among what
is sometimes written. -/
theorem mem_keys_mergeBy : key ∈ (mergeBy op e f).mustKeys ++ (mergeBy op e f).mayKeys ↔
    key ∈ e.mustKeys ++ e.mayKeys ∨ key ∈ f.mustKeys ++ f.mayKeys := by
  rw [mem_keys_iff, mem_keys_iff, mem_keys_iff, mustWrites_mergeBy, mayWrites_mergeBy,
    byField_entries, byField_entries, mayFields, SortedMap.get?_filter, get?_unions_sometimes,
    SortedMap.contains, SortedMap.contains, SortedMap.contains, get?_mustFields]
  cases (byField e.mustWrites).get? key <;> cases (byField f.mustWrites).get? key <;>
    cases (byField e.mayWrites).get? key <;> cases (byField f.mayWrites).get? key <;>
    simp [Option.filter]

theorem listsBoth_mergeBy (op : HeapValue → HeapValue → HeapValue) (e f : HeapEffects) :
    (mergeBy op e f).ListsBoth e f where
  orderly := orderly_mergeBy op e f
  keys _ := mem_keys_mergeBy
  must _ := mem_mustKeys_mergeBy

end Merging

/-- A heap built by operations logs what is written on every path, and the effects that lead to it
list its log. Joins and widenings of effects list what both sides list. -/
theorem listsLog_of_built :
    (∀ exit : Heap, exit.Built → (∀ key ∈ exit.mustWritten, key ∈ exit.mayWritten.keys) ∧
      ∀ entry : Heap, (ofExit entry exit).ListsLog exit) ∧
    ∀ e f : HeapEffects, (e.join f).ListsBoth e f ∧ ∀ n, (e.widen f n).ListsBoth e f :=
  ⟨fun _ hexit => ⟨fun _ => hexit.logged.mem_keys, listsLog_ofExit hexit.reachable hexit.logged⟩,
    fun e f => ⟨listsBoth_mergeBy _ e f, fun _ => listsBoth_mergeBy _ e f⟩⟩

/-- The heap after a field was set, another may have been, and the object of the first was then
created. -/
def createdAfterWrites : Heap :=
  ((Heap.top.setField (.singleton 1) (.attr "v") .null).weakUpdate 2 (.attr "w") .null).allocate 1

/-- The contents of the field that was set are gone, and it is listed as set all the same. -/
theorem listsLog_of_built_created :
    createdAfterWrites.Built ∧ createdAfterWrites.fields.get? (1, .attr "v") = .none ∧
    (1, .attr "v") ∈ (ofExit .top createdAfterWrites).mustKeys ∧
    (2, .attr "w") ∈ (ofExit .top createdAfterWrites).mayKeys ∧
    ((ofExit .top createdAfterWrites).mustKeys ++
      (ofExit .top createdAfterWrites).mayKeys).count (1, .attr "v") = 1 := by
  have hbuilt : createdAfterWrites.Built :=
    .allocate (.weakUpdate (.setField .top (.singleton 1) (.attr "v") .null) 2 (.attr "w") .null) 1
  obtain ⟨hlogged, hlists⟩ := listsLog_of_built.1 _ hbuilt
  have hmust : ((1, .attr "v") : FieldKey) ∈ createdAfterWrites.mustWritten :=
    SortedSet.contains_iff.1 (by decide +kernel)
  have hlog : ((2, .attr "w") : FieldKey) ∈ createdAfterWrites.mayWritten.keys := by
    decide +kernel
  have hsome : ((2, .attr "w") : FieldKey) ∉ createdAfterWrites.mustWritten :=
    SortedSet.contains_eq_false_iff.1 (by decide +kernel)
  exact ⟨hbuilt, by decide +kernel, ((hlists .top).must _).2 hmust,
    ((hlists .top).may _).2 ⟨hlog, hsome⟩, ((hlists .top).once _).trans (if_pos (hlogged _ hmust))⟩

end HeapEffects

end ValueFlow
