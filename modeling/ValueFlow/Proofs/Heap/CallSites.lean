import ValueFlow.Proofs.Heap.Writings
/-!
Merged effects at a call site.

What a replay leaves of a field follows from how the effects write it, whether they create its
object and whether they invalidate it. Merging effects makes the writing larger, so the replay of
merged effects is above the replay of each side, where the merge does not turn the creation or the
invalidation of one side into one of both: an object that only the other side creates must be known
to the heap, unless what the heap holds is replaced or lost anyway, and one that only the other side
invalidates loses its mutation marker for a certain one.
-/

namespace ValueFlow

/-- What the creations of a call leave of a field of an object that it creates. -/
structure Track.CreatedFrom (start t : Track) : Prop where
  reachable : t.reachable = start.reachable
  allocated : t.allocated = true
  slot : t.slot = if start.allocated || start.summary then start.slot else .unset
  /-- A write replaces contents only if there are none. -/
  shared : t.summary = true ∨ t.slot = .unset

namespace Track

variable {start t : Track}

theorem createdFrom_create (start : Track) : start.CreatedFrom start.create := by
  obtain ⟨reachable, slot, allocated, summary, must, log, invalidated⟩ := start
  cases allocated with
  | true => exact ⟨rfl, rfl, rfl, .inl rfl⟩
  | false =>
      cases summary with
      | true => exact ⟨rfl, rfl, rfl, .inl rfl⟩
      | false => exact ⟨rfl, rfl, rfl, .inr rfl⟩

theorem CreatedFrom.create (h : start.CreatedFrom t) : start.CreatedFrom t.create := by
  have hcreate : t.create = { t with summary := true } := if_pos h.allocated
  rw [hcreate]
  exact ⟨h.reachable, h.allocated, h.slot, .inl rfl⟩

theorem CreatedFrom.share (h : start.CreatedFrom t) : start.CreatedFrom t.share :=
  ⟨h.reachable, h.allocated, h.slot, .inl rfl⟩

end Track

namespace HeapEffects

variable {e f : HeapEffects} {h : Heap} {key : FieldKey}

def creates (e : HeapEffects) (o : Nat) : Bool := e.allocations.any fun a => a.object = o

theorem creates_iff {o : Nat} : e.creates o = true ↔ ∃ a ∈ e.allocations, a.object = o := by
  simp [creates]

theorem isSome_created (e : HeapEffects) (o : Nat) : (e.created.get? o).isSome = e.creates o := by
  rw [Bool.eq_iff_iff, creates_iff, Option.isSome_iff_exists]
  constructor
  · rintro ⟨s, hs⟩
    exact exists_of_get?_created hs
  · rintro ⟨a, ha, rfl⟩
    obtain ⟨s, hs, -⟩ := exists_allocation ha
    exact ⟨s, hs⟩

theorem creates_mergeBy (op : HeapValue → HeapValue → HeapValue) (e f : HeapEffects) (o : Nat) :
    (mergeBy op e f).creates o = (e.creates o || f.creates o) := by
  rw [← isSome_created, ← isSome_created, ← isSome_created, get?_created_mergeBy]
  cases e.created.get? o <;> cases f.created.get? o <;> rfl

theorem track_allocations_of_creates (hc : e.creates key.1 = true) (h : Heap) :
    (h.track key).CreatedFrom ((e.allocations.foldl applyAllocation h).track key) := by
  have hstep (s : Heap) (a : Allocation) : a.object = key.1 →
      (h.track key = s.track key ∨ (h.track key).CreatedFrom (s.track key)) →
        (h.track key).CreatedFrom ((applyAllocation s a).track key) := by
    intro ha hs
    have hcreate : (h.track key).CreatedFrom (s.track key).create := by
      rcases hs with hs | hs
      · exact hs ▸ Track.createdFrom_create _
      · exact hs.create
    rw [track_applyAllocation, if_pos ha.symm]
    split
    · exact hcreate.share
    · exact hcreate
  have hskip (s : Heap) (a : Allocation) (ha : a.object ≠ key.1) :
      (applyAllocation s a).track key = s.track key := by
    rw [track_applyAllocation, if_neg ha.symm]
  -- once the object is created it stays so, and until then nothing happens to it
  have fold : ∀ (l : List Allocation) (s : Heap),
      ((h.track key = s.track key ∧ ∃ a ∈ l, a.object = key.1) ∨
        (h.track key).CreatedFrom (s.track key)) →
        (h.track key).CreatedFrom ((l.foldl applyAllocation s).track key) := by
    intro l
    induction l with
    | nil =>
        rintro s (⟨-, a, ha, -⟩ | hs)
        · cases ha
        · exact hs
    | cons b rest ih =>
        intro s hs
        refine ih (applyAllocation s b) ?_
        by_cases hb : b.object = key.1
        · exact .inr (hstep s b hb (hs.imp_left And.left))
        · rw [hskip s b hb]
          refine hs.imp_left fun ⟨hs, a, ha, hkey⟩ => ⟨hs, a, ?_, hkey⟩
          exact (List.mem_cons.1 ha).resolve_left fun heq => hb (heq ▸ hkey)
  exact fold e.allocations h (.inl ⟨rfl, creates_iff.1 hc⟩)

theorem track_allocations_of_not_creates (hc : e.creates key.1 = false) (h : Heap) :
    (e.allocations.foldl applyAllocation h).track key = h.track key := by
  refine observe_foldl_of_forall (Heap.track · key) (fun s a ha => ?_) h
  rw [track_applyAllocation, if_neg]
  rintro heq
  rw [creates_iff.2 ⟨a, ha, heq.symm⟩] at hc
  cases hc

theorem mem_iff_get?_byField {writes : List HeapWrite} (hnodup : (writes.map HeapWrite.key).Nodup)
    (w : HeapWrite) : w ∈ writes ↔ (byField writes).get? w.key = some w.value := by
  refine ⟨get?_byField hnodup, fun h => ?_⟩
  obtain ⟨w', hw', hkey, hvalue⟩ := exists_of_get?_byField h
  have heq : w' = w := by
    cases w'
    cases w
    cases hkey
    cases hvalue
    rfl
  exact heq ▸ hw'

theorem track_foldl_invalidate (objects : SortedSet Nat) (h : Heap) (key : FieldKey) :
    (objects.toList.foldl Heap.invalidate h).track key =
      if objects.contains key.1 then (h.track key).lose key.2 else h.track key := by
  split
  · next hmem =>
      have hmem : key.1 ∈ objects := SortedSet.contains_iff.1 hmem
      refine observe_foldl_of_mem (Heap.track · key) id _ (k := key.1) (fun s o ho => ?_)
        (fun s => ?_) rfl hmem ?_ h
      · rw [Heap.track_invalidate, if_neg fun hk => ho hk.symm]
      · rw [Heap.track_invalidate, if_pos rfl]
      · rw [List.map_id]
        exact objects.nodup_toList
  · next hmem =>
      refine observe_foldl_of_forall (Heap.track · key) (fun s o ho => ?_) h
      rw [Heap.track_invalidate, if_neg]
      rintro rfl
      exact hmem (SortedSet.contains_iff.2 ho)

/-- What the writes of a call leave of a field. -/
theorem slot_writes (he : e.Distinct) (hr : h.reachable = true) (key : FieldKey) :
    ((e.mayWrites.foldl (fun h w => h.weakUpdate w.object w.field w.value)
      (e.mustWrites.foldl (fun h w => h.setField (.singleton w.object) w.field w.value) h)).track
        key).slot = (e.writing key).onto (h.track key).summary (h.track key).slot := by
  have hmust := track_foldl_writes (fun s w => track_singleWrite s w key) he.must
    fun w hw => hw ▸ mem_iff_get?_byField he.must w
  have hmay := track_foldl_writes (fun s w => s.track_weakUpdate key w.object w.field w.value)
    he.may fun w hw => hw ▸ mem_iff_get?_byField he.may w
  have hreach : (h.track key).reachable = true := hr
  rw [hmay, hmust, writing]
  cases hv : (byField e.mustWrites).get? key with
  | some v =>
      have hnone : (byField e.mayWrites).get? key = .none := get?_may_of_must he.apart hv
      rw [hnone]
      show ((h.track key).writeSingle v).slot = _
      rw [Track.writeSingle, hreach]
      rfl
  | none => cases (byField e.mayWrites).get? key <;> rfl

/-- What a field holds before the writes of a call, after its creations. -/
def base (e : HeapEffects) (h : Heap) (key : FieldKey) : Slot :=
  if e.creates key.1 && !(h.allocated.contains key.1 || h.summary.contains key.1) then .unset
  else h.slot key

/-- What a replay leaves of a field. -/
theorem slot_apply (he : e.Distinct) (hr : h.reachable = true) (key : FieldKey) :
    (e.apply h).slot key =
      if e.invalidated.contains key.1 then
        if key.2 = .mutationMarker then .holds Heap.marker else .unknown
      else (e.writing key).onto (h.summary.contains key.1 || e.creates key.1) (e.base h key) := by
  have hnot : (!h.reachable) = false := by rw [hr]; rfl
  have happly : e.apply h = e.invalidated.toList.foldl Heap.invalidate
      (e.mayWrites.foldl (fun h w => h.weakUpdate w.object w.field w.value)
        (e.mustWrites.foldl (fun h w => h.setField (.singleton w.object) w.field w.value)
          (e.allocations.foldl applyAllocation h))) := by
    rw [apply, hnot]
    rfl
  have hreach : (e.allocations.foldl applyAllocation h).reachable = true := by
    rw [Heap.reachable_foldl Heap.reachable_applyAllocation, hr]
  have hwrites := slot_writes he hreach key
  show ((e.apply h).track key).slot = _
  rw [happly, track_foldl_invalidate]
  split
  · rfl
  · rw [hwrites]
    cases hc : e.creates key.1 with
    | false =>
        rw [track_allocations_of_not_creates hc h, base, hc, Bool.or_false]
        rfl
    | true =>
        have hcreated := track_allocations_of_creates hc h
        have hbase : e.base h key =
            ((e.allocations.foldl applyAllocation h).track key).slot := by
          have hknown : ((h.track key).allocated || (h.track key).summary) =
              (h.allocated.contains key.1 || h.summary.contains key.1) := rfl
          rw [hcreated.slot, base, hc, hknown]
          cases (h.allocated.contains key.1 || h.summary.contains key.1) <;> rfl
        rw [hbase, Bool.or_true]
        rcases hcreated.shared with hs | hs
        · rw [hs]
        · rw [hs]
          cases e.writing key with
          | never | sometimes => rfl
          | always v => exact ite_self _

/-- Whether a field of a call's object cannot be mistaken after a merge with another call: the
object is not created, and its mutation marker not set, by the other call alone, unless the heap
knows the object anyway, or what it holds in the field does not outlast the call or the merge. -/
structure KeptBy (e f : HeapEffects) (h : Heap) (key : FieldKey) : Prop where
  marker : key.2 = .mutationMarker → key.1 ∈ f.invalidated → key.1 ∈ e.invalidated
  created : f.creates key.1 = true → e.creates key.1 = true ∨ key.1 ∈ h.allocated ∨
    key.1 ∈ h.summary ∨ h.slot key = .unset ∨ key.1 ∈ e.invalidated ∨ key.1 ∈ f.invalidated ∨
      ∃ v, e.writing key = .always v

/-- The writes of a call and of its merge start from the same contents, or those of the call replace
all contents. -/
theorem KeptBy.base_eq_or_always (hk : e.KeptBy f h key) (hi : key.1 ∉ e.invalidated)
    (hi' : key.1 ∉ f.invalidated) {m : HeapEffects}
    (hm : m.creates key.1 = (e.creates key.1 || f.creates key.1)) :
    m.base h key = e.base h key ∨
      (h.summary.contains key.1 || e.creates key.1) = false ∧ ∃ v, e.writing key = .always v := by
  rw [base, base, hm]
  cases he : e.creates key.1 with
  | true => exact .inl rfl
  | false =>
      cases hf : f.creates key.1 with
      | false => exact .inl rfl
      | true =>
          cases hs : h.summary.contains key.1 with
          | true => simp
          | false =>
              rcases hk.created hf with h' | h' | h' | h' | h' | h' | h'
              · exact absurd (he.symm.trans h') Bool.false_ne_true
              · simp [SortedSet.contains_iff.2 h']
              · exact absurd (hs.symm.trans (SortedSet.contains_iff.2 h')) Bool.false_ne_true
              · simp [h']
              · exact absurd h' hi
              · exact absurd h' hi'
              · exact .inr ⟨rfl, h'⟩

/-- Effects that do no less leave no less. -/
theorem slot_apply_leq (he : e.Distinct) {m : HeapEffects} (hm : m.Distinct)
    (hr : h.reachable = true) (hk : e.KeptBy f h key)
    (hwriting : (e.writing key).leq (m.writing key))
    (hcreates : m.creates key.1 = (e.creates key.1 || f.creates key.1))
    (hinv : m.invalidated.contains key.1 =
      (e.invalidated.contains key.1 || f.invalidated.contains key.1)) :
    ((e.apply h).slot key).leq ((m.apply h).slot key) = true := by
  rw [slot_apply he hr, slot_apply hm hr, hinv]
  cases hi : e.invalidated.contains key.1 with
  | true => exact Slot.leq_refl _
  | false =>
      have hi := SortedSet.contains_eq_false_iff.1 hi
      cases hi' : f.invalidated.contains key.1 with
      | true =>
          have hmarker : key.2 ≠ .mutationMarker := fun hmarker =>
            hi (hk.marker hmarker (SortedSet.contains_iff.1 hi'))
          rw [if_neg hmarker]
          exact Slot.leq_unknown _
      | false =>
          rcases hk.base_eq_or_always hi (SortedSet.contains_eq_false_iff.1 hi') hcreates with
            hbase | ⟨hsingle, v, hv⟩
          · rw [hbase, hcreates]
            refine Writing.onto_leq hwriting (fun hs => ?_) _
            rw [← Bool.or_assoc, hs, Bool.true_or]
          · rw [hsingle, hv]
            rw [hv] at hwriting
            exact Writing.holds_leq_onto hwriting _ _

section Merging

variable {op : HeapValue → HeapValue → HeapValue}
  (hleft : ∀ a b : HeapValue, a.leq (op a b) = true)
  (hright : ∀ a b : HeapValue, b.leq (op a b) = true)
include hleft hright

theorem slot_apply_leq_mergeBy_left (he : e.Distinct) (hf : f.Distinct) (hr : h.reachable = true)
    (hk : e.KeptBy f h key) :
    ((e.apply h).slot key).leq (((mergeBy op e f).apply h).slot key) = true := by
  refine slot_apply_leq he (distinct_mergeBy op e f) hr hk ?_ (creates_mergeBy op e f _)
    (Heap.contains_union _ _ _)
  rw [writing_mergeBy he.apart hf.apart]
  exact Writing.leq_mergeBy_left hleft hright _ _

theorem slot_apply_leq_mergeBy_right (he : e.Distinct) (hf : f.Distinct) (hr : h.reachable = true)
    (hk : f.KeptBy e h key) :
    ((f.apply h).slot key).leq (((mergeBy op e f).apply h).slot key) = true := by
  refine slot_apply_leq hf (distinct_mergeBy op e f) hr hk ?_ ?_ ?_
  · rw [writing_mergeBy he.apart hf.apart]
    exact Writing.leq_mergeBy_right hleft hright _ _
  · rw [creates_mergeBy, Bool.or_comm]
  · exact (Heap.contains_union _ _ _).trans (Bool.or_comm _ _)

end Merging

/-- Effects that write no field twice leave of a field no more than the effects they are merged
into, on either side and by join or widening, where the field is not mistaken after the merge. -/
theorem slot_apply_leq_merged (he : e.Distinct) (hf : f.Distinct) (hr : h.reachable = true)
    (key : FieldKey) (n : Nat) :
    (e.KeptBy f h key → ((e.apply h).slot key).leq (((e.join f).apply h).slot key) = true ∧
      ((e.apply h).slot key).leq (((e.widen f n).apply h).slot key) = true) ∧
      (f.KeptBy e h key → ((f.apply h).slot key).leq (((e.join f).apply h).slot key) = true ∧
        ((f.apply h).slot key).leq (((e.widen f n).apply h).slot key) = true) := by
  have hleft := HeapValue.leq_mergeBy_left Value.leq_widen_left
  have hright := HeapValue.leq_mergeBy_right Value.leq_widen_right
  constructor
  · intro hk
    exact ⟨slot_apply_leq_mergeBy_left HeapValue.leq_join_left HeapValue.leq_join_right he hf hr hk,
      slot_apply_leq_mergeBy_left hleft hright he hf hr hk⟩
  · intro hk
    exact ⟨slot_apply_leq_mergeBy_right HeapValue.leq_join_left HeapValue.leq_join_right he hf hr
      hk, slot_apply_leq_mergeBy_right hleft hright he hf hr hk⟩

/-- A call that creates an object and sets a field of it, always or sometimes. -/
def creation (always : Bool) (n : Int64) : HeapEffects :=
  let writes : List HeapWrite := [⟨1, .length, .primitive (.constant n)⟩]
  { allocations := [⟨1, false⟩]
    mustWrites := if always then writes else []
    mayWrites := if always then [] else writes
    invalidated := ∅ }

/-- An object that both calls create. -/
theorem slot_apply_leq_merged_creation :
    (((creation true 1).apply .top).slot (1, .length)).leq
        (((creation true 1).join (creation false 2)).apply .top |>.slot (1, .length)) = true ∧
      (((creation false 2).apply .top).slot (1, .length)).leq
        (((creation true 1).widen (creation false 2) 0).apply .top |>.slot (1, .length)) = true := by
  have hmerged := slot_apply_leq_merged (e := creation true 1) (f := creation false 2) (h := .top)
    ⟨by decide, by decide, by decide⟩ ⟨by decide, by decide, by decide⟩ rfl (1, .length) 0
  have hkept := hmerged.1 ⟨fun hmarker => absurd hmarker (by decide), fun _ => .inl rfl⟩
  have hkept' := hmerged.2 ⟨fun hmarker => absurd hmarker (by decide), fun _ => .inl rfl⟩
  exact ⟨hkept.1, hkept'.2⟩

/-- Whether a field may hold something after a call that it does not hold after the merge of the
call with another. -/
def Lost (e f : HeapEffects) (h : Heap) (key : FieldKey) : Prop :=
  e.Apart ∧ f.Apart ∧ h.reachable = true ∧
    ((e.apply h).slot key).leq (((e.join f).apply h).slot key) = false

/-- A call that writes a field twice. -/
def writtenTwice : HeapEffects :=
  { none with mustWrites := [⟨1, .length, .primitive (.constant 1)⟩,
    ⟨1, .length, .primitive (.constant 2)⟩] }

/-- The marker of an object that only the other call invalidates, a field of an object that only the
other call creates, and a field that is written twice in an object that stands for several. -/
theorem lost_marker_creation_repetition :
    Lost none (unknown (.singleton 1)) .top (1, .mutationMarker) ∧
      Lost none { none with allocations := [⟨1, false⟩] } .top (1, .length) ∧
      Lost writtenTwice writtenTwice ((Heap.top.allocate 1).allocate 1) (1, .length) :=
  ⟨⟨by decide, by decide, rfl, by decide⟩, ⟨by decide, by decide, rfl, by decide⟩,
    ⟨by decide, by decide, rfl, by decide⟩⟩

end HeapEffects

end ValueFlow
