import ValueFlow.Proofs.Heap.Tracks
/-!
Replaying the effects of a sequence of operations against running the sequence in place.

The effects keep one value for each field, so a replay can only stand for a run if that value is
what the run leaves behind. This is so where the caller's object is a single one all along, and
where no written value was lost from the effects.
-/

namespace ValueFlow

namespace Track

/-- The allocations of a call, replayed from what the call left of a field. -/
def replayAllocation (callee t : Track) : Track :=
  if callee.allocated then (if callee.summary then t.create.share else t.create) else t

/-- What the effects of a call say is written on every path. -/
def mustValue (callee : Track) : Option HeapValue :=
  if callee.must then callee.slot.value?.or callee.log else none

/-- What the effects of a call say is written on some path only. -/
def mayValue (callee : Track) : Option HeapValue := if callee.must then none else callee.log

def writeSingle (v : HeapValue) (t : Track) : Track :=
  if t.reachable then t.write t.summary v else t

def replayWrite (callee t : Track) : Track :=
  let t := callee.mustValue.elim t (writeSingle · t)
  callee.mayValue.elim t (write true · t)

/-- What code that cannot be seen did in a call, replayed. -/
def replayLoss (field : HeapField) (callee t : Track) : Track :=
  if callee.invalidated then t.lose field else t

def replay (field : HeapField) (callee t : Track) : Track :=
  replayLoss field callee (replayWrite callee (replayAllocation callee t))

end Track

theorem HeapWrite.mem_map_ofEntry {m : SortedMap FieldKey HeapValue} {w : HeapWrite} :
    w ∈ m.entries.map ofEntry ↔ m.get? w.key = some w.value := by
  rw [SortedMap.get?_eq_some_iff, List.mem_map]
  constructor
  · rintro ⟨p, hp, rfl⟩
    exact hp
  · intro hp
    exact ⟨_, hp, rfl⟩

namespace HeapEffects

variable {exit h : Heap} {key : FieldKey}

theorem track_applyAllocation (h : Heap) (a : Allocation) (key : FieldKey) :
    (applyAllocation h a).track key =
      if key.1 = a.object then
        (if a.summary then (h.track key).create.share else (h.track key).create)
      else h.track key := by
  unfold applyAllocation
  cases a.summary with
  | false => exact h.track_allocate key a.object
  | true =>
      simp only [if_true, Heap.track_markSummary, Heap.track_allocate]
      split <;> rfl

theorem allocations_ofExit (hexit : exit.reachable = true) : (ofExit .top exit).allocations =
    exit.allocated.toList.map fun o => ⟨o, exit.summary.contains o⟩ := by
  have hkeep : exit.allocated.toList.filter (fun o => !Heap.top.allocated.contains o) =
      exit.allocated.toList := List.filter_eq_self.2 fun _ _ => rfl
  simp only [ofExit, hexit, Bool.not_true, Bool.false_eq_true, if_false, SortedSet.filter, hkeep]

theorem track_allocations (hexit : exit.reachable = true) (h : Heap) (key : FieldKey) :
    ((ofExit .top exit).allocations.foldl applyAllocation h).track key =
      (exit.track key).replayAllocation (h.track key) := by
  have hskip : ∀ (s : Heap) (a : Allocation), a.object ≠ key.1 →
      (applyAllocation s a).track key = s.track key := by
    intro s a ha
    rw [track_applyAllocation, if_neg ha.symm]
  rw [allocations_ofExit hexit, Track.replayAllocation]
  split
  · next hc =>
      have hmem : key.1 ∈ exit.allocated := SortedSet.contains_iff.1 hc
      refine observe_foldl_of_mem (Heap.track · key) Allocation.object
        (fun t => if exit.summary.contains key.1 then t.create.share else t.create) hskip
        (b := ⟨key.1, exit.summary.contains key.1⟩) ?_ rfl ?_ ?_ h
      · intro s
        rw [track_applyAllocation, if_pos rfl]
      · exact List.mem_map.2 ⟨key.1, hmem, rfl⟩
      · rw [List.map_map]
        exact (List.map_id _).symm ▸ exit.allocated.nodup_toList
  · next hc =>
      refine observe_foldl_of_forall (Heap.track · key) (fun s a ha => hskip s a ?_) h
      obtain ⟨o, ho, rfl⟩ := List.mem_map.1 ha
      rintro rfl
      exact hc (SortedSet.contains_iff.2 ho)

/-- Replaying writes to different fields, of which one field sees at most one. -/
theorem track_foldl_writes {step : Heap → HeapWrite → Heap} {effect : HeapValue → Track → Track}
    (hstep : ∀ s w, (step s w).track key =
      if key = w.key then effect w.value (s.track key) else s.track key)
    {writes : List HeapWrite} (hnodup : (writes.map HeapWrite.key).Nodup) {value : Option HeapValue}
    (hvalue : ∀ w : HeapWrite, key = w.key → (w ∈ writes ↔ value = some w.value)) (h : Heap) :
    (writes.foldl step h).track key = value.elim (h.track key) (effect · (h.track key)) := by
  have hskip : ∀ (s : Heap) (w : HeapWrite), w.key ≠ key → (step s w).track key = s.track key := by
    intro s w hw
    rw [hstep, if_neg hw.symm]
  cases hv : value with
  | some v =>
      have hmem := (hvalue ⟨key.1, key.2, v⟩ rfl).2 hv
      refine observe_foldl_of_mem (Heap.track · key) HeapWrite.key _ hskip (fun s => ?_) rfl hmem
        hnodup h
      exact (hstep s _).trans (if_pos rfl)
  | none =>
      refine observe_foldl_of_forall (Heap.track · key) (fun s w hw => hskip s w ?_) h
      intro hkey
      rw [(hvalue w hkey.symm).1 hw] at hv
      cases hv

theorem mem_mustWrites (hexit : exit.reachable = true) (w : HeapWrite) :
    w ∈ (ofExit .top exit).mustWrites ↔ (exit.track w.key).mustValue = some w.value := by
  have hvalue : (exit.track w.key).mustValue = if exit.mustWritten.contains w.key then
      (exit.fields.get? w.key).or (exit.mayWritten.get? w.key) else .none := by
    rw [← Heap.value?_slot]
    rfl
  rw [hvalue]
  simp only [ofExit, hexit, Bool.not_true, Bool.false_eq_true, if_false]
  rw [List.mem_filterMap]
  constructor
  · rintro ⟨key, hkey, hw⟩
    obtain ⟨v, hv, rfl⟩ := Option.map_eq_some_iff.1 hw
    exact (if_pos (SortedSet.contains_iff.2 hkey)).trans hv
  · intro hv
    split at hv
    · next hkey => exact ⟨w.key, SortedSet.contains_iff.1 hkey, by rw [hv]; rfl⟩
    · cases hv

theorem nodup_mustWrites (hexit : exit.reachable = true) :
    ((ofExit .top exit).mustWrites.map HeapWrite.key).Nodup := by
  simp only [ofExit, hexit, Bool.not_true, Bool.false_eq_true, if_false]
  rw [List.Nodup, List.pairwise_map]
  refine List.Pairwise.filterMap _ (fun key key' hne w hw w' hw' => ?_)
    exit.mustWritten.nodup_toList
  obtain ⟨v, -, rfl⟩ := Option.map_eq_some_iff.1 hw
  obtain ⟨v', -, rfl⟩ := Option.map_eq_some_iff.1 hw'
  exact hne

theorem mem_mayWrites (hexit : exit.reachable = true) (w : HeapWrite) :
    w ∈ (ofExit .top exit).mayWrites ↔ (exit.track w.key).mayValue = some w.value := by
  have hvalue : (exit.track w.key).mayValue =
      (exit.mayWritten.filter fun key _ => !exit.mustWritten.contains key).get? w.key := by
    rw [SortedMap.get?_filter, Track.mayValue]
    simp only [Heap.track]
    cases exit.mayWritten.get? w.key with
    | none => exact ite_self _
    | some v => by_cases h : exit.mustWritten.contains w.key = true <;> simp [Option.filter, h]
  rw [hvalue]
  simp only [ofExit, hexit, Bool.not_true, Bool.false_eq_true, if_false]
  exact HeapWrite.mem_map_ofEntry

theorem nodup_mayWrites (hexit : exit.reachable = true) :
    ((ofExit .top exit).mayWrites.map HeapWrite.key).Nodup := by
  simp only [ofExit, hexit, Bool.not_true, Bool.false_eq_true, if_false, List.map_map]
  exact SortedMap.nodup_keys _

theorem track_singleWrite (s : Heap) (w : HeapWrite) (key : FieldKey) :
    (s.setField (.singleton w.object) w.field w.value).track key =
      if key = w.key then (s.track key).writeSingle w.value else s.track key := by
  rw [Heap.track_setField, Track.perform, Track.writeSingle]
  cases (s.track key).reachable with
  | false => simp
  | true =>
      refine ite_congr ?_ (fun _ => rfl) fun _ => rfl
      rw [SortedSet.singleton, List.mem_singleton, HeapWrite.key, Prod.ext_iff]
      simp [and_comm]

theorem track_invalidated (hexit : exit.reachable = true) (h : Heap) (key : FieldKey) :
    ((ofExit .top exit).invalidated.toList.foldl Heap.invalidate h).track key =
      (exit.track key).replayLoss key.2 (h.track key) := by
  have hlist : (ofExit .top exit).invalidated.toList = exit.invalidated.toList := by
    have hkeep : exit.invalidated.toList.filter (fun o => !Heap.top.invalidated.contains o) =
        exit.invalidated.toList := List.filter_eq_self.2 fun _ _ => rfl
    simp only [ofExit, hexit, Bool.not_true, Bool.false_eq_true, if_false, SortedSet.filter, hkeep]
  rw [hlist, Track.replayLoss]
  split
  · next hc =>
      have hmem : key.1 ∈ exit.invalidated := SortedSet.contains_iff.1 hc
      refine observe_foldl_of_mem (Heap.track · key) id _ (k := key.1) (fun s o ho => ?_)
        (fun s => ?_) rfl hmem ?_ h
      · rw [Heap.track_invalidate, if_neg fun hk => ho hk.symm]
      · rw [Heap.track_invalidate, if_pos rfl]
      · rw [List.map_id]
        exact exit.invalidated.nodup_toList
  · next hc =>
      refine observe_foldl_of_forall (Heap.track · key) (fun s o ho => ?_) h
      rw [Heap.track_invalidate, if_neg]
      rintro rfl
      exact hc (SortedSet.contains_iff.2 ho)

theorem track_apply_ofExit (hexit : exit.reachable = true) (hr : h.reachable = true)
    (key : FieldKey) : ((ofExit .top exit).apply h).track key =
      (exit.track key).replay key.2 (h.track key) := by
  have hreach : (!h.reachable) = false := by rw [hr]; rfl
  rw [apply, hreach]
  simp only [Bool.false_eq_true, if_false]
  have hmust := track_foldl_writes (fun s w => track_singleWrite s w key)
    (nodup_mustWrites hexit) fun w hw => hw ▸ mem_mustWrites hexit w
  have hmay := track_foldl_writes (fun s w => s.track_weakUpdate key w.object w.field w.value)
    (nodup_mayWrites hexit) fun w hw => hw ▸ mem_mayWrites hexit w
  rw [track_invalidated hexit, hmay, hmust, track_allocations hexit]
  rfl

end HeapEffects

namespace Track

/-- The object is a single one for the caller, and the call does not create it once more. -/
def Alone (start callee : Track) : Prop :=
  start.summary = false ∧ (start.allocated && callee.allocated) = false

/-- What a call leaves of a field when it is run in place (`run`) and from the empty heap
(`callee`), after the same operations. -/
structure Follows (field : HeapField) (start run callee : Track) : Prop where
  reachable : start.reachable = true ∧ run.reachable = true ∧ callee.reachable = true
  created : callee.allocated = false → callee.summary = false
  allocated : run.allocated = (start.allocated || callee.allocated)
  summary : run.summary =
    (start.summary || callee.summary || start.allocated && callee.allocated)
  /-- Nothing is there that was neither there at the start nor written. -/
  below : callee.invalidated = false → run.slot.leq
    ((callee.replayAllocation start).slot.join (.ofOption callee.log)) = true
  logged : callee.must = true → callee.log.isSome = true
  known : callee.must = true → callee.invalidated = false → callee.slot ≠ .unknown
  /-- A single object holds the same in both once it was written in the call. -/
  same : start.Alone callee → callee.must = true → callee.invalidated = false →
    run.slot = callee.slot
  marked : callee.invalidated = true → field = .mutationMarker →
    (Slot.ofOption callee.log).leq (.holds Heap.marker) = true →
    run.slot.leq (.holds Heap.marker) = true

theorem slot_replayAllocation (callee start : Track) : (callee.replayAllocation start).slot =
    if callee.allocated && !start.allocated && !start.summary then .unset else start.slot := by
  unfold replayAllocation create share
  cases callee.allocated <;> cases callee.summary <;> cases start.allocated <;>
    cases start.summary <;> rfl

theorem reachable_replayAllocation (callee start : Track) :
    (callee.replayAllocation start).reachable = start.reachable := by
  unfold replayAllocation create share
  cases callee.allocated <;> cases callee.summary <;> cases start.allocated <;> rfl

theorem alone_of_summary (callee start : Track)
    (h : (callee.replayAllocation start).summary = false) : start.Alone callee := by
  unfold Alone
  unfold replayAllocation create share at h
  cases hc : callee.allocated <;> cases hs : start.allocated <;> cases ht : start.summary <;>
    simp_all

/-- A write adds to the log what was written and keeps what was there. -/
theorem leq_log_write (weakly : Bool) (v : HeapValue) (t : Track) :
    (Slot.ofOption t.log).leq (.ofOption (t.write weakly v).log) = true ∧
      (Slot.holds v).leq (.ofOption (t.write weakly v).log) = true := by
  unfold write
  cases t.log with
  | none => exact ⟨rfl, HeapValue.leq_refl v⟩
  | some l => exact ⟨HeapValue.leq_join_left l v, HeapValue.leq_join_right l v⟩

namespace Follows

variable {field : HeapField} {start run callee : Track}

/-- Creating an object that the call has created before only makes it stand for several. -/
theorem create_again (h : Follows field start run callee) (hc : callee.allocated = true) :
    Follows field start run.create callee.create := by
  have hr : run.allocated = true := by rw [h.allocated, hc, Bool.or_true]
  have hrun : run.create = { run with summary := true } := if_pos hr
  have hcallee : callee.create = { callee with summary := true } := if_pos hc
  rw [hrun, hcallee]
  exact { h with
    created := fun hc' => absurd (hc'.symm.trans hc) Bool.false_ne_true
    summary := by simp
    below := fun hi => by simpa [slot_replayAllocation] using h.below hi }

/-- Creating an object for the first time in the call: the caller may know it or not. -/
theorem create_first (h : Follows field start run callee) (hc : callee.allocated = false) :
    Follows field start run.create callee.create := by
  have hsum := h.created hc
  have halloc := h.allocated
  have hshared := h.summary
  rw [hc, Bool.or_false] at halloc
  rw [hsum, hc, Bool.or_false, Bool.and_false, Bool.or_false] at hshared
  have hcallee : callee.create = { callee with allocated := true, slot := .unset } := by
    simp [Track.create, hc, hsum]
  have hrun : run.create =
      { run with
        allocated := true
        summary := start.summary || start.allocated
        slot := if !start.allocated && !start.summary then .unset else run.slot } := by
    cases hs : start.allocated <;> cases ht : start.summary <;>
      simp [Track.create, halloc, hshared, hs, ht]
  rw [hcallee, hrun]
  refine ⟨h.reachable, ?_, ?_, ?_, ?_, h.logged, ?_, ?_, ?_⟩
  · intro hc'
    cases hc'
  · simp
  · simp [hsum]
  · intro hi
    have hbelow := h.below hi
    rw [slot_replayAllocation] at hbelow ⊢
    simp only [hc, Bool.false_and, Bool.false_eq_true, if_false, Bool.true_and] at hbelow ⊢
    split
    · rfl
    · exact hbelow
  · intro _ _ hslot
    cases hslot
  · rintro ⟨hs, ha⟩ _ _
    simp only [Bool.and_true] at ha
    simp [hs, ha]
  · intro hi hf hlog
    simp only
    split
    · rfl
    · exact h.marked hi hf hlog

theorem create (h : Follows field start run callee) :
    Follows field start run.create callee.create := by
  cases hc : callee.allocated with
  | true => exact h.create_again hc
  | false => exact h.create_first hc

theorem summary_eq (h : Follows field start run callee) (halone : start.Alone callee) :
    run.summary = callee.summary := by
  rw [h.summary, halone.1, halone.2, Bool.false_or, Bool.or_false]

theorem write (h : Follows field start run callee) (several : Bool) (v : HeapValue) :
    Follows field start (run.write (several || run.summary) v)
      (callee.write (several || callee.summary) v) := by
  refine { h with below := ?_, logged := ?_, known := ?_, same := ?_, marked := ?_ }
  · intro hi
    obtain ⟨hold, hnew⟩ := leq_log_write (several || callee.summary) v callee
    have hbase := Slot.join_mono_right (callee.replayAllocation start).slot hold
    have hbelow := Slot.leq_trans (h.below hi) hbase
    have hwritten := Slot.leq_trans hnew (Slot.leq_join_right (callee.replayAllocation start).slot _)
    simp only [Track.write]
    split
    · exact Slot.join_leq hbelow hwritten
    · exact hwritten
  · intro _
    rfl
  · intro hmust hi hslot
    simp only [Track.write] at hmust hslot
    split at hslot
    · next hweak =>
        rw [hweak, Bool.not_true, Bool.or_false] at hmust
        exact Slot.join_holds_ne_unknown (h.known hmust hi) v hslot
    · cases hslot
  · intro halone hmust hi
    simp only [Track.write, h.summary_eq halone] at hmust ⊢
    split
    · next hweak =>
        rw [hweak, Bool.not_true, Bool.or_false] at hmust
        rw [h.same halone hmust hi]
    · rfl
  · intro hi hf hle
    obtain ⟨hold, hnew⟩ := leq_log_write (several || callee.summary) v callee
    have hslot := h.marked hi hf (Slot.leq_trans hold hle)
    simp only [Track.write]
    split
    · exact Slot.join_leq hslot (Slot.leq_trans hnew hle)
    · exact Slot.leq_trans hnew hle

theorem lose (h : Follows field start run callee) :
    Follows field start (run.lose field) (callee.lose field) := by
  refine { h with below := ?_, known := ?_, same := ?_, marked := ?_ }
  · intro hi
    cases hi
  · intro _ hi
    cases hi
  · intro _ _ hi
    cases hi
  · intro _ hf _
    rw [Track.lose, if_pos hf]
    exact Slot.leq_refl _

theorem perform {key : FieldKey} (h : Follows key.2 start run callee) (op : HeapOp) :
    Follows key.2 start (run.perform key op) (callee.perform key op) := by
  cases op with
  | allocate object =>
      simp only [Track.perform]
      split
      · exact h.create
      · exact h
  | setField targets field value =>
      simp only [Track.perform, h.reachable.2.1, h.reachable.2.2, true_and]
      split
      · exact h.write _ value
      · exact h
  | weakUpdate object field value =>
      simp only [Track.perform]
      split
      · simpa only [Bool.true_or] using h.write true value
      · exact h
  | invalidate object =>
      simp only [Track.perform]
      split
      · exact h.lose
      · exact h

/-- What the effects keep of a written field is there for a single object. -/
theorem leq_kept (h : Follows field start run callee) (halone : start.Alone callee)
    (hmust : callee.must = true) (hi : callee.invalidated = false) {v : HeapValue}
    (hv : callee.slot.value?.or callee.log = some v) : run.slot.leq (.holds v) = true := by
  have hknown := h.known hmust hi
  rw [h.same halone hmust hi]
  cases hslot : callee.slot with
  | unset => rfl
  | unknown => exact absurd hslot hknown
  | holds w =>
      rw [hslot] at hv
      cases hv
      exact Slot.leq_refl _

theorem leq_replay (h : Follows field start run callee)
    (hkept : start.Alone callee ∨ ∀ v, callee.mustValue = some v →
      (Slot.ofOption callee.log).leq (.holds v) = true)
    (hmark : callee.invalidated = true → field = .mutationMarker →
      (Slot.ofOption callee.log).leq (.holds Heap.marker) = true) :
    run.slot.leq (callee.replay field start).slot = true := by
  cases hi : callee.invalidated with
  | true =>
      simp only [replay, replayLoss, hi, if_true, Track.lose]
      split
      · next hf => exact h.marked hi hf (hmark hi hf)
      · exact Slot.leq_unknown _
  | false =>
      have hbelow := h.below hi
      have hnone : callee.replay field start = replayWrite callee (replayAllocation callee start) := by
        simp [replay, replayLoss, hi]
      rw [hnone]
      cases hm : callee.must with
      | false =>
          have hslot : (replayWrite callee (replayAllocation callee start)).slot =
              (replayAllocation callee start).slot.join (.ofOption callee.log) := by
            simp only [replayWrite, mustValue, mayValue, hm, Bool.false_eq_true, if_false]
            cases callee.log with
            | none => exact (Slot.join_unset _).symm
            | some l => rfl
          rw [hslot]
          exact hbelow
      | true =>
          obtain ⟨l, hl⟩ := Option.isSome_iff_exists.1 (h.logged hm)
          obtain ⟨v, hv⟩ : ∃ v, callee.slot.value?.or callee.log = some v := by
            cases callee.slot <;> simp [Slot.value?, hl]
          have hslot : (replayWrite callee (replayAllocation callee start)).slot =
              if (replayAllocation callee start).summary then
                (replayAllocation callee start).slot.join (.holds v)
              else .holds v := by
            simp [replayWrite, mustValue, mayValue, writeSingle, reachable_replayAllocation, hm, hv,
              h.reachable.1, Track.write]
          rw [hslot]
          cases hsum : (replayAllocation callee start).summary with
          | false => exact h.leq_kept (alone_of_summary _ _ hsum) hm hi hv
          | true =>
              rw [if_pos rfl]
              rcases hkept with halone | hkept
              · exact Slot.leq_trans (h.leq_kept halone hm hi hv) (Slot.leq_join_right _ _)
              · exact Slot.leq_trans hbelow (Slot.join_mono_right _ (hkept v ((if_pos hm).trans hv)))

theorem runAll {key : FieldKey} {h k : Heap} (hrel : Follows key.2 start (h.track key) (k.track key))
    (ops : List HeapOp) : Follows key.2 start ((HeapOp.runAll ops h).track key)
      ((HeapOp.runAll ops k).track key) := by
  induction ops generalizing h k with
  | nil => exact hrel
  | cons op rest ih =>
      refine ih ?_
      rw [op.track_run, op.track_run]
      exact hrel.perform op

theorem initial {h : Heap} (hr : h.reachable = true) (key : FieldKey) :
    Follows key.2 (h.track key) (h.track key) (Heap.top.track key) where
  reachable := ⟨hr, hr, rfl⟩
  created := fun _ => rfl
  allocated := (Bool.or_false _).symm
  summary := by
    show _ = (_ || false || _ && false)
    rw [Bool.and_false, Bool.or_false, Bool.or_false]
  below := fun _ => by
    rw [slot_replayAllocation]
    exact Slot.leq_join_left _ _
  logged := fun h => nomatch h
  known := fun h => nomatch h
  same := fun _ h => nomatch h
  marked := fun h => nomatch h

end Follows

end Track

namespace HeapOp

/-- The effects of a sequence of operations, as a summary keeps them. -/
def effects (ops : List HeapOp) : HeapEffects := .ofExit .top (runAll ops .top)

/-- The effects keep no less than what was written to a field. -/
def KeepsWrites (ops : List HeapOp) (object : Nat) (field : HeapField) : Prop :=
  ∀ v, ⟨object, field, v⟩ ∈ (effects ops).mustWrites →
    ∀ l, (runAll ops .top).mayWritten.get? (object, field) = some l → l.leq v = true

/-- If an object is lost to code that cannot be seen, then nothing but a set marker is written to
its mutation marker: a replay sets it last, whatever was written to it after the loss. -/
def KeepsMarker (ops : List HeapOp) (object : Nat) : Prop :=
  object ∈ (runAll ops .top).invalidated →
    ∀ l, (runAll ops .top).mayWritten.get? (object, .mutationMarker) = some l →
      l.leq Heap.marker = true

/-- The caller has one object, and the operations do not create it a second time. -/
def StaysSingle (ops : List HeapOp) (h : Heap) (object : Nat) : Prop :=
  object ∉ h.summary ∧ ¬ (object ∈ h.allocated ∧ object ∈ (runAll ops .top).allocated)

theorem ofOption_leq {o : Option HeapValue} {v : HeapValue}
    (h : ∀ l, o = some l → l.leq v = true) : (Slot.ofOption o).leq (.holds v) = true := by
  cases o with
  | none => rfl
  | some l => exact h l rfl

/-- A replay of the effects is above the run in place, for every field of a single object and for
every field of which the effects keep all that was written; the mutation marker of an object that is
lost must not be written over. -/
theorem slot_runAll_leq_slot_apply (ops : List HeapOp) (h : Heap) (hr : h.reachable = true)
    (object : Nat) (field : HeapField)
    (hkept : StaysSingle ops h object ∨ KeepsWrites ops object field)
    (hmark : field = .mutationMarker → KeepsMarker ops object) :
    ((runAll ops h).slot (object, field)).leq (((effects ops).apply h).slot (object, field)) =
      true := by
  have hrel := (Track.Follows.initial hr (object, field)).runAll ops
  have hexit : (runAll ops .top).reachable = true := hrel.reachable.2.2
  have hslot := congrArg Track.slot (HeapEffects.track_apply_ofExit hexit hr (object, field))
  have hgoal := hrel.leq_replay ?_ ?_
  · rw [← hslot] at hgoal
    exact hgoal
  · refine hkept.imp ?_ ?_
    · rintro ⟨hsum, halloc⟩
      refine ⟨SortedSet.contains_eq_false_iff.2 hsum, Bool.eq_false_iff.2 fun hboth => halloc ?_⟩
      obtain ⟨hcaller, hcallee⟩ := (Bool.and_eq_true _ _).mp hboth
      exact ⟨SortedSet.contains_iff.1 hcaller, SortedSet.contains_iff.1 hcallee⟩
    · intro hwrites v hv
      exact ofOption_leq (hwrites v ((HeapEffects.mem_mustWrites hexit ⟨object, field, v⟩).2 hv))
  · intro hlost hfield
    have hfield' : field = .mutationMarker := hfield
    subst hfield'
    exact ofOption_leq (hmark rfl (SortedSet.contains_iff.1 hlost))

/-- The writes of the next two statements: a field is set to one number and then to another. -/
def twoWrites : List HeapOp :=
  [.setField (.singleton 1) (.attr "f") (.primitive (.constant 9)),
    .setField (.singleton 1) (.attr "f") (.primitive (.constant 7))]

theorem staysSingle_twoWrites : StaysSingle twoWrites (runAll [.allocate 1] .top) 1 := by
  refine ⟨SortedSet.contains_eq_false_iff.1 (by decide), fun hboth => ?_⟩
  have hcallee := SortedSet.contains_iff.2 hboth.2
  revert hcallee
  decide

theorem slot_runAll_leq_slot_apply_single :
    ((runAll twoWrites (runAll [.allocate 1] .top)).slot (1, .attr "f")).leq
      (((effects twoWrites).apply (runAll [.allocate 1] .top)).slot (1, .attr "f")) = true := by
  refine slot_runAll_leq_slot_apply _ _ rfl 1 (.attr "f") (.inl staysSingle_twoWrites) ?_
  intro h
  cases h

/-- Where the caller knows the object as several, the first of two writes is lost in the replay. -/
theorem exists_slot_runAll_not_leq : ∃ (ops : List HeapOp) (h : Heap) (object : Nat)
    (field : HeapField), h.reachable = true ∧
      ((runAll ops h).slot (object, field)).leq (((effects ops).apply h).slot (object, field)) =
        false := by
  refine ⟨twoWrites, runAll [.allocate 1, .allocate 1,
    .setField (.singleton 1) (.attr "f") (.primitive (.constant 3))] .top, 1, .attr "f", rfl, ?_⟩
  decide

end HeapOp

end ValueFlow
