import ValueFlow.Heap.Effects
import ValueFlow.Proofs.Heap.Slots
import ValueFlow.Proofs.Maps
/-!
One field of one object while a heap is worked on.

What an operation does to a field depends on nothing but what the heap says about that field and
its object. `Heap.track` collects this, and every operation on heaps acts on it by itself.
-/

namespace ValueFlow

/-- What a heap says about one field and its object. -/
@[ext]
structure Track where
  reachable : Bool
  slot : Slot
  allocated : Bool
  summary : Bool
  /-- Whether the field was written on every path. -/
  must : Bool
  /-- The join of what was written. -/
  log : Option HeapValue
  invalidated : Bool

namespace Heap

def track (h : Heap) (key : FieldKey) : Track where
  reachable := h.reachable
  slot := h.slot key
  allocated := h.allocated.contains key.1
  summary := h.summary.contains key.1
  must := h.mustWritten.contains key
  log := h.mayWritten.get? key
  invalidated := h.invalidated.contains key.1

end Heap

namespace Track

def create (t : Track) : Track :=
  if t.allocated then { t with summary := true }
  else { t with allocated := true, slot := if t.summary then t.slot else .unset }

/-- The object stands for several from now on. -/
def share (t : Track) : Track := { t with summary := true }

/-- The field is written, next to the old contents or in place of them. -/
def write (weakly : Bool) (v : HeapValue) (t : Track) : Track :=
  { t with
    slot := if weakly then t.slot.join (.holds v) else .holds v
    must := t.must || !weakly
    log := some (t.log.elim v (·.join v)) }

/-- The object is passed to code that cannot be seen. -/
def lose (field : HeapField) (t : Track) : Track :=
  { t with
    slot := if field = .mutationMarker then .holds Heap.marker else .unknown
    invalidated := true }

end Track

/-- An operation on a heap. -/
inductive HeapOp where
  | allocate (object : Nat)
  | setField (targets : SortedSet Nat) (field : HeapField) (value : HeapValue)
  | weakUpdate (object : Nat) (field : HeapField) (value : HeapValue)
  | invalidate (object : Nat)

namespace HeapOp

def run (h : Heap) : HeapOp → Heap
  | allocate object => h.allocate object
  | setField targets field value => h.setField targets field value
  | weakUpdate object field value => h.weakUpdate object field value
  | invalidate object => h.invalidate object

def runAll (ops : List HeapOp) (h : Heap) : Heap := ops.foldl run h

end HeapOp

namespace Track

/-- An operation as it looks from one field. Only a write to a single object replaces contents, and
only if that object does not stand for several. -/
def perform (key : FieldKey) (t : Track) : HeapOp → Track
  | .allocate object => if key.1 = object then t.create else t
  | .setField targets field value =>
      if t.reachable = true ∧ key.2 = field ∧ key.1 ∈ targets.toList then
        t.write (targets.single?.isNone || t.summary) value
      else t
  | .weakUpdate object field value => if key = (object, field) then t.write true value else t
  | .invalidate object => if key.1 = object then t.lose key.2 else t

end Track

namespace Heap

variable (h : Heap) (key : FieldKey) (object : Nat) (field : HeapField) (value : HeapValue)

theorem slot_eq : h.slot key = (h.fields.get? key).elim
    (if h.initialized.contains key.1 then .unset else .unknown) .holds := by
  unfold slot
  cases h.fields.get? key <;> rfl

theorem value?_slot : (h.slot key).value? = h.fields.get? key := by
  rw [slot_eq]
  cases h.fields.get? key with
  | some v => rfl
  | none => cases h.initialized.contains key.1 <;> rfl

/-- The slots of a heap are those of its fields, if a field without contents reads as before. -/
theorem slot_of_fields {h k : Heap} {key : FieldKey} (hinit : k.initialized = h.initialized) {s : Slot}
    (hkey : k.fields.get? key = s.value?) (hs : s = h.slot key ∨ s.value?.isSome = true) :
    k.slot key = s := by
  rw [slot_eq, hkey, hinit]
  rcases hs with rfl | hs
  · rw [value?_slot, slot_eq]
  · cases s with
    | holds v => rfl
    | unset => cases hs
    | unknown => cases hs

theorem get?_without (m : SortedMap FieldKey HeapValue) :
    (m.filter fun k _ => !decide (k.1 = object)).get? key =
      if key.1 = object then none else m.get? key := by
  rw [SortedMap.get?_filter]
  cases m.get? key <;> simp [Option.filter]

theorem track_allocate : (h.allocate object).track key =
    if key.1 = object then (h.track key).create else h.track key := by
  unfold allocate
  split
  · next halloc =>
      split
      · next ho =>
          subst ho
          simp [track, Track.create, slot_eq, halloc, SortedSet.contains_insert]
      · next ho => simp [track, slot_eq, ho, SortedSet.contains_insert]
  · next halloc =>
      simp only
      split
      · next hsum =>
          split
          · next ho =>
              subst ho
              simp [track, Track.create, slot_eq, halloc, hsum, SortedSet.contains_insert]
          · next ho => simp [track, slot_eq, ho, SortedSet.contains_insert]
      · next hsum =>
          split
          · next ho =>
              subst ho
              simp [track, Track.create, slot_eq, get?_without, dropFields, halloc, hsum,
                SortedSet.contains_insert]
          · next ho => simp [track, slot_eq, get?_without, dropFields, ho, SortedSet.contains_insert]

theorem track_markSummary : (h.markSummary object).track key =
    if key.1 = object then (h.track key).share else h.track key := by
  split
  · next ho =>
      subst ho
      simp [markSummary, track, Track.share, slot_eq, SortedSet.contains_insert]
  · next ho => simp [markSummary, track, slot_eq, ho, SortedSet.contains_insert]

theorem track_weakUpdate : (h.weakUpdate object field value).track key =
    if key = (object, field) then (h.track key).write true value else h.track key := by
  have hslot : (h.weakUpdate object field value).slot key =
      if key = (object, field) then (h.slot key).join (.holds value) else h.slot key := by
    split
    · next hk =>
        subst hk
        have hinit : (h.weakUpdate object field value).initialized = h.initialized := rfl
        refine slot_of_fields hinit ?_ ?_
        · simp [weakUpdate, recordWrite, SortedMap.get?_alter, Slot.join, slot_eq]
        · cases h.slot (object, field) with
          | unset => exact .inr rfl
          | unknown => exact .inl rfl
          | holds _ => exact .inr rfl
    · next hk => simp [weakUpdate, recordWrite, slot_eq, SortedMap.get?_alter, hk]
  unfold track
  rw [hslot]
  split
  · next hk =>
      subst hk
      simp [Track.write, weakUpdate, recordWrite, SortedMap.get?_insertWith]
  · next hk => simp [weakUpdate, recordWrite, SortedMap.get?_insertWith, hk]

theorem track_strongUpdate (key' : FieldKey) : (h.strongUpdate key' value).track key =
    if key = key' then (h.track key).write false value else h.track key := by
  split
  · next hk =>
      subst hk
      simp [track, Track.write, slot_eq, strongUpdate, recordWrite, SortedMap.get?_insertWith,
        SortedMap.get?_insert, SortedSet.contains_insert]
  · next hk =>
      simp [track, slot_eq, strongUpdate, recordWrite, SortedMap.get?_insertWith,
        SortedMap.get?_insert, SortedSet.contains_insert, hk]

theorem track_invalidate : (h.invalidate object).track key =
    if key.1 = object then (h.track key).lose key.2 else h.track key := by
  obtain ⟨o, f⟩ := key
  split
  · next ho =>
      subst ho
      by_cases hf : f = .mutationMarker <;>
        simp [track, Track.lose, invalidate, get?_without, dropFields, slot_eq, SortedSet.contains_insert,
          SortedSet.contains_erase, SortedMap.get?_insert, hf]
  · next ho =>
      simp [track, invalidate, get?_without, dropFields, slot_eq, SortedSet.contains_insert,
        SortedSet.contains_erase, SortedMap.get?_insert, ho]

theorem track_foldl_weakUpdate (targets : SortedSet Nat) :
    (targets.toList.foldl (fun h o => h.weakUpdate o field value) h).track key =
      if key.2 = field ∧ key.1 ∈ targets.toList then (h.track key).write true value
      else h.track key := by
  split
  · next hk =>
      obtain ⟨rfl, hmem⟩ := hk
      refine observe_foldl_of_mem (track · key) id _ (k := key.1) ?_ ?_ rfl hmem ?_ h
      · intro s b hb
        rw [track_weakUpdate, if_neg fun h => hb (congrArg Prod.fst h).symm]
      · intro s
        rw [track_weakUpdate, if_pos rfl]
      · rw [List.map_id]
        exact targets.nodup_toList
  · next hk =>
      refine observe_foldl_of_forall (track · key) (fun s b hb => ?_) h
      rw [track_weakUpdate, if_neg]
      rintro rfl
      exact hk ⟨rfl, hb⟩

theorem track_setField (targets : SortedSet Nat) : (h.setField targets field value).track key =
    (h.track key).perform key (.setField targets field value) := by
  unfold setField
  split
  · next hr =>
      rw [Track.perform, if_neg]
      rintro ⟨hreach, -⟩
      rw [Bool.not_eq_true'] at hr
      exact Bool.false_ne_true (hr.symm.trans hreach)
  · next hr =>
      have hreach : (h.track key).reachable = true := by simpa [track] using hr
      rw [Track.perform]
      simp only [hreach, true_and]
      split
      · next hstrong =>
          obtain ⟨o, ho, hsum⟩ := (Option.any_eq_true _ _).1 hstrong
          have hlist := SortedSet.single?_eq_some_iff.1 ho
          rw [hlist, List.foldl_cons, List.foldl_nil, track_strongUpdate, ho]
          refine ite_congr ?_ (fun hk => ?_) fun _ => rfl
          · rw [List.mem_singleton, Prod.ext_iff, and_comm]
          · rw [Bool.not_eq_true', ← List.mem_singleton.1 hk.2] at hsum
            simp [track, hsum]
      · next hweak =>
          rw [track_foldl_weakUpdate]
          refine ite_congr rfl (fun hk => ?_) fun _ => rfl
          cases ho : targets.single? with
          | none => rfl
          | some o =>
              have hlist := SortedSet.single?_eq_some_iff.1 ho
              rw [hlist, List.mem_singleton] at hk
              have hsum : h.summary.contains key.1 = true := by
                simpa [canStrongUpdate, ho, hk.2] using hweak
              simp only [track, hsum, Bool.or_true]

end Heap

theorem HeapOp.track_run (h : Heap) (key : FieldKey) (op : HeapOp) :
    (op.run h).track key = (h.track key).perform key op := by
  cases op with
  | allocate object => exact h.track_allocate key object
  | setField targets field value => exact h.track_setField key field value targets
  | weakUpdate object field value => exact h.track_weakUpdate key object field value
  | invalidate object => exact h.track_invalidate key object

end ValueFlow
