import ValueFlow.Heap.State
/-!
What a call does to the heap, to be replayed where the call stands.
-/

namespace ValueFlow

/-- An object that a call creates. -/
structure Allocation where
  object : Nat
  /-- Whether it is created more than once. -/
  summary : Bool
deriving DecidableEq, Repr

structure HeapWrite where
  object : Nat
  field : HeapField
  value : HeapValue
deriving DecidableEq, Repr

namespace HeapWrite

def key (w : HeapWrite) : FieldKey := (w.object, w.field)

def ofEntry (p : FieldKey × HeapValue) : HeapWrite := ⟨p.1.1, p.1.2, p.2⟩

end HeapWrite

structure HeapEffects where
  allocations : List Allocation
  /-- Written on every path. -/
  mustWrites : List HeapWrite
  /-- Written on some path only. -/
  mayWrites : List HeapWrite
  /-- Passed to code that cannot be seen. -/
  invalidated : SortedSet Nat
deriving DecidableEq

namespace HeapEffects

def none : HeapEffects := ⟨[], [], [], ∅⟩

instance : Inhabited HeapEffects := ⟨none⟩

/-- The effects that lead from the heap at the entry of a function to the heap at its exit. -/
def ofExit (entry exit : Heap) : HeapEffects :=
  if !exit.reachable then none
  else
    { allocations := (exit.allocated.filter fun o => !entry.allocated.contains o).toList.map
        fun o => ⟨o, exit.summary.contains o⟩
      mustWrites := exit.mustWritten.toList.filterMap fun key =>
        ((exit.fields.get? key).or (exit.mayWritten.get? key)).map fun v => .ofEntry (key, v)
      mayWrites := (exit.mayWritten.filter fun key _ => !exit.mustWritten.contains key).entries.map
        HeapWrite.ofEntry
      invalidated := exit.invalidated.filter fun o => !entry.invalidated.contains o }

/-- The effects of a call that may do anything to some objects. -/
def unknown (objects : SortedSet Nat) : HeapEffects := { none with invalidated := objects }

def isEmpty (e : HeapEffects) : Bool :=
  e.allocations.isEmpty && e.mustWrites.isEmpty && e.mayWrites.isEmpty && e.invalidated.isEmpty

def applyAllocation (h : Heap) (a : Allocation) : Heap :=
  let h := h.allocate a.object
  if a.summary then h.markSummary a.object else h

/-- Replays the effects: allocations, writes, then what code that cannot be seen may have done. -/
def apply (e : HeapEffects) (h : Heap) : Heap :=
  if !h.reachable then h
  else
    let h := e.allocations.foldl applyAllocation h
    let h := e.mustWrites.foldl (fun h w => h.setField (.singleton w.object) w.field w.value) h
    let h := e.mayWrites.foldl (fun h w => h.weakUpdate w.object w.field w.value) h
    e.invalidated.toList.foldl Heap.invalidate h

def touched (e : HeapEffects) : SortedSet Nat :=
  .ofList ((e.mustWrites ++ e.mayWrites).map HeapWrite.object ++ e.invalidated.toList)

/-- The writes by field; of two writes to one field the later counts. -/
def byField (writes : List HeapWrite) : SortedMap FieldKey HeapValue :=
  .ofList (writes.map fun w => (w.key, w.value))

/-- The effects of one call or the other. What both write on every path stays so; everything else
is written on some path. -/
def mergeBy (op : HeapValue → HeapValue → HeapValue) (e f : HeapEffects) : HeapEffects :=
  let allocations := (e.allocations ++ f.allocations).foldl
    (fun m a => SortedMap.insertWith or m a.object a.summary) (∅ : SortedMap Nat Bool)
  let ours := byField e.mustWrites
  let theirs := byField f.mustWrites
  let must := ours.filterMap fun key v => (theirs.get? key).map (op v)
  let sometimes := [ours.filter fun key _ => !theirs.contains key,
    theirs.filter fun key _ => !ours.contains key, byField e.mayWrites, byField f.mayWrites]
  let may := sometimes.foldl (SortedMap.unionWith op) ∅
  { allocations := allocations.entries.map fun p => ⟨p.1, p.2⟩
    mustWrites := must.entries.map HeapWrite.ofEntry
    mayWrites := (may.filter fun key _ => !must.contains key).entries.map HeapWrite.ofEntry
    invalidated := e.invalidated.union f.invalidated }

def join (e f : HeapEffects) : HeapEffects := mergeBy HeapValue.join e f

def widen (e f : HeapEffects) (iteration : Nat) : HeapEffects :=
  mergeBy (fun a b => a.widen b iteration) e f

end HeapEffects

end ValueFlow
