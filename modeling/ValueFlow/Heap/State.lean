import ValueFlow.Data.SortedMap
import ValueFlow.Data.SortedSet
import ValueFlow.Heap.Field
/-!
What is known about the heap at a point of a program, and what was done to it.

A field without an entry was never written if its object is initialized, that is, created on every
path to this point, and is unknown otherwise.
-/

namespace ValueFlow

/-- An abstract heap with a log of what happened to it. -/
structure Heap where
  reachable : Bool
  fields : SortedMap FieldKey HeapValue
  /-- Objects created on every path. -/
  initialized : SortedSet Nat
  /-- Objects created on some path. -/
  allocated : SortedSet Nat
  /-- Objects that stand for several objects of a run. -/
  summary : SortedSet Nat
  /-- Fields written on every path. -/
  mustWritten : SortedSet FieldKey
  /-- Fields written on some path, with the join of what was written. -/
  mayWritten : SortedMap FieldKey HeapValue
  /-- Objects passed to code that cannot be seen. -/
  invalidated : SortedSet Nat
deriving DecidableEq

namespace Heap

/-- The reachable heap that knows nothing and to which nothing was done. -/
def top : Heap := ⟨true, ∅, ∅, ∅, ∅, ∅, ∅, ∅⟩

def bottom : Heap := { top with reachable := false }

instance : Inhabited Heap := ⟨top⟩

/-- The heap as a callee finds it: what is known stays, the log starts anew. -/
def entryView (h : Heap) : Heap := { h with mustWritten := ∅, mayWritten := ∅, invalidated := ∅ }

def slot (h : Heap) (key : FieldKey) : Slot :=
  match h.fields.get? key with
  | some v => .holds v
  | none => if h.initialized.contains key.1 then .unset else .unknown

def getField (h : Heap) (object : Nat) (field : HeapField) : Value :=
  ((h.fields.get? (object, field)).map HeapValue.abstraction).getD .top

def getFieldOf (h : Heap) (targets : SortedSet Nat) (field : HeapField) : Value :=
  if targets.isEmpty then .top
  else AbstractDomain.joinAll (targets.toList.map fun o => h.getField o field)

/-- Drops what is known about the fields of an object. -/
def dropFields (h : Heap) (object : Nat) : Heap :=
  { h with fields := h.fields.filter fun key _ => key.1 ≠ object }

/-- Creates an object. An object created again stands for several. -/
def allocate (h : Heap) (object : Nat) : Heap :=
  if h.allocated.contains object then { h with summary := h.summary.insert object }
  else
    let h := { h with allocated := h.allocated.insert object }
    if h.summary.contains object then h
    else { h.dropFields object with initialized := h.initialized.insert object }

/-- Lets an object stand for several. -/
def markSummary (h : Heap) (object : Nat) : Heap := { h with summary := h.summary.insert object }

/-- Whether a write replaces the old contents: there is one target and it stands for one object. -/
def canStrongUpdate (h : Heap) (targets : SortedSet Nat) : Bool :=
  targets.single?.any fun o => !h.summary.contains o

def recordWrite (h : Heap) (key : FieldKey) (value : HeapValue) : Heap :=
  { h with mayWritten := h.mayWritten.insertWith HeapValue.join key value }

/-- Adds to the contents of a field. -/
def weakUpdate (h : Heap) (object : Nat) (field : HeapField) (value : HeapValue) : Heap :=
  let key := (object, field)
  let h := h.recordWrite key value
  let merged := ((h.slot key).mergeBy HeapValue.join (.holds value)).value?
  { h with fields := h.fields.alter key fun _ => merged }

def strongUpdate (h : Heap) (key : FieldKey) (value : HeapValue) : Heap :=
  let h := h.recordWrite key value
  { h with mustWritten := h.mustWritten.insert key, fields := h.fields.insert key value }

/-- Writes a field of the objects that are the possible targets. -/
def setField (h : Heap) (targets : SortedSet Nat) (field : HeapField) (value : HeapValue) : Heap :=
  if !h.reachable then h
  else if h.canStrongUpdate targets then
    targets.toList.foldl (fun h o => h.strongUpdate (o, field) value) h
  else targets.toList.foldl (fun h o => h.weakUpdate o field value) h

def marker : HeapValue := .primitive (.ofBool true)

/-- Forgets everything about an object except that it may have been changed. -/
def invalidate (h : Heap) (object : Nat) : Heap :=
  let h := h.dropFields object
  { h with
    initialized := h.initialized.erase object
    invalidated := h.invalidated.insert object
    fields := h.fields.insert (object, .mutationMarker) marker }

def isMutated (h : Heap) (object : Nat) : Bool :=
  h.fields.contains (object, .mutationMarker) || h.invalidated.contains object

/-- Merges two heaps, combining the contents that both know. -/
def mergeBy (op : HeapValue → HeapValue → HeapValue) (h k : Heap) : Heap :=
  if !h.reachable then k
  else if !k.reachable then h
  else
    let keys := SortedSet.ofList (h.fields.keys ++ k.fields.keys)
    let fields := keys.toList.foldl
      (fun fields key =>
        match ((h.slot key).mergeBy op (k.slot key)).value? with
        | some v => fields.insert key v
        | none => fields)
      ∅
    { reachable := true
      fields
      initialized := h.initialized.inter k.initialized
      allocated := h.allocated.union k.allocated
      summary := h.summary.union k.summary
      mustWritten := h.mustWritten.inter k.mustWritten
      mayWritten := h.mayWritten.unionWith op k.mayWritten
      invalidated := h.invalidated.union k.invalidated }

def join (h k : Heap) : Heap := mergeBy HeapValue.join h k

def widen (h k : Heap) (iteration : Nat) : Heap :=
  mergeBy (fun a b => a.widen b iteration) h k

def leq (h k : Heap) : Bool :=
  !h.reachable || (k.reachable
    && h.allocated.subset k.allocated
    && h.summary.subset k.summary
    && h.invalidated.subset k.invalidated
    && k.initialized.subset h.initialized
    && k.mustWritten.subset h.mustWritten
    && h.mayWritten.all (fun key v => (k.mayWritten.get? key).any v.leq)
    && (h.fields.keys ++ k.fields.keys).all fun key => (h.slot key).leq (k.slot key))

/-- The smaller of comparable heaps; of others, the first with what both agree on. -/
def meet (h k : Heap) : Heap :=
  if !h.reachable || !k.reachable then bottom
  else if h.leq k then h
  else if k.leq h then k
  else
    { h with
      initialized := h.initialized.union k.initialized
      allocated := h.allocated.inter k.allocated
      summary := h.summary.inter k.summary
      invalidated := h.invalidated.inter k.invalidated }

instance : AbstractDomain Heap where
  bottom := bottom
  top := top
  join := join
  meet := meet
  leq := leq
  widen := widen
  isBottom h := !h.reachable

end Heap

end ValueFlow
