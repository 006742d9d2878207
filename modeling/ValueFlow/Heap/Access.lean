import ValueFlow.Heap.ContainerMethod
import ValueFlow.Heap.Effects
import ValueFlow.PointsTo.Graph
/-!
Heap operations through expressions.

Which objects an expression may be comes from the analysis of references, what their fields hold
comes from the heap.
-/

namespace ValueFlow

namespace PointsTo

/-- The object an expression is, if it can be only one. -/
def referent? (p : PointsTo) (node : Nat) : Option Nat := (p.ofNode node).single?

/-- The objects reachable from the values of some expressions. -/
def escaping (p : PointsTo) (nodes : List Nat) : SortedSet Nat :=
  p.reachableFrom (nodes.flatMap fun node => (p.ofNode node).toList)

end PointsTo

namespace Heap

variable (p : PointsTo)

/-- Creates the objects of an allocating expression. -/
def allocateAt (h : Heap) (site : Nat) : Heap := (p.allocatedAt site).foldl allocate h

def initCollection (h : Heap) (site : Nat) (elements : List Value) : Heap :=
  let objects := SortedSet.ofList (p.allocatedAt site)
  if objects.isEmpty then h
  else
    let length := Value.constant (Int64.ofNat elements.length)
    let h := (h.allocateAt p site).setField objects .length (.primitive length)
    if elements.isEmpty then h
    else h.setField objects .elements (.primitive (AbstractDomain.joinAll elements))

/-- The value of a field of whatever an expression is. -/
def load (h : Heap) (base : Nat) (field : HeapField) : Value := h.getFieldOf (p.ofNode base) field

/-- The contents for a value that an expression gave. -/
def contents (value : Value) (node : Option Nat) : HeapValue :=
  .ofValue value (node.bind p.referent?)

/-- Writes a field of whatever an expression is. -/
def store (h : Heap) (base : Nat) (field : HeapField) (value : Value) (node : Option Nat) : Heap :=
  h.setField (p.ofNode base) field (contents p value node)

/-- Adds to the contents of a field of every object. -/
def weakUpdateAll (h : Heap) (objects : SortedSet Nat) (field : HeapField) (value : HeapValue) :
    Heap :=
  objects.toList.foldl (fun h o => h.weakUpdate o field value) h

/-- Writes an element of whatever an expression is; the elements before it may still be there. -/
def storeElement (h : Heap) (base : Nat) (value : Value) (node : Option Nat) : Heap :=
  h.weakUpdateAll (p.ofNode base) .elements (contents p value node)

def lengthOf (h : Heap) (base : Nat) : Value :=
  let targets := p.ofNode base
  let length := h.getFieldOf targets .length
  if targets.isEmpty || AbstractDomain.isTop length || !length.isNumeric then .nonNegative
  else length.meet .nonNegative

/-- Calls a method that changes its receiver. A method that is not known only sets the mutation
marker. -/
def mutate (h : Heap) (receiver : Nat) (method : Option ContainerMethod) (args : List Value) :
    Heap :=
  let targets := p.ofNode receiver
  if targets.isEmpty || !h.reachable then h
  else
    let h := h.setField targets .mutationMarker marker
    match method with
    | none => h
    | some m =>
        let h :=
          match m.newLength (h.getFieldOf targets .length) with
          | some length => h.setField targets .length (.primitive (ContainerMethod.asLength length))
          | none => h
        match m.stored? args with
        | some value => h.weakUpdateAll targets .elements (.primitive value)
        | none => h

/-- Passes the values of some expressions to code that cannot be seen. -/
def invalidateEscaping (h : Heap) (nodes : List Nat) : Heap :=
  (HeapEffects.unknown (p.escaping nodes)).apply h

end Heap

end ValueFlow
