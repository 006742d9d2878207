import ValueFlow.PointsTo.Constraint
import ValueFlow.PointsTo.Context
import ValueFlow.PointsTo.Object
import ValueFlow.Program.ClassTable
/-!
What variables and fields may refer to, and one pass of a list of constraints over it.

A pass applies the constraints in order, each to what the ones before it left. Facts are only ever
added, so a pass that changes nothing has found a solution.
-/

namespace ValueFlow

/-- The objects that variables and fields may refer to, and the targets found for calls. Places
that may refer to nothing have no entry. -/
structure PointerFacts where
  vars : SortedMap PointerVar (SortedSet Nat)
  fields : SortedMap (Nat × PointerField) (SortedSet Nat)
  targets : SortedMap Nat (SortedSet Nat)
deriving DecidableEq

namespace PointerFacts

def empty : PointerFacts := ⟨∅, ∅, ∅⟩

def objects (f : PointerFacts) (var : PointerVar) : SortedSet Nat := f.vars.getD var ∅

def held (f : PointerFacts) (object : Nat) (field : PointerField) : SortedSet Nat :=
  f.fields.getD (object, field) ∅

/-- Adds members to the set at a key; no members leave no entry. -/
def grow {κ : Type} [SortKey κ] (m : SortedMap κ (SortedSet Nat)) (key : κ)
    (members : SortedSet Nat) : SortedMap κ (SortedSet Nat) :=
  if members.isEmpty then m else m.insertWith SortedSet.union key members

def addVar (f : PointerFacts) (var : PointerVar) (objects : SortedSet Nat) : PointerFacts :=
  { f with vars := grow f.vars var objects }

def addField (f : PointerFacts) (object : Nat) (field : PointerField) (objects : SortedSet Nat) :
    PointerFacts :=
  { f with fields := grow f.fields (object, field) objects }

def addTarget (f : PointerFacts) (site function : Nat) : PointerFacts :=
  { f with targets := grow f.targets site (.singleton function) }

/-- The second variable may be whatever the first may be. -/
def copy (f : PointerFacts) (source dest : PointerVar) : PointerFacts :=
  f.addVar dest (f.objects source)

/-- The variable may be whatever the field of the base may be. -/
def load (f : PointerFacts) (base : PointerVar) (field : PointerField) (dest : PointerVar) :
    PointerFacts :=
  (f.objects base).toList.foldl (fun g object => g.addVar dest (g.held object field)) f

/-- The field of the base may be whatever the variable may be. -/
def store (f : PointerFacts) (base : PointerVar) (field : PointerField) (source : PointerVar) :
    PointerFacts :=
  (f.objects base).toList.foldl (fun g object => g.addField object field (f.objects source)) f

end PointerFacts

/-- What is known of the program while facts are collected. -/
structure PointerScene where
  index : ProgramIndex
  classes : ClassTable
  objects : Array HeapObject

namespace PointerScene

/-- The method that a call runs on an object. -/
def method? (scene : PointerScene) (method : String) (object : Nat) : Option Nat := do
  scene.classes.lookup? (← (← scene.objects[object]?).kind.class?) method

end PointerScene

/-- A pass over the constraints: facts and contexts so far, and the functions that calls reached,
each with its context, latest first. -/
structure PointerPass where
  facts : PointerFacts
  contexts : ContextTable
  reached : List (Nat × Nat)

namespace PointerPass

variable (scene : PointerScene)

def update (p : PointerPass) (f : PointerFacts → PointerFacts) : PointerPass :=
  { p with facts := f p.facts }

/-- Enters a function that a call reaches: the receiver goes to the first parameter, the arguments
to the parameters after the skipped ones, and the result comes back. -/
def enter (call : PointerCall) (receiver : Option Nat) (skip : Nat) (p : PointerPass)
    (function : Nat) : PointerPass :=
  let (context, contexts) := p.contexts.push call.context function
  let params := scene.index.params function
  let facts := match receiver, params with
    | some object, self :: _ => p.facts.addVar (.named function context self) (.singleton object)
    | _, _ => p.facts
  let facts := (call.args.zip (params.drop skip)).foldl
    (fun f (q : PointerVar × String) => f.copy q.1 (.named function context q.2)) facts
  { facts := facts.copy (.result function context) call.result
    contexts
    reached := (function, context) :: p.reached }

/-- Runs a call on one receiver object. -/
def dispatch (call : PointerCall) (method : String) (p : PointerPass) (object : Nat) :
    PointerPass :=
  match scene.method? method object with
  | some function =>
      enter scene call (some object) 1 (p.update (·.addTarget call.site function)) function
  | none => p

def call (p : PointerPass) (call : PointerCall) : PointerPass :=
  match call.target with
  | .static functions => functions.foldl (enter scene call none 0) p
  | .construct object constructor =>
      constructor.toList.foldl (enter scene call (some object) 1)
        (p.update (·.addVar call.result (.singleton object)))
  | .dispatch method receiver =>
      (p.facts.objects receiver).toList.foldl (dispatch scene call method) p

def apply (p : PointerPass) : Constraint → PointerPass
  | .alloc object dest => p.update (·.addVar dest (.singleton object))
  | .copy source dest => p.update (·.copy source dest)
  | .load base field dest => p.update (·.load base field dest)
  | .store base field source => p.update (·.store base field source)
  | .call c => call scene p c

/-- Applies a list of constraints in order. -/
def run (constraints : List Constraint) (facts : PointerFacts) (contexts : ContextTable) :
    PointerPass :=
  constraints.foldl (apply scene) ⟨facts, contexts, []⟩

end PointerPass

end ValueFlow
