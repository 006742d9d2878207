import ValueFlow.Data.SortedMap
import ValueFlow.Data.SortedSet
import ValueFlow.Program.Walk
/-!
The functions and classes of a program, numbered in the order of their definitions.

Function zero holds the statements of the module. Functions defined inside functions are not
numbered. A name that a function reads and never binds is the module's name.
-/

namespace ValueFlow

/-- The number of the function that holds the statements of the module. -/
def moduleId : Nat := 0

def moduleName : String := "<module>"

/-- A function as a unit of analysis. -/
structure FunctionInfo where
  /-- The name, with the class in front for a method. -/
  name : String
  className : Option String
  params : List String
  body : List Stmt
  defNode : Nat

namespace FunctionInfo

def isMethod (f : FunctionInfo) : Bool := f.className.isSome

/-- The part of the name after the last dot. -/
def shortName (f : FunctionInfo) : String :=
  String.ofList (f.name.toList.reverse.takeWhile (· ≠ '.')).reverse

def boundBy : Stmt → Option String
  | .assign _ (.name _ n) _ => some n
  | .forLoop _ target _ _ => some target
  | .functionDef _ _ n _ _ => some n
  | .classDef _ _ n _ _ => some n
  | _ => none

/-- The names local to a function: its parameters and what its body binds. -/
def boundNames (f : FunctionInfo) : SortedSet String :=
  .ofList (f.params ++ (Stmt.walkAll f.body).filterMap boundBy)

end FunctionInfo

/-- The numbered functions and classes of a program. -/
structure ProgramIndex where
  functions : Array FunctionInfo
  classes : List ClassDef

namespace ProgramIndex

/-- The functions a statement of the module adds. -/
def functionsOf (s : Stmt) : List FunctionInfo :=
  match s.function?, s.class? with
  | some f, _ => [⟨f.name, none, f.params, f.body, f.id⟩]
  | none, some c =>
      c.methods.map fun m => ⟨c.name ++ "." ++ m.name, some c.name, m.params, m.body, m.id⟩
  | none, none => []

/-- Numbers the functions and classes of a program. -/
def build (p : Program) : ProgramIndex where
  functions := (⟨moduleName, none, [], p.body, 0⟩ :: p.body.flatMap functionsOf).toArray
  classes := p.classes

def function? (ix : ProgramIndex) (id : Nat) : Option FunctionInfo := ix.functions[id]?

def ids (ix : ProgramIndex) : List Nat := List.range ix.functions.size

def name (ix : ProgramIndex) (id : Nat) : String :=
  ((ix.function? id).map FunctionInfo.name).getD ""

def params (ix : ProgramIndex) (id : Nat) : List String :=
  ((ix.function? id).map FunctionInfo.params).getD []

/-- The last function with a name. -/
def lookup? (ix : ProgramIndex) (name : String) : Option Nat :=
  (ix.ids.reverse).find? fun id => ix.name id = name

/-- The function a bare name calls: the last with that name, if it is no method and not the
module. -/
def freeFunction? (ix : ProgramIndex) (name : String) : Option Nat := do
  let id ← ix.lookup? name
  let f ← ix.function? id
  if f.isMethod || id = moduleId then none else some id

def class? (ix : ProgramIndex) (name : String) : Option ClassDef :=
  ix.classes.reverse.find? fun c => c.name = name

def isClass (ix : ProgramIndex) (name : String) : Bool := (ix.class? name).isSome

end ProgramIndex

end ValueFlow
