import ValueFlow.Proofs.Analysis.Runs
import ValueFlow.Proofs.Objects.Values
/-!
Runs of programs with objects.

Every constructor call makes a new object without fields. A step that raises an error, or that the
programs considered here do not have, halts the run: the steps after it do nothing, and what was
done before stays on record. On record is every access to a field, read or written, with the value
it was made on. The name of a class or function has no value of its own; a run that reads one halts.
-/

namespace ValueFlow

/-- What a name stands for: a variable with a value, or a class or function that was defined. -/
inductive Named where
  | datum (d : Datum)
  | callable
deriving DecidableEq, Repr

/-- A point of a run. Objects are numbered in the order of their creation. -/
structure World where
  vars : String → Option Named
  /-- The constructor calls that made the objects. -/
  sites : List Nat
  fields : Nat → String → Option Datum
  /-- The accesses to fields so far, latest first. -/
  accesses : List (Nat × Datum)
  /-- How the condition that was evaluated last turned out. -/
  verdict : Bool
  halted : Bool

/-- A step of a run, which has a result unless it fails. -/
abbrev Exec := OptionT (StateM World)

namespace World

def start : World := ⟨fun _ => none, [], fun _ _ => none, [], false, false⟩

def datum? (σ : World) (x : String) : Option Datum :=
  match σ.vars x with
  | some (.datum d) => some d
  | _ => none

def field? (σ : World) : Datum → String → Option Datum
  | .object l, x => σ.fields l x
  | .scalar _, _ => none

def set (σ : World) (x : String) (b : Named) : World :=
  { σ with vars := fun y => if y = x then some b else σ.vars y }

def create (σ : World) (site : Nat) : World :=
  { σ with
    sites := σ.sites ++ [site]
    fields := fun l => if l = σ.sites.length then fun _ => none else σ.fields l }

def setField (σ : World) (l : Nat) (x : String) (d : Datum) : World :=
  { σ with fields := fun m y => if m = l ∧ y = x then some d else σ.fields m y }

end World

namespace Exec

section Sequence

variable {α β : Type} {x : Exec α} {f : α → Exec β} {σ σ' : World}

theorem bind_eq (x : Exec α) (f : α → Exec β) (σ : World) : (x >>= f) σ =
    match (x σ : Option α × World) with
    | (a, σ') => (match a with | some a => f a | none => pure none : StateM World (Option β)) σ' :=
  rfl

theorem bind_of_some {a : α} (h : x σ = (some a, σ')) : (x >>= f) σ = f a σ' := by
  rw [bind_eq, h]

theorem bind_of_none (h : x σ = (none, σ')) : (x >>= f) σ = (none, σ') := by
  rw [bind_eq, h]
  rfl

theorem bind_eq_some {b : β} (h : (x >>= f) σ = (some b, σ')) :
    ∃ a σ₁, x σ = (some a, σ₁) ∧ f a σ₁ = (some b, σ') := by
  rcases hx : x σ with ⟨_ | a, σ₁⟩
  · rw [bind_of_none hx] at h
    cases h
  · exact ⟨a, σ₁, rfl, (bind_of_some hx).symm.trans h⟩

end Sequence

def require {α : Type} (result : Option α) : Exec α := OptionT.mk (pure result)

/-- Puts an access on record. -/
def access (node : Nat) (d : Datum) : Exec Unit :=
  modify fun σ => { σ with accesses := (node, d) :: σ.accesses }

def load (node : Nat) (d : Datum) (x : String) : Exec Datum := do
  access node d
  require ((← get).field? d x)

def store (node : Nat) (base : Datum) (x : String) (d : Datum) : Exec Unit := do
  access node base
  match base with
  | .object l => modify (·.setField l x d)
  | .scalar _ => failure

end Exec

open Exec (require)

namespace Expr

variable (call : Nat → String → List Datum → Exec Datum)

mutual

def exec : Expr → Exec Datum
  | .literal _ value => require ((Scalar.ofLiteral? value).map .scalar)
  | .name _ x => do require ((← get).datum? x)
  | .binOp _ op left right => do
      let d ← exec left
      let e ← exec right
      require (Datum.binary? op d e)
  | .compare _ op left right => do
      let d ← exec left
      let e ← exec right
      require ((Datum.compare? op d e).map fun o => .scalar (.ofBool o))
  | .attr node value x => do
      let d ← exec value
      Exec.load node d x
  | .call node func args => do
      let f ← require func.name?
      let ds ← execAll args
      call node f ds
  | .boolOp _ _ _ _ | .unaryOp _ _ _ | .subscript _ _ _ | .collection _ _ _ | .unsupported _ _ =>
      failure

def execAll : List Expr → Exec (List Datum)
  | [] => return []
  | e :: rest => do
      let d ← exec e
      let ds ← execAll rest
      return d :: ds

end

end Expr

namespace Meaning

variable (call : Nat → String → List Datum → Exec Datum)

def execStmt : Stmt → Exec Unit
  | .assign _ (.name _ x) value => do
      let d ← value.exec call
      modify (·.set x (.datum d))
  | .assign _ (.attr node base x) value => do
      let d ← value.exec call
      let b ← base.exec call
      Exec.store node b x d
  | .expr _ value => discard (value.exec call)
  | .ret _ value => do
      let d ← match value with
        | some e => e.exec call
        | none => pure .null
      modify (·.set returnSlot (.datum d))
  | .functionDef _ _ x _ _ | .classDef _ _ x _ _ => modify (·.set x .callable)
  | .pass _ => pure ()
  | _ => failure

def execItem : BlockItem → Exec Unit
  | .statement s => execStmt call s
  | .condition cond => do
      let d ← cond.exec call
      modify fun σ => { σ with verdict := d.truth }
  | .evaluate _ | .bind _ _ _ => failure

/-- Runs a step, and halts where it fails. -/
def perform (x : Exec Unit) (σ : World) : World :=
  if σ.halted then σ
  else
    match x.run σ with
    | (some _, σ') => σ'
    | (none, σ') => { σ' with halted := true }

/-- The outcome of the condition that was evaluated last. -/
def decided (σ : World) : Option (Bool × World) :=
  if σ.halted then none else some (σ.verdict, σ)

/-- The meaning of the parts of a body, given what calls do. -/
def objects : Meaning World Unit where
  item i σ := some (perform (execItem call i) σ)
  test _ σ := decided σ
  opens
    | .whileTrue _, _ => some ()
    | .forEach _ _ _, _ => none
  asks
    | .whileTrue _, _, σ => decided σ
    | .forEach _ _ _, _, _ => none
  starts
    | .whileTrue _, it, σ => some (it, σ)
    | .forEach _ _ _, _, _ => none

end Meaning

namespace FunctionDef

/-- The names at the start of the body of a function: parameters are bound to the arguments, other
local names are unbound, and all other names are those of the module. -/
def entryVars (f : FunctionDef) (globals : String → Option Named) (args : List Datum) :
    String → Option Named := fun x =>
  if x ∈ f.params then args[f.params.idxOf x]?.map .datum
  else if x ∈ f.locals then none
  else globals x

/-- What a function returns once its body was executed. -/
def result? (r : Ran World) : Option Datum :=
  if r.state.halted then none
  else
    match r.ending with
    | .done => some .null
    | .returned => r.state.datum? returnSlot
    | _ => none

end FunctionDef

namespace Program

/-- Calls a class or function. It must be defined by the time of the call. The first number bounds
how deep calls nest and how often loops go round. -/
def invoke (p : Program) :
    Nat → (String → Option Named) → Nat → String → List Datum → Exec Datum
  | n, globals, node, name, args => do
      if globals name = some .callable then
        if name ∈ p.classes.map ClassDef.name then
          let l := (← get).sites.length
          if args.isEmpty then modify (·.create node) else failure
          return .object l
        else
          match n, p.function? name with
          | n + 1, some f =>
              if args.length = f.params.length then
                let σ ← get
                let r := (Meaning.objects (invoke p n globals)).runBody n f.body
                  { σ with vars := f.entryVars globals args }
                set { r.state with vars := σ.vars, halted := false }
                require (FunctionDef.result? r)
              else failure
          | _, _ => failure
      else failure

/-- Calls of the module: the names of the module are those of the moment. -/
def invokeHere (p : Program) (n : Nat) (node : Nat) (name : String) (args : List Datum) :
    Exec Datum := do p.invoke n (← get).vars node name args

/-- A run of the statements of a module, in which calls nest and loops go round only so often. -/
def trace (p : Program) (n : Nat) : Ran World :=
  (Meaning.objects (p.invokeHere n)).runBody n p.body .start

/-- The accesses to fields in a run of a module, each with the value it was made on. -/
def accesses (p : Program) (n : Nat) : List (Nat × Datum) := (p.trace n).state.accesses

end Program

end ValueFlow
