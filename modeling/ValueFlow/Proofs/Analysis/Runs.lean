import ValueFlow.Proofs.FlowGraph.Structured
import ValueFlow.Proofs.State.Stores
import ValueFlow.Proofs.Trees
/-!
Runs of programs over scalars, and which programs these are.

An expression has a value or none: it has none where it raises an error, where its value leaves
the 64-bit integers, and where it is not one of the constructs that scalar programs are made of.
Calls leave the variables of the module as they are, so evaluation does not change a store. The
number given to a run bounds both how deep calls nest and how often loops go round.
-/

namespace ValueFlow

namespace Expr

mutual

/-- The value of an expression, given what calls of functions return. -/
def eval? (call : String → List Scalar → Option Scalar) (σ : Store) : Expr → Option Scalar
  | .literal _ value => Scalar.ofLiteral? value
  | .name _ x => σ.scalar? x
  | .binOp _ op left right => do
      let u ← eval? call σ left
      let v ← eval? call σ right
      Scalar.binary? op u v
  | .boolOp _ op left right => do
      let u ← eval? call σ left
      -- the value of the left side, unless the right side decides
      if u.truth = decide (op = .and) then eval? call σ right else some u
  | .unaryOp _ op operand => do
      let u ← eval? call σ operand
      Scalar.unary? op u
  | .compare _ op left right => do
      let u ← eval? call σ left
      let v ← eval? call σ right
      (Scalar.compare? op u v).map Scalar.ofBool
  | .call _ func args => do
      let f ← func.name?
      let vs ← evalAll? call σ args
      call f vs
  | .attr _ _ _ | .subscript _ _ _ | .collection _ _ _ | .unsupported _ _ => none

def evalAll? (call : String → List Scalar → Option Scalar) (σ : Store) :
    List Expr → Option (List Scalar)
  | [] => some []
  | e :: rest => do
      let u ← eval? call σ e
      let us ← evalAll? call σ rest
      some (u :: us)

end

section Inversion

variable {call : String → List Scalar → Option Scalar} {σ : Store} {id : Nat}
  {left right operand : Expr} {u : Scalar}

theorem eval?_binOp {op : BinOp} (h : (binOp id op left right).eval? call σ = some u) :
    ∃ v w, left.eval? call σ = some v ∧ right.eval? call σ = some w ∧
      Scalar.binary? op v w = some u := by
  rw [eval?] at h
  obtain ⟨v, hv, h⟩ := Option.bind_eq_some_iff.1 h
  obtain ⟨w, hw, h⟩ := Option.bind_eq_some_iff.1 h
  exact ⟨v, w, hv, hw, h⟩

/-- Either the right side was evaluated or the left side decided. -/
theorem eval?_boolOp {op : BoolOp} (h : (boolOp id op left right).eval? call σ = some u) :
    ∃ v, left.eval? call σ = some v ∧
      (v.truth = decide (op = .and) ∧ right.eval? call σ = some u ∨
        v.truth ≠ decide (op = .and) ∧ u = v) := by
  rw [eval?] at h
  obtain ⟨v, hv, h⟩ := Option.bind_eq_some_iff.1 h
  refine ⟨v, hv, ?_⟩
  split at h
  · next ht => exact .inl ⟨ht, h⟩
  · next ht => exact .inr ⟨ht, (Option.some.inj h).symm⟩

theorem eval?_unaryOp {op : UnaryOp} (h : (unaryOp id op operand).eval? call σ = some u) :
    ∃ v, operand.eval? call σ = some v ∧ Scalar.unary? op v = some u := by
  rw [eval?] at h
  exact Option.bind_eq_some_iff.1 h

theorem eval?_compare {op : CompOp} (h : (compare id op left right).eval? call σ = some u) :
    ∃ v w o, left.eval? call σ = some v ∧ right.eval? call σ = some w ∧
      Scalar.compare? op v w = some o ∧ u = .ofBool o := by
  rw [eval?] at h
  obtain ⟨v, hv, h⟩ := Option.bind_eq_some_iff.1 h
  obtain ⟨w, hw, h⟩ := Option.bind_eq_some_iff.1 h
  obtain ⟨o, ho, rfl⟩ := Option.map_eq_some_iff.1 h
  exact ⟨v, w, o, hv, hw, ho, rfl⟩

theorem eval?_call {func : Expr} {args : List Expr}
    (h : (Expr.call id func args).eval? call σ = some u) :
    ∃ f vs, func.name? = some f ∧ evalAll? call σ args = some vs ∧ call f vs = some u := by
  rw [eval?] at h
  obtain ⟨f, hf, h⟩ := Option.bind_eq_some_iff.1 h
  obtain ⟨vs, hvs, h⟩ := Option.bind_eq_some_iff.1 h
  exact ⟨f, vs, hf, hvs, h⟩

theorem evalAll?_cons {e : Expr} {rest : List Expr} {us : List Scalar}
    (h : evalAll? call σ (e :: rest) = some us) :
    ∃ v vs, e.eval? call σ = some v ∧ evalAll? call σ rest = some vs ∧ us = v :: vs := by
  rw [evalAll?] at h
  obtain ⟨v, hv, h⟩ := Option.bind_eq_some_iff.1 h
  obtain ⟨vs, hvs, h⟩ := Option.bind_eq_some_iff.1 h
  exact ⟨v, vs, hv, hvs, (Option.some.inj h).symm⟩

end Inversion

def rangeName : String := "range"

def rangeArgs? : Expr → Option (List Expr)
  | call _ func args => if func.name? = some rangeName then some args else none
  | _ => none

/-- The integers that a loop over a call of `range` binds. -/
def elements? (call : String → List Scalar → Option Scalar) (σ : Store) (iter : Expr) :
    Option (List Int) := do
  let args ← iter.rangeArgs?
  let vs ← evalAll? call σ args
  Scalar.range? vs

theorem elements?_eq_some {call : String → List Scalar → Option Scalar} {σ : Store} {iter : Expr}
    {ks : List Int} (h : iter.elements? call σ = some ks) :
    ∃ args vs, iter.rangeArgs? = some args ∧ evalAll? call σ args = some vs ∧
      Scalar.range? vs = some ks := by
  obtain ⟨args, hargs, h⟩ := Option.bind_eq_some_iff.1 h
  obtain ⟨vs, hvs, h⟩ := Option.bind_eq_some_iff.1 h
  exact ⟨args, vs, hargs, hvs, h⟩

end Expr

namespace Meaning

variable (call : Store → String → List Scalar → Option Scalar)

/-- What a statement without control flow does to a store. -/
def statement? : Stmt → Store → Option Store
  | .assign _ (.name _ x) e, σ => (e.eval? (call σ) σ).map fun u => σ.set x (.scalar u)
  | .expr _ e, σ => (e.eval? (call σ) σ).map fun _ => σ
  | .ret _ (some e), σ => (e.eval? (call σ) σ).map fun u => σ.set returnSlot (.scalar u)
  | .ret _ none, σ => some (σ.set returnSlot (.scalar .none))
  | .functionDef _ _ f _ _, σ => some (σ.set f .function)
  | .pass _, σ => some σ
  | _, _ => none

/-- The meaning of the parts of a body, given what calls return in a store. A loop over a call of
`range` binds the integers that the range has when the loop is entered. -/
def scalar : Meaning Store (List Int) where
  item
    | .statement s, σ => statement? call s σ
    | .condition e, σ => (e.eval? (call σ) σ).map fun _ => σ
    | .evaluate iter, σ => (iter.elements? (call σ) σ).map fun _ => σ
    | .bind _ _ _, _ => none
  test e σ := (e.eval? (call σ) σ).map fun u => (u.truth, σ)
  opens
    | .whileTrue _, _ => some []
    | .forEach _ _ iter, σ => iter.elements? (call σ) σ
  asks
    | .whileTrue e, _, σ => (e.eval? (call σ) σ).map fun u => (u.truth, σ)
    | .forEach _ _ _, ks, σ => some (!ks.isEmpty, σ)
  starts
    | .whileTrue _, ks, σ => some (ks, σ)
    | .forEach _ x _, k :: ks, σ => (Scalar.ofInt? k).map fun u => (ks, σ.set x (.scalar u))
    | .forEach _ _ _, [], _ => none

end Meaning

namespace FunctionDef

/-- The names that the body of a function binds. -/
def locals (f : FunctionDef) : List String := (Stmt.walkAll f.body).filterMap FunctionInfo.boundBy

/-- The store in which the body of a function starts: parameters are bound to the arguments, other
local names are unbound, and all other names are those of the module. -/
def entryStore (f : FunctionDef) (globals : Store) (args : List Scalar) : Store := fun x =>
  if x ∈ f.params then args[f.params.idxOf x]?.map .scalar
  else if x ∈ f.locals then none
  else globals x

/-- What a function returns once its body was executed. -/
def returned? (r : Ran Store) : Option Scalar :=
  match r.ending with
  | .done => some .none
  | .returned => r.state.scalar? returnSlot
  | _ => none

end FunctionDef

namespace Program

def function? (p : Program) (name : String) : Option FunctionDef :=
  p.functions.find? fun f => f.name = name

theorem function?_eq_some {p : Program} {name : String} {f : FunctionDef}
    (h : p.function? name = some f) : f ∈ p.functions ∧ f.name = name := by
  have hname := List.find?_some h
  exact ⟨List.mem_of_find?_eq_some h, of_decide_eq_true hname⟩

/-- What a call of a function returns, given the names of the module. The function must be
defined by the time of the call. -/
def call? (p : Program) : Nat → Store → String → List Scalar → Option Scalar
  | 0, _, _, _ => none
  | n + 1, globals, name, args => do
      let f ← p.function? name
      if globals name = some .function ∧ args.length = f.params.length then
        FunctionDef.returned?
          ((Meaning.scalar fun _ => call? p n globals).runBody n f.body (f.entryStore globals args))
      else none

/-- A run of the statements of a module. -/
def run (p : Program) (n : Nat) : Ran Store :=
  (Meaning.scalar (p.call? n)).runBody n p.body fun _ => none

/-- Whether some run of a module ends with a store. -/
def EndsWith (p : Program) (σ : Store) : Prop := ∃ n, p.run n = ⟨.done, σ⟩

end Program

end ValueFlow
