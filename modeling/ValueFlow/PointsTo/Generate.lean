import ValueFlow.CallGraph.Basic
import ValueFlow.PointsTo.Constraint
import ValueFlow.PointsTo.Object
import ValueFlow.Program.Index
/-!
The constraints of a function in one calling context.

A name that a function reads and never binds is the module's variable of that name. Methods of
containers move elements whatever the receiver turns out to be.
-/

namespace ValueFlow

/-- A function in a calling context. -/
structure PointerScope where
  function : Nat
  context : Nat
  /-- The context of the module's own variables. -/
  moduleContext : Nat
  bound : SortedSet String

namespace PointerScope

/-- The variable that a name refers to. -/
def var (s : PointerScope) (name : String) : PointerVar :=
  if s.function = moduleId || s.bound.contains name then .named s.function s.context name
  else .named moduleId s.moduleContext name

def value (s : PointerScope) (node : Nat) : PointerVar := .value node s.context

end PointerScope

/-- The objects and constraints generated so far; constraints are kept latest first. -/
structure Generated where
  objects : Array HeapObject
  constraints : List Constraint

namespace Generated

def empty : Generated := ⟨#[], []⟩

def emit (g : Generated) (c : Constraint) : Generated :=
  { g with constraints := c :: g.constraints }

/-- The object of a site in a context, created on its first use. -/
def allocate (s : PointerScope) (site : Nat) (kind : ObjectKind) (g : Generated) :
    Nat × Generated :=
  match g.objects.find? fun o => o.site = site && o.context = s.context with
  | some o => (o.id, g)
  | none =>
      let id := g.objects.size
      (id, { g with objects := g.objects.push ⟨id, site, s.context, s.function, kind⟩ })

end Generated

/-- How a method of a container moves elements. -/
inductive ElementFlow where
  /-- An argument becomes an element. -/
  | storing (position : Nat)
  /-- The elements of the first argument become elements. -/
  | extending
  /-- An element is the result; an argument may become an element before. -/
  | loading (fallback : Option Nat)

namespace ElementFlow

/-- How the method of a name moves elements. -/
def ofName? : String → Option ElementFlow
  | "append" | "add" => some (.storing 0)
  | "insert" => some (.storing 1)
  | "extend" | "update" => some .extending
  | "pop" | "get" => some (.loading none)
  | "setdefault" => some (.loading (some 1))
  | _ => none

def constraints (receiver : PointerVar) (args : List PointerVar) (result : PointerVar) :
    ElementFlow → List Constraint
  | storing position => (args[position]?.map (.store receiver .elements ·)).toList
  | extending =>
      match args with
      | source :: _ => [.load source .elements result, .store receiver .elements result]
      | [] => []
  | loading fallback =>
      .load receiver .elements result ::
        (fallback.bind (args[·]?)).toList.map (.store receiver .elements ·)

end ElementFlow

namespace Generated

variable (calls : CallGraph) (s : PointerScope)

/-- The constraints of a call whose receiver and arguments have theirs. -/
def ofCall (node : Nat) (receiver : Option PointerVar) (args : List PointerVar) (g : Generated) :
    Generated :=
  let result := s.value node
  let finish (g : Generated) (target : CallTarget) : Generated :=
    g.emit (.call ⟨node, s.function, s.context, target, args, result⟩)
  match calls.site? node with
  | none => g
  | some site =>
      match site.kind, receiver with
      | .direct, _ => finish g (.static site.targets.toList)
      | .construct className, _ =>
          let (object, g) := g.allocate s node (.ofClass className)
          finish g (.construct object site.targets.toList.head?)
      | .virtual method _, some receiver =>
          let moves := (ElementFlow.ofName? method).elim []
            (ElementFlow.constraints receiver args result)
          finish (moves.foldl emit g) (.dispatch method receiver)
      | _, _ => g

mutual

def ofExpr (g : Generated) : Expr → Generated
  | .literal _ _ | .unsupported _ _ => g
  | .name node name => g.emit (.copy (s.var name) (s.value node))
  | .collection node kind elements =>
      let (object, g) := g.allocate s node (.collection kind)
      ofElements (s.value node) (g.emit (.alloc object (s.value node))) elements
  | .attr node value name =>
      (ofExpr g value).emit (.load (s.value value.id) (.attr name) (s.value node))
  | .subscript node value index =>
      (ofExpr (ofExpr g value) index).emit (.load (s.value value.id) .elements (s.value node))
  | .boolOp node _ left right =>
      let g := (ofExpr g left).emit (.copy (s.value left.id) (s.value node))
      (ofExpr g right).emit (.copy (s.value right.id) (s.value node))
  | .call node (.attr _ value _) args =>
      ofCall calls s node (some (s.value value.id)) (args.map (s.value ·.id))
        (ofExprs (ofExpr g value) args)
  | .call node _ args => ofCall calls s node none (args.map (s.value ·.id)) (ofExprs g args)
  | .binOp _ _ left right | .compare _ _ left right => ofExpr (ofExpr g left) right
  | .unaryOp _ _ operand => ofExpr g operand

def ofExprs (g : Generated) : List Expr → Generated
  | [] => g
  | e :: rest => ofExprs (ofExpr g e) rest

/-- The constraints of the elements of a collection. -/
def ofElements (collection : PointerVar) (g : Generated) : List Expr → Generated
  | [] => g
  | e :: rest =>
      ofElements collection ((ofExpr g e).emit (.store collection .elements (s.value e.id))) rest

end

/-- The constraints of a statement, without the bodies it controls. -/
def ofStmt (g : Generated) : Stmt → Generated
  | .assign _ target value =>
      let g := ofExpr calls s g value
      let source := s.value value.id
      match target with
      | .name _ name => g.emit (.copy source (s.var name))
      | .attr _ base name =>
          (ofExpr calls s g base).emit (.store (s.value base.id) (.attr name) source)
      | .subscript _ base index =>
          (ofExpr calls s (ofExpr calls s g base) index).emit
            (.store (s.value base.id) .elements source)
  | .expr _ e | .ifElse _ e _ _ | .whileLoop _ e _ => ofExpr calls s g e
  | .forLoop _ target iter _ =>
      (ofExpr calls s g iter).emit (.load (s.value iter.id) .elements (s.var target))
  | .ret _ (some e) =>
      (ofExpr calls s g e).emit (.copy (s.value e.id) (.result s.function s.context))
  | .ret _ none | .brk _ | .cont _ | .pass _ | .functionDef _ _ _ _ _ | .classDef _ _ _ _ _ => g

def ofBody (g : Generated) (body : List Stmt) : Generated :=
  (Stmt.walkAll body).foldl (ofStmt calls s) g

end Generated

end ValueFlow
