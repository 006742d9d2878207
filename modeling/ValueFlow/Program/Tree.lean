import ValueFlow.Program.Operator
/-!
The trees of programs. Every node carries an identifier that findings point back to.
-/

namespace ValueFlow

inductive Literal where
  | int (n : Int64)
  | bool (b : Bool)
  | str (s : String)
  | none
deriving DecidableEq, Repr

inductive Expr where
  | literal (id : Nat) (value : Literal)
  | name (id : Nat) (name : String)
  | binOp (id : Nat) (op : BinOp) (left right : Expr)
  | boolOp (id : Nat) (op : BoolOp) (left right : Expr)
  | unaryOp (id : Nat) (op : UnaryOp) (operand : Expr)
  | compare (id : Nat) (op : CompOp) (left right : Expr)
  | attr (id : Nat) (value : Expr) (field : String)
  | subscript (id : Nat) (value index : Expr)
  | call (id : Nat) (func : Expr) (args : List Expr)
  | collection (id : Nat) (kind : CollectionKind) (elements : List Expr)
  /-- A construct that is recognized and not modelled. -/
  | unsupported (id : Nat) (what : String)
deriving Inhabited

namespace Expr

def id : Expr → Nat
  | literal id _ | name id _ | binOp id _ _ _ | boolOp id _ _ _ | unaryOp id _ _
  | compare id _ _ _ | attr id _ _ | subscript id _ _ | call id _ _ | collection id _ _
  | unsupported id _ => id

def name? : Expr → Option String
  | name _ n => some n
  | _ => none

def isLiteral : Expr → Bool
  | literal _ _ => true
  | _ => false

/-- The direct parts of an expression in source order. -/
def children : Expr → List Expr
  | literal _ _ | name _ _ | unsupported _ _ => []
  | binOp _ _ l r | boolOp _ _ l r | compare _ _ l r => [l, r]
  | unaryOp _ _ e | attr _ e _ => [e]
  | subscript _ v i => [v, i]
  | call _ f args => f :: args
  | collection _ _ elements => elements

end Expr

inductive Target where
  | name (id : Nat) (name : String)
  | attr (id : Nat) (value : Expr) (field : String)
  | subscript (id : Nat) (value index : Expr)

namespace Target

def exprs : Target → List Expr
  | name _ _ => []
  | attr _ v _ => [v]
  | subscript _ v i => [v, i]

end Target

/-- A statement. A definition has an identifier of its own beside that of its statement. -/
inductive Stmt where
  | assign (id : Nat) (target : Target) (value : Expr)
  | expr (id : Nat) (value : Expr)
  | ifElse (id : Nat) (test : Expr) (body orelse : List Stmt)
  | whileLoop (id : Nat) (test : Expr) (body : List Stmt)
  | forLoop (id : Nat) (target : String) (iter : Expr) (body : List Stmt)
  | ret (id : Nat) (value : Option Expr)
  | brk (id : Nat)
  | cont (id : Nat)
  | pass (id : Nat)
  | functionDef (id defId : Nat) (name : String) (params : List String) (body : List Stmt)
  | classDef (id defId : Nat) (name : String) (bases : List String) (body : List Stmt)
deriving Inhabited

namespace Stmt

def id : Stmt → Nat
  | assign id _ _ | expr id _ | ifElse id _ _ _ | whileLoop id _ _ | forLoop id _ _ _ | ret id _
  | brk id | cont id | pass id | functionDef id _ _ _ _ | classDef id _ _ _ _ => id

def isReturn : Stmt → Bool
  | ret _ _ => true
  | _ => false

/-- The expressions a statement evaluates itself, in source order. -/
def ownExprs : Stmt → List Expr
  | assign _ target value => target.exprs ++ [value]
  | expr _ value => [value]
  | ifElse _ test _ _ | whileLoop _ test _ => [test]
  | forLoop _ _ iter _ => [iter]
  | ret _ value => value.toList
  | brk _ | cont _ | pass _ | functionDef _ _ _ _ _ | classDef _ _ _ _ _ => []

/-- The bodies a statement controls; definitions are units of their own. -/
def nestedBodies : Stmt → List (List Stmt)
  | ifElse _ _ body orelse => [body, orelse]
  | whileLoop _ _ body | forLoop _ _ _ body => [body]
  | _ => []

end Stmt

structure FunctionDef where
  id : Nat
  name : String
  params : List String
  body : List Stmt

structure ClassDef where
  id : Nat
  name : String
  bases : List String
  body : List Stmt

namespace Stmt

def function? : Stmt → Option FunctionDef
  | functionDef _ defId name params body => some ⟨defId, name, params, body⟩
  | _ => none

def class? : Stmt → Option ClassDef
  | classDef _ defId name bases body => some ⟨defId, name, bases, body⟩
  | _ => none

end Stmt

namespace ClassDef

/-- The methods defined directly in the body of a class. -/
def methods (c : ClassDef) : List FunctionDef := c.body.filterMap Stmt.function?

end ClassDef

/-- A program: the statements of one module. -/
structure Program where
  body : List Stmt

namespace Program

/-- The functions defined at the top level. -/
def functions (p : Program) : List FunctionDef := p.body.filterMap Stmt.function?

/-- The classes defined at the top level. -/
def classes (p : Program) : List ClassDef := p.body.filterMap Stmt.class?

end Program

end ValueFlow
