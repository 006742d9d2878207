import ValueFlow.Interchange.Program
/-!
A compact notation for programs.

Nodes are numbered from one as they are completed, parts before the whole and in the order in
which they are written, except where a reader says otherwise.
-/

namespace ValueFlow

namespace Compact

/-- A reader that numbers the nodes it completes. -/
abbrev Reader := StateT Nat Option

def fresh : Reader Nat := fun n => some (n + 1, n + 1)

variable {α : Type}

def symbol? (table : List (α × String × String)) (s : String) : Option α :=
  (table.find? fun row => row.2.1 = s).map Prod.fst

def expr : Nat → Json → Reader Expr
  | 0, _ => failure
  | n + 1, j => do
      let exprs (items : List Json) : Reader (List Expr) := items.mapM (expr n)
      match j with
      | .null => return .literal (← fresh) .none
      | .bool b => return .literal (← fresh) (.bool b)
      | .int _ =>
          let v ← j.int64?
          return .literal (← fresh) (.int v)
      | .str s => return .name (← fresh) s
      | .arr [.str "str", .str s] => return .literal (← fresh) (.str s)
      | .arr [.str "unsupported", .str s] => return .unsupported (← fresh) s
      | .arr [.str "isnone", a] => do
          let e ← expr n a
          let none := Expr.literal (← fresh) .none
          return .compare (← fresh) .is e none
      | .arr [.str "notnone", a] => do
          let e ← expr n a
          let none := Expr.literal (← fresh) .none
          return .compare (← fresh) .isNot e none
      | .arr [.str "attr", a, .str field] => do
          let e ← expr n a
          return .attr (← fresh) e field
      | .arr [.str "sub", a, b] => do
          let e ← expr n a
          let i ← expr n b
          return .subscript (← fresh) e i
      | .arr [.str "call", f, .arr args] => do
          let func ← expr n f
          let args ← exprs args
          return .call (← fresh) func args
      | .arr [.str "callname", .str name, .arr args] => do
          -- the name is numbered after the arguments
          let args ← exprs args
          let func := Expr.name (← fresh) name
          return .call (← fresh) func args
      | .arr [.str "method", a, .str name, .arr args] => do
          -- the access to the method is numbered after the arguments
          let receiver ← expr n a
          let args ← exprs args
          let func := Expr.attr (← fresh) receiver name
          return .call (← fresh) func args
      | .arr [.str op, a] => do
          match symbol? UnaryOp.table op, symbol? CollectionKind.table op, a with
          | some op, _, _ =>
              let e ← expr n a
              return .unaryOp (← fresh) op e
          | _, some kind, .arr items =>
              let elements ← exprs items
              return .collection (← fresh) kind elements
          | _, _, _ => failure
      | .arr [.str op, a, b] => do
          let node : Nat → Expr → Expr → Expr ←
            match symbol? BinOp.table op, symbol? CompOp.table op, symbol? BoolOp.table op with
            | some op, _, _ => pure fun id => .binOp id op
            | _, some op, _ => pure fun id => .compare id op
            | _, _, some op => pure fun id => .boolOp id op
            | _, _, _ => failure
          let l ← expr n a
          let r ← expr n b
          return node (← fresh) l r
      | _ => failure

def stmt : Nat → Json → Reader Stmt
  | 0, _ => failure
  | n + 1, j => do
      let stmts (items : List Json) : Reader (List Stmt) := items.mapM (stmt n)
      match j with
      | .arr [.str "=", .str name, v] => do
          let value ← expr n v
          let target := Target.name (← fresh) name
          return .assign (← fresh) target value
      | .arr [.str ".=", a, .str field, v] => do
          let base ← expr n a
          let value ← expr n v
          let target := Target.attr (← fresh) base field
          return .assign (← fresh) target value
      | .arr [.str "[]=", a, i, v] => do
          let base ← expr n a
          let index ← expr n i
          let value ← expr n v
          let target := Target.subscript (← fresh) base index
          return .assign (← fresh) target value
      | .arr [.str "expr", v] => do
          let value ← expr n v
          return .expr (← fresh) value
      | .arr [.str "if", t, .arr body, .arr orelse] => do
          let test ← expr n t
          let body ← stmts body
          let orelse ← stmts orelse
          return .ifElse (← fresh) test body orelse
      | .arr [.str "while", t, .arr body] => do
          let test ← expr n t
          let body ← stmts body
          return .whileLoop (← fresh) test body
      | .arr [.str "for", .str target, i, .arr body] => do
          let iter ← expr n i
          let body ← stmts body
          return .forLoop (← fresh) target iter body
      | .arr [.str "return"] => return .ret (← fresh) none
      | .arr [.str "return", v] => do
          let value ← expr n v
          return .ret (← fresh) (some value)
      | .arr [.str "break"] => return .brk (← fresh)
      | .arr [.str "continue"] => return .cont (← fresh)
      | .arr [.str "pass"] => return .pass (← fresh)
      | .arr [.str "def", .str name, params, .arr body] => do
          let params ← params.list? Json.str?
          let body ← stmts body
          let defId ← fresh
          return .functionDef (← fresh) defId name params body
      | .arr [.str "class", .str name, bases, .arr body] => do
          let bases ← bases.list? Json.str?
          let body ← stmts body
          let defId ← fresh
          return .classDef (← fresh) defId name bases body
      | _ => failure

def program? (j : Json) : Option Program :=
  match j with
  | .arr items => ((items.mapM (stmt j.height)).run 0).map fun p => ⟨p.1⟩
  | _ => none

end Compact

end ValueFlow
