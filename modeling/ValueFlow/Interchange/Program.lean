import ValueFlow.Interchange.Json
import ValueFlow.Program.Tree
/-!
Documents of programs.
-/

namespace ValueFlow

namespace BinOp

def table : List (BinOp × String × String) :=
  [(add, "+", "Add"), (sub, "-", "Sub"), (mul, "*", "Mul"), (floorDiv, "//", "FloorDiv"),
   (mod, "%", "Mod"), (bitAnd, "&", "BitAnd"), (bitOr, "|", "BitOr"), (bitXor, "^", "BitXor")]

end BinOp

namespace BoolOp

def table : List (BoolOp × String × String) := [(and, "and", "And"), (or, "or", "Or")]

end BoolOp

namespace UnaryOp

def table : List (UnaryOp × String × String) :=
  [(not, "not", "Not"), (neg, "neg", "Neg"), (pos, "pos", "Pos")]

end UnaryOp

namespace CompOp

def table : List (CompOp × String × String) :=
  [(eq, "==", "Eq"), (notEq, "!=", "NotEq"), (lt, "<", "Lt"), (ltE, "<=", "LtE"),
   (gt, ">", "Gt"), (gtE, ">=", "GtE"), (is, "is", "Is"), (isNot, "is not", "IsNot")]

end CompOp

namespace CollectionKind

def table : List (CollectionKind × String × String) :=
  [(list, "list", "List"), (tuple, "tuple", "Tuple"), (set, "set", "Set"), (dict, "dict", "Dict")]

end CollectionKind

namespace Json

variable {α : Type}

def named? (table : List (α × String × String)) (j : Json) : Option α := do
  let name ← j.case?
  (table.find? fun row => row.2.2 = name).map Prod.fst

def nameIn [DecidableEq α] (table : List (α × String × String)) (a : α) : Json :=
  .str (((table.find? fun row => row.1 = a).map fun row => row.2.2).getD "")

def node (id : Nat) (kind : String) (contents : Json) : Json :=
  .obj [("id", id), ("kind", .obj [(kind, contents)])]

end Json

open Json (node nameIn)

namespace Literal

def toJson : Literal → Json
  | int n => .obj [("Int", n)]
  | bool b => .obj [("Bool", b)]
  | str s => .obj [("Str", s)]
  | none => "None"

def ofJson? (j : Json) : Option Literal :=
  match j.case?, j.onlyField? with
  | some "None", _ => some .none
  | _, some ("Int", n) => n.int64?.map .int
  | _, some ("Bool", b) => b.bool?.map .bool
  | _, some ("Str", s) => s.str?.map .str
  | _, _ => Option.none

end Literal

mutual

def Expr.toJson : Expr → Json
  | .literal id v => node id "Literal" v.toJson
  | .name id n => node id "Name" n
  | .binOp id op l r =>
      node id "BinOp"
        (.obj [("op", nameIn BinOp.table op), ("left", l.toJson), ("right", r.toJson)])
  | .boolOp id op l r =>
      node id "BoolOp"
        (.obj [("op", nameIn BoolOp.table op), ("left", l.toJson), ("right", r.toJson)])
  | .unaryOp id op e =>
      node id "UnaryOp" (.obj [("op", nameIn UnaryOp.table op), ("operand", e.toJson)])
  | .compare id op l r =>
      node id "Compare"
        (.obj [("op", nameIn CompOp.table op), ("left", l.toJson), ("right", r.toJson)])
  | .attr id e a => node id "Attribute" (.obj [("value", e.toJson), ("attr", a)])
  | .subscript id v i => node id "Subscript" (.obj [("value", v.toJson), ("index", i.toJson)])
  | .call id f args =>
      node id "Call" (.obj [("func", f.toJson), ("args", .arr (Expr.listToJson args))])
  | .collection id k es =>
      node id "Collection"
        (.obj [("kind", nameIn CollectionKind.table k), ("elements", .arr (Expr.listToJson es))])
  | .unsupported id w => node id "Unsupported" w

def Expr.listToJson : List Expr → List Json
  | [] => []
  | e :: rest => e.toJson :: Expr.listToJson rest

end

namespace Target

def toJson : Target → Json
  | name id n => node id "Name" n
  | attr id e a => node id "Attribute" (.obj [("value", e.toJson), ("attr", a)])
  | subscript id v i => node id "Subscript" (.obj [("value", v.toJson), ("index", i.toJson)])

end Target

mutual

def Stmt.toJson : Stmt → Json
  | .assign id t v => node id "Assign" (.obj [("target", t.toJson), ("value", v.toJson)])
  | .expr id e => node id "Expr" e.toJson
  | .ifElse id test body orelse =>
      node id "If" (.obj [("test", test.toJson), ("body", .arr (Stmt.listToJson body)),
        ("orelse", .arr (Stmt.listToJson orelse))])
  | .whileLoop id test body =>
      node id "While" (.obj [("test", test.toJson), ("body", .arr (Stmt.listToJson body))])
  | .forLoop id target iter body =>
      node id "For" (.obj [("target", target), ("iter", iter.toJson),
        ("body", .arr (Stmt.listToJson body))])
  | .ret id v => node id "Return" (.ofOption Expr.toJson v)
  | .brk id => .obj [("id", id), ("kind", "Break")]
  | .cont id => .obj [("id", id), ("kind", "Continue")]
  | .pass id => .obj [("id", id), ("kind", "Pass")]
  | .functionDef id defId name params body =>
      node id "FunctionDef" (.obj [("id", defId), ("name", name), ("params", .ofStrings params),
        ("body", .arr (Stmt.listToJson body))])
  | .classDef id defId name bases body =>
      node id "ClassDef" (.obj [("id", defId), ("name", name), ("bases", .ofStrings bases),
        ("body", .arr (Stmt.listToJson body))])

def Stmt.listToJson : List Stmt → List Json
  | [] => []
  | s :: rest => s.toJson :: Stmt.listToJson rest

end

namespace Program

def toJson (p : Program) : Json := .obj [("body", .arr (Stmt.listToJson p.body))]

end Program

def Expr.ofJson? : Nat → Json → Option Expr
  | 0, _ => none
  | n + 1, j => do
      let id ← j.get? Json.id? "id"
      let (kind, c) ← (← j.field? "kind").onlyField?
      let part (name : String) : Option Expr := c.get? (Expr.ofJson? n) name
      let parts (name : String) : Option (List Expr) := c.get? (Json.list? (Expr.ofJson? n)) name
      match kind with
      | "Literal" => return .literal id (← Literal.ofJson? c)
      | "Name" => return .name id (← c.str?)
      | "BinOp" =>
          let op ← c.get? (Json.named? BinOp.table) "op"
          return .binOp id op (← part "left") (← part "right")
      | "BoolOp" =>
          let op ← c.get? (Json.named? BoolOp.table) "op"
          return .boolOp id op (← part "left") (← part "right")
      | "UnaryOp" =>
          return .unaryOp id (← c.get? (Json.named? UnaryOp.table) "op") (← part "operand")
      | "Compare" =>
          let op ← c.get? (Json.named? CompOp.table) "op"
          return .compare id op (← part "left") (← part "right")
      | "Attribute" => return .attr id (← part "value") (← c.get? Json.str? "attr")
      | "Subscript" => return .subscript id (← part "value") (← part "index")
      | "Call" => return .call id (← part "func") (← parts "args")
      | "Collection" =>
          return .collection id (← c.get? (Json.named? CollectionKind.table) "kind")
            (← parts "elements")
      | "Unsupported" => return .unsupported id (← c.str?)
      | _ => none

def Target.ofJson? (n : Nat) (j : Json) : Option Target := do
  let id ← j.get? Json.id? "id"
  let (kind, c) ← (← j.field? "kind").onlyField?
  match kind with
  | "Name" => return .name id (← c.str?)
  | "Attribute" => return .attr id (← c.get? (Expr.ofJson? n) "value") (← c.get? Json.str? "attr")
  | "Subscript" =>
      return .subscript id (← c.get? (Expr.ofJson? n) "value") (← c.get? (Expr.ofJson? n) "index")
  | _ => none

def Stmt.ofJson? : Nat → Json → Option Stmt
  | 0, _ => none
  | n + 1, j => do
      let id ← j.get? Json.id? "id"
      let k ← j.field? "kind"
      match k.case?, k.onlyField? with
      | some "Break", _ => return .brk id
      | some "Continue", _ => return .cont id
      | some "Pass", _ => return .pass id
      | _, some (kind, c) =>
          let expr (name : String) : Option Expr := c.get? (Expr.ofJson? n) name
          let body (name : String) : Option (List Stmt) := c.get? (Json.list? (Stmt.ofJson? n)) name
          let names (name : String) : Option (List String) := c.get? (Json.list? Json.str?) name
          match kind with
          | "Assign" => return .assign id (← c.get? (Target.ofJson? n) "target") (← expr "value")
          | "Expr" => return .expr id (← Expr.ofJson? n c)
          | "If" => return .ifElse id (← expr "test") (← body "body") (← body "orelse")
          | "While" => return .whileLoop id (← expr "test") (← body "body")
          | "For" =>
              return .forLoop id (← c.get? Json.str? "target") (← expr "iter") (← body "body")
          | "Return" => return .ret id (← Json.option? (Expr.ofJson? n) c)
          | "FunctionDef" =>
              return .functionDef id (← c.get? Json.id? "id") (← c.get? Json.str? "name")
                (← names "params") (← body "body")
          | "ClassDef" =>
              return .classDef id (← c.get? Json.id? "id") (← c.get? Json.str? "name")
                (← names "bases") (← body "body")
          | _ => none
      | _, none => none

def Program.ofJson? (j : Json) : Option Program :=
  (j.get? (Json.list? (Stmt.ofJson? j.height)) "body").map Program.mk

end ValueFlow
