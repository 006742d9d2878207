import ValueFlow.Interchange.Program
import ValueFlow.PointsTo.Graph
/-!
Documents of references: objects, constraints and what places may refer to.
-/

namespace ValueFlow

namespace HeapObject

def toJson (o : HeapObject) : Json :=
  let (kind, name) : String × Json := match o.kind with
    | .ofClass className => ("instance", className)
    | .collection kind => ("collection", .nameIn CollectionKind.table kind)
  .obj [("id", o.id), ("site", o.site), ("context", o.context), ("function", o.function),
    ("kind", kind), ("name", name)]

def ofJson? (j : Json) : Option HeapObject := do
  let kind ← match ← j.get? Json.str? "kind" with
    | "instance" => (j.get? Json.str? "name").map .ofClass
    | "collection" => (j.get? (Json.named? CollectionKind.table) "name").map .collection
    | _ => none
  some
    { id := ← j.get? Json.id? "id"
      site := ← j.get? Json.id? "site"
      context := ← j.get? Json.id? "context"
      function := ← j.get? Json.id? "function"
      kind }

end HeapObject

namespace PointerVar

def ofJson? (j : Json) : Option PointerVar := do
  let (case, fields) ← j.onlyField?
  let id (name : String) : Option Nat := fields.get? Json.id? name
  match case with
  | "Local" =>
      some (.named (← id "function") (← id "context") (← fields.get? Json.str? "name"))
  | "Expr" => some (.value (← id "node") (← id "context"))
  | "Return" => some (.result (← id "function") (← id "context"))
  | _ => none

end PointerVar

namespace PointerField

def ofJson? (j : Json) : Option PointerField :=
  match j with
  | .str "Elements" | .obj [("Elements", .null)] => some .elements
  | .obj [("Attr", .str name)] => some (.attr name)
  | _ => none

end PointerField

namespace Constraint

def kindName : Constraint → String
  | alloc _ _ => "ALLOC"
  | copy _ _ => "COPY"
  | load _ _ _ => "LOAD"
  | store _ _ _ => "STORE"
  | call _ => "CALL"

def ofJson? (j : Json) : Option Constraint := do
  let var (name : String) : Option PointerVar := j.get? PointerVar.ofJson? name
  let id (name : String) : Option Nat := j.get? Json.id? name
  let field : Option PointerField := j.get? PointerField.ofJson? "field"
  let finish (target : CallTarget) : Option Constraint := do
    some (.call
      { site := ← id "site"
        caller := ← id "caller"
        context := ← id "context"
        target
        args := ← j.get? (Json.list? PointerVar.ofJson?) "args"
        result := ← var "result" })
  match ← j.get? Json.str? "kind" with
  | "alloc" => some (.alloc (← id "object") (← var "to"))
  | "copy" => some (.copy (← var "from") (← var "to"))
  | "load" => some (.load (← var "base") (← field) (← var "to"))
  | "store" => some (.store (← var "base") (← field) (← var "from"))
  | "static" => finish (.static (← j.get? (Json.list? Json.id?) "targets"))
  | "construct" => finish (.construct (← id "object") (← j.opt? Json.id? "init"))
  | "dispatch" => finish (.dispatch (← j.get? Json.str? "method") (← var "receiver"))
  | _ => none

end Constraint

namespace PointsToStats

def toJson (s : PointsToStats) : Json :=
  .obj [("objects", s.objects), ("contexts", s.contexts), ("constraints", s.constraints),
    ("iterations", s.iterations)]

end PointsToStats

namespace PointsTo

def functionView (g : PointsTo) (function : Nat) (f : FunctionInfo) : Json :=
  let read := (visitExprs f.body).filterMap fun p => p.2.name?
  let names := (f.boundNames.union (.ofList read)).toList
  let pairs := names.flatMap fun a => (names.filter (SortKey.before a)).map (a, ·)
  .obj [("function", f.name),
    ("locals", .obj ((names.filter fun n => !(g.ofVar function n).isEmpty).map fun n =>
      (n, .ofIds (g.ofVar function n)))),
    ("alias", .ofList (fun p => .ofStrings [p.1, p.2])
      (pairs.filter fun p => g.mayAlias function p.1 p.2)),
    ("returns", .ofIds (g.ofReturn function))]

def nodeView? (g : PointsTo) (node : Nat) : Option Json :=
  let objects := g.ofNode node
  let allocates := g.allocatedAt node
  let targets := g.targets? node
  if objects.isEmpty && allocates.isEmpty && targets.isNone then none
  else
    some (.obj [("objects", .ofIds objects),
      ("types", .ofSet .str (.ofList ((g.kindsAt node).map ObjectKind.typeName))),
      ("allocates", .ofNats allocates), ("dispatch", .ofOption Json.ofIds targets)])

def objectView (g : PointsTo) (o : HeapObject) : Json :=
  .obj [("object", o.toJson), ("show", o.render),
    ("fields", .obj ((g.fields.filter fun k _ => k.1 = o.id).entries.map fun p =>
      (p.1.2.render, .ofIds p.2))),
    ("reachable", .ofIds (g.reachableFrom [o.id]))]

def view (g : PointsTo) (ix : ProgramIndex) : Json :=
  let nodes : SortedSet Nat :=
    .ofList (ix.functions.toList.flatMap fun f => (visitExprs f.body).map fun p => p.2.id)
  .obj [("functions", .ofList (fun p => g.functionView p.2 p.1) ix.functions.toList.zipIdx),
    ("nodes", .obj (nodes.toList.filterMap fun n => (g.nodeView? n).map (toString n, ·))),
    ("objects", .ofList g.objectView g.objects.toList),
    ("stats", g.stats.toJson)]

end PointsTo

end ValueFlow
