import ValueFlow.CallGraph.Component
import ValueFlow.Interchange.Json
import ValueFlow.Program.ClassTable
/-!
Documents of call graphs and class tables.
-/

namespace ValueFlow

namespace CallKind

/-- The fields that describe a kind of call. -/
def fields : CallKind → List (String × Json)
  | direct => [("kind", "direct")]
  | construct className => [("kind", "constructor"), ("class", className)]
  | virtual method receiver =>
      [("kind", "virtual"), ("method", method), ("receiver", receiver)]
  | unknown callee => [("kind", "unknown"), ("callee", .ofOption .str callee)]

def ofJson? (j : Json) : Option CallKind := do
  match ← j.get? Json.str? "kind" with
  | "direct" => some .direct
  | "constructor" => some (.construct (← j.get? Json.str? "class"))
  | "virtual" => some (.virtual (← j.get? Json.str? "method") (← j.get? Json.id? "receiver"))
  | "unknown" => some (.unknown (← j.opt? Json.str? "callee"))
  | _ => none

end CallKind

namespace CallSite

def toJson (s : CallSite) : Json :=
  .obj ([("node", (s.node : Json)), ("caller", s.caller)] ++ s.kind.fields ++
    [("targets", Json.ofIds s.targets), ("resolved", (s.resolved : Json))])

def ofJson? (j : Json) : Option CallSite := do
  some
    { node := ← j.get? Json.id? "node"
      caller := ← j.get? Json.id? "caller"
      kind := ← CallKind.ofJson? j
      targets := ← j.get? Json.ids? "targets"
      resolved := ← j.get? Json.bool? "resolved" }

end CallSite

namespace Component

def toJson (c : Component) : Json :=
  .obj [("members", .ofNats c.members), ("recursive", c.recursive), ("level", c.level)]

end Component

namespace CallGraph

def toJson (g : CallGraph) (components : List Component) : Json :=
  .obj [("functions", .ofStrings g.functions.toList),
    ("sites", .ofList CallSite.toJson g.sites.values),
    ("sccs", .ofList Component.toJson components)]

def view (g : CallGraph) (components : List Component) : Json :=
  let ids := List.range g.functions.size
  let known := if components.isEmpty then [] else ids
  .obj [("graph", g.toJson components),
    ("edges", .ofSet (fun e => .ofNats [e.1, e.2]) g.edges),
    ("num_edges", g.edges.size),
    ("callees", .ofList (fun f => .ofIds (g.callees f)) ids),
    ("callers", .ofList (fun f => .ofIds (g.callers f)) ids),
    ("levels", .ofList Json.ofNats (Component.levels components)),
    ("scc_index", .ofNats (known.map (Component.indexOf components))),
    ("recursive", .ofList (fun f => Component.isRecursive components f) known)]

end CallGraph

namespace ClassInfo

def toJson (c : ClassInfo) : Json :=
  .obj [("name", c.name), ("bases", .ofStrings c.bases),
    ("methods", .ofMap id (fun f : Nat => (f : Json)) c.methods)]

end ClassInfo

namespace ClassTable

def toJson (t : ClassTable) : Json := .obj [("classes", .ofMap id ClassInfo.toJson t.classes)]

def view (t : ClassTable) (names methods : List String) : Json :=
  let classView (c : String) : Json := .obj
    [("known", t.contains c),
     ("bases", .ofOption (fun info => .ofStrings info.bases) (t.class? c)),
     ("ancestors", .ofStrings (t.ancestors c)),
     ("constructor", .ofNat? (t.constructor? c)),
     ("lookup", .obj (methods.map fun m => (m, .ofNat? (t.lookup? c m)))),
     ("subclass_of", .ofStrings (names.filter (t.isSubclass c)))]
  let methodView (m : String) : Json := .obj
    [("resolve", .ofIds (t.dispatch m names)), ("fallback", .ofIds (t.definitions m)),
     ("defining", .ofIds (t.definitions m))]
  .obj [("len", t.classes.size), ("empty", t.classes.isEmpty), ("hierarchy", t.toJson),
    ("classes", .obj (names.map fun c => (c, classView c))),
    ("methods", .obj (methods.map fun m => (m, methodView m)))]

end ClassTable

end ValueFlow
