import ValueFlow.FlowGraph.Basic
import ValueFlow.Interchange.Json
/-!
Documents of flow graphs.
-/

namespace ValueFlow

namespace EdgeKind

def table : List (EdgeKind × String) :=
  [(sequential, "Sequential"), (trueBranch, "TrueBranch"), (falseBranch, "FalseBranch"),
   (loopBack, "LoopBack"), (breakOut, "Break"), (returnOut, "Return")]

def toJson (k : EdgeKind) : Json := (table.lookup k).getD ""

end EdgeKind

namespace BlockKind

def toJson : BlockKind → Json
  | entry => "Entry"
  | exit => "Exit"
  | statement => "Statement"
  | loopHeader => "LoopHeader"
  | join => "Join"

end BlockKind

namespace BlockItem

def toJson : BlockItem → Json
  | statement s => .arr ["statement", s.id]
  | condition e => .arr ["condition", e.id]
  | evaluate e => .arr ["evaluate", e.id]
  | bind node target iter => .arr ["bind", node, target, iter.id]

end BlockItem

namespace Edge

def toJson (e : Edge) : Json :=
  .obj [("source", e.source), ("target", e.target), ("kind", e.kind.toJson)]

end Edge

namespace FlowGraph

def blockView (g : FlowGraph) (b : Nat) : Json :=
  let block := g.block b
  .obj [("kind", block.kind.toJson), ("items", .ofList BlockItem.toJson block.items),
    ("incoming", .ofNats block.incoming), ("outgoing", .ofNats block.outgoing),
    ("successors", .ofNats (g.successors b)), ("predecessors", .ofNats (g.predecessors b)),
    ("condition", .ofNat? (block.condition?.map Expr.id)), ("loop_header", g.isLoopHeader b)]

def view (g : FlowGraph) : Json :=
  let ids := List.range g.size
  .obj [("function", g.function), ("entry", g.entry), ("exit", g.exit), ("len", g.size),
    ("empty", g.blocks.isEmpty), ("loop_headers", .ofNats g.loopHeaders),
    ("rpo", .ofNats g.reversePostorder), ("positions", .ofNats (ids.map g.position)),
    ("edges", .ofList Edge.toJson g.edges.toList),
    ("items", (g.blocks.foldl (fun n b => n + b.items.length) 0 : Nat)),
    ("blocks", .ofList g.blockView ids)]

end FlowGraph

end ValueFlow
