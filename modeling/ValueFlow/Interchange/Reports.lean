import ValueFlow.Analysis.Report
import ValueFlow.Interchange.CallGraphs
import ValueFlow.Interchange.FlowGraphs
import ValueFlow.Interchange.PointsTo
import ValueFlow.Interchange.States
/-!
Documents of what the analysis of functions finds.
-/

namespace ValueFlow

namespace FunctionScope

def blockView (scope : FunctionScope) (g : FlowGraph) (b : Nat) (start : ProgramState) : Json :=
  let (steps, final) := scope.trace (g.block b).items ⟨start, some .empty⟩
  let seen := final.seen.getD .empty
  let stepView (t : TraceStep) : Json :=
    .obj [("item", t.item.toJson), ("value", .ofOption (fun v => v.render) t.value),
      ("state", t.state.toJson)]
  let edgeView (e : Edge) : Json :=
    .obj [("edge", e.toJson), ("state", (scope.followEdge e (g.block b) final.state).toJson)]
  let callView (c : CallInput) : Json :=
    .obj [("args", .ofList Value.toJson c.args), ("heap", c.heap.toJson)]
  .obj [("items", .ofList stepView steps),
    ("edges", .ofList edgeView (g.outgoing b)),
    ("diagnostics", .ofList Diagnostic.toJson seen.findings),
    ("calls", .ofMap toString callView seen.calls),
    ("call_targets", .ofMap toString (Json.ofSet .str) seen.callTargets),
    ("malformed", .ofNats (scope.facts.index.ids.filter scope.facts.isMalformed))]

end FunctionScope

namespace Fixpoint

def Solution.view (s : Solution ProgramState) (g : FlowGraph) : Json :=
  let final := s.final g
  .obj [("entry", .ofList ProgramState.toJson s.entry.toList),
    ("exit", .ofList ProgramState.toJson s.exit.toList),
    ("visits", .ofNats s.visits.toList), ("converged", s.converged),
    ("iterations", s.iterations),
    ("reachable", .ofList (fun b => s.isReachable b) (List.range g.size)),
    ("final", final.toJson), ("final_bottom", !final.isReachable)]

end Fixpoint

namespace AnalysisStats

def toJson (s : AnalysisStats) : Json :=
  .obj [("functions", s.functions), ("classes", s.classes), ("sccs", s.components),
    ("recursive_sccs", s.recursiveComponents), ("call_sites", s.callSites),
    ("call_edges", s.callEdges), ("points_to", s.pointsTo.toJson),
    ("block_visits", s.blockVisits), ("summary_rounds", s.summaryRounds),
    ("degraded_functions", s.degradedFunctions)]

end AnalysisStats

namespace AnalysisReport

def toJson (r : AnalysisReport) : Json :=
  .obj [("per_function", .ofMap id FunctionSummary.toJson r.perFunction),
    ("diagnostics", .ofList Diagnostic.toJson r.diagnostics),
    ("errors", .ofList (fun e => e.message) r.errors),
    ("call_graph", r.calls.toJson r.components), ("stats", r.stats.toJson)]

def view (r : AnalysisReport) : Json :=
  let kinds : List DiagnosticKind := [.definiteNullDeref, .possibleNullDeref,
    .outOfBounds .definite, .outOfBounds .possible, .unreachableBranch, .analysisDegraded]
  let summaries := r.perFunction.entries
  let touched := summaries.foldl (fun acc p => acc.union p.2.effects.touched) SortedSet.empty
  .obj [("report", r.toJson), ("has_errors", r.hasErrors),
    ("show", .ofList (fun d => d.render) r.diagnostics),
    ("counts", .ofNats (kinds.map fun k => (r.ofKind k).length)),
    ("in_module", (r.inFunction moduleName).length),
    ("returns_none", .ofStrings ((summaries.filter fun p => p.2.returnsNone).map Prod.fst)),
    ("touched", .ofIds touched)]

end AnalysisReport

end ValueFlow
