import ValueFlow.CallGraph.Component
import ValueFlow.CallGraph.Dispatch
import ValueFlow.Config.Basic
import ValueFlow.Fixpoint.Solver
import ValueFlow.FlowGraph.Lowering
/-!
What is known about a program before its values are analysed.
-/

namespace ValueFlow

/-- The facts that the analysis of every function consults. -/
structure ProgramFacts where
  index : ProgramIndex
  /-- The call graph with the final targets of method calls. -/
  calls : CallGraph
  components : List Component
  pointsTo : PointsTo
  /-- The flow graph of each function, or what is wrong with its body. -/
  graphs : Array (Except MalformedBody FlowGraph)
  config : Config

namespace ProgramFacts

def ofIndex (index : ProgramIndex) (config : Config) : ProgramFacts :=
  let classes := ClassTable.build index
  let calls := CallGraph.build index classes
  let pointsTo := PointsTo.analyze index classes calls config.pointerContextDepth.toNat
  let calls := calls.refine classes pointsTo
  { index
    calls
    components := calls.components
    pointsTo
    graphs := index.functions.mapIdx FlowGraph.ofFunction
    config }

def domains (facts : ProgramFacts) : DomainSet := facts.config.enabledDomains

def graph? (facts : ProgramFacts) (function : Nat) : Option FlowGraph := do
  (← facts.graphs[function]?).toOption

def isMalformed (facts : ProgramFacts) (function : Nat) : Bool := (facts.graph? function).isNone

/-- What is wrong with the bodies that have no flow graph, in the order of definitions. -/
def errors (facts : ProgramFacts) : List MalformedBody :=
  facts.graphs.toList.filterMap fun
    | .error e => some e
    | .ok _ => none

def limits (facts : ProgramFacts) : Fixpoint.Limits where
  wideningThreshold := facts.config.wideningThreshold.toNat
  maxBlockVisits := facts.config.maxBlockVisits.toNat

end ProgramFacts

end ValueFlow
