import ValueFlow.Analysis.Error
import ValueFlow.Analysis.Propagate
/-!
The analysis of a program and its report.
-/

namespace ValueFlow

/-- How large a program is and how much work its analysis took. -/
structure AnalysisStats where
  functions : Nat
  classes : Nat
  components : Nat
  recursiveComponents : Nat
  callSites : Nat
  callEdges : Nat
  pointsTo : PointsToStats
  blockVisits : Nat
  summaryRounds : Nat
  degradedFunctions : Nat

structure AnalysisReport where
  /-- The summaries by name; of two functions with one name the later counts. -/
  perFunction : SortedMap String FunctionSummary
  /-- The findings about all functions in order, one for each place, kind and function. -/
  diagnostics : List Diagnostic
  /-- What is wrong with the functions that were not analysed. -/
  errors : List MalformedBody
  calls : CallGraph
  components : List Component
  stats : AnalysisStats

namespace AnalysisReport

/-- The report of what the analysis of all functions found. -/
def ofOutcome (facts : ProgramFacts) (outcome : ProgramFacts.Outcome) : AnalysisReport where
  perFunction := .ofList (outcome.summaries.map fun s => (s.function, s))
  diagnostics := Diagnostic.dedup
    (Diagnostic.sort (outcome.summaries.flatMap FunctionSummary.diagnostics))
  errors := facts.errors
  calls := facts.calls
  components := facts.components
  stats :=
    { functions := facts.index.functions.size
      classes := facts.index.classes.length
      components := facts.components.length
      recursiveComponents := (facts.components.filter Component.recursive).length
      callSites := facts.calls.sites.size
      callEdges := facts.calls.edges.size
      pointsTo := facts.pointsTo.stats
      blockVisits := outcome.blockVisits
      summaryRounds := outcome.summaryRounds
      degradedFunctions := (outcome.summaries.filter FunctionSummary.degraded).length }

def ofKind (r : AnalysisReport) (kind : DiagnosticKind) : List Diagnostic :=
  r.diagnostics.filter fun d => d.kind = kind

def inFunction (r : AnalysisReport) (function : String) : List Diagnostic :=
  r.diagnostics.filter fun d => d.function = function

def hasErrors (r : AnalysisReport) : Bool := !r.errors.isEmpty

end AnalysisReport

/-- Analyses a program, unless the configuration is not valid or the run was asked to stop. -/
def analyze (program : Program) (config : Config) (cancelled : Bool) :
    Except AnalysisError AnalysisReport := do
  config.validate.mapError AnalysisError.config
  checkCancelled cancelled
  let facts := ProgramFacts.ofIndex (.build program) config
  return .ofOutcome facts facts.run

end ValueFlow
