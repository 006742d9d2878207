import ValueFlow.Analysis.Summarize
/-!
Results of functions, callers before callees.

Every function is analysed again from the join of what its calls pass to it, and then run once
more over the states found, to make findings and to see what it passes on. Functions of recursive
components start with unknown parameters.
-/

namespace ValueFlow

namespace ProgramFacts

variable (facts : ProgramFacts)

/-- The parameters of a function, from what its calls pass to it. -/
def inputOf (function : Nat) (seed : Option CallInput) : SortedMap String Value :=
  .ofList <| (facts.index.params function).zipIdx.map fun p =>
    (p.1, (seed.bind fun s => s.args[p.2]?).getD .top)

/-- The variables that a state at the exit of a function knows. -/
def exitVariables (s : ProgramState) : SortedMap String Value :=
  if s.isReachable then
    .ofList ((s.env.names.filter (· ≠ returnSlot)).map fun x => (x, s.env.get x))
  else ∅

structure FunctionReport where
  summary : FunctionSummary
  calls : CallInputs
  visits : Nat

/-- Analyses a function from what its calls pass to it. -/
def reportFunction (published : SummaryTable) (seed : Option CallInput) (function : Nat) :
    FunctionReport :=
  let base := published.getD function (facts.initialSummary function)
  let summary := { base with input := facts.inputOf function seed }
  match facts.graph? function with
  | none => ⟨summary, ∅, 0⟩
  | some g =>
      let solution := facts.solve published function g seed
      let seen := (facts.scope published function g).replay g solution
      let summary :=
        if !solution.converged && !summary.degraded then
          facts.degrade function visitLimitReason summary
        else summary
      let summary :=
        if summary.degraded then summary
        else { summary with exitState := exitVariables (solution.final g) }
      let found := Diagnostic.sort (summary.diagnostics ++ seen.findings)
      { summary :=
          { summary with
            diagnostics := Diagnostic.dropRepeats (fun d e => decide (d = e)) found
            callTargets := seen.callTargets }
        calls := seen.calls
        visits := solution.iterations }

/-- Reports with what is passed to functions and the work that they took. -/
structure Reports where
  inputs : CallInputs
  table : SummaryTable
  visits : Nat

def reportComponent (published : SummaryTable) (inputs : CallInputs) (c : Component) :
    List (Nat × FunctionReport) :=
  c.members.map fun f =>
    (f, facts.reportFunction published (if c.recursive then none else inputs.get? f) f)

/-- Reports on the components of a level, which do not call each other. -/
def reportLevel (published : SummaryTable) (r : Reports) (level : List Nat) : Reports :=
  let results := (facts.componentsOf level).flatMap (facts.reportComponent published r.inputs)
  let calls := results.foldl (fun (acc : CallInputs) p => acc.merge p.2.calls) ∅
  { inputs := r.inputs.merge calls
    table := overlay r.table (results.map fun p => (p.1, p.2.summary))
    visits := r.visits + total (results.map fun p => p.2.visits) }

def topDown (published : SummaryTable) : Reports :=
  (Component.levels facts.components).reverse.foldl (facts.reportLevel published) ⟨∅, ∅, 0⟩

/-- The final summaries of all functions in the order of their numbers, and the work they took. -/
structure Outcome where
  summaries : List FunctionSummary
  blockVisits : Nat
  summaryRounds : Nat

def run : Outcome :=
  let up := facts.bottomUp
  let down := facts.topDown up.table
  { summaries := facts.index.ids.map fun f => down.table.getD f (facts.initialSummary f)
    blockVisits := up.visits + down.visits
    summaryRounds := up.rounds }

end ProgramFacts

end ValueFlow
