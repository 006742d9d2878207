import ValueFlow.Analysis.Transfer
/-!
Summaries of functions, callees before callers.

Every function is analysed with unknown parameters and an empty heap. The functions of a recursive
component start from summaries that never return and are analysed again until neither their return
values nor their effects change. After some rounds the summaries are widened, and after too many
they are given up.
-/

namespace ValueFlow

namespace ProgramFacts

variable (facts : ProgramFacts)

def scope (summaries : SummaryTable) (function : Nat) (g : FlowGraph) : FunctionScope :=
  { facts, name := facts.index.name function, exit := g.exit, summaries }

/-- The state at the entry of a function, from what its calls pass to it. -/
def entryState (function : Nat) (input : Option CallInput) : ProgramState :=
  match input with
  | none => .make .top .top
  | some input =>
      let env := ((facts.index.params function).zip input.args).foldl
        (fun env p => if p.2.isBottom then env else env.set p.1 p.2 facts.domains) Environment.top
      .make env input.heap.entryView

def solve (summaries : SummaryTable) (function : Nat) (g : FlowGraph) (input : Option CallInput) :
    Fixpoint.Solution ProgramState :=
  Fixpoint.solve g (facts.scope summaries function g).transfer facts.limits
    (facts.entryState function input)

/-- The effects of a function of which nothing is known. -/
def unknownEffects : HeapEffects := .unknown (.ofList (List.range facts.pointsTo.objects.size))

/-- Gives up the precision of a summary for a reason. -/
def degrade (function : Nat) (reason : String) (s : FunctionSummary) : FunctionSummary :=
  let node := ((facts.index.function? function).map FunctionInfo.defNode).getD 0
  { s.degrade facts.unknownEffects with
    diagnostics := s.diagnostics ++ [.degraded node (facts.index.name function) reason] }

/-- The reason to give up on a function whose iteration was stopped. -/
def visitLimitReason : String := "block visit limit reached"

/-- The reason to give up on a component that did not become stable. -/
def recursionReason : String := "recursion did not stabilize"

/-- The summary of a function that never returns and does nothing. -/
def initialSummary (function : Nat) : FunctionSummary :=
  .initial (facts.index.name function) (facts.index.params function)

/-- The value that a state at the exit of a function returns. -/
def returned (s : ProgramState) : Value := if s.isReachable then s.env.get returnSlot else .bottom

/-- The summary of a function, and how many blocks were visited for it. -/
def summarize (summaries : SummaryTable) (function : Nat) : FunctionSummary × Nat :=
  let initial := facts.initialSummary function
  match facts.graph? function with
  | none => (initial.degrade facts.unknownEffects, 0)
  | some g =>
      let solution := facts.solve summaries function g none
      let exit := solution.final g
      let summary :=
        { initial with returnValue := returned exit, effects := .ofExit .top exit.heap }
      (if solution.converged then summary else facts.degrade function visitLimitReason summary,
        solution.iterations)

/-- Summaries with the work that they took. -/
structure Summaries where
  table : SummaryTable
  visits : Nat
  rounds : Nat

def overlay (table : SummaryTable) (summaries : List (Nat × FunctionSummary)) : SummaryTable :=
  summaries.foldl (fun t p => t.insert p.1 p.2) table

def total (l : List Nat) : Nat := l.foldl (· + ·) 0

def summarizeAll (table : SummaryTable) (members : List Nat) :
    List (Nat × FunctionSummary) × Nat :=
  let results := members.map fun f => (f, facts.summarize table f)
  (results.map fun p => (p.1, p.2.1), total (results.map fun p => p.2.2))

/-- Repeats rounds over the functions of a recursive component until they are stable. The number
bounds how many rounds follow. -/
def stabilize (published : SummaryTable) (members : List Nat) :
    Nat → Nat → List (Nat × FunctionSummary) → Nat → List (Nat × FunctionSummary) × Nat × Nat
  | 0, round, current, visits =>
      (current.map fun p => (p.1, facts.degrade p.1 recursionReason p.2), visits, round)
  | n + 1, round, current, visits =>
      let round := round + 1
      let (next, more) := facts.summarizeAll (overlay published current) members
      let candidates := List.zipWith (fun old new =>
        if facts.config.wideningThreshold.toNat < round then (new.1, old.2.widen new.2 round)
        else new) current next
      let stable := (candidates.zip current).all fun p => p.1.2.sameInterface p.2.2
      if stable then (candidates, visits + more, round)
      else stabilize published members n round candidates (visits + more)

def summarizeComponent (published : SummaryTable) (c : Component) :
    List (Nat × FunctionSummary) × Nat × Nat :=
  let (summaries, visits, rounds) :=
    if c.recursive then
      facts.stabilize published c.members facts.config.maxSccIterations.toNat 0
        (c.members.map fun f => (f, facts.initialSummary f)) 0
    else
      let (summaries, visits) := facts.summarizeAll published c.members
      (summaries, visits, 1)
  (summaries.map fun p => (p.1, { p.2 with rounds }), visits, rounds)

def componentsOf (level : List Nat) : List Component :=
  level.filterMap fun i => facts.components[i]?

/-- Summarizes the components of a level, which do not call each other. -/
def summarizeLevel (s : Summaries) (level : List Nat) : Summaries :=
  let results := (facts.componentsOf level).map (facts.summarizeComponent s.table)
  { table := overlay s.table (results.flatMap Prod.fst)
    visits := s.visits + total (results.map fun r => r.2.1)
    rounds := s.rounds + total (results.map fun r => r.2.2) }

def bottomUp : Summaries :=
  (Component.levels facts.components).foldl facts.summarizeLevel ⟨∅, 0, 0⟩

end ProgramFacts

end ValueFlow
