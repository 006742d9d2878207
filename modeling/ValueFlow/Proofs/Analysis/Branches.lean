import ValueFlow.Proofs.Analysis.Soundness
import ValueFlow.Proofs.FlowGraph.Places
import ValueFlow.Proofs.FlowGraph.Recording
/-!
A condition that is reported to have one outcome never has the other, if the iteration over the
module came to its end.

Every evaluation of a condition in a run happens at the one place of the condition in the flow
graph, in a store that the state there describes, and the finding was made from that state. States
of an iteration that was stopped describe no runs, and findings are made from them all the same
(`exists_unreachableBranch_taken`).
-/

namespace ValueFlow

namespace Program

/-- A run of a module that keeps the items it evaluates, each with the store before it. -/
def recordedRun (p : Program) (n : Nat) : Ran (Store × List (BlockItem × Store)) :=
  (Meaning.scalar (p.call? n)).recorded.runBody n p.body (fun _ => none, [])

def visits (p : Program) (n : Nat) : List (BlockItem × Store) := (p.recordedRun n).state.2

/-- How the conditions that a run of a module evaluates turn out, by their identifiers. -/
def outcomes (p : Program) (n : Nat) : List (Nat × Bool) :=
  (p.visits n).filterMap fun v =>
    match v.1 with
    | .condition cond => (cond.eval? (p.call? n v.2) v.2).map fun u => (cond.id, u.truth)
    | _ => none

theorem map_recordedRun (p : Program) (n : Nat) : (p.recordedRun n).map Prod.fst = p.run n :=
  Meaning.map_runBody_recorded n p.body _

variable {p : Program} {config : Config} {n : Nat}

theorem mem_outcomes {id : Nat} {o : Bool} (h : (id, o) ∈ p.outcomes n) :
    ∃ cond σ u, (.condition cond, σ) ∈ p.visits n ∧ cond.id = id ∧
      cond.eval? (p.call? n σ) σ = some u ∧ u.truth = o := by
  obtain ⟨⟨i, σ⟩, hv, heq⟩ := List.mem_filterMap.1 h
  cases i with
  | condition cond =>
      obtain ⟨u, hu, he⟩ := Option.map_eq_some_iff.1 heq
      cases he
      exact ⟨cond, σ, u, hv, rfl, hu, rfl⟩
  | statement | evaluate | bind => cases heq

namespace IsScalar

variable (h : p.IsScalar)
include h

/-- What a converged solution finds about a condition of the module is how it turns out. -/
theorem outcome_of_branch {g : FlowGraph} (hg : (p.facts config).graph? moduleId = some g)
    (hconverged : ((p.facts config).solve (p.facts config).bottomUp.table moduleId g none).converged =
      true)
    {d : Diagnostic}
    (hd : d ∈ (((p.facts config).scope (p.facts config).bottomUp.table moduleId g).replay g
      ((p.facts config).solve (p.facts config).bottomUp.table moduleId g none)).findings)
    (hkind : d.kind = .unreachableBranch) {o : Bool} (ho : (d.location, o) ∈ p.outcomes n) :
    d = .unreachableBranch d.location moduleName o := by
  obtain ⟨f, hf, hbuild⟩ := graph?_eq_some hg
  cases hf.symm.trans h.numbered.getElem?_module
  have hready := h.ready_module config n hg
  have hsolves := FunctionScope.solves_of_converged hbuild rfl hready hconverged
  have hstart : ((p.facts config).entryState moduleId none).Describes (p.facts config).domains
      fun _ => none := ProgramState.describes_top _ _
  obtain ⟨cond, σ, u, hv, hid, hu, rfl⟩ := mem_outcomes ho
  obtain ⟨b, k, hi, hhere⟩ := FlowGraph.located_of_runBody hbuild (FunctionScope.closed hsolves)
    (FunctionScope.here_entry hsolves hstart) n _ hv
  obtain ⟨b', k', cond', outcome, hi', rfl, houtcome⟩ :=
    FunctionScope.exists_place_of_branch hd hkind
  have hids : (Stmt.itemNodes p.body).Nodup :=
    (Stmt.itemNodes_sublist p.body).nodup (List.nodup_append.1 h.ids).1
  have hcond : ∀ cond : Expr, cond.id ∈ (BlockItem.condition cond).nodes :=
    fun cond => List.mem_map_of_mem (Expr.mem_walk_self cond)
  have hid : cond.id = cond'.id := hid
  obtain ⟨rfl, rfl⟩ := FlowGraph.place_unique_of_build hbuild hids hi hi' (hcond cond)
    (hid ▸ hcond cond')
  cases Option.some.inj (hi.symm.trans hi')
  have hdescribes := FunctionScope.sound_look _ (p.call? n σ) σ _
    ((hready b _ (List.mem_of_getElem? hi)).exprs cond List.mem_cons_self σ) hhere hu
  rw [FunctionScope.runItems_eq] at hdescribes
  rw [Value.truth_of_truthiness hdescribes houtcome]
  exact congrArg (Diagnostic.unreachableBranch cond.id · outcome)
    (ProgramIndex.name_of_getElem? h.numbered.getElem?_module)

/-- Where no functions are defined, the module is the only unit. -/
theorem ids_of_module (hmodule : p.functions = []) : (ProgramIndex.build p).ids = [moduleId] := by
  rw [ProgramIndex.ids, ← Array.length_toList, h.numbered.functions_eq, hmodule]
  rfl

end IsScalar

end Program

/-- The analysis of a module over scalars succeeds. If nothing was given up, then a condition that
is reported to have one outcome turns out that way whenever a run evaluates it, also a run that
does not end. -/
theorem analyze_unreachableBranch_outcome {p : Program} {config : Config} (n : Nat)
    (hp : p.IsScalar) (hmodule : p.functions = []) (hconfig : config.validate = .ok ()) :
    ∃ report, analyze p config false = .ok report ∧ (report.stats.degradedFunctions = 0 →
      ∀ d ∈ report.diagnostics, d.kind = .unreachableBranch → ∀ o,
        (d.location, o) ∈ p.outcomes n → d = .unreachableBranch d.location moduleName o) := by
  refine ⟨.ofOutcome (p.facts config) (p.facts config).run, ?_, ?_⟩
  · rw [analyze, hconfig]
    rfl
  · intro hkept d hd hkind o ho
    have hother : d.kind ≠ .analysisDegraded := by
      rw [hkind]
      decide
    obtain ⟨i, g, hi, hg, hconverged, hfound⟩ :=
      Program.exists_solution_of_finding hp.numbered.nodeIds_nodup hkept hd hother
    have hi : i ∈ (ProgramIndex.build p).ids := List.mem_range.2 hi
    rw [hp.ids_of_module hmodule, List.mem_singleton] at hi
    subst hi
    rw [hp.seedOf_module] at hconverged hfound
    exact hp.outcome_of_branch hg hconverged hfound hkind ho

/-- A program that counts to a limit and tests on the way what always holds. -/
def Program.counting : Program where
  body :=
    [.assign 1 (.name 2 "i") (.literal 3 (.int 0)),
      .whileLoop 4 (.compare 5 .lt (.name 6 "i") (.literal 7 (.int 3)))
        [.ifElse 8 (.compare 9 .lt (.name 10 "i") (.literal 11 (.int 5)))
          [.assign 12 (.name 13 "i") (.binOp 14 .add (.name 15 "i") (.literal 16 (.int 1)))]
          [.assign 17 (.name 18 "i") (.literal 19 .none)]]]

theorem Program.isScalar_counting : Program.counting.IsScalar where
  ids := by decide
  names := by decide
  params := by decide
  range := by decide
  variableNames := by decide
  statements := by decide
  expressions := by decide

set_option maxRecDepth 10000 in
theorem analyze_unreachableBranch_outcome_counting :
    ∃ report, analyze .counting (.ofPreset .standard) false = .ok report ∧
      report.stats.degradedFunctions = 0 ∧
      ∃ d ∈ report.diagnostics, d.kind = .unreachableBranch ∧ (d.location, true) ∈
        Program.counting.outcomes 4 ∧ d = .unreachableBranch d.location moduleName true := by
  have hconfig : (Config.ofPreset .standard).validate = .ok () := rfl
  have hkept : (AnalysisReport.ofOutcome (Program.counting.facts (.ofPreset .standard))
      (Program.counting.facts (.ofPreset .standard)).run).stats.degradedFunctions = 0 := by
    decide +kernel
  have hfound : ∃ d ∈ (AnalysisReport.ofOutcome (Program.counting.facts (.ofPreset .standard))
      (Program.counting.facts (.ofPreset .standard)).run).diagnostics,
      d.kind = .unreachableBranch ∧ (d.location, true) ∈ Program.counting.outcomes 4 := by
    decide +kernel
  obtain ⟨report, hreport, hright⟩ := analyze_unreachableBranch_outcome 4
    Program.isScalar_counting rfl hconfig
  cases hreport
  obtain ⟨d, hd, hkind, ho⟩ := hfound
  exact ⟨_, rfl, hkept, d, hd, hkind, ho, hright hkept d hd hkind true ho⟩

section Stopped

/-- The standard settings, but every block is visited once only. -/
def Config.oneVisit : Config := { Config.ofPreset .standard with maxBlockVisits := 1 }

/-- What is known about the program that counts, when every block is visited once only. -/
abbrev Program.stopped : ProgramFacts := Program.counting.facts .oneVisit

/-- The findings about it: the state of the header knows only the first round. -/
def Program.stoppedFindings : List Diagnostic :=
  [.degraded 0 moduleName ProgramFacts.visitLimitReason, .unreachableBranch 5 moduleName true,
    .unreachableBranch 9 moduleName true]

open Program (stopped stoppedFindings)

theorem inOrder_stoppedFindings : Diagnostic.InOrder stoppedFindings := by decide

set_option maxRecDepth 10000 in
theorem found_stopped :
    (stopped.bottomUp.table.getD moduleId (stopped.initialSummary moduleId)).diagnostics ++
      ((stopped.graph? moduleId).map fun g =>
        ((stopped.scope stopped.bottomUp.table moduleId g).replay g
          (stopped.solve stopped.bottomUp.table moduleId g none)).findings).getD [] =
      stoppedFindings := by
  decide +kernel

set_option maxRecDepth 10000 in
theorem diagnostics_stopped :
    (AnalysisReport.ofOutcome stopped stopped.run).diagnostics = stoppedFindings := by
  have hp := Program.isScalar_counting
  have hgiven : (stopped.bottomUp.table.getD moduleId
      (stopped.initialSummary moduleId)).degraded = true := by decide +kernel
  obtain ⟨g, hg⟩ : ∃ g, stopped.graph? moduleId = some g :=
    Option.isSome_iff_exists.1 (by decide +kernel)
  have hfound := found_stopped
  rw [hg, Option.map_some, Option.getD_some] at hfound
  have hreported : (stopped.reportOf moduleId).summary.diagnostics = stoppedFindings := by
    rw [ProgramFacts.reportOf, hp.seedOf_module, ProgramFacts.diagnostics_of_degraded hg hgiven,
      hfound, inOrder_stoppedFindings.sort_eq, inOrder_stoppedFindings.dropRepeats_eq]
  show Diagnostic.dedup (Diagnostic.sort (stopped.run.summaries.flatMap _)) = _
  rw [Program.summaries_run, hp.ids_of_module rfl, List.map_singleton, List.flatMap_singleton,
    hreported, inOrder_stoppedFindings.sort_eq, inOrder_stoppedFindings.dedup_eq]

/-- Where the iteration was stopped, a condition that is reported to be always true can fail. -/
theorem exists_unreachableBranch_taken :
    ∃ (p : Program) (config : Config) (n : Nat) (σ : Store) (report : AnalysisReport),
      p.IsScalar ∧ p.functions = [] ∧ config.validate = .ok () ∧ p.run n = ⟨.done, σ⟩ ∧
      analyze p config false = .ok report ∧ ∃ d ∈ report.diagnostics,
        d = .unreachableBranch d.location moduleName true ∧ (d.location, false) ∈ p.outcomes n := by
  have hrun : Program.counting.run 4 = ⟨.done, (Program.counting.recordedRun 4).state.1⟩ := by
    have hend : (Program.counting.recordedRun 4).ending = .done := by decide
    rw [← Program.map_recordedRun, Ran.map, hend]
  refine ⟨.counting, .oneVisit, 4, _, _, Program.isScalar_counting, rfl, rfl, hrun, rfl,
    .unreachableBranch 5 moduleName true, ?_, rfl, by decide⟩
  rw [diagnostics_stopped]
  decide

end Stopped

end ValueFlow
