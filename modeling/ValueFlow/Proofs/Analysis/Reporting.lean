import ValueFlow.Analysis.Report
import ValueFlow.Proofs.Analysis.Findings
import ValueFlow.Proofs.Analysis.Seeding
/-!
What is reported about functions, and from which solutions findings are made.

Every function is reported on once, from its seed, and the report stands under its name. Summaries
that are published hold no findings about code, so a finding about code was made when the solution
for its function was gone through once more. Where nothing was given up, all those solutions had
converged. Main statements: `reported_eq`, `exists_solution_of_finding`.
-/

namespace ValueFlow

namespace ProgramFacts

variable {facts : ProgramFacts} {T : SummaryTable}

def reported (facts : ProgramFacts) (i : Nat) : FunctionSummary :=
  (facts.topDown facts.bottomUp.table).table.getD i (facts.initialSummary i)

theorem fresh_published (hT : ∀ {i s}, T.get? i = some s → s.Fresh facts.index i) (i : Nat) :
    (T.getD i (facts.initialSummary i)).Fresh facts.index i := by
  rw [SortedMap.getD]
  cases hs : T.get? i with
  | none => exact ⟨rfl, rfl⟩
  | some s => exact hT hs

theorem function_reportFunction (hT : ∀ {i s}, T.get? i = some s → s.Fresh facts.index i)
    (seed : Option CallInput) (i : Nat) :
    (facts.reportFunction T seed i).summary.function = facts.index.name i := by
  rw [← (fresh_published hT i).function_eq, reportFunction]
  cases facts.graph? i with
  | none => rfl
  | some g =>
      dsimp only
      split <;> split <;> rfl

section Published

/-- Whether the only findings of a summary are that results were given up. -/
def OnlyGivesUp (s : FunctionSummary) : Prop := ∀ d ∈ s.diagnostics, d.kind = .analysisDegraded

theorem onlyGivesUp_degrade {s : FunctionSummary} (h : OnlyGivesUp s) (i : Nat) (reason : String) :
    OnlyGivesUp (facts.degrade i reason s) := by
  intro d hd
  rcases List.mem_append.1 hd with hd | hd
  · exact h d hd
  · rw [List.mem_singleton.1 hd]
    rfl

theorem onlyGivesUp_summarize (T : SummaryTable) (i : Nat) :
    OnlyGivesUp (facts.summarize T i).1 := by
  unfold summarize
  cases facts.graph? i with
  | none => exact fun _ hd => absurd hd List.not_mem_nil
  | some g =>
      dsimp only
      split
      · exact fun _ hd => nomatch hd
      · refine onlyGivesUp_degrade ?_ i _
        exact fun _ hd => nomatch hd

/-- No summary that is published holds findings about code. -/
theorem onlyGivesUp_bottomUp (facts : ProgramFacts) (i : Nat) :
    OnlyGivesUp (facts.bottomUp.table.getD i (facts.initialSummary i)) := by
  rw [SortedMap.getD]
  cases hs : facts.bottomUp.table.get? i with
  | none => exact fun _ hd => absurd hd List.not_mem_nil
  | some s =>
      refine Sustains.bottomUp (Q := fun _ => OnlyGivesUp) (fun T _ => ?_) i s hs
      refine
        { initial := fun _ _ hd => absurd hd List.not_mem_nil
          summarize := onlyGivesUp_summarize T
          nextRound := fun members round old _ f => ?_
          degrade := fun f reason _ hs => onlyGivesUp_degrade hs f reason
          withRounds := fun _ _ _ hs => hs }
      unfold nextRound
      dsimp only
      split
      · exact onlyGivesUp_summarize _ f
      · exact onlyGivesUp_summarize _ f

end Published

/-- What is reported about a function whose summary was given up. -/
theorem diagnostics_of_degraded {i : Nat} {seed : Option CallInput} {g : FlowGraph}
    (hg : facts.graph? i = some g) (hgiven : (T.getD i (facts.initialSummary i)).degraded = true) :
    (facts.reportFunction T seed i).summary.diagnostics =
      Diagnostic.dropRepeats (fun d e => decide (d = e)) (Diagnostic.sort
        ((T.getD i (facts.initialSummary i)).diagnostics ++
          ((facts.scope T i g).replay g (facts.solve T i g seed)).findings)) := by
  simp [reportFunction, hg, hgiven]

/-- A report that was not given up was made from a solution that converged, if what has no flow
graph was given up before. -/
theorem converged_of_report {i : Nat} {seed : Option CallInput}
    (hungraphed : facts.graph? i = none → (T.getD i (facts.initialSummary i)).degraded = true)
    (hkept : (facts.reportFunction T seed i).summary.degraded = false) :
    ∃ g, facts.graph? i = some g ∧ (facts.solve T i g seed).converged = true := by
  rw [reportFunction] at hkept
  cases hg : facts.graph? i with
  | none =>
      rw [hg] at hkept
      exact absurd ((hungraphed hg).symm.trans hkept) Bool.noConfusion
  | some g =>
      refine ⟨g, rfl, ?_⟩
      rw [hg] at hkept
      dsimp only at hkept
      cases hconverged : (facts.solve T i g seed).converged with
      | true => rfl
      | false =>
          rw [hconverged] at hkept
          cases hgiven : (T.getD i (facts.initialSummary i)).degraded with
          | false => simp [hgiven, degrade, FunctionSummary.degrade] at hkept
          | true => simp [hgiven] at hkept

/-- Of a solution that converged, all findings about code are those of going through it once
more. -/
theorem found_of_report {i : Nat} {seed : Option CallInput} {g : FlowGraph} {d : Diagnostic}
    (hg : facts.graph? i = some g)
    (hconverged : (facts.solve facts.bottomUp.table i g seed).converged = true)
    (hd : d ∈ (facts.reportFunction facts.bottomUp.table seed i).summary.diagnostics)
    (hkind : d.kind ≠ .analysisDegraded) :
    d ∈ ((facts.scope facts.bottomUp.table i g).replay g
      (facts.solve facts.bottomUp.table i g seed)).findings := by
  rw [reportFunction, hg] at hd
  dsimp only at hd
  rw [hconverged] at hd
  refine (List.mem_append.1 (Diagnostic.mem_sort.1 (Diagnostic.dropRepeats_subset _ hd))).resolve_left
    fun hd => hkind (facts.onlyGivesUp_bottomUp i d ?_)
  rw [Bool.not_true, Bool.false_and, if_neg Bool.false_ne_true] at hd
  split at hd <;> exact hd

end ProgramFacts

namespace Program

variable {p : Program} {config : Config}

/-- Every function is reported on. -/
theorem reported_eq {i : Nat} (hi : i < (ProgramIndex.build p).functions.size) :
    (p.facts config).reported i = ((p.facts config).reportOf i).summary := by
  have hapart : (p.facts config).Separated := fun _ _ _ hc hd hf hf' =>
    component_unique hc hd hf hf'
  rw [← size_calls_facts p config] at hi
  obtain ⟨c, hc, hic⟩ := CallGraph.exists_component (p.closed_facts config) hi
  rw [← ProgramFacts.components_ofIndex] at hc
  rw [ProgramFacts.reported, ProgramFacts.topDown_eq, SortedMap.getD,
    ProgramFacts.get?_reportsFrom hapart (Nat.zero_le _) hc hic (Nat.zero_le _)]
  rfl

theorem summaries_run (p : Program) (config : Config) : (p.facts config).run.summaries =
    (ProgramIndex.build p).ids.map fun i => ((p.facts config).reportOf i).summary := by
  apply List.map_congr_left
  intro i hi
  exact reported_eq (List.mem_range.1 hi)

theorem perFunction_run (p : Program) (config : Config) :
    (AnalysisReport.ofOutcome (p.facts config) (p.facts config).run).perFunction =
      .ofList ((ProgramIndex.build p).ids.map fun i =>
        ((ProgramIndex.build p).name i, ((p.facts config).reportOf i).summary)) := by
  show SortedMap.ofList ((p.facts config).run.summaries.map fun s => (s.function, s)) = _
  rw [summaries_run, List.map_map]
  refine congrArg SortedMap.ofList (List.map_congr_left fun i _ => ?_)
  have hfunction : ((p.facts config).reportOf i).summary.function = (ProgramIndex.build p).name i :=
    ProgramFacts.function_reportFunction (fun hs => (p.facts config).fresh_bottomUp _ _ hs) _ i
  rw [← hfunction]
  rfl

/-- What is published about a function without a flow graph was given up. -/
theorem degraded_bottomUp (hids : (ProgramIndex.build p).nodeIds.Nodup) {i : Nat}
    (hi : i < (ProgramIndex.build p).functions.size) (hg : (p.facts config).graph? i = none) :
    ((p.facts config).bottomUp.table.getD i ((p.facts config).initialSummary i)).degraded = true := by
  obtain ⟨c, hc, hic⟩ := (ordered_facts config hids).placed i
    (hi.trans_eq (size_calls_facts p config).symm)
  obtain ⟨s, hs, -, -, hungraphed⟩ := exists_published hids hc hic
  rw [SortedMap.getD, hs]
  exact hungraphed hg

section Kept

variable (hids : (ProgramIndex.build p).nodeIds.Nodup)
  (hkept : (AnalysisReport.ofOutcome (p.facts config)
    (p.facts config).run).stats.degradedFunctions = 0)
include hids hkept

/-- Where nothing was given up, every function has a flow graph and a solution that converged. -/
theorem exists_converged {i : Nat} (hi : i < (ProgramIndex.build p).functions.size) :
    ∃ g, (p.facts config).graph? i = some g ∧ ((p.facts config).solve
      (p.facts config).bottomUp.table i g ((p.facts config).seedOf i)).converged = true := by
  have hkept : ((p.facts config).reportOf i).summary.degraded = false := by
    have hnone := List.filter_eq_nil_iff.1 (List.eq_nil_of_length_eq_zero hkept)
    rw [summaries_run] at hnone
    exact Bool.eq_false_iff.2 (hnone _ (List.mem_map_of_mem (List.mem_range.2 hi)))
  exact ProgramFacts.converged_of_report (degraded_bottomUp hids hi) hkept

/-- Where nothing was given up, a finding about code was made from the solution for its function,
which converged. -/
theorem exists_solution_of_finding {d : Diagnostic}
    (hd : d ∈ (AnalysisReport.ofOutcome (p.facts config) (p.facts config).run).diagnostics)
    (hkind : d.kind ≠ .analysisDegraded) :
    ∃ i g, i < (ProgramIndex.build p).functions.size ∧ (p.facts config).graph? i = some g ∧
      ((p.facts config).solve (p.facts config).bottomUp.table i g
        ((p.facts config).seedOf i)).converged = true ∧
      d ∈ (((p.facts config).scope (p.facts config).bottomUp.table i g).replay g
        ((p.facts config).solve (p.facts config).bottomUp.table i g
          ((p.facts config).seedOf i))).findings := by
  have hd : d ∈ Diagnostic.dedup (Diagnostic.sort
    ((p.facts config).run.summaries.flatMap FunctionSummary.diagnostics)) := hd
  have hd := Diagnostic.mem_sort.1 (Diagnostic.dropRepeats_subset _ hd)
  rw [summaries_run, List.flatMap_map] at hd
  obtain ⟨i, hi, hd⟩ := List.mem_flatMap.1 hd
  have hi := List.mem_range.1 hi
  obtain ⟨g, hg, hconverged⟩ := exists_converged hids hkept hi
  exact ⟨i, g, hi, hg, hconverged, ProgramFacts.found_of_report hg hconverged hd hkind⟩

end Kept

end Program

end ValueFlow
