import ValueFlow.Proofs.Analysis.Reporting
/-!
What is reported about a module describes the values that its variables have in the end.

No call reaches the module, so it is analysed from the state that knows nothing. The summaries
that are applied to its calls are right, and so is what is known at its exit. Main statement:
`analyze_describes_final`.
-/

namespace ValueFlow

namespace ProgramFacts

/-- What is reported at the exit of a function is what a converged solution says there, or
nothing. -/
theorem exitState_reportFunction {facts : ProgramFacts} {published : SummaryTable}
    (hpublished : ∀ {i s}, published.get? i = some s → s.Fresh facts.index i)
    (seed : Option CallInput) (i : Nat) :
    (∃ g, facts.graph? i = some g ∧ (facts.solve published i g seed).converged = true ∧
      (facts.reportFunction published seed i).summary.exitState =
        exitVariables ((facts.solve published i g seed).final g)) ∨
    (facts.reportFunction published seed i).summary.exitState = ∅ := by
  have hfresh := (fresh_published hpublished i).exitState_eq
  rw [reportFunction]
  cases hg : facts.graph? i with
  | none => exact .inr hfresh
  | some g =>
      dsimp only
      split
      · exact .inr rfl
      · next hkept =>
          split
          · exact .inr hfresh
          · next hprecise =>
              refine .inl ⟨g, rfl, ?_, rfl⟩
              have hprecise : (published.getD i (facts.initialSummary i)).degraded = false :=
                Bool.eq_false_iff.2 hprecise
              cases hconverged : (facts.solve published i g seed).converged with
              | true => rfl
              | false =>
                  rw [hconverged, hprecise] at hkept
                  exact absurd rfl hkept

end ProgramFacts

namespace ProgramState

/-- The variables known at an exit describe the store there. -/
theorem Describes.exitVariables {s : ProgramState} {domains : DomainSet} {σ : Store} {u v : Scalar}
    {x : String} (h : s.Describes domains (σ.set returnSlot (.scalar v)))
    (hx : σ.scalar? x = some u) :
    ((ProgramFacts.exitVariables s).getD x .top).describes u = true := by
  rw [ProgramFacts.exitVariables, if_pos h.isReachable, SortedMap.getD, SortedMap.get?_ofList_map]
  split
  · next hmem =>
      have hne : x ≠ returnSlot := of_decide_eq_true (List.mem_filter.1 hmem).2
      exact h.env.get ((Store.scalar?_set_of_ne hne σ _).trans hx)
  · exact Value.describes_top u

end ProgramState

namespace Program

theorem Returns.mono {p : Program} {n : Nat} {name : String} {v w : Value} (h : p.Returns n name v)
    (hle : v.leq w = true) : p.Returns n name w := by
  intro globals args u hcall
  have hu := h hcall
  obtain ⟨hsign, hnull, hrange⟩ := Value.leq_iff.1 hle (Value.not_isBottom_of_describes hu)
  exact (Value.under_of_leq hsign hnull hrange).describes hu

namespace IsScalar

variable {p : Program} {config : Config} (h : p.IsScalar)
include h

/-- No call reaches the module. -/
theorem seedOf_module (config : Config) : (p.facts config).seedOf moduleId = none := by
  refine h.numbered.seedOf_module fun node site hsite => ?_
  rw [h.calls_facts] at hsite
  exact h.module_not_mem_targets hsite

/-- Published summaries describe what functions return. -/
theorem returns_published (config : Config) (n : Nat) {i : Nat}
    (hi : i < (p.facts config).calls.functions.size) :
    p.Returns n ((ProgramIndex.build p).name i)
      ((p.facts config).returnOf (p.facts config).bottomUp.table i) := by
  refine right_returnOf (R := fun n i v => p.Returns n ((ProgramIndex.build p).name i) v)
    h.numbered.nodeIds_nodup (fun _ _ => returns_zero _ _) (fun _ _ => returns_top _ _) Returns.mono
    (fun n hcalls i => h.returns_summarize fun j hj => ?_) n hi
  rw [← h.calls_facts config] at hj
  exact hcalls j (p.closed_facts config i j hj)

/-- The calls of the module are covered by the summaries that were published. -/
theorem ready_module (config : Config) (n : Nat) {g : FlowGraph}
    (hg : (p.facts config).graph? moduleId = some g) :
    ∀ b, ∀ item ∈ (g.block b).items,
      ((p.facts config).scope (p.facts config).bottomUp.table moduleId g).ReadyItem (p.call? n)
        item := by
  refine h.readyItems hg function?_of_call? fun j hj {_ _ _} hu => ?_
  rw [← h.calls_facts config] at hj
  exact h.returns_published config n (p.closed_facts config _ j hj) hu

/-- What is reported at the exit of the module describes the store in which a run ends. -/
theorem describes_module {n : Nat} {σ : Store} (hrun : p.run n = ⟨.done, σ⟩) {x : String}
    {u : Scalar} (hx : σ.scalar? x = some u) :
    (((p.facts config).reportOf moduleId).summary.exitState.getD x .top).describes u = true := by
  rw [ProgramFacts.reportOf, h.seedOf_module]
  rcases ProgramFacts.exitState_reportFunction
      (fun hs => (p.facts config).fresh_bottomUp _ _ hs) none moduleId
    with ⟨g, hg, hconverged, heq⟩ | heq
  · rw [heq]
    obtain ⟨f, hf, hbuild⟩ := graph?_eq_some hg
    cases hf.symm.trans h.numbered.getElem?_module
    have hstart : ((p.facts config).entryState moduleId none).Describes (p.facts config).domains
        fun _ => none := ProgramState.describes_top _ _
    exact ((FunctionScope.describes_final hbuild rfl (h.ready_module config n hg) hconverged hstart
      hrun).1 rfl).exitVariables hx
  · rw [heq]
    exact Value.describes_top u

/-- The summary that is reported under the name of the module is that of the module. -/
theorem get?_perFunction_module (config : Config) :
    (AnalysisReport.ofOutcome (p.facts config) (p.facts config).run).perFunction.get? moduleName =
      some ((p.facts config).reportOf moduleId).summary := by
  have hmodule := h.numbered.getElem?_module
  have hname := ProgramIndex.name_of_getElem? hmodule
  have hmem : moduleId ∈ (ProgramIndex.build p).ids :=
    List.mem_range.2 (Array.getElem?_eq_some_iff.1 hmodule).1
  rw [perFunction_run, show moduleName = (ProgramIndex.build p).name moduleId from hname.symm]
  refine SortedMap.get?_ofList_map_of_mem _ _ hmem fun i hi heq => ?_
  exact ProgramIndex.eq_of_name_eq h.numbered.names_nodup hmodule (List.mem_range.1 hi)
    (heq.trans hname)

end IsScalar

end Program

/-- The analysis of a program over scalars succeeds, and the values that the variables of the
module have at the end of a run are among those that are reported at its exit. A variable that is
not reported can have any value. -/
theorem analyze_describes_final {p : Program} {config : Config} {σ : Store} (hp : p.IsScalar)
    (hconfig : config.validate = .ok ()) (hrun : p.EndsWith σ) :
    ∃ report summary, analyze p config false = .ok report ∧
      report.perFunction.get? moduleName = some summary ∧
      ∀ {x u}, σ.scalar? x = some u → (summary.exitState.getD x .top).describes u = true := by
  obtain ⟨n, hn⟩ := hrun
  refine ⟨_, _, ?_, hp.get?_perFunction_module config, hp.describes_module hn⟩
  rw [analyze, hconfig]
  rfl

/-- A program that adds up the numbers below three. -/
def Program.additions : Program where
  body :=
    [.functionDef 1 2 "add" ["a", "b"] [.ret 3 (some (.binOp 4 .add (.name 5 "a") (.name 6 "b")))],
      .assign 7 (.name 8 "sum") (.literal 9 (.int 0)),
      .forLoop 10 "i" (.call 11 (.name 12 "range") [.literal 13 (.int 3)])
        [.assign 14 (.name 15 "sum") (.call 16 (.name 17 "add") [.name 18 "sum", .name 19 "i"])]]

theorem Program.isScalar_additions : Program.additions.IsScalar where
  ids := by decide
  names := by decide
  params := by decide
  range := by decide
  variableNames := by decide
  statements := by decide
  expressions := by decide

theorem analyze_describes_final_additions :
    ∃ report summary, analyze .additions (.ofPreset .standard) false = .ok report ∧
      report.perFunction.get? moduleName = some summary ∧
      (summary.exitState.getD "sum" .top).describes (.int 3) = true := by
  have hrun : Program.additions.EndsWith (Program.additions.run 4).state :=
    ⟨4, congrArg (Ran.mk · _) (by decide)⟩
  have hsum : (Program.additions.run 4).state.scalar? "sum" = some (.int 3) := by decide
  have hconfig : (Config.ofPreset .standard).validate = .ok () := rfl
  obtain ⟨report, summary, hreport, hsummary, hfinal⟩ :=
    analyze_describes_final Program.isScalar_additions hconfig hrun
  exact ⟨report, summary, hreport, hsummary, hfinal hsum⟩

end ValueFlow
