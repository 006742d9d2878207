import ValueFlow.Proofs.Analysis.Reporting
import ValueFlow.Proofs.FlowGraph.Lookups
import ValueFlow.Proofs.Fixpoint.Lookups
import ValueFlow.Proofs.PointsTo.Lookups
/-!
Every program is accepted.

Nodes may share identifiers, names may clash, classes may be their own bases and bodies may be
malformed: the analysis looks up only what exists, and its report says all that was found. Only a
configuration can be refused, for the first of its faults. Main statement: `analyze_accepts`.
-/

namespace ValueFlow

namespace Config

def limited (c : Config) : LimitedField → UInt64
  | .wideningThreshold => c.wideningThreshold
  | .maxSccIterations => c.maxSccIterations
  | .pointerContextDepth => c.pointerContextDepth
  | .maxBlockVisits => c.maxBlockVisits

def limitFault? (c : Config) (field : LimitedField) : Option ConfigError :=
  if field.least ≤ (c.limited field).toNat ∧ (c.limited field).toNat ≤ field.greatest then none
  else some (.outOfRange field (c.limited field).toNat)

/-- All that is wrong with a configuration, in the order in which it is checked. -/
def faults (c : Config) : List ConfigError :=
  [.wideningThreshold, .maxSccIterations, .pointerContextDepth, .maxBlockVisits].filterMap
      c.limitFault? ++
    if c.enabledDomains.isEmpty then [.noDomain] else []

theorem checkLimit_eq (c : Config) (field : LimitedField) :
    checkLimit field (c.limited field) = (c.limitFault? field).elim (.ok ()) .error := by
  unfold checkLimit limitFault?
  split <;> rfl

/-- The first fault decides. -/
theorem validate_eq (c : Config) : c.validate = (c.faults.head?).elim (.ok ()) .error := by
  have hcheck (field : LimitedField) (rest : List ConfigError) (next : Except ConfigError Unit)
      (hnext : next = (rest.head?).elim (.ok ()) .error) :
      (checkLimit field (c.limited field) >>= fun _ => next) =
        (((c.limitFault? field).toList ++ rest).head?).elim (.ok ()) .error := by
    rw [checkLimit_eq, hnext]
    cases c.limitFault? field <;> rfl
  have hfaults : c.faults = (c.limitFault? .wideningThreshold).toList ++
      ((c.limitFault? .maxSccIterations).toList ++
        ((c.limitFault? .pointerContextDepth).toList ++
          ((c.limitFault? .maxBlockVisits).toList ++
            if c.enabledDomains.isEmpty then [.noDomain] else []))) := by
    unfold faults
    simp only [List.filterMap_cons, List.filterMap_nil]
    cases c.limitFault? .wideningThreshold <;> cases c.limitFault? .maxSccIterations <;>
      cases c.limitFault? .pointerContextDepth <;> cases c.limitFault? .maxBlockVisits <;> rfl
  rw [hfaults]
  apply hcheck .wideningThreshold
  apply hcheck .maxSccIterations
  apply hcheck .pointerContextDepth
  apply hcheck .maxBlockVisits
  split <;> rfl

end Config

namespace ProgramFacts

/-- Whether all that is looked up in the facts about a program exists. -/
structure InRange (facts : ProgramFacts) : Prop where
  calls : facts.calls.Bounded
  functions_size : facts.calls.functions.size = facts.index.functions.size
  member_lt : ∀ c ∈ facts.components, ∀ f ∈ c.members, f < facts.index.functions.size
  placed : ∀ f < facts.index.functions.size, ∃! i : Nat, ∃ c : Component,
    facts.components[i]? = some c ∧ f ∈ c.members
  /-- The levels of the components that one calls are known before its own. -/
  below : ∀ ⦃i : Nat⦄ ⦃c : Component⦄ ⦃a b : Nat⦄, facts.components[i]? = some c →
    a ∈ c.members → b ∉ c.members → facts.calls.Calls a b →
      ∃ j < i, ∃ d : Component, facts.components[j]? = some d ∧ b ∈ d.members
  level_lt : ∀ c ∈ facts.components, c.level < (Component.levels facts.components).length
  position_lt : ∀ level ∈ Component.levels facts.components, ∀ i ∈ level,
    i < facts.components.length
  object_lt : ∀ ⦃node o⦄, o ∈ facts.pointsTo.ofNode node → o < facts.pointsTo.objects.size
  graphs_size : facts.graphs.size = facts.index.functions.size
  /-- Whatever the states of functions are, those that an iteration looks up exist. -/
  runs : ∀ ⦃f g⦄, facts.graph? f = some g → ∀ (t : Transfer ProgramState) limits start,
    Fixpoint.RunsInRange g t limits start

end ProgramFacts

namespace Program

variable {p : Program} {config : Config}

/-- Whether all that is looked up while a program is analysed exists: while references are searched
for, while bodies are lowered, and in the facts that are found. -/
structure InRange (p : Program) (config : Config) : Prop where
  calls : (CallGraph.build (.build p) (.build (.build p))).Bounded
  search : (p.flowProgram config.pointerContextDepth.toNat).SearchesInRange
  builds : ∀ ⦃i f⦄, (ProgramIndex.build p).functions[i]? = some f →
    FlowGraph.BuildsInRange ⟨f.name, i ≠ moduleId⟩ f.body
  facts : (p.facts config).InRange

theorem calls_build_bounded (p : Program) :
    (CallGraph.build (.build p) (.build (.build p))).Bounded := by
  intro s hs
  obtain ⟨node, hsite⟩ := CallGraph.mem_values.1 hs
  rw [CallGraph.size_build]
  refine ⟨?_, fun t ht => CallGraph.lt_of_mem_targets_build hsite ht⟩
  obtain ⟨hmem, -⟩ := CallGraph.mem_allSites_of_site? hsite
  obtain ⟨caller, f, stmt, node, func, args, hf, -, rfl⟩ := CallGraph.mem_allSites.1 hmem
  exact (Array.getElem?_eq_some_iff.1 hf).1

/-- Final targets do not change who calls, and are functions. -/
theorem calls_facts_bounded (p : Program) (config : Config) :
    (p.facts config).calls.Bounded := by
  intro s hs
  obtain ⟨node, hsite⟩ := CallGraph.mem_values.1 hs
  rw [size_calls_facts]
  refine ⟨?_, fun t ht => CallGraph.lt_of_mem_targets hsite ht⟩
  refine CallGraph.forall_site?_refine
    (P := fun _ s => s.caller < (ProgramIndex.build p).functions.size) ?_ ?_ hsite
  · intro node s hs
    rw [← CallGraph.size_build (.build p) (.build (.build p))]
    exact (p.calls_build_bounded s (CallGraph.mem_values.2 ⟨node, hs⟩)).1
  · intro node s method receiver hs
    exact hs

theorem wired_of_graph? {f : Nat} {g : FlowGraph} (h : (p.facts config).graph? f = some g) :
    g.Wired := by
  obtain ⟨info, -, hbuild⟩ := graph?_eq_some h
  exact FlowGraph.build_wired hbuild

theorem inRange_facts (p : Program) (config : Config) : (p.facts config).InRange := by
  have hsize := size_calls_facts p config
  have hcondensed := CallGraph.isCondensation_components (p.closed_facts config)
  rw [← ProgramFacts.components_ofIndex] at hcondensed
  refine
    { calls := p.calls_facts_bounded config
      functions_size := hsize
      member_lt := ?_
      placed := ?_
      below := ?_
      level_lt := ?_
      position_lt := ?_
      object_lt := ?_
      graphs_size := Array.size_mapIdx
      runs := ?_ }
  · intro c hc f hf
    exact ((hcondensed.linked c hc).2 f hf).1.trans_eq hsize
  · intro f hf
    exact hcondensed.partition f (hf.trans_eq hsize.symm)
  · intro i c a b hc ha hb hab
    obtain ⟨d, hd⟩ := Option.isSome_iff_exists.1 ((hcondensed.found hc).2 a ha b hb hab)
    obtain ⟨j, hj⟩ := List.mem_iff_getElem?.1 (List.mem_of_find?_eq_some hd)
    have hbd := List.find?_some hd
    rw [List.getElem?_take] at hj
    split at hj
    · next hlt => exact ⟨j, hlt, d, hj, List.contains_iff_mem.1 hbd⟩
    · cases hj
  · intro c hc
    rw [Component.levels_eq, List.length_map, List.length_range]
    exact Component.level_lt_depth hc
  · intro level hlevel i hi
    have hflat := List.mem_flatten.2 ⟨level, hlevel, hi⟩
    exact List.mem_range.1 ((CallGraph.perm_flatten_levels _).subset hflat)
  · intro node o ho
    exact p.lt_of_mem_ofNode config.pointerContextDepth.toNat ho
  · intro f g hg t limits start
    exact Fixpoint.runsInRange (wired_of_graph? hg) t limits start

theorem inRange (p : Program) (config : Config) : p.InRange config where
  calls := p.calls_build_bounded
  search := p.searchesInRange _
  builds _ _ _ := FlowGraph.buildsInRange _ _
  facts := p.inRange_facts config

end Program

/-- Whether a number is that of the last function with a name. -/
def ProgramIndex.IsLast (ix : ProgramIndex) (name : String) (i : Nat) : Prop :=
  i < ix.functions.size ∧ ix.name i = name ∧ ∀ j < ix.functions.size, i < j → ix.name j ≠ name

/-- Whether a report says all that was found about the functions of a program. -/
structure AnalysisReport.Complete (facts : ProgramFacts) (r : AnalysisReport) : Prop where
  /-- The summaries that the run ends with are those of the functions, each reported on once. -/
  summaries : facts.run.summaries = facts.index.ids.map fun i => (facts.reportOf i).summary
  errors : r.errors = facts.index.functions.toList.zipIdx.filterMap fun q =>
    match FlowGraph.ofFunction q.2 q.1 with
    | .error e => some e
    | .ok _ => none
  names : ∀ name, name ∈ r.perFunction.keys ↔ ∃ f ∈ facts.index.functions, f.name = name
  last : ∀ name s, r.perFunction.get? name = some s ↔
    ∃ i, facts.index.IsLast name i ∧ s = (facts.reportOf i).summary
  inOrder : Diagnostic.InOrder r.diagnostics
  found : ∀ i < facts.index.functions.size, ∀ d ∈ (facts.reportOf i).summary.diagnostics,
    ∃ e ∈ r.diagnostics, e.sortKey = d.sortKey
  nothing_else : ∀ e ∈ r.diagnostics, ∃ i < facts.index.functions.size,
    e ∈ (facts.reportOf i).summary.diagnostics

namespace Program

variable {p : Program} {config : Config}

theorem complete_report (p : Program) (config : Config) : AnalysisReport.Complete
    (p.facts config) (.ofOutcome (p.facts config) (p.facts config).run) := by
  have hlast (name : String) (s : FunctionSummary) :
      (AnalysisReport.ofOutcome (p.facts config) (p.facts config).run).perFunction.get? name =
        some s ↔ ∃ i, (ProgramIndex.build p).IsLast name i ∧
          s = ((p.facts config).reportOf i).summary := by
    rw [perFunction_run, ProgramIndex.ids, SortedMap.get?_ofList_range]
    constructor
    · rintro ⟨i, hi, hname, hafter, rfl⟩
      exact ⟨i, ⟨hi, hname, hafter⟩, rfl⟩
    · rintro ⟨i, ⟨hi, hname, hafter⟩, rfl⟩
      exact ⟨i, hi, hname, hafter, rfl⟩
  have hmem (d : Diagnostic) :
      d ∈ (p.facts config).run.summaries.flatMap FunctionSummary.diagnostics ↔
        ∃ i < (ProgramIndex.build p).functions.size,
          d ∈ ((p.facts config).reportOf i).summary.diagnostics := by
    rw [summaries_run, List.flatMap_map, List.mem_flatMap]
    simp only [ProgramIndex.ids, List.mem_range]
  refine
    { summaries := p.summaries_run config
      errors := ?_
      names := ?_
      last := hlast
      inOrder := Diagnostic.inOrder_dedup_sort _
      found := ?_
      nothing_else := ?_ }
  · show ((ProgramIndex.build p).functions.mapIdx FlowGraph.ofFunction).toList.filterMap _ = _
    rw [Array.toList_mapIdx, List.mapIdx_eq_zipIdx_map, List.filterMap_map]
    rfl
  · intro name
    rw [SortedMap.mem_keys]
    constructor
    · rintro ⟨s, hs⟩
      obtain ⟨i, ⟨hi, hname, -⟩, -⟩ := (hlast name s).1 hs
      have hf := Array.getElem?_eq_getElem hi
      exact ⟨_, Array.mem_of_getElem? hf, (ProgramIndex.name_of_getElem? hf).symm.trans hname⟩
    · rintro ⟨f, hf, rfl⟩
      obtain ⟨i, hi⟩ := Array.mem_iff_getElem?.1 hf
      have hlt := (Array.getElem?_eq_some_iff.1 hi).1
      apply Option.isSome_iff_exists.1
      rw [perFunction_run]
      apply SortedMap.isSome_get?_foldl_insert
      left
      rw [List.map_map]
      exact List.mem_map.2 ⟨i, List.mem_range.2 hlt, ProgramIndex.name_of_getElem? hi⟩
  · intro i hi d hd
    exact Diagnostic.exists_mem_dropRepeats (Diagnostic.mem_sort.2 ((hmem d).2 ⟨i, hi, hd⟩))
  · intro e he
    have he : e ∈ Diagnostic.dedup (Diagnostic.sort _) := he
    exact (hmem e).1 (Diagnostic.mem_sort.1 (Diagnostic.dropRepeats_subset _ he))

end Program

/-- A configuration is refused for its first fault. With any other, every program is analysed: no
lookup fails, and the report says all that was found. -/
theorem analyze_accepts (p : Program) (config : Config) :
    match config.validate with
    | .error fault =>
        config.faults.head? = some fault ∧ analyze p config false = .error (.config fault)
    | .ok () =>
        config.faults = [] ∧ p.InRange config ∧
          ∃ report, analyze p config false = .ok report ∧ report.Complete (p.facts config) := by
  have hvalidate := config.validate_eq
  cases hfaults : config.faults with
  | nil =>
      rw [hfaults] at hvalidate
      have hrun : analyze p config false =
          .ok (.ofOutcome (p.facts config) (p.facts config).run) := by
        unfold analyze
        rw [hvalidate]
        rfl
      rw [hvalidate]
      exact ⟨rfl, p.inRange config, _, hrun, p.complete_report config⟩
  | cons fault rest =>
      rw [hfaults] at hvalidate
      have hrefused : analyze p config false = .error (.config fault) := by
        unfold analyze
        rw [hvalidate]
        rfl
      rw [hvalidate]
      exact ⟨rfl, hrefused⟩

/-- A program with one identifier for all nodes, a class that is its own base, two functions of one
name and a module that returns. -/
def Program.tangled : Program where
  body :=
    [.classDef 1 1 "A" ["A"] [.functionDef 1 1 "m" ["self"] [.ret 1 (some (.name 1 "self"))]],
      .functionDef 1 1 "f" [] [.brk 1],
      .functionDef 1 1 "f" ["x"] [.ret 1 (some (.call 1 (.attr 1 (.name 1 "x") "m") []))],
      .ret 1 (some (.call 1 (.name 1 "f") [.call 1 (.name 1 "A") []]))]

set_option maxRecDepth 10000 in
example : (analyze .tangled (.ofPreset .standard) false).toOption.map (fun r =>
    (r.errors.map MalformedBody.function, r.perFunction.keys)) =
      some (["<module>", "f"], ["<module>", "A.m", "f"]) := by
  decide +kernel

end ValueFlow
