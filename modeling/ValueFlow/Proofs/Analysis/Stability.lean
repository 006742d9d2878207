import ValueFlow.Proofs.Analysis.Locality
import ValueFlow.Proofs.Analysis.Summaries
import ValueFlow.Proofs.CallGraph.Refinement
import ValueFlow.Proofs.Heap.Merging
/-!
Published summaries are stable: a function that is summarized again from them gives nothing new.

The table of a level is never changed by a later level, because every function lies in one
component only. So a function that is summarized from the final table sees of its callees what it
saw in its own last round.
-/

namespace ValueFlow

/-- Whether callers of one summary are told no less by another. -/
structure FunctionSummary.CoveredBy (s t : FunctionSummary) : Prop where
  returnValue : s.returnValue.leq t.returnValue = true
  effects : s.effects.CoveredBy t.effects

theorem FunctionSummary.CoveredBy.of_interface_eq {s t : FunctionSummary}
    (h : s.interface = t.interface) : s.CoveredBy t := by
  obtain ⟨hreturn, heffects⟩ := Prod.mk.inj h
  refine ⟨hreturn ▸ Value.leq_refl _, ?_⟩
  rw [heffects]
  exact HeapEffects.CoveredBy.refl _

theorem FunctionSummary.interface_eq_of_same {s t : FunctionSummary}
    (h : s.sameInterface t = true) : s.interface = t.interface := by
  obtain ⟨hreturn, heffects⟩ := Bool.and_eq_true_iff.1 h
  exact Prod.ext (of_decide_eq_true hreturn) (of_decide_eq_true heffects)

namespace ProgramFacts

variable (facts : ProgramFacts) {T : SummaryTable} {c : Component} {i j k : Nat}

/-- The summary of a function from the summaries that were published. -/
def summarizeAgain (function : Nat) : FunctionSummary :=
  (facts.summarize facts.bottomUp.table function).1

def tableBelow (level : Nat) : SummaryTable :=
  (((List.range level).map (Component.atLevel facts.components)).foldl facts.summarizeLevel
    ⟨∅, 0, 0⟩).table

theorem table_bottomUp : facts.bottomUp.table = facts.tableBelow (Component.depth facts.components) := by
  rw [bottomUp, Component.levels_eq]
  rfl

theorem tableBelow_succ (k : Nat) : facts.tableBelow (k + 1) = overlay (facts.tableBelow k)
    (((facts.componentsOf (Component.atLevel facts.components k)).map
      (facts.summarizeComponent (facts.tableBelow k))).flatMap Prod.fst) := by
  unfold tableBelow
  rw [List.range_succ, List.map_append, List.foldl_append]
  exact facts.table_summarizeLevel _ _

/-- The summaries of a component after a number of rounds. -/
def afterRounds (T : SummaryTable) (members : List Nat) : Nat → Nat → FunctionSummary
  | 0 => facts.initialSummary
  | n + 1 => facts.nextRound T members (n + 1) (afterRounds T members n)

/-- Whether a round of a component changes nothing that callers see. -/
def IsStableAt (T : SummaryTable) (members : List Nat) (n : Nat) : Prop :=
  ∀ f ∈ members, (facts.afterRounds T members (n + 1) f).sameInterface
    (facts.afterRounds T members n f) = true

/-- Whether the rounds of a component end by stability and not at their limit. What is not
recursive needs no rounds. -/
def Settles (c : Component) : Prop :=
  c.recursive = true → ∃ n < facts.config.maxSccIterations.toNat,
    facts.IsStableAt (facts.tableBelow c.level) c.members n

theorem mem_componentsOf_atLevel : c ∈ facts.componentsOf (Component.atLevel facts.components k) ↔
    c ∈ facts.components ∧ c.level = k := Component.mem_atLevel

/-- Every summary of a table was published with its component. -/
theorem exists_component_of_get? {s : FunctionSummary} (h : (facts.tableBelow k).get? i = some s) :
    ∃ c ∈ facts.components, c.level < k ∧
      (i, s) ∈ (facts.summarizeComponent (facts.tableBelow c.level) c).1 := by
  induction k with
  | zero => cases h
  | succ k ih =>
      rw [tableBelow_succ] at h
      rcases get?_overlay h with h | h
      · obtain ⟨r, hr, hs⟩ := List.mem_flatMap.1 h
        obtain ⟨c, hlevel, rfl⟩ := List.mem_map.1 hr
        obtain ⟨hc, rfl⟩ := facts.mem_componentsOf_atLevel.1 hlevel
        exact ⟨c, hc, Nat.lt_succ_self _, hs⟩
      · obtain ⟨c, hc, hlt, hs⟩ := ih h
        exact ⟨c, hc, Nat.lt_succ_of_lt hlt, hs⟩

theorem isSome_tableBelow (hc : c ∈ facts.components) (hlt : c.level < k)
    (hi : i ∈ ((facts.summarizeComponent (facts.tableBelow c.level) c).1).map Prod.fst) :
    ((facts.tableBelow k).get? i).isSome = true := by
  induction k with
  | zero => cases hlt
  | succ k ih =>
      rw [tableBelow_succ]
      refine isSome_get?_overlay ?_
      rcases Nat.lt_succ_iff_lt_or_eq.1 hlt with hlt | rfl
      · exact .inr (ih hlt)
      · obtain ⟨p, hp, rfl⟩ := List.mem_map.1 hi
        refine .inl (List.mem_map_of_mem (List.mem_flatMap.2 ⟨_, List.mem_map_of_mem ?_, hp⟩))
        exact facts.mem_componentsOf_atLevel.2 ⟨hc, rfl⟩

theorem get?_overlay_map (T : SummaryTable) (members : List Nat) (old : Nat → FunctionSummary)
    (j : Nat) : (overlay T (members.map fun f => (f, old f))).get? j =
      if j ∈ members then some (old j) else T.get? j := by
  induction members generalizing T with
  | nil => rfl
  | cons f rest ih =>
      have hstep : overlay T ((f :: rest).map fun f => (f, old f)) =
          overlay (T.insert f (old f)) (rest.map fun f => (f, old f)) := rfl
      rw [hstep, ih, SortedMap.get?_insert]
      by_cases hrest : j ∈ rest
      · rw [if_pos hrest, if_pos (List.mem_cons_of_mem _ hrest)]
      · rw [if_neg hrest]
        by_cases hf : j = f
        · rw [if_pos hf, hf, if_pos List.mem_cons_self]
        · rw [if_neg hf, if_neg]
          rintro hj
          exact (List.mem_cons.1 hj).elim hf hrest

/-- How the rounds of a component can end: a round changed nothing, or none of them did. -/
theorem stabilize_cases (members : List Nat) (fuel round visits : Nat) :
    ∃ new : Nat → FunctionSummary,
      (facts.stabilize T members fuel round
        (members.map fun f => (f, facts.afterRounds T members round f)) visits).1 =
        members.map (fun f => (f, new f)) ∧
      (((∀ n, round ≤ n → n < round + fuel → ¬ facts.IsStableAt T members n) ∧
          ∀ f, ∃ s, new f = facts.degrade f recursionReason s) ∨
        ∃ n, facts.IsStableAt T members n ∧ new = facts.afterRounds T members (n + 1)) := by
  induction fuel generalizing round visits with
  | zero =>
      refine ⟨fun f => facts.degrade f recursionReason (facts.afterRounds T members round f), ?_,
        .inl ⟨fun n hle hlt => absurd hlt (Nat.not_lt_of_le hle), fun _ => ⟨_, rfl⟩⟩⟩
      rw [stabilize, List.map_map]
      rfl
  | succ fuel ih =>
      obtain ⟨visits', hstep⟩ := facts.exists_stabilize_succ T members fuel round visits
        (facts.afterRounds T members round)
      rw [hstep]
      split
      · next hstable =>
          exact ⟨_, rfl, .inr ⟨round, List.all_eq_true.1 hstable, rfl⟩⟩
      · next hchanged =>
          obtain ⟨new, hnew, hend⟩ := ih (round + 1) visits'
          refine ⟨new, hnew, hend.imp_left fun hend => ⟨fun n hle hlt => ?_, hend.2⟩⟩
          rcases Nat.eq_or_lt_of_le hle with rfl | hlt'
          · exact fun hstable => hchanged (List.all_eq_true.2 hstable)
          · exact hend.1 n hlt' (by omega)

/-- What a component publishes, besides how many rounds it took. -/
inductive Publishes (T : SummaryTable) (c : Component) (new : Nat → FunctionSummary) : Prop
  | once (hrecursive : c.recursive = false)
      (hnew : ∀ f, ∃ rounds, new f = { (facts.summarize T f).1 with rounds })
  | stable (hrecursive : c.recursive = true) (n : Nat) (hstable : facts.IsStableAt T c.members n)
      (hnew : ∀ f, ∃ rounds, new f = { facts.afterRounds T c.members (n + 1) f with rounds })
  | givenUp (hrecursive : c.recursive = true)
      (hnever : ∀ n < facts.config.maxSccIterations.toNat, ¬ facts.IsStableAt T c.members n)
      (hnew : ∀ f, ∃ s rounds, new f = { facts.degrade f recursionReason s with rounds })

theorem publishes_summarizeComponent (T : SummaryTable) (c : Component) :
    ∃ new : Nat → FunctionSummary,
      (facts.summarizeComponent T c).1 = c.members.map (fun f => (f, new f)) ∧
        facts.Publishes T c new := by
  unfold summarizeComponent
  cases hrecursive : c.recursive with
  | false =>
      refine ⟨fun f => { (facts.summarize T f).1 with rounds := 1 }, ?_, .once hrecursive ?_⟩
      · exact (List.map_map).trans (List.map_map)
      · exact fun f => ⟨1, rfl⟩
  | true =>
      obtain ⟨new, heq, hend⟩ := facts.stabilize_cases (T := T) c.members
        facts.config.maxSccIterations.toNat 0 0
      have heq : (facts.stabilize T c.members facts.config.maxSccIterations.toNat 0
          (c.members.map fun f => (f, facts.initialSummary f)) 0).1 =
            c.members.map fun f => (f, new f) := heq
      rw [if_pos rfl]
      dsimp only
      rw [heq, List.map_map]
      refine ⟨_, rfl, ?_⟩
      rcases hend with ⟨hnever, hgiven⟩ | ⟨n, hstable, rfl⟩
      · refine .givenUp hrecursive (fun n hn => hnever n (Nat.zero_le n) ?_) fun f => ?_
        · rwa [Nat.zero_add]
        · obtain ⟨s, hs⟩ := hgiven f
          exact ⟨s, _, by rw [← hs]⟩
      · exact .stable hrecursive n hstable fun f => ⟨_, rfl⟩

/-- What has no flow graph is given up. -/
theorem degraded_of_publishes {new : Nat → FunctionSummary} (h : facts.Publishes T c new)
    (hg : facts.graph? i = none) : (new i).degraded = true := by
  have hsummarize (T : SummaryTable) : (facts.summarize T i).1.degraded = true := by
    rw [summarize, hg]
    rfl
  cases h with
  | once _ hnew =>
      obtain ⟨rounds, hnew⟩ := hnew i
      rw [hnew]
      exact hsummarize T
  | stable _ n _ hnew =>
      obtain ⟨rounds, hnew⟩ := hnew i
      rw [hnew]
      show (facts.nextRound T c.members (n + 1) (facts.afterRounds T c.members n) i).degraded = true
      rw [nextRound]
      split <;> exact hsummarize _
  | givenUp _ _ hnew =>
      obtain ⟨s, rounds, hnew⟩ := hnew i
      rw [hnew]
      rfl

theorem distinct_summarize (T : SummaryTable) (i : Nat) :
    (facts.summarize T i).1.effects.Distinct := by
  unfold summarize
  cases facts.graph? i with
  | none => exact HeapEffects.distinct_unknown _
  | some g =>
      dsimp only
      split
      · exact HeapEffects.distinct_ofExit _
      · exact HeapEffects.distinct_unknown _

/-- What a round finds is covered by what it keeps. -/
theorem coveredBy_nextRound (T : SummaryTable) (members : List Nat) (round : Nat)
    (old : Nat → FunctionSummary) (i : Nat) :
    (facts.summarize (overlay T (members.map fun f => (f, old f))) i).1.CoveredBy
      (facts.nextRound T members round old i) := by
  unfold nextRound
  dsimp only
  split
  · exact ⟨Value.leq_widen_right _ _,
      HeapEffects.coveredBy_widen _ (facts.distinct_summarize _ i) round⟩
  · exact .of_interface_eq rfl

end ProgramFacts

namespace Program

variable {p : Program} {config : Config} {c : Component} {S T : SummaryTable} {i j : Nat}

theorem Numbered.nodeIds_nodup (h : p.Numbered) : (ProgramIndex.build p).nodeIds.Nodup := by
  rw [ProgramIndex.nodeIds, h.flatMap_idsOf]
  exact h.ids

theorem size_calls_facts (p : Program) (config : Config) :
    (p.facts config).calls.functions.size = (ProgramIndex.build p).functions.size :=
  (congrArg Array.size (CallGraph.functions_refine ..)).trans (CallGraph.size_build _ _)

theorem closed_facts (p : Program) (config : Config) : (p.facts config).calls.Closed :=
  ProgramFacts.closed_calls _ _

theorem component_unique {c' : Component} (hc : c ∈ (p.facts config).components)
    (hc' : c' ∈ (p.facts config).components) (hi : i ∈ c.members) (hi' : i ∈ c'.members) :
    c = c' := by
  rw [ProgramFacts.components_ofIndex] at hc hc'
  exact CallGraph.component_unique (p.closed_facts config) hc hc' hi hi'

/-- What a component publishes stays in the tables of all higher levels. -/
theorem get?_tableBelow {new : Nat → FunctionSummary} {k : Nat}
    (hc : c ∈ (p.facts config).components) (hi : i ∈ c.members) (hlt : c.level < k)
    (hnew : ((p.facts config).summarizeComponent ((p.facts config).tableBelow c.level) c).1 =
      c.members.map fun f => (f, new f)) :
    ((p.facts config).tableBelow k).get? i = some (new i) := by
  have hsome := (p.facts config).isSome_tableBelow (k := k) (i := i) hc hlt (by
    rw [hnew, List.map_map]
    exact List.mem_map.2 ⟨i, hi, rfl⟩)
  obtain ⟨s, hs⟩ := Option.isSome_iff_exists.1 hsome
  obtain ⟨c', hc', -, hmem⟩ := (p.facts config).exists_component_of_get? hs
  obtain ⟨new', hnew', -⟩ := (p.facts config).publishes_summarizeComponent
    ((p.facts config).tableBelow c'.level) c'
  rw [hnew'] at hmem
  obtain ⟨f, hf, he⟩ := List.mem_map.1 hmem
  cases he
  cases component_unique hc hc' hi hf
  have hi' := hnew'.symm.trans hnew
  rw [hs, List.map_inj_left.1 hi' i hi |> Prod.mk.inj |>.2]

/-- A function of a lower component looks the same from every higher level. -/
theorem get?_tableBelow_eq {lower : Component} {k k' : Nat}
    (hl : lower ∈ (p.facts config).components) (hj : j ∈ lower.members) (hk : lower.level < k)
    (hk' : lower.level < k') :
    ((p.facts config).tableBelow k).get? j = ((p.facts config).tableBelow k').get? j := by
  obtain ⟨new, hnew, -⟩ := (p.facts config).publishes_summarizeComponent
    ((p.facts config).tableBelow lower.level) lower
  rw [get?_tableBelow hl hj hk hnew, get?_tableBelow hl hj hk' hnew]

/-- What a call in an item of a flow graph may run are functions that its function calls. -/
theorem mem_successors_of_item (hids : (ProgramIndex.build p).nodeIds.Nodup) {g : FlowGraph}
    (hg : (p.facts config).graph? i = some g) {b : Nat} {item : BlockItem}
    (hitem : item ∈ (g.block b).items) {e func : Expr} {node : Nat} {args : List Expr}
    {site : CallSite} (he : e ∈ item.exprs) (hcall : .call node func args ∈ e.walk)
    (hsite : (p.facts config).calls.site? node = some site) (hj : j ∈ site.targets.toList) :
    j ∈ (p.facts config).calls.successors i := by
  obtain ⟨f, hf, hbuild⟩ := graph?_eq_some hg
  refine FlowGraph.only_of_build (P := fun item => ∀ e ∈ item.exprs,
    .call node func args ∈ e.walk → j ∈ (p.facts config).calls.successors i) hbuild
    (fun s hs _ item hitem e he hcall => ?_) b item hitem e he hcall
  have hown := Expr.walk_subset_walkAll (Stmt.exprs_subset_ownExprs hitem he) hcall
  exact ProgramFacts.mem_successors_of_call hids hf (mem_walkExprs.2 ⟨hs, hown⟩) hsite hj

theorem agreesItem_of_same (hids : (ProgramIndex.build p).nodeIds.Nodup) {g : FlowGraph}
    (hg : (p.facts config).graph? i = some g)
    (hsame : ∀ j ∈ (p.facts config).calls.successors i, S.SameFor T j) (b : Nat) :
    ∀ item ∈ (g.block b).items, ((p.facts config).scope S i g).AgreesItem T item :=
  fun _ hitem _ he _ _ _ _ _ hcall hsite ht =>
    hsame _ (mem_successors_of_item hids hg hitem he hcall hsite ht)

theorem summarize_eq (hids : (ProgramIndex.build p).nodeIds.Nodup)
    (hsame : ∀ j ∈ (p.facts config).calls.successors i, S.SameFor T j) :
    (p.facts config).summarize T i = (p.facts config).summarize S i :=
  (p.facts config).summarize_congr fun hg b => agreesItem_of_same hids hg hsame b

/-- A function sees of its callees in the final table what it saw when its component was
published: lower components are there before it, and its own settled before it ended. -/
theorem sameFor_published (hc : c ∈ (p.facts config).components) (hi : i ∈ c.members)
    {new : Nat → FunctionSummary}
    (hnew : ((p.facts config).summarizeComponent ((p.facts config).tableBelow c.level) c).1 =
      c.members.map fun f => (f, new f)) (last : Nat → FunctionSummary)
    (hlast : c.recursive = true → ∀ f ∈ c.members, (new f).interface = (last f).interface)
    (hj : j ∈ (p.facts config).calls.successors i) :
    SummaryTable.SameFor (ProgramFacts.overlay ((p.facts config).tableBelow c.level)
      (if c.recursive then c.members.map fun f => (f, last f) else []))
      (p.facts config).bottomUp.table j := by
  have hdepth := Component.level_lt_depth hc
  rw [(p.facts config).table_bottomUp]
  have hcalls := hc
  rw [ProgramFacts.components_ofIndex] at hcalls
  unfold SummaryTable.SameFor
  rcases CallGraph.exists_lower (p.closed_facts config) hcalls hi hj with
    ⟨hjc, hrecursive⟩ | ⟨lower, hl, hjl, hlt⟩
  · rw [hrecursive, if_pos rfl, ProgramFacts.get?_overlay_map, if_pos hjc,
      get?_tableBelow hc hjc hdepth hnew, Option.map_some, Option.map_some, hlast hrecursive j hjc]
  · rw [← ProgramFacts.components_ofIndex] at hl
    have hjc : j ∉ c.members := by
      intro hjc
      cases component_unique hc hl hjc hjl
      exact Nat.lt_irrefl _ hlt
    have hlower : (ProgramFacts.overlay ((p.facts config).tableBelow c.level)
        (if c.recursive then c.members.map fun f => (f, last f) else [])).get? j =
          ((p.facts config).tableBelow c.level).get? j := by
      split
      · rw [ProgramFacts.get?_overlay_map, if_neg hjc]
      · rfl
    rw [hlower, get?_tableBelow_eq hl hjl hlt (Component.level_lt_depth hl)]

/-- What is published about a function covers what it is summarized to again from all summaries,
unless its component was given up, and then it may return any value. What has no flow graph is given
up. -/
theorem exists_published (hids : (ProgramIndex.build p).nodeIds.Nodup)
    (hc : c ∈ (p.facts config).components) (hi : i ∈ c.members) :
    ∃ s, (p.facts config).bottomUp.table.get? i = some s ∧
      (((p.facts config).summarizeAgain i).CoveredBy s ∨
        ¬ (p.facts config).Settles c ∧ s.returnValue = .top) ∧
      (c.recursive = false → ((p.facts config).summarizeAgain i).interface = s.interface) ∧
      ((p.facts config).graph? i = none → s.degraded = true) := by
  have hdepth := Component.level_lt_depth hc
  obtain ⟨new, hnew, hpublishes⟩ := (p.facts config).publishes_summarizeComponent
    ((p.facts config).tableBelow c.level) c
  refine ⟨new i, (p.facts config).table_bottomUp ▸ get?_tableBelow hc hi hdepth hnew, ?_⟩
  have hungraphed := (p.facts config).degraded_of_publishes (i := i) hpublishes
  cases hpublishes with
  | once hrecursive hround =>
      have hsame : ∀ j ∈ (p.facts config).calls.successors i,
          SummaryTable.SameFor ((p.facts config).tableBelow c.level)
            (p.facts config).bottomUp.table j := by
        intro j hj
        have hsame := sameFor_published hc hi hnew new
          (fun hr => absurd (hrecursive.symm.trans hr) Bool.false_ne_true) hj
        rwa [hrecursive, if_neg Bool.false_ne_true] at hsame
      have heq : ((p.facts config).summarizeAgain i).interface = (new i).interface := by
        obtain ⟨rounds, hround⟩ := hround i
        rw [hround, ProgramFacts.summarizeAgain, summarize_eq hids hsame]
        rfl
      exact ⟨.inl (.of_interface_eq heq), fun _ => heq, hungraphed⟩
  | stable hrecursive n hstable hround =>
      have hinterface (f : Nat) : (new f).interface = ((p.facts config).afterRounds
          ((p.facts config).tableBelow c.level) c.members (n + 1) f).interface := by
        obtain ⟨rounds, hround⟩ := hround f
        rw [hround]
        rfl
      have hsame : ∀ j ∈ (p.facts config).calls.successors i, SummaryTable.SameFor
          (ProgramFacts.overlay ((p.facts config).tableBelow c.level) (c.members.map fun f =>
            (f, (p.facts config).afterRounds ((p.facts config).tableBelow c.level) c.members n f)))
          (p.facts config).bottomUp.table j := by
        intro j hj
        have hsame := sameFor_published hc hi hnew _ (fun _ f hf =>
          (hinterface f).trans (FunctionSummary.interface_eq_of_same (hstable f hf))) hj
        rwa [hrecursive, if_pos rfl] at hsame
      refine ⟨.inl ?_, fun hr => absurd (hr.symm.trans hrecursive) Bool.false_ne_true, hungraphed⟩
      have hcovered := (p.facts config).coveredBy_nextRound
        ((p.facts config).tableBelow c.level) c.members (n + 1)
        ((p.facts config).afterRounds ((p.facts config).tableBelow c.level) c.members n) i
      obtain ⟨hreturn, heffects⟩ := Prod.mk.inj (hinterface i)
      rw [ProgramFacts.summarizeAgain, summarize_eq hids hsame]
      exact ⟨hreturn ▸ hcovered.returnValue, heffects ▸ hcovered.effects⟩
  | givenUp hrecursive hnever hgiven =>
      obtain ⟨s, rounds, hgiven⟩ := hgiven i
      refine ⟨.inr ⟨fun hsettles => ?_, by rw [hgiven]; rfl⟩,
        fun hr => absurd (hr.symm.trans hrecursive) Bool.false_ne_true, hungraphed⟩
      obtain ⟨n, hn, hstable⟩ := hsettles hrecursive
      exact absurd hstable (hnever n hn)

/-- Published summaries are stable: summarizing a function again from all of them gives a summary
that the published one covers, unless its component was given up, and just the published one if the
component is not recursive. -/
theorem summarize_coveredBy_published (p : Program) (config : Config)
    (hids : (ProgramIndex.build p).nodeIds.Nodup) {c : Component}
    (hc : c ∈ (p.facts config).components) {i : Nat} (hi : i ∈ c.members) :
    ∃ s, (p.facts config).bottomUp.table.get? i = some s ∧
      ((p.facts config).Settles c → ((p.facts config).summarizeAgain i).CoveredBy s) ∧
      (c.recursive = false →
        ((p.facts config).summarizeAgain i).returnValue = s.returnValue ∧
        ((p.facts config).summarizeAgain i).effects = s.effects) := by
  obtain ⟨s, hs, hcovered, honce, -⟩ := exists_published hids hc hi
  exact ⟨s, hs, fun hsettles => hcovered.resolve_right fun hgiven => hgiven.1 hsettles,
    fun hrecursive => Prod.mk.inj (honce hrecursive)⟩

section Depths

variable {R : Nat → Nat → Value → Prop}

/-- What published summaries say about return values is right to every depth of calls, if what
functions are summarized to is right one level deeper than what they are summarized from. -/
theorem right_returnOf (hids : (ProgramIndex.build p).nodeIds.Nodup)
    (hzero : ∀ i v, R 0 i v) (htop : ∀ n i, R n i .top)
    (hmono : ∀ {n i v w}, R n i v → v.leq w = true → R n i w)
    (hstep : ∀ n, (∀ j < (p.facts config).calls.functions.size,
        R n j ((p.facts config).returnOf (p.facts config).bottomUp.table j)) →
      ∀ i, R (n + 1) i ((p.facts config).summarizeAgain i).returnValue)
    (n : Nat) (hi : i < (p.facts config).calls.functions.size) :
    R n i ((p.facts config).returnOf (p.facts config).bottomUp.table i) := by
  induction n generalizing i with
  | zero => exact hzero i _
  | succ n ih =>
      obtain ⟨c, hc, hic⟩ := CallGraph.exists_component (p.closed_facts config) hi
      rw [← ProgramFacts.components_ofIndex] at hc
      obtain ⟨s, hs, hcovered, -⟩ := exists_published hids hc hic
      rw [ProgramFacts.returnOf, hs]
      split
      · exact htop (n + 1) i
      · rcases hcovered with hcovered | ⟨-, hreturn⟩
        · exact hmono (hstep n (fun j hj => ih hj) i) hcovered.returnValue
        · show R (n + 1) i s.returnValue
          rw [hreturn]
          exact htop (n + 1) i

end Depths

/-- A program that counts down by calling itself. -/
def countdown : Program where
  body :=
    [.functionDef 1 2 "down" ["n"]
        [.ifElse 3 (.compare 4 .ltE (.name 5 "n") (.literal 6 (.int 0)))
          [.ret 7 (some (.literal 8 (.int 0)))]
          [.ret 9 (some (.call 10 (.name 11 "down")
            [.binOp 12 .sub (.name 13 "n") (.literal 14 (.int 1))]))]],
      .assign 15 (.name 16 "x") (.call 17 (.name 18 "down") [.literal 19 (.int 3)])]

set_option maxRecDepth 10000 in
theorem summarize_coveredBy_published_countdown :
    ∃ c ∈ (countdown.facts (.ofPreset .standard)).components, c.recursive = true ∧ 1 ∈ c.members ∧
      (countdown.facts (.ofPreset .standard)).Settles c ∧
      ∃ s, (countdown.facts (.ofPreset .standard)).bottomUp.table.get? 1 = some s ∧
        ((countdown.facts (.ofPreset .standard)).summarizeAgain 1).CoveredBy s := by
  have hids : (ProgramIndex.build countdown).nodeIds.Nodup := by decide
  have hc : (⟨[1], true, 0⟩ : Component) ∈ (countdown.facts (.ofPreset .standard)).components := by
    decide +kernel
  have hstable : ∀ f ∈ [1], ((countdown.facts (.ofPreset .standard)).afterRounds ∅ [1] 3
      f).sameInterface ((countdown.facts (.ofPreset .standard)).afterRounds ∅ [1] 2 f) = true := by
    decide +kernel
  have hsettles : (countdown.facts (.ofPreset .standard)).Settles ⟨[1], true, 0⟩ :=
    fun _ => ⟨2, by decide, hstable⟩
  obtain ⟨s, hs, hcovered, -⟩ := summarize_coveredBy_published countdown (.ofPreset .standard) hids
    hc List.mem_cons_self
  exact ⟨_, hc, rfl, List.mem_cons_self, hsettles, s, hs, hcovered hsettles⟩

end Program

end ValueFlow
