import ValueFlow.Proofs.Analysis.Reporting
import ValueFlow.Proofs.Objects.Summaries
/-!
What functions are reported from covers all calls of them.

The seed of a function is the join of what its callers pass to it, or nothing is known at its start.
So where a run calls a function, the state from which the function was reported covers the start of
its body, and all that is found about accesses there agrees with the run. Main statement:
`accesses_run`.
-/

namespace ValueFlow

namespace CallInput

variable {label : Nat → Nat} {c d s : CallInput} {ds : List Datum} {σ : World} {l : List CallInput}

/-- Whether an input covers the arguments and the objects of a call. -/
structure Covers (label : Nat → Nat) (c : CallInput) (ds : List Datum) (σ : World) : Prop where
  args : List.Forall₂ Value.Covers c.args ds
  shows : c.heap.Shows label σ

theorem covers_zipWith_join_left {vs ws : List Value} (h : List.Forall₂ Value.Covers vs ds)
    (hlength : vs.length = ws.length) :
    List.Forall₂ Value.Covers (List.zipWith Value.join vs ws) ds := by
  induction h generalizing ws with
  | nil => exact .nil
  | cons hv _ ih =>
      cases ws with
      | nil => cases hlength
      | cons w ws => exact .cons (hv.join_left w) (ih (Nat.succ.inj hlength))

theorem covers_zipWith_join_right {vs ws : List Value} (h : List.Forall₂ Value.Covers ws ds)
    (hlength : vs.length = ws.length) :
    List.Forall₂ Value.Covers (List.zipWith Value.join vs ws) ds := by
  induction h generalizing vs with
  | nil =>
      rw [List.zipWith_nil_right]
      exact .nil
  | cons hw _ ih =>
      cases vs with
      | nil => cases hlength
      | cons v vs => exact .cons (hw.join_right v) (ih (Nat.succ.inj hlength))

theorem Covers.join_left (h : c.Covers label ds σ) (hlength : c.args.length = d.args.length)
    (hd : d.heap.reachable = true) : (c.join d).Covers label ds σ :=
  ⟨covers_zipWith_join_left h.args hlength, h.shows.mergeBy_left hd HeapValue.leq_join_left⟩

theorem Covers.join_right (h : d.Covers label ds σ) (hlength : c.args.length = d.args.length)
    (hc : c.heap.reachable = true) : (c.join d).Covers label ds σ :=
  ⟨covers_zipWith_join_right h.args hlength, h.shows.mergeBy_right hc HeapValue.leq_join_right⟩

/-- The join of inputs for one function covers whatever one of them does. -/
theorem covers_joinAll {n : Nat} (hlength : ∀ c ∈ l, c.args.length = n)
    (hreach : ∀ c ∈ l, c.heap.reachable = true) (hs : joinAll l = some s) :
    s.heap.reachable = true ∧ ∀ c ∈ l, c.Covers label ds σ → s.Covers label ds σ := by
  induction l using List.reverseRecOn generalizing s with
  | nil => cases hs
  | append_singleton l c ih =>
      have hc := hreach c (List.mem_append_right _ List.mem_cons_self)
      rw [joinAll_concat] at hs
      cases hjoin : joinAll l with
      | none =>
          rw [hjoin] at hs
          cases hs
          rw [joinAll_eq_none_iff.1 hjoin]
          exact ⟨hc, fun d hd h => List.mem_singleton.1 hd ▸ h⟩
      | some t =>
          rw [hjoin] at hs
          cases hs
          have hlength' : ∀ d ∈ l, d.args.length = n := fun d hd =>
            hlength d (List.mem_append_left _ hd)
          obtain ⟨ht, hcovers⟩ :=
            ih hlength' (fun d hd => hreach d (List.mem_append_left _ hd)) hjoin
          have hargs : t.args.length = c.args.length :=
            (argsBelow_of_joinAll hlength' hjoin).1.trans
              (hlength c (List.mem_append_right _ List.mem_cons_self)).symm
          refine ⟨Heap.reachable_mergeBy _ ht hc, fun d hd h => ?_⟩
          rcases List.mem_append.1 hd with hd | hd
          · exact (hcovers d hd h).join_left hargs hc
          · rw [List.mem_singleton.1 hd] at h
            exact h.join_right hargs ht

end CallInput

namespace FunctionScope

variable {scope : FunctionScope} {label : Nat → Nat} {ds : List Datum} {σ : World}

/-- What a call with the right number of arguments passes on covers them. -/
theorem covers_inputFor {j : Nat} {vs : List Value} {heap : Heap}
    (hvs : List.Forall₂ Value.Covers vs ds) (hheap : heap.Shows label σ)
    (hlength : ds.length = (scope.facts.index.params j).length) :
    (scope.inputFor j vs heap).Covers label ds σ where
  args := by
    have hargs : (List.range vs.length).map (fun k => vs.getD k .top) = vs :=
      List.ext_getElem (by simp) fun k hk hk' => by simp [hk']
    rw [inputFor, ← hlength, ← hvs.length_eq, hargs]
    exact hvs
  shows := ⟨hheap.reachable, hheap.field⟩

/-- What the items of a block pass on, each from the state before it, is passed on by the block. -/
theorem mem_passedThrough {items : List BlockItem} {k : Nat} {i : BlockItem} {s : ProgramState}
    {q : Nat × CallInput} (hi : items[k]? = some i)
    (hq : q ∈ scope.passedBy i (Fixpoint.runItems scope.transfer (items.take k) s)) :
    q ∈ scope.passedThrough items s := by
  induction items generalizing k s with
  | nil => cases hi
  | cons item rest ih =>
      cases k with
      | zero =>
          cases hi
          rw [runItems_zero] at hq
          exact List.mem_append_left _ hq
      | succ k =>
          refine List.mem_append_right _ (ih (k := k) hi ?_)
          rw [runItems_eq] at hq ⊢
          exact hq

theorem mem_passedIn {g : FlowGraph} {sol : Fixpoint.Solution ProgramState} {b k : Nat}
    {i : BlockItem} {q : Nat × CallInput} (hi : (g.block b).items[k]? = some i)
    (hq : q ∈ scope.passedBy i
      (Fixpoint.runItems scope.transfer ((g.block b).items.take k) (sol.entryOf b))) :
    q ∈ scope.passedIn g sol := by
  refine List.mem_flatMap.2 ⟨b, List.mem_range.2 (FlowGraph.lt_size_of_getElem? hi), ?_⟩
  cases hentry : (sol.entryOf b).isReachable with
  | true =>
      rw [if_pos (show sol.isReachable b = true from (Bool.not_not _).trans hentry)]
      exact mem_passedThrough hi hq
  | false =>
      -- no item of a block that no state reaches passes anything on
      have hbottom : AbstractDomain.isBottom (sol.entryOf b) = true := congrArg Bool.not hentry
      rw [Fixpoint.runItems, if_pos hbottom, passedBy, hentry, if_neg Bool.false_ne_true] at hq
      cases hq

end FunctionScope

namespace ProgramFacts

variable {facts : ProgramFacts} {label : Nat → Nat} {ds : List Datum} {σ : World}

theorem mem_passedFrom {f : Nat} {g : FlowGraph} {b k : Nat} {i : BlockItem} {q : Nat × CallInput}
    (hg : facts.graph? f = some g) (hi : (g.block b).items[k]? = some i)
    (hq : q ∈ (facts.scope facts.bottomUp.table f g).passedBy i
      (Fixpoint.runItems (facts.scope facts.bottomUp.table f g).transfer
        ((g.block b).items.take k)
        ((facts.solve facts.bottomUp.table f g (facts.seedOf f)).entryOf b))) :
    q ∈ facts.passedFrom f := by
  rw [passedFrom, hg]
  exact FunctionScope.mem_passedIn hi hq

/-- Whatever calls pass on is canonical. -/
theorem Ordered.passesCanonical (h : facts.Ordered) (j : Nat) : facts.PassesCanonical j := by
  intro q hq
  obtain ⟨c, hc, hj⟩ := h.placed j (h.caller j q hq).1
  refine (get?_inputs h.separated (Nat.zero_le _)).1 j ?_ q hq
  exact (facts.mem_functionsFrom (Nat.zero_le _)).2 ⟨c, hc, hj, Nat.zero_le _⟩

/-- The seed of a function covers what a call of it passes on. -/
theorem Ordered.covers_seedOf (h : facts.Ordered) {c : Component} {f j : Nat} {r : CallInput}
    (hc : c ∈ facts.components) (hf : f ∈ c.members) (hr : r ∈ facts.recordedFor f j)
    (hcovers : r.Covers label ds σ) : ∀ s ∈ facts.seedOf f, s.Covers label ds σ := by
  intro s hs
  cases hrecursive : c.recursive with
  | true =>
      rw [seedOf_eq h.separated hc hf, hrecursive, if_pos rfl] at hs
      cases hs
  | false =>
      rw [h.seedOf_eq_joinAll hc hrecursive hf (List.Perm.refl _)] at hs
      refine (CallInput.covers_joinAll (n := (facts.index.params f).length) ?_ ?_ hs).2 r
        (List.mem_flatMap.2 ⟨j, h.mem_callersOf hr, hr⟩) hcovers
      · intro q hq
        obtain ⟨i, -, hq⟩ := List.mem_flatMap.1 hq
        obtain ⟨-, -, args, heap, rfl⟩ := h.caller_of_mem hq
        rw [List.length_map, List.length_range]
      · intro q hq
        obtain ⟨i, -, hq⟩ := List.mem_flatMap.1 hq
        exact (canonical_recordedFor (h.passesCanonical i) q hq).reachable

theorem covers_parameters {domains : DomainSet} {params : List String} {vs : List Value}
    (hbound : ∀ q ∈ params.zip vs, ∀ d, σ.datum? q.1 = some d → q.2.Covers d) :
    ((params.zip vs).foldl (fun env q => if q.2.isBottom then env else env.set q.1 q.2 domains)
      Environment.top).Covers domains σ := by
  refine List.foldlRecOn (motive := fun env => Environment.Covers domains env σ) _ _
    (Environment.covers_top domains σ) fun env henv q hq => ?_
  split
  · exact henv
  · next hv => exact henv.write (Bool.eq_false_iff.2 hv) (hbound q hq _) fun _ => rfl

end ProgramFacts

/-- A parameter is bound to its argument. -/
theorem FunctionDef.entryVars_getElem {f : FunctionDef} {globals : String → Option Named}
    {ds : List Datum} {k : Nat} (hnodup : f.params.Nodup) (hk : k < f.params.length)
    (hk' : k < ds.length) : f.entryVars globals ds f.params[k] = some (.datum ds[k]) := by
  have hmem : f.params[k] ∈ f.params := List.getElem_mem hk
  rw [entryVars, if_pos hmem, hnodup.idxOf_getElem k hk, List.getElem?_eq_getElem hk']
  rfl

namespace CallInput

/-- Whether seeds cover every call with which an input is passed on. -/
def CoveredBy (seeds : Nat → Option CallInput) (q : Nat × CallInput) : Prop :=
  ∀ {label ds σ}, q.2.Covers label ds σ → ∀ s ∈ seeds q.1, s.Covers label ds σ

end CallInput

namespace Program

variable {p : Program} {config : Config}

/-- Whether something is found in the solution for a function. -/
def Found (p : Program) (config : Config) (T : SummaryTable) (seeds : Nat → Option CallInput)
    (d : Diagnostic) : Prop :=
  ∃ i g, (p.facts config).graph? i = some g ∧
    d ∈ (((p.facts config).scope T i g).replay g ((p.facts config).solve T i g (seeds i))).findings

/-- Whether an access is as all findings about it say. -/
def BearsOut (p : Program) (config : Config) (T : SummaryTable) (seeds : Nat → Option CallInput)
    (q : Nat × Datum) : Prop :=
  ∀ d, p.Found config T seeds d → d.kind = .definiteNullDeref → d.location = q.1 → q.2 = .null

/-- What is needed of summaries and seeds, so that all findings about accesses are right: calls are
covered by them, and the solutions for all functions converge. -/
structure SeedsCover (p : Program) (config : Config) (T : SummaryTable)
    (seeds : Nat → Option CallInput) : Prop where
  summaries : ∀ n, p.SummariesCover config n T
  solved : ∀ {i}, i < (ProgramIndex.build p).functions.size → ∃ g,
    (p.facts config).graph? i = some g ∧ ((p.facts config).solve T i g (seeds i)).converged = true
  seedOfModule : seeds moduleId = none
  passed : ∀ {i g b k item}, (p.facts config).graph? i = some g →
    (g.block b).items[k]? = some item → ∀ q ∈ ((p.facts config).scope T i g).passedBy item
      (Fixpoint.runItems ((p.facts config).scope T i g).transfer ((g.block b).items.take k)
        (((p.facts config).solve T i g (seeds i)).entryOf b)), CallInput.CoveredBy seeds q

theorem SeedsCover.hasGraphs {T : SummaryTable} {seeds : Nat → Option CallInput}
    (h : p.SeedsCover config T seeds) : p.HasGraphs config := by
  intro i f hf
  obtain ⟨g, hg, -⟩ := h.solved (Array.getElem?_eq_some_iff.1 hf).1
  exact ⟨g, hg⟩

theorem Runs.params_eq {node j : Nat} {name : String} {f : FunctionDef}
    (h : p.Runs node name j f) : (p.facts config).index.params j = f.params :=
  congrArg (fun o => (o.map FunctionInfo.params).getD []) h.number

namespace IsObjectual

variable (h : p.IsObjectual) (hread : p.FunctionsOnlyRead) {T : SummaryTable}
  {seeds : Nat → Option CallInput} {a : Activation} {n node j : Nat} {name : String}
  {f : FunctionDef} {places : List Place} {result : Place} {ds : List Datum} {σ : World}
include h

/-- The state from which a function is reported covers the start of its body. -/
theorem covers_entryState (hcall : (p.references config).Calls p a node name j f places result ds σ)
    {label : Nat → Nat} (hseed : ∀ s ∈ seeds j, s.Covers label ds σ) :
    ((p.facts config).entryState j (seeds j)).Covers (p.facts config).domains label
      (j = moduleId) { σ with vars := f.entryVars (a.moduleNames σ) ds } := by
  have hne := h.ne_module_of_runs hcall.runs
  cases hs : seeds j with
  | none => exact ProgramState.covers_top _ _ hne _
  | some s =>
      have hcovers := hseed s hs
      have hentry : (⟨((p.facts config).index.params j |>.zip s.args).foldl (fun env q =>
          if q.2.isBottom then env else env.set q.1 q.2 (p.facts config).domains) Environment.top,
          s.heap.entryView⟩ : ProgramState).Covers (p.facts config).domains label (j = moduleId)
            { σ with vars := f.entryVars (a.moduleNames σ) ds } := by
        refine ⟨ProgramFacts.covers_parameters fun q hq d hd => ?_,
          ⟨hcovers.shows.reachable, hcovers.shows.field⟩, fun hmodule => absurd hmodule hne⟩
        rw [hcall.runs.params_eq] at hq
        obtain ⟨k, hk, rfl⟩ := List.mem_iff_getElem.1 hq
        rw [List.length_zip, lt_min_iff] at hk
        rw [List.getElem_zip] at hd ⊢
        have hnodup := h.params f (function?_eq_some hcall.runs.function).1
        have hk' : k < ds.length := hcovers.args.length_eq ▸ hk.2
        simp only [World.datum?, FunctionDef.entryVars_getElem hnodup hk.1 hk'] at hd
        cases hd
        exact hcovers.args.get hk.2 hk'
      rw [ProgramFacts.entryState, ProgramState.make]
      exact hentry.normalize.symm ▸ hentry

/-- The accesses of a call are those of the body that it runs. -/
theorem mem_accesses_call (hcall : (p.references config).Calls p a node name j f places result ds σ)
    {q : Nat × Datum} (hq : q ∈ (a.call p n node name ds σ).2.accesses) : q ∈ σ.accesses ∨
      ∃ m, n = m + 1 ∧ ds.length = f.params.length ∧
        q ∈ (p.bodyRun m (a.moduleNames σ) f ds σ).state.accesses := by
  rcases invoke_function (h.not_mem_classes hcall.runs.function) hcall.runs.function with
    heq | ⟨m, hm, hlength, heq⟩
  · rw [show a.call p n node name ds σ = (none, σ) from heq] at hq
    exact .inl hq
  · rw [show a.call p n node name ds σ = _ from heq] at hq
    exact .inr ⟨m, hm, hlength, hq⟩

include hread in
/-- What a converged solution finds about the accesses of an item is borne out by them. -/
theorem bearsOut_of_agrees {g : FlowGraph} {b k : Nat} {i : BlockItem} {own : List (Nat × Datum)}
    (hg : (p.facts config).graph? a.function = some g) (hi : (g.block b).items[k]? = some i)
    (hids : ∀ q ∈ own, q.1 ∈ i.nodes)
    (hfinds : FindsAt (Diagnostic.Agrees i.nodes own)
      (((p.facts config).scope T a.function g).runItem i)
      (Fixpoint.runItems ((p.facts config).scope T a.function g).transfer
        ((g.block b).items.take k)
        (((p.facts config).solve T a.function g (seeds a.function)).entryOf b))) :
    ∀ q ∈ own, p.BearsOut config T seeds q := by
  rintro ⟨_, u⟩ hq d ⟨j, g', hg', hd⟩ hkind rfl
  obtain ⟨b', k', i', hi', hfound⟩ := FunctionScope.exists_place_of_finding hd
  have hnode' : d.location ∈ i'.nodes := hfound _ (FunctionScope.finds_item
    (h.itemOf (a := ⟨j, [], none⟩) hread hg' b' i' (List.mem_of_getElem? hi')) _) hkind
  have hnode : d.location ∈ i.nodes := hids _ hq
  obtain ⟨info, hinfo, hbuild⟩ := graph?_eq_some hg
  obtain ⟨info', hinfo', hbuild'⟩ := graph?_eq_some hg'
  have hsame : a.function = j := h.numbered.eq_of_mem_itemNodes hinfo hinfo'
    (FlowGraph.mem_itemNodes_of_build hbuild hi hnode)
    (FlowGraph.mem_itemNodes_of_build hbuild' hi' hnode')
  subst hsame
  cases hg.symm.trans hg'
  obtain ⟨rfl, rfl⟩ := FlowGraph.place_unique_of_build hbuild (h.numbered.itemNodes_nodup hinfo)
    hi hi' hnode hnode'
  cases Option.some.inj (hi.symm.trans hi')
  rw [FunctionScope.runItems_eq] at hfinds
  exact (hfound _ hfinds hkind).2 u hq

section Runs

variable (hcover : p.SeedsCover config T seeds)
include hread hcover

/-- The solution for a function keeps up with its runs, if the accesses in the functions that it
calls are borne out. -/
theorem solvesObjects_of_cover {g : FlowGraph} (hplaced : (p.references config).Places a)
    (hg : (p.facts config).graph? a.function = some g)
    (hconverged : ((p.facts config).solve T a.function g (seeds a.function)).converged = true)
    (haccesses : ∀ {node name j f places result ds σ vs} {heap : Heap},
      (p.references config).Calls p a node name j f places result ds σ →
      List.Forall₂ Value.Covers vs ds →
      heap.Shows ((p.facts config).scope T a.function g).pointsTo.label σ →
      CallInput.CoveredBy seeds (j, ((p.facts config).scope T a.function g).inputFor j vs heap) →
      ∀ q ∈ (a.call p n node name ds σ).2.accesses, q ∈ σ.accesses ∨ p.BearsOut config T seeds q) :
    ((p.facts config).scope T a.function g).SolvesObjects p config a n (p.BearsOut config T seeds)
      (CallInput.CoveredBy seeds) g ((p.facts config).solve T a.function g (seeds a.function))
      ((p.facts config).entryState a.function (seeds a.function)) :=
  h.solvesObjects hread hg hconverged
    (h.tracks hread hcover.hasGraphs (hcover.summaries n) hplaced haccesses)
    (fun hi => hcover.passed hg hi) fun hi => h.bearsOut_of_agrees hread hg hi

/-- The accesses of a call are borne out, to every depth of calls. -/
theorem accesses_call (n : Nat) {node name j f places result ds σ vs} {heap : Heap} {g : FlowGraph}
    (hcall : (p.references config).Calls p a node name j f places result ds σ)
    (hvs : List.Forall₂ Value.Covers vs ds)
    (hheap : heap.Shows ((p.facts config).scope T a.function g).pointsTo.label σ)
    (hseed : CallInput.CoveredBy seeds
      (j, ((p.facts config).scope T a.function g).inputFor j vs heap)) :
    ∀ q ∈ (a.call p n node name ds σ).2.accesses, q ∈ σ.accesses ∨ p.BearsOut config T seeds q := by
  induction n generalizing a node name j f places result ds σ vs heap g with
  | zero =>
      intro q hq
      rcases h.mem_accesses_call hcall hq with hq | ⟨m, hm, -⟩
      · exact .inl hq
      · cases hm
  | succ n ih =>
      intro q hq
      rcases h.mem_accesses_call hcall hq with hq | ⟨m, hm, hlength, hq⟩
      · exact .inl hq
      · cases hm
        obtain ⟨g', hg', hconverged⟩ :=
          hcover.solved (Array.getElem?_eq_some_iff.1 hcall.runs.number).1
        obtain ⟨info, hinfo, hbuild⟩ := graph?_eq_some hg'
        cases hcall.runs.number.symm.trans hinfo
        have hparams : ((p.facts config).scope T a.function g).facts.index.params j = f.params :=
          hcall.runs.params_eq
        have hcovers := FunctionScope.covers_inputFor hvs hheap (hparams ▸ hlength)
        have hsolves := h.solvesObjects_of_cover hread hcover (n := n) (places_callee hcall) hg'
          hconverged fun hcall hvs hheap hseed => ih hcall hvs hheap hseed
        exact (FunctionScope.keepsUp_of_runBody hsolves hbuild
          (h.covers_entryState hcall (hseed hcovers)) (h.admits_callee hcall) rfl).1 q hq

/-- The accesses of a run of the module are borne out. -/
theorem accesses_trace (n : Nat) : ∀ q ∈ p.accesses n, p.BearsOut config T seeds q := by
  have hmodule := h.numbered.getElem?_module
  have hlt := (Array.getElem?_eq_some_iff.1 hmodule).1
  obtain ⟨g, hg, hconverged⟩ := hcover.solved hlt
  obtain ⟨info, hinfo, hbuild⟩ := graph?_eq_some hg
  cases hmodule.symm.trans hinfo
  have hplaced : (p.references config).Places
      ⟨moduleId, (p.references config).root moduleId, none⟩ :=
    ⟨.root hlt, fun _ => ⟨rfl, rfl⟩⟩
  have hadmits : (p.references config).Admits
      ⟨moduleId, (p.references config).root moduleId, none⟩ .start :=
    ⟨nofun, nofun, nofun⟩
  have hsolves := h.solvesObjects_of_cover hread hcover (n := n) hplaced hg hconverged
    fun hcall hvs hheap hseed => h.accesses_call hread hcover n hcall hvs hheap hseed
  rw [hcover.seedOfModule] at hsolves
  intro q hq
  have hborne := (FunctionScope.keepsUp_of_runBody hsolves hbuild (ProgramState.covers_start _ _ _)
    hadmits (r := p.trace n) rfl).1 q hq
  exact hborne.resolve_left List.not_mem_nil

end Runs

section Kept

variable (hkept : (AnalysisReport.ofOutcome (p.facts config)
  (p.facts config).run).stats.degradedFunctions = 0)

theorem seedOf_module (config : Config) : (p.facts config).seedOf moduleId = none := by
  refine h.numbered.seedOf_module fun node site hsite hmodule => ?_
  rw [h.calls_facts] at hsite
  exact (h.target_of_site? hsite).2 moduleId hmodule rfl

/-- The seed of a function covers every call of it. -/
theorem coveredBy_of_mem_passedFrom {q : Nat × CallInput} (hq : q ∈ (p.facts config).passedFrom j) :
    CallInput.CoveredBy (p.facts config).seedOf q := by
  have hordered := ordered_facts config h.numbered.nodeIds_nodup
  obtain ⟨-, hcalled, -⟩ := hordered.caller j q hq
  obtain ⟨c, hc, hmem⟩ := hordered.placed q.1 (p.closed_facts config j q.1 hcalled)
  intro label ds σ hcovers
  exact hordered.covers_seedOf hc hmem (CallInputs.mem_inputsFor.2 hq) hcovers

include hread hkept

/-- Where nothing was given up, the seeds and the published summaries cover all calls. -/
theorem seedsCover_of_kept :
    p.SeedsCover config (p.facts config).bottomUp.table (p.facts config).seedOf := by
  have hconverged {i : Nat} (hi : i < (ProgramIndex.build p).functions.size) :=
    exists_converged h.numbered.nodeIds_nodup hkept hi
  have hgraph : p.HasGraphs config := by
    intro i f hf
    obtain ⟨g, hg, -⟩ := hconverged (Array.getElem?_eq_some_iff.1 hf).1
    exact ⟨g, hg⟩
  exact
    { summaries := h.summariesCover_bottomUp hread hgraph
      solved := hconverged
      seedOfModule := h.seedOf_module config
      passed := fun hg hi q hq =>
        h.coveredBy_of_mem_passedFrom (ProgramFacts.mem_passedFrom hg hi hq) }

/-- Where nothing was given up, every access of a run is as all findings about it say. -/
theorem accesses_run {d : Diagnostic} (n : Nat)
    (hd : d ∈ (AnalysisReport.ofOutcome (p.facts config) (p.facts config).run).diagnostics)
    (hkind : d.kind = .definiteNullDeref) {u : Datum} (hu : (d.location, u) ∈ p.accesses n) :
    u = .null := by
  have hother : d.kind ≠ .analysisDegraded := by
    rw [hkind]
    decide
  obtain ⟨i, g, -, hg, -, hfound⟩ :=
    exists_solution_of_finding h.numbered.nodeIds_nodup hkept hd hother
  exact h.accesses_trace hread (h.seedsCover_of_kept hread hkept) n _ hu d ⟨i, g, hg, hfound⟩ hkind
    rfl

end Kept

end IsObjectual

end Program

end ValueFlow
