import ValueFlow.Proofs.Analysis.Bodies
import ValueFlow.Proofs.Objects.Steps
/-!
A converged solution keeps up with every run of a body.

Every access of a run is made by an item at one place of the flow graph, or by the body of a function
that an item calls. Main statement: `closed_objects`, and from it `keepsUp_of_runBody`: the final
state covers the end of a run, and all accesses on the way are fine, if those of every item are where
they agree with what is found about the item.
-/

namespace ValueFlow

namespace FunctionScope

open FlowGraph (Assertions Closed)

variable {scope : FunctionScope} {p : Program} {config : Config} {a : Activation} {n : Nat}
  {fine : Nat × Datum → Prop} {passes : Nat × CallInput → Prop} {g : FlowGraph}
  {sol : Fixpoint.Solution ProgramState} {entry : ProgramState}

/-- What a solution says about a point of a run at a place of a graph. -/
structure Stands (scope : FunctionScope) (p : Program) (config : Config) (a : Activation) (n : Nat)
    (g : FlowGraph) (sol : Fixpoint.Solution ProgramState) (b k : Nat) (σ : World) : Prop where
  covers : scope.Covers (a.function = moduleId)
    (Fixpoint.runItems scope.transfer ((g.block b).items.take k) (sol.entryOf b)) σ
  admits : (p.references config).Admits a σ
  /-- After a condition its outcome is noted. -/
  decided : ∀ cond, ((g.block b).items.take k).getLast? = some (.condition cond) →
    Decided p config a n cond σ

/-- What a solution says about the points of runs at the places of a graph: it covers those of a run
that has not halted, and all accesses since the start are fine. -/
def objectAssertions (scope : FunctionScope) (p : Program) (config : Config) (a : Activation)
    (n : Nat) (fine : Nat × Datum → Prop) (g : FlowGraph) (sol : Fixpoint.Solution ProgramState)
    (start : World) : Assertions World Unit where
  here b k σ := (∀ q ∈ σ.accesses, q ∈ start.accesses ∨ fine q) ∧
    (σ.halted = false → scope.Stands p config a n g sol b k σ)
  live _ _ _ := True
  final ending σ := (∀ q ∈ σ.accesses, q ∈ start.accesses ∨ fine q) ∧ (σ.halted = false →
    match ending with
    | .done => scope.Covers (a.function = moduleId) (sol.final g) (σ.set returnSlot (.datum .null))
    | .returned => scope.Covers (a.function = moduleId) (sol.final g) σ
    | _ => True)

/-- What is needed of a solution, its graph and the items in it. -/
structure SolvesObjects (scope : FunctionScope) (p : Program) (config : Config) (a : Activation)
    (n : Nat) (fine : Nat × Datum → Prop) (passes : Nat × CallInput → Prop) (g : FlowGraph)
    (sol : Fixpoint.Solution ProgramState) (entry : ProgramState) : Prop where
  wired : g.Wired
  exit_eq : scope.exit = g.exit
  post : Fixpoint.PostFixpoint
    (ProgramState.under scope.domains scope.pointsTo.label (a.function = moduleId)) g scope.transfer
    entry sol
  tracks : scope.Tracks p config a n fine passes
  items : ∀ b, ∀ i ∈ (g.block b).items, (p.references config).ItemOf p a i
  passed : ∀ {b k i}, (g.block b).items[k]? = some i → ∀ q ∈ scope.passedBy i
    (Fixpoint.runItems scope.transfer ((g.block b).items.take k) (sol.entryOf b)), passes q
  agrees : ∀ {b k i own}, (g.block b).items[k]? = some i → (∀ q ∈ own, q.1 ∈ i.nodes) →
    FindsAt (Diagnostic.Agrees i.nodes own) (scope.runItem i)
      (Fixpoint.runItems scope.transfer ((g.block b).items.take k) (sol.entryOf b)) →
    ∀ q ∈ own, fine q

variable (h : scope.SolvesObjects p config a n fine passes g sol entry) {b k : Nat}
  {σ σ' start : World}
include h

/-- A further item of a block, from what holds after those before it. -/
theorem objects_item {i : BlockItem}
    (hs : (objectAssertions scope p config a n fine g sol start).here b k σ)
    (hi : (g.block b).items[k]? = some i) :
    (∀ q ∈ (Meaning.perform (Meaning.execItem (a.call p n) i) σ).accesses,
      q ∈ start.accesses ∨ fine q) ∧
    ((Meaning.perform (Meaning.execItem (a.call p n) i) σ).halted = false →
      scope.Covers (a.function = moduleId)
        (Fixpoint.runItems scope.transfer ((g.block b).items.take (k + 1)) (sol.entryOf b))
        (Meaning.perform (Meaning.execItem (a.call p n) i) σ) ∧
      ∀ cond, i = .condition cond →
        Decided p config a n cond (Meaning.perform (Meaning.execItem (a.call p n) i) σ)) := by
  obtain ⟨haccesses, hopen⟩ := hs
  cases hhalted : σ.halted with
  | true =>
      rw [Meaning.perform, if_pos hhalted]
      exact ⟨haccesses, fun hrunning => nomatch hhalted.symm.trans hrunning⟩
  | false =>
      obtain ⟨hcovers, hadmits, -⟩ := hopen hhalted
      obtain ⟨own, hids, hall, hfinds, hright⟩ := follows_item h.tracks
        (h.items b i (List.mem_of_getElem? hi)) hcovers hadmits (h.passed hi)
      have hfine : ∀ q ∈ (Meaning.execItem (a.call p n) i σ).2.accesses,
          q ∈ start.accesses ∨ fine q := by
        intro q hq
        rcases hall q hq with hq | hq | hq
        · exact haccesses q hq
        · exact .inr (h.agrees hi hids hfinds q hq)
        · exact .inr hq
      rw [Meaning.perform, if_neg (by rw [hhalted]; exact Bool.false_ne_true),
        show (Meaning.execItem (a.call p n) i).run σ = Meaning.execItem (a.call p n) i σ from rfl]
      rcases hexec : Meaning.execItem (a.call p n) i σ with ⟨_ | u, τ⟩
      · rw [hexec] at hfine
        exact ⟨hfine, fun hrunning => nomatch hrunning⟩
      · rw [hexec] at hfine hright
        refine ⟨hfine, fun _ => ?_⟩
        rw [runItems_take_succ hi]
        exact hright u rfl

/-- What holds at the end of a block holds along its edges. -/
theorem objects_edge {e : Edge}
    (hs : (objectAssertions scope p config a n fine g sol start).here b (g.block b).items.length σ)
    (he : e ∈ g.edges) (hb : e.source = b)
    (hstep : ∀ {t}, scope.Covers (a.function = moduleId) t σ →
      scope.Covers (a.function = moduleId) (scope.followEdge e (g.block b) t) σ) :
    (objectAssertions scope p config a n fine g sol start).here e.target 0 σ := by
  subst hb
  refine ⟨hs.1, fun hrunning => ?_⟩
  have hstands := hs.2 hrunning
  have hcovers := hstands.covers
  rw [List.take_length] at hcovers
  obtain ⟨hitems, hedge⟩ := edge_below h.wired h.post he
  have hexit := hitems σ hcovers
  refine ⟨?_, hstands.admits, nofun⟩
  rw [runItems_zero]
  exact hedge hexit.isReachable σ (hstep hexit)

/-- Where a condition turned out, the edge of its outcome is taken. -/
theorem objects_test {cond : Expr} {o : Bool} {e : Edge}
    (hs : (objectAssertions scope p config a n fine g sol start).here b (g.block b).items.length σ)
    (hcond : (g.block b).items.getLast? = some (.condition cond))
    (htest : Meaning.decided σ = some (o, σ')) (he : e ∈ g.edges) (hb : e.source = b)
    (hkind : e.kind.outcome? = some o) :
    (objectAssertions scope p config a n fine g sol start).here e.target 0 σ' := by
  unfold Meaning.decided at htest
  split at htest
  · cases htest
  · next hrunning =>
      cases htest
      have htraced := traced_condition (h.items b _ (List.mem_of_getLast? hcond))
      have hdecided := (hs.2 (Bool.eq_false_iff.2 hrunning)).decided
      rw [List.take_length] at hdecided
      exact objects_edge h hs he hb fun hcovers => covers_followEdge h.tracks hkind
        (condition?_of_getLast? hcond) htraced (hdecided cond hcond) hcovers

/-- What holds at the end of a block that control leaves is covered at the exit. -/
theorem objects_exit {e : Edge} {t : ProgramState}
    (ht : Fixpoint.runItems scope.transfer (g.block b).items (sol.entryOf b) = t)
    (hcovers : scope.Covers (a.function = moduleId) t σ) (he : e ∈ g.edges) (hb : e.source = b)
    (htarget : e.target = g.exit)
    (hstep : ∀ {t}, scope.Covers (a.function = moduleId) t σ →
      scope.Covers (a.function = moduleId) (scope.followEdge e (g.block b) t) σ') :
    scope.Covers (a.function = moduleId) (sol.final g) σ' := by
  subst hb ht
  obtain ⟨hitems, hedge⟩ := edge_below h.wired h.post he
  have hexit := hitems σ hcovers
  rw [htarget] at hedge
  exact hedge hexit.isReachable σ' (hstep hexit)

/-- What a solution says is closed under the steps of runs. -/
theorem closed_objects : Closed (Meaning.objects (a.call p n)) g.chart
    (objectAssertions scope p config a n fine g sol start) where
  item := by
    intro b k i σ σ' hs hi hreturn hstep
    cases hstep
    have hi : (g.block b).items[k]? = some i := hi
    obtain ⟨haccesses, hright⟩ := objects_item h hs hi
    refine ⟨haccesses, fun hrunning => ?_⟩
    obtain ⟨hcovers, hdecided⟩ := hright hrunning
    obtain ⟨hσ, hrun⟩ := Meaning.running_of_perform hrunning
    refine ⟨hcovers, ?_, fun cond hcond => hdecided cond ?_⟩
    · exact (FlowProgram.admits_item h.tracks.placed h.tracks.callsLead
        (h.tracks.objectual.made_unique h.tracks.reads) (h.items b i (List.mem_of_getElem? hi))
        hreturn (hs.2 hσ).admits hrun).1
    · rw [List.take_add_one, hi, Option.toList_some, List.getLast?_concat] at hcond
      exact Option.some.inj hcond
  test hs hcond htest he hb hkind := objects_test h hs hcond htest he hb hkind
  testStarves hs _ _ _ _ _ := ⟨hs.1, fun _ => trivial⟩
  opens _ _ _ := trivial
  asks := by
    intro b head it o σ σ' e _ hs hitems hasks he hb hkind
    cases head with
    | whileTrue cond =>
        have hlast : (g.block b).items.getLast? = some (.condition cond) :=
          (congrArg List.getLast? hitems).trans rfl
        exact objects_test h hs hlast hasks he hb hkind
    | forEach => cases hasks
  asksStarves _ hs _ _ _ _ _ := ⟨hs.1, fun _ => trivial⟩
  starts := by
    intro b head it it' σ σ' e _ _ _ _ _ _ hs hstarts
    cases head with
    | whileTrue =>
        cases hstarts
        exact ⟨trivial, hs⟩
    | forEach => cases hstarts
  jump := by
    intro b σ e hs he hb hkind hexit
    refine objects_edge h hs he hb fun hcovers => ?_
    rw [followEdge_eq_self (.inl hkind) fun htarget => absurd (htarget.trans h.exit_eq) hexit]
    exact hcovers
  falls := by
    intro b σ e hs he hb hkind htarget
    refine ⟨hs.1, fun hrunning => ?_⟩
    have hcovers : scope.Covers (a.function = moduleId)
        (Fixpoint.runItems scope.transfer ((g.block b).items.take (g.block b).items.length)
          (sol.entryOf b)) σ := (hs.2 hrunning).covers
    rw [List.take_length] at hcovers
    refine objects_exit h rfl hcovers he hb htarget fun {t} ht => ?_
    rw [followEdge, if_pos (by rw [htarget.trans h.exit_eq.symm, hkind]; simp)]
    exact ⟨ht.env.set rfl, ht.shows.congr rfl rfl, fun hp => (ht.heap hp).congr rfl rfl⟩
  returns := by
    intro b k i σ σ' e hs hi _ hlast hstep he hb hkind htarget
    cases hstep
    obtain ⟨haccesses, hright⟩ := objects_item h hs hi
    refine ⟨haccesses, fun hrunning => ?_⟩
    have hcovers := (hright hrunning).1
    rw [show k + 1 = (g.block b).items.length from hlast, List.take_length] at hcovers
    refine objects_exit h rfl hcovers he hb htarget fun {t} ht => ?_
    rw [followEdge_eq_self (.inl (hkind ▸ rfl)) fun _ hseq => ?_]
    · exact ht
    · rw [hkind] at hseq
      cases hseq
  stops hs := ⟨hs.1, fun _ => trivial⟩

/-- The final state covers what is returned at the end of a run, and all accesses on the way are
fine. -/
theorem keepsUp_of_runBody {owner : FlowGraph.Owner} {body : List Stmt}
    (hbuild : FlowGraph.build owner body = .ok g)
    (hstart : scope.Covers (a.function = moduleId) entry start)
    (hadmits : (p.references config).Admits a start) {r : Ran World}
    (hr : (Meaning.objects (a.call p n)).runBody n body start = r) :
    (∀ q ∈ r.state.accesses, q ∈ start.accesses ∨ fine q) ∧
      ∀ u, FunctionDef.result? r = some u →
        (ProgramFacts.returned (sol.final g)).Covers u := by
  have hentry : (objectAssertions scope p config a n fine g sol start).here g.entry 0 start := by
    refine ⟨fun q hq => .inl hq, fun _ => ⟨?_, hadmits, nofun⟩⟩
    rw [runItems_zero]
    exact h.post.start_below start hstart
  obtain ⟨haccesses, hend⟩ := FlowGraph.final_of_runBody hbuild (closed_objects h) hentry n hr
  refine ⟨haccesses, fun u hu => ?_⟩
  have returns {σ : World} (hσ : σ.datum? returnSlot = some u)
      (ht : scope.Covers (a.function = moduleId) (sol.final g) σ) :
      (ProgramFacts.returned (sol.final g)).Covers u := by
    rw [ProgramFacts.returned, if_pos ht.isReachable]
    exact ht.env.get hσ
  obtain ⟨hrunning, hending⟩ := FunctionDef.result?_eq_some hu
  have hend := hend hrunning
  rcases hending with ⟨hdone, rfl⟩ | ⟨hreturned, hu⟩
  · rw [hdone] at hend
    refine returns ?_ hend
    rw [World.datum?_set, if_pos rfl]
  · rw [hreturned] at hend
    exact returns hu hend

end FunctionScope

end ValueFlow
