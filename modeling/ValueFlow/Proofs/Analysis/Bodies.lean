import ValueFlow.Proofs.Analysis.Steps
import ValueFlow.Proofs.FlowGraph.Simulation
/-!
A converged solution describes the end of every run of a body.

What the solution says about the places of the flow graph is closed under the steps of runs, so it
holds wherever a run of the body ends. Main statement: `describes_final`.
-/

namespace ValueFlow

namespace FunctionScope

open FlowGraph (Assertions Closed)

variable {scope : FunctionScope} {call : Store → String → List Scalar → Option Scalar}
  {g : FlowGraph} {sol : Fixpoint.Solution ProgramState} {start : ProgramState}

/-- What a solution says about the stores at the places of a graph. The elements that a loop still
goes over are some of those of a range that was evaluated where the header starts. -/
def assertions (scope : FunctionScope) (call : Store → String → List Scalar → Option Scalar)
    (g : FlowGraph) (sol : Fixpoint.Solution ProgramState) : Assertions Store (List Int) where
  here b k σ :=
    (Fixpoint.runItems scope.transfer ((g.block b).items.take k) (sol.entryOf b)).Describes
      scope.domains σ
  live b
    | .whileTrue _, _ => True
    | .forEach _ _ iter, ks => ∃ σ all, (sol.entryOf b).Describes scope.domains σ ∧
        iter.elements? (call σ) σ = some all ∧ ∀ k ∈ ks, k ∈ all
  final
    | .done, σ => (sol.final g).Describes scope.domains (σ.set returnSlot (.scalar .none))
    | .returned, σ => (sol.final g).Describes scope.domains σ
    | _, _ => True

/-- What is needed of a solution, its graph and the expressions in it. -/
structure Solves (scope : FunctionScope) (call : Store → String → List Scalar → Option Scalar)
    (g : FlowGraph) (sol : Fixpoint.Solution ProgramState) (start : ProgramState) : Prop where
  wired : g.Wired
  exit_eq : scope.exit = g.exit
  post : Fixpoint.PostFixpoint (ProgramState.below scope.domains) g scope.transfer start sol
  ready : ∀ b, ∀ i ∈ (g.block b).items, scope.ReadyItem call i

variable (h : Solves scope call g sol start) {b k : Nat} {σ σ' : Store}

section Places

variable {s : ProgramState} {items : List BlockItem} {i : BlockItem}

/-- A further item, from the state after those before it. -/
theorem runItems_take_succ {k : Nat} (hi : items[k]? = some i) :
    Fixpoint.runItems scope.transfer (items.take (k + 1)) s =
      scope.transfer.item i (Fixpoint.runItems scope.transfer (items.take k) s) := by
  rw [runItems_eq, runItems_eq, List.take_add_one, hi, Option.toList_some, List.foldl_append]
  rfl

theorem runItems_zero (items : List BlockItem) (s : ProgramState) :
    Fixpoint.runItems scope.transfer (items.take 0) s = s := by
  rw [List.take_zero, Fixpoint.runItems, List.foldl_nil, ite_self]

/-- What is below the state after the items of a block is below the state after it along an edge. -/
theorem edge_below {below : ProgramState → ProgramState → Prop} (hwired : g.Wired)
    (hpost : Fixpoint.PostFixpoint below g scope.transfer start sol) {e : Edge} (he : e ∈ g.edges) :
    below (Fixpoint.runItems scope.transfer (g.block e.source).items (sol.entryOf e.source))
      (sol.exitOf e.source) ∧ ((sol.exitOf e.source).isReachable = true →
        below (scope.followEdge e (g.block e.source) (sol.exitOf e.source))
          (sol.entryOf e.target)) := by
  have hlt := (hwired.edge_lt e he).1
  have hne : e.source ≠ g.exit := fun heq => by
    have hout : e ∈ g.outgoing e.source := by
      rw [hwired.outgoing_eq]
      exact List.mem_filter.2 ⟨Array.mem_toList_iff.2 he, decide_eq_true rfl⟩
    rw [heq, hwired.exit_outgoing] at hout
    cases hout
  refine ⟨hpost.items_below _ (hpost.visited _ (hwired.entry_leads _ hlt hne)), fun hreach => ?_⟩
  refine hpost.edge_below e he ?_
  show (!(sol.exitOf e.source).isReachable) = false
  rw [hreach]
  rfl

end Places

/-- A further item of a block, from what holds after those before it. -/
theorem here_item {i : BlockItem} (hi : (g.block b).items[k]? = some i)
    (hstep : (scope.transfer.item i (Fixpoint.runItems scope.transfer ((g.block b).items.take k)
      (sol.entryOf b))).Describes scope.domains σ') :
    (assertions scope call g sol).here b (k + 1) σ' := by
  show (Fixpoint.runItems scope.transfer _ _).Describes scope.domains σ'
  rw [runItems_take_succ hi]
  exact hstep

include h in
/-- What holds at the end of a block holds along its edges. -/
theorem here_edge {e : Edge} (hs : (assertions scope call g sol).here b (g.block b).items.length σ)
    (he : e ∈ g.edges) (hb : e.source = b)
    (hstep : ∀ {s}, s.Describes scope.domains σ →
      (scope.followEdge e (g.block b) s).Describes scope.domains σ') :
    (sol.entryOf e.target).Describes scope.domains σ' := by
  subst hb
  have hs : (Fixpoint.runItems scope.transfer _ _).Describes scope.domains σ := hs
  rw [List.take_length] at hs
  obtain ⟨hitems, hedge⟩ := edge_below h.wired h.post he
  have hexit := hitems σ hs
  exact hedge hexit.isReachable σ' (hstep hexit)

theorem here_zero : (assertions scope call g sol).here b 0 σ ↔
    (sol.entryOf b).Describes scope.domains σ := by
  show (Fixpoint.runItems scope.transfer ((g.block b).items.take 0) (sol.entryOf b)).Describes
    scope.domains σ ↔ _
  rw [runItems_zero]

theorem condition?_of_getLast? {source : Block} {cond : Expr}
    (h : source.items.getLast? = some (.condition cond)) : source.condition? = some cond := by
  rw [Block.condition?, h]

theorem condition?_of_items_nil {source : Block} (h : source.items = []) :
    source.condition? = none := by
  rw [Block.condition?, h]
  rfl

include h in
/-- Where a condition turned out, the edge of its outcome is taken. -/
theorem here_test {cond : Expr} {o : Bool} {e : Edge}
    (hs : (assertions scope call g sol).here b (g.block b).items.length σ)
    (hcond : (g.block b).items.getLast? = some (.condition cond))
    (htest : (Meaning.scalar call).test cond σ = some (o, σ')) (he : e ∈ g.edges)
    (hb : e.source = b) (hkind : e.kind.outcome? = some o) :
    (assertions scope call g sol).here e.target 0 σ' := by
  obtain ⟨u, hu, heq⟩ := Option.map_eq_some_iff.1 htest
  cases heq
  refine here_zero.2 (here_edge h hs he hb fun hs => ?_)
  have hready := h.ready b _ (List.mem_of_getLast? hcond)
  exact describes_followEdge_condition hkind (condition?_of_getLast? hcond)
    (hready.exprs cond List.mem_cons_self _) hu rfl hs

include h in
/-- The edges out of the header of a loop over a range leave the store as it is. -/
theorem here_forEach {e : Edge} {o : Bool}
    (hs : (assertions scope call g sol).here b (g.block b).items.length σ)
    (hitems : (g.block b).items = []) (he : e ∈ g.edges) (hb : e.source = b)
    (hkind : e.kind.outcome? = some o) : (assertions scope call g sol).here e.target 0 σ := by
  refine here_zero.2 (here_edge h hs he hb fun hs => ?_)
  rw [followEdge_eq_self (.inr (condition?_of_items_nil hitems)) fun _ hseq => ?_]
  · exact hs
  · rw [hseq] at hkind
    cases hkind

include h in
/-- What a solution says is closed under the steps of runs. -/
theorem closed : Closed (Meaning.scalar call) g.chart (assertions scope call g sol) where
  item := by
    intro b k i σ σ' hs hi _ hstep
    exact here_item hi (describes_item (h.ready b i (List.mem_of_getElem? hi)) hs hstep)
  test hs hcond htest he hb hkind := here_test h hs hcond htest he hb hkind
  testStarves _ _ _ _ _ _ := trivial
  opens := by
    intro b head σ ks hs _ hopens
    cases head with
    | whileTrue => exact trivial
    | forEach node x iter => exact ⟨σ, ks, here_zero.1 hs, hopens, fun _ hk => hk⟩
  asks := by
    intro b head ks o σ σ' e _ hs hitems hasks he hb hkind
    cases head with
    | whileTrue cond =>
        have hlast : (g.block b).items.getLast? = some (.condition cond) :=
          (congrArg List.getLast? hitems).trans rfl
        exact here_test h hs hlast hasks he hb hkind
    | forEach =>
        cases hasks
        exact here_forEach h hs hitems he hb hkind
  asksStarves _ _ _ _ _ _ _ := trivial
  starts := by
    intro b head ks ks' σ σ' e hlive hitems he hb hkind hfirst hs hstarts
    cases head with
    | whileTrue =>
        cases hstarts
        exact ⟨trivial, hs⟩
    | forEach node x iter =>
        cases ks with
        | nil => cases hstarts
        | cons k rest =>
            obtain ⟨u, hu, heq⟩ := Option.map_eq_some_iff.1 hstarts
            cases heq
            obtain ⟨σ₀, all, hs₀, hall, hsub⟩ := hlive
            refine ⟨⟨σ₀, all, hs₀, hall, fun k hk => hsub k (List.mem_cons_of_mem _ hk)⟩, ?_⟩
            -- the range was evaluated in a store that reaches the start of every round
            have hheader : (assertions scope call g sol).here b (g.block b).items.length σ₀ := by
              rw [show (g.block b).items = [] from hitems]
              exact here_zero.2 hs₀
            have hround : (sol.entryOf e.target).Describes scope.domains σ₀ :=
              here_zero.1 (here_forEach h hheader hitems he hb (by rw [hkind]; rfl))
            have hi : (g.block e.target).items[0]? = some (.bind node x iter) := by
              obtain ⟨post, hpost⟩ := hfirst
              rw [show (g.block e.target).items = .bind node x iter :: post from hpost.symm]
              rfl
            show (assertions scope call g sol).here e.target (0 + 1) _
            refine here_item hi ?_
            rw [runItems_zero]
            exact describes_bind (h.ready _ _ (List.mem_of_getElem? hi)) (here_zero.1 hs) hround
              hall (hsub k List.mem_cons_self) hu
  jump := by
    intro b σ e hs he hb hkind hexit
    refine here_zero.2 (here_edge h hs he hb fun hs => ?_)
    rw [followEdge_eq_self (.inl hkind) fun htarget => absurd (htarget.trans h.exit_eq) hexit]
    exact hs
  falls := by
    intro b σ e hs he hb hkind htarget
    have hfinal := here_edge h hs he hb fun hs =>
      describes_followEdge_end (htarget.trans h.exit_eq.symm) hkind hs
    rw [htarget] at hfinal
    exact hfinal
  returns := by
    intro b k i σ σ' e hs hi _ hlast hstep he hb hkind htarget
    have hend : (assertions scope call g sol).here b (k + 1) σ' :=
      here_item hi (describes_item (h.ready b i (List.mem_of_getElem? hi)) hs hstep)
    rw [hlast] at hend
    have hfinal := here_edge h hend he hb fun {s} hs => by
      rw [followEdge_eq_self (.inl (hkind ▸ rfl)) fun _ hseq => ?_]
      · exact hs
      · rw [hkind] at hseq
        cases hseq
    rw [htarget] at hfinal
    exact hfinal
  stops _ := trivial

/-- A converged solution is what is needed of one. -/
theorem solves_of_converged {owner : FlowGraph.Owner} {body : List Stmt} {limits : Fixpoint.Limits}
    (hbuild : FlowGraph.build owner body = .ok g) (hexit : scope.exit = g.exit)
    (hready : ∀ b, ∀ i ∈ (g.block b).items, scope.ReadyItem call i)
    (hconverged : (Fixpoint.solve g scope.transfer limits start).converged = true) :
    Solves scope call g (Fixpoint.solve g scope.transfer limits start) start := by
  have hwired := FlowGraph.build_wired hbuild
  exact ⟨hwired, hexit, Fixpoint.postFixpoint_of_converged
    (ProgramState.ascending_below scope.domains) hwired hconverged, hready⟩

include h in
theorem here_entry (hstart : start.Describes scope.domains σ) :
    (assertions scope call g sol).here g.entry 0 σ :=
  here_zero.2 (h.post.start_below σ hstart)

/-- The final state of a converged solution describes the store in which a run of the body ends;
at the end of the body `None` is returned. -/
theorem describes_final {owner : FlowGraph.Owner} {body : List Stmt} {limits : Fixpoint.Limits}
    (hbuild : FlowGraph.build owner body = .ok g) (hexit : scope.exit = g.exit)
    (hready : ∀ b, ∀ i ∈ (g.block b).items, scope.ReadyItem call i)
    (hconverged : (Fixpoint.solve g scope.transfer limits start).converged = true)
    (hstart : start.Describes scope.domains σ) {n : Nat} {r : Ran Store}
    (hrun : (Meaning.scalar call).runBody n body σ = r) :
    (r.ending = .done → ((Fixpoint.solve g scope.transfer limits start).final g).Describes
      scope.domains (r.state.set returnSlot (.scalar .none))) ∧
    (r.ending = .returned → ((Fixpoint.solve g scope.transfer limits start).final g).Describes
      scope.domains r.state) := by
  have hsolves := solves_of_converged hbuild hexit hready hconverged
  have hfinal := FlowGraph.final_of_runBody hbuild (closed hsolves) (here_entry hsolves hstart) n hrun
  constructor
  · intro hdone
    rw [hdone] at hfinal
    exact hfinal
  · intro hreturned
    rw [hreturned] at hfinal
    exact hfinal

end FunctionScope

end ValueFlow
