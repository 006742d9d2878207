import ValueFlow.Proofs.Fixpoint.Lookups
import ValueFlow.Proofs.FlowGraph.LoopFree
/-!
Over a graph that goes forward, the iteration visits every block once.

The worklist gives out the block with the first place. The invariant `Sweep` says that the blocks
visited so far lie in front of all that wait, so a block is taken for the first time, and nothing
that flows into a visited block changes any more. Main statement: `solve_loopFree`.
-/

namespace ValueFlow

namespace Fixpoint

open AbstractDomain

variable {σ : Type} [AbstractDomain σ] {g : FlowGraph} {t : Transfer σ} {limits : Limits}
  {start : σ} {p q : Pass σ} {b : Nat}

/-- The first pair of a worklist has the first place. -/
theorem place_le {work : Worklist} {taken : Nat × Nat} {rest : List (Nat × Nat)}
    (hwork : work.toList = taken :: rest) {pair : Nat × Nat} (hpair : pair ∈ work) :
    taken.1 ≤ pair.1 := by
  have hsorted := work.sorted
  rw [SortedSet.mem_def] at hpair
  rw [hwork] at hsorted hpair
  rcases List.mem_cons.1 hpair with rfl | hrest
  · exact Nat.le_refl _
  · have hbefore := (List.pairwise_cons.1 hsorted).1 pair hrest
    rcases SortKey.pairBefore_iff.1 hbefore with hlt | ⟨heq, -⟩
    · exact Nat.le_of_lt (of_decide_eq_true hlt)
    · exact Nat.le_of_eq heq

/-- What flows into a block depends on the exit states in front of it. -/
theorem inflow_congr {s s' : Solution σ}
    (h : ∀ e ∈ g.incoming b, s.exitOf e.source = s'.exitOf e.source) :
    inflow g t start s b = inflow g t start s' b := by
  rw [inflow_eq, inflow_eq]
  refine List.foldl_ext _ _ _ fun joined e he => ?_
  rw [gather, gather, h e he]

/-- An iteration under way in which every block was visited once or never, and those visited lie in
front of those that wait. -/
structure Sweep (g : FlowGraph) (t : Transfer σ) (start : σ) (p : Pass σ) : Prop where
  converged : p.solution.converged = true
  leads : ∀ b, 0 < p.solution.visitsOf b ∨ Pending g p b → g.Leads g.entry b
  ahead : ∀ b c, 0 < p.solution.visitsOf b → Pending g p c → g.position b < g.position c
  entered : 0 < p.solution.visitsOf g.entry ∨ Pending g p g.entry
  onward : ∀ e ∈ g.edges, 0 < p.solution.visitsOf e.source →
    0 < p.solution.visitsOf e.target ∨ Pending g p e.target
  untouched : ∀ b, p.solution.visitsOf b = 0 →
    p.solution.entryOf b = bottom ∧ p.solution.exitOf b = bottom
  once : ∀ b, 0 < p.solution.visitsOf b → p.solution.visitsOf b = 1
  entry_eq : ∀ b, 0 < p.solution.visitsOf b →
    p.solution.entryOf b = inflow g t start p.solution b
  exit_eq : ∀ b, 0 < p.solution.visitsOf b →
    p.solution.exitOf b = runItems t (g.block b).items (p.solution.entryOf b)

namespace Sweep

theorem initial (g : FlowGraph) (t : Transfer σ) (start : σ) : Sweep g t start (.initial g) := by
  have unvisited : ∀ b, ¬ 0 < (Pass.initial g : Pass σ).solution.visitsOf b := fun b hb =>
    Nat.ne_of_gt hb (visitsOf_initial g b)
  exact
    { converged := rfl
      leads := fun b hb => by
        rw [(Prod.mk.inj (List.mem_singleton.1 (hb.resolve_left (unvisited b)))).2]
        exact .refl
      ahead := fun b _ hb => absurd hb (unvisited b)
      entered := .inr (List.mem_singleton.2 rfl)
      onward := fun e _ he => absurd he (unvisited _)
      untouched := fun b _ => ⟨entryOf_initial g b, exitOf_initial g b⟩
      once := fun b hb => absurd hb (unvisited b)
      entry_eq := fun b hb => absurd hb (unvisited b)
      exit_eq := fun b hb => absurd hb (unvisited b) }

/-- A block that waits was not visited yet. -/
theorem visits_eq_zero (hp : Sweep g t start p) (hb : Pending g p b) :
    p.solution.visitsOf b = 0 := by
  refine Nat.eq_zero_of_not_pos fun hv => ?_
  exact Nat.lt_irrefl _ (hp.ahead b b hv hb)

/-- The first block of the worklist is visited. What flowed into the blocks visited before comes
from blocks in front of them, so it stays as it was. -/
theorem visited (hg : g.Forward) (hp : Sweep g t start p) (ht : Tidy g p)
    (h : Visited g t limits start b p q)
    (hfirst : ∀ c, Pending g p c → g.position b ≤ g.position c) : Sweep g t start q := by
  have hzero : p.solution.visitsOf b = 0 := hp.visits_eq_zero h.pending
  have hloud : isLoud g t limits start (count p.solution b) b = true := by
    rw [isLoud, visitsOf_count_self _ (ht.visits_size ▸ h.block_lt), hzero]
    rfl
  have hpending (c : Nat) : Pending g q c ↔ (Pending g p c ∧ c ≠ b) ∨ c ∈ g.successors b := by
    rw [h.pending_iff c, hloud]
    simp only [true_and]
  have hsucc {c : Nat} (hc : c ∈ g.successors b) : g.position b < g.position c := by
    obtain ⟨e, he, rfl, rfl⟩ := hg.wired.mem_successors.1 hc
    exact hg.edge_lt e he
  -- no edge leads from `b` into a block that is visited by now
  have hinflow {c : Nat} (hc : c = b ∨ 0 < p.solution.visitsOf c) :
      inflow g t start p.solution c = inflow g t start q.solution c := by
    refine inflow_congr fun e he => ?_
    obtain ⟨hedge, rfl⟩ := hg.wired.mem_incoming.1 he
    refine (h.exit_ne e.source fun hsource => ?_).symm
    have hlt := hg.edge_lt e hedge
    rcases hc with hself | hbefore
    · rw [hself, hsource] at hlt
      exact Nat.lt_irrefl _ hlt
    · have hback := hp.ahead _ _ hbefore h.pending
      rw [hsource] at hlt
      exact Nat.lt_asymm hlt hback
  have hentry : q.solution.entryOf b = inflow g t start p.solution b := by
    rw [h.entry_self, freshEntry, hg.headless b h.block_lt, if_neg (by simp)]
    rfl
  exact
    { converged := h.converged.trans hp.converged
      leads := fun c hc => by
        rcases hc with hc | hc
        · rcases (h.visits_pos_iff c).1 hc with rfl | hc
          · exact hp.leads _ (.inr h.pending)
          · exact hp.leads c (.inl hc)
        · rcases (hpending c).1 hc with ⟨hc, -⟩ | hc
          · exact hp.leads c (.inr hc)
          · exact .tail (hp.leads b (.inr h.pending)) (hg.wired.mem_successors.1 hc)
      ahead := fun a c ha hc => by
        rcases (h.visits_pos_iff a).1 ha with rfl | ha <;>
          rcases (hpending c).1 hc with ⟨hc, hne⟩ | hc
        · refine Nat.lt_of_le_of_ne (hfirst c hc) fun heq => hne ?_
          exact (hg.position_inj h.block_lt heq).symm
        · exact hsucc hc
        · exact hp.ahead a c ha hc
        · exact Nat.lt_trans (hp.ahead a b ha h.pending) (hsucc hc)
      entered := by
        by_cases heq : g.entry = b
        · exact .inl ((h.visits_pos_iff _).2 (.inl heq))
        · exact hp.entered.imp (fun hv => (h.visits_pos_iff _).2 (.inr hv))
            fun hpend => (hpending _).2 (.inl ⟨hpend, heq⟩)
      onward := fun e he hv => by
        by_cases heq : e.target = b
        · exact .inl ((h.visits_pos_iff _).2 (.inl heq))
        · rcases (h.visits_pos_iff e.source).1 hv with hsource | hv
          · exact .inr ((hpending _).2 (.inr (hg.wired.mem_successors.2 ⟨e, he, hsource, rfl⟩)))
          · exact (hp.onward e he hv).imp (fun hv => (h.visits_pos_iff _).2 (.inr hv))
              fun hpend => (hpending _).2 (.inl ⟨hpend, heq⟩)
      untouched := fun c hc => by
        have hcb : c ≠ b := by
          rintro rfl
          rw [h.visits_self] at hc
          cases hc
        rw [h.visits_ne c hcb] at hc
        rw [h.entry_ne c hcb, h.exit_ne c hcb]
        exact hp.untouched c hc
      once := fun c hc => by
        rcases (h.visits_pos_iff c).1 hc with rfl | hv
        · rw [h.visits_self, hzero]
        · by_cases hcb : c = b
          · rw [hcb, hzero] at hv
            cases hv
          · rw [h.visits_ne c hcb]
            exact hp.once c hv
      entry_eq := fun c hc => by
        have hnow := (h.visits_pos_iff c).1 hc
        rw [← hinflow hnow]
        by_cases hcb : c = b
        · rw [hcb, hentry]
        · rw [h.entry_ne c hcb]
          exact hp.entry_eq c (hnow.resolve_left hcb)
      exit_eq := fun c hc => by
        by_cases hcb : c = b
        · rw [hcb, h.exit_self, if_pos hloud, freshExit, h.entry_self]
        · rw [h.exit_ne c hcb, h.entry_ne c hcb]
          exact hp.exit_eq c (((h.visits_pos_iff c).1 hc).resolve_left hcb) }

/-- The worklist of a sweep runs empty before some block is visited too often. -/
theorem iterate (hg : g.Forward) (hcap : 1 ≤ limits.maxBlockVisits) (n : Nat) (p : Pass σ)
    (ht : Tidy g p) (hp : Sweep g t start p) (hvisits : WithinCap limits p.solution)
    (hfuel : g.size * limits.maxBlockVisits < n + p.solution.visits.toList.sum) :
    ∃ work : Worklist, work.toList = [] ∧
      Sweep g t start ⟨work, iterate g t limits start n p.work p.solution⟩ := by
  induction n generalizing p with
  | zero =>
      have htotal := hvisits.total_le
      rw [ht.visits_size] at htotal
      omega
  | succ n ih =>
      cases hwork : p.work.toList with
      | nil =>
          rw [iterate_nil g t limits start _ _ hwork]
          exact ⟨p.work, hwork, hp⟩
      | cons taken rest =>
          obtain ⟨place, b⟩ := taken
          have hvisit : Visited g t limits start b p (p.step g t limits start) := ht.visited hwork
          have hallowed : ¬ limits.maxBlockVisits < (count p.solution b).visitsOf b := by
            rw [visitsOf_count_self _ (ht.visits_size ▸ hvisit.block_lt),
              hp.visits_eq_zero hvisit.pending]
            omega
          have hfirst (c : Nat) (hc : Pending g p c) : g.position b ≤ g.position c := by
            have htaken : (place, b) ∈ p.work := SortedSet.mem_def.2 (hwork ▸ List.mem_cons_self)
            have hplace := ht.work_place (place, b) htaken
            exact hplace ▸ place_le hwork hc
          rw [iterate_cons g t limits start n p.solution hwork, if_neg hallowed]
          have htotal := hvisit.total
          exact ih (p.step g t limits start) (ht.step hg.wired) (hp.visited hg ht hvisit hfirst)
            (hvisits.step hwork hallowed) (by omega)

end Sweep

/-- A solution for which every block was visited once. Its entry states are the joins of what flows
in, and its exit states are those after the items. -/
structure SinglePass (g : FlowGraph) (t : Transfer σ) (start : σ) (s : Solution σ) : Prop where
  converged : s.converged = true
  visited : ∀ b, g.Leads g.entry b → s.visitsOf b = 1
  unvisited : ∀ b < g.size, ¬ g.Leads g.entry b → b = g.exit ∧ s.visitsOf b = 0
  /-- The join is over the edges in their order, and starts from what is given at the entry. -/
  entry_eq : ∀ b < g.size, s.entryOf b =
    (g.incoming b).foldl
      (fun joined e =>
        if isBottom (s.exitOf e.source) then joined
        else join joined (t.edge e (g.block e.source) (s.exitOf e.source)))
      (if b = g.entry then start else bottom)
  exit_eq : ∀ b < g.size, s.exitOf b =
    if isBottom (s.entryOf b) then s.entryOf b
    else (g.block b).items.foldl (fun state item => t.item item state) (s.entryOf b)

/-- What is left when the worklist is empty. -/
theorem Sweep.singlePass (hg : g.Forward) (hexit : (g.block g.exit).items = [])
    (hp : Sweep g t start p) (hwork : p.work.toList = []) : SinglePass g t start p.solution := by
  have idle : ∀ b, ¬ Pending g p b := by
    intro b hpend
    rw [Pending, SortedSet.mem_def, hwork] at hpend
    exact List.not_mem_nil hpend
  have visited : ∀ b, g.Leads g.entry b → 0 < p.solution.visitsOf b := by
    intro b hlead
    induction hlead with
    | refl => exact hp.entered.resolve_right (idle _)
    | tail _ hstep ih =>
        obtain ⟨e, he, rfl, rfl⟩ := hstep
        exact (hp.onward e he ih).resolve_right (idle _)
  have unvisited : ∀ b < g.size, ¬ g.Leads g.entry b → b = g.exit ∧ p.solution.visitsOf b = 0 := by
    intro b hb hnot
    refine ⟨Classical.byContradiction fun hne => hnot (hg.wired.entry_leads b hb hne), ?_⟩
    exact Nat.eq_zero_of_not_pos fun hv => hnot (hp.leads b (.inl hv))
  refine ⟨hp.converged, fun b hb => hp.once b (visited b hb), unvisited, fun b hb => ?_,
    fun b hb => ?_⟩
  · by_cases hlead : g.Leads g.entry b
    · exact hp.entry_eq b (visited b hlead)
    · have hnone : g.incoming b = [] := List.eq_nil_iff_forall_not_mem.2 fun e he => by
        obtain ⟨hedge, rfl⟩ := hg.wired.mem_incoming.1 he
        exact hlead (.tail (hg.wired.leads_source hedge) ⟨e, hedge, rfl, rfl⟩)
      have hentry : b ≠ g.entry := by
        rintro rfl
        exact hlead .refl
      rw [hnone, List.foldl_nil, if_neg hentry]
      exact (hp.untouched b (unvisited b hb hlead).2).1
  · by_cases hlead : g.Leads g.entry b
    · exact hp.exit_eq b (visited b hlead)
    · obtain ⟨rfl, hzero⟩ := unvisited b hb hlead
      obtain ⟨hentry, hexit'⟩ := hp.untouched _ hzero
      rw [hexit, hexit', hentry, List.foldl_nil, ite_self]

/-- On the graph of a body without loops, the iteration visits every block that the entry leads to
once, under every cap that allows a visit, and its solution is exact. -/
theorem solve_loopFree {u : FlowGraph.Owner} {body : List Stmt} {g : FlowGraph}
    (hg : FlowGraph.build u body = .ok g) (hbody : LoopFree body) (t : Transfer σ)
    (limits : Limits) (hcap : 1 ≤ limits.maxBlockVisits) (start : σ) :
    SinglePass g t start (solve g t limits start) := by
  have forward := FlowGraph.build_forward hg hbody
  obtain ⟨work, hwork, hp⟩ := Sweep.iterate forward hcap _ (.initial g)
    (tidy_initial forward.wired) (.initial g t start)
    (withinCap_initial g limits)
    (Nat.lt_of_lt_of_le (Nat.lt_succ_self _) (Nat.le_add_right _ _))
  exact hp.singlePass forward (FlowGraph.build_exit_items hg) hwork

/-- Returns from one arm, with code behind the jump. -/
def earlyReturn : List Stmt :=
  [.ifElse 0 (.name 1 "x") [.pass 2, .ret 3 none, .pass 4] [.pass 5], .pass 6]

theorem solve_loopFree_earlyReturn : LoopFree earlyReturn ∧
    ∃ g, FlowGraph.build ⟨"f", true⟩ earlyReturn = .ok g ∧
      SinglePass g descent .positive (solve g descent ⟨0, 1⟩ Sign.positive) := by
  have hfree : LoopFree earlyReturn := by
    rw [LoopFree]
    decide
  obtain ⟨g, hg⟩ : ∃ g, FlowGraph.build ⟨"f", true⟩ earlyReturn = .ok g := ⟨_, rfl⟩
  exact ⟨hfree, g, hg, solve_loopFree hg hfree descent ⟨0, 1⟩ (Nat.le_refl 1) .positive⟩

end Fixpoint

end ValueFlow
