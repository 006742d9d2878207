import ValueFlow.Domain.Sign
import ValueFlow.Proofs.Fixpoint.Visits
/-!
An iteration that ran until nothing was left to do has found a post-fixpoint.

The invariant `Covers` says of every edge out of a visited block that its target waits for a visit
or already covers what flows along it. It holds before every step, and with an empty worklist it
is the result. Nothing is assumed of the transfer functions.
-/

namespace ValueFlow

namespace Fixpoint

open AbstractDomain

variable {σ : Type} [AbstractDomain σ]

/-- A relation under which joins and widenings lie above what they are made of. -/
structure Ascending (below : σ → σ → Prop) : Prop where
  refl : ∀ a, below a a
  trans : ∀ {a b c}, below a b → below b c → below a c
  of_leq : ∀ {a b}, leq a b = true → below a b
  join_left : ∀ a b, below a (join a b)
  join_right : ∀ a b, below b (join a b)
  widen_right : ∀ a b n, below b (widen a b n)

/-- A solution that covers what flows into every block. -/
structure PostFixpoint (below : σ → σ → Prop) (g : FlowGraph) (t : Transfer σ) (start : σ)
    (s : Solution σ) : Prop where
  start_below : below start (s.entryOf g.entry)
  edge_below : ∀ e ∈ g.edges, isBottom (s.exitOf e.source) = false →
    below (t.edge e (g.block e.source) (s.exitOf e.source)) (s.entryOf e.target)
  items_below : ∀ b, 0 < s.visitsOf b →
    below (runItems t (g.block b).items (s.entryOf b)) (s.exitOf b)
  visited : ∀ b, g.Leads g.entry b → 0 < s.visitsOf b

/-- An iteration under way: what was visited is covered, or waits for another visit. -/
structure Covers (below : σ → σ → Prop) (g : FlowGraph) (t : Transfer σ) (start : σ)
    (p : Pass σ) : Prop where
  start_covered : Pending g p g.entry ∨
    0 < p.solution.visitsOf g.entry ∧ below start (p.solution.entryOf g.entry)
  edge_covered : ∀ e ∈ g.edges, 0 < p.solution.visitsOf e.source →
    Pending g p e.target ∨ 0 < p.solution.visitsOf e.target ∧
      (isBottom (p.solution.exitOf e.source) = false →
        below (t.edge e (g.block e.source) (p.solution.exitOf e.source))
          (p.solution.entryOf e.target))
  items_covered : ∀ b, 0 < p.solution.visitsOf b →
    below (runItems t (g.block b).items (p.solution.entryOf b)) (p.solution.exitOf b)

section Inflow

variable {below : σ → σ → Prop} (hb : Ascending below) (g : FlowGraph) (t : Transfer σ) (start : σ)
  (s : Solution σ)

/-- Joins what flows along an edge to what flows along others. -/
def gather (joined : σ) (e : Edge) : σ :=
  if isBottom (s.exitOf e.source) then joined
  else join joined (t.edge e (g.block e.source) (s.exitOf e.source))

theorem inflow_eq (b : Nat) : inflow g t start s b =
    (g.incoming b).foldl (gather g t s) (if b = g.entry then start else bottom) := rfl

include hb

/-- Joining what flows along edges loses neither the state it starts from nor any flow. -/
theorem below_foldl_gather (edges : List Edge) (acc : σ) :
    below acc (edges.foldl (gather g t s) acc) ∧
      ∀ e ∈ edges, isBottom (s.exitOf e.source) = false →
        below (t.edge e (g.block e.source) (s.exitOf e.source))
          (edges.foldl (gather g t s) acc) := by
  induction edges generalizing acc with
  | nil => exact ⟨hb.refl acc, fun e he => absurd he List.not_mem_nil⟩
  | cons e edges ih =>
      rw [List.foldl_cons]
      obtain ⟨hacc, hflow⟩ := ih (gather g t s acc e)
      have hgather : below acc (gather g t s acc e) := by
        rw [gather]
        split
        · exact hb.refl acc
        · exact hb.join_left _ _
      refine ⟨hb.trans hgather hacc, fun e' he' hnot => ?_⟩
      rcases List.mem_cons.1 he' with rfl | he'
      · refine hb.trans ?_ hacc
        rw [gather, hnot, if_neg Bool.false_ne_true]
        exact hb.join_right _ _
      · exact hflow e' he' hnot

variable (limits : Limits)

theorem inflow_below_freshEntry (b : Nat) :
    below (inflow g t start s b) (freshEntry g t limits start s b) := by
  rw [freshEntry]
  split
  · exact hb.widen_right _ _ _
  · exact hb.refl _

theorem start_below_freshEntry : below start (freshEntry g t limits start s g.entry) := by
  refine hb.trans ?_ (inflow_below_freshEntry hb g t start s limits g.entry)
  rw [inflow_eq, if_pos rfl]
  exact (below_foldl_gather hb g t s (g.incoming g.entry) start).1

theorem edge_below_freshEntry (hg : g.Wired) {e : Edge} (he : e ∈ g.edges)
    (hnot : isBottom (s.exitOf e.source) = false) :
    below (t.edge e (g.block e.source) (s.exitOf e.source))
      (freshEntry g t limits start s e.target) := by
  refine hb.trans ?_ (inflow_below_freshEntry hb g t start s limits e.target)
  rw [inflow_eq]
  exact (below_foldl_gather hb g t s _ _).2 e (hg.mem_incoming.2 ⟨he, rfl⟩) hnot

end Inflow

section Steps

variable {below : σ → σ → Prop} {g : FlowGraph} {t : Transfer σ} {limits : Limits} {start : σ}
  {p q : Pass σ} {b : Nat}

theorem Visited.visits_pos_iff (h : Visited g t limits start b p q) (c : Nat) :
    0 < q.solution.visitsOf c ↔ c = b ∨ 0 < p.solution.visitsOf c := by
  by_cases hc : c = b
  · rw [hc, h.visits_self]
    exact ⟨fun _ => .inl rfl, fun _ => Nat.succ_pos _⟩
  · rw [h.visits_ne c hc]
    exact ⟨.inr, fun h => h.resolve_left hc⟩

/-- A quiet visit is not the first one, and what it finds lies below the exit state kept. -/
theorem Visited.quiet (h : Visited g t limits start b p q)
    (hsize : p.solution.visits.size = g.size)
    (hq : isLoud g t limits start (count p.solution b) b = false) :
    0 < p.solution.visitsOf b ∧
      leq (freshExit g t limits start (count p.solution b) b) (p.solution.exitOf b) = true := by
  rw [isLoud, Bool.or_eq_false_iff, decide_eq_false_iff_not,
    visitsOf_count_self _ (hsize ▸ h.block_lt)] at hq
  refine ⟨by omega, ?_⟩
  simpa using hq.2

theorem covers_initial (below : σ → σ → Prop) (g : FlowGraph) (t : Transfer σ) (start : σ) :
    Covers below g t start ⟨.singleton (g.position g.entry, g.entry), .initial g⟩ := by
  refine ⟨.inl (List.mem_singleton.2 rfl), fun e _ hv => ?_, fun b hv => ?_⟩
  · exact absurd hv (by rw [visitsOf_initial]; omega)
  · exact absurd hv (by rw [visitsOf_initial]; omega)

/-- A visit keeps everything covered that is not put on the worklist. -/
theorem Covers.visited (hb : Ascending below) (hg : g.Wired) (hp : Covers below g t start p)
    (ht : Tidy g p) (h : Visited g t limits start b p q) : Covers below g t start q := by
  have exit_kept : ∀ c, c ≠ b ∨ isLoud g t limits start (count p.solution b) b = false →
      q.solution.exitOf c = p.solution.exitOf c := by
    intro c hc
    by_cases hcb : c = b
    · rw [hcb, h.exit_self, hc.resolve_left (not_not_intro hcb), if_neg Bool.false_ne_true]
    · exact h.exit_ne c hcb
  -- the new entry state of `b` covers what flows in, as long as the flow did not change
  have fresh : ∀ e ∈ g.edges, e.target = b →
      q.solution.exitOf e.source = p.solution.exitOf e.source →
      0 < q.solution.visitsOf e.target ∧ (isBottom (q.solution.exitOf e.source) = false →
        below (t.edge e (g.block e.source) (q.solution.exitOf e.source))
          (q.solution.entryOf e.target)) := by
    intro e he htarget hexit
    refine ⟨(h.visits_pos_iff _).2 (.inl htarget), fun hnot => ?_⟩
    rw [hexit] at hnot ⊢
    rw [htarget, h.entry_self, ← htarget]
    exact edge_below_freshEntry hb g t start (count p.solution e.target) limits hg he hnot
  refine ⟨?_, fun e he hv => ?_, fun c hv => ?_⟩
  · by_cases hentry : g.entry = b
    · refine .inr ⟨(h.visits_pos_iff _).2 (.inl hentry), ?_⟩
      rw [hentry, h.entry_self, ← hentry]
      exact start_below_freshEntry hb g t start _ limits
    · rcases hp.start_covered with hpend | ⟨hv, hstart⟩
      · exact .inl ((h.pending_iff _).2 (.inl ⟨hpend, hentry⟩))
      · exact .inr ⟨(h.visits_pos_iff _).2 (.inr hv), by rwa [h.entry_ne _ hentry]⟩
  · by_cases hloud : e.source = b ∧ isLoud g t limits start (count p.solution b) b = true
    · refine .inl ((h.pending_iff _).2 (.inr ⟨hloud.2, hg.mem_successors.2 ⟨e, he, hloud.1, rfl⟩⟩))
    · have hkept : e.source ≠ b ∨ isLoud g t limits start (count p.solution b) b = false := by
        by_cases hs : e.source = b
        · exact .inr (Bool.eq_false_iff.2 fun h => hloud ⟨hs, h⟩)
        · exact .inl hs
      have hexit := exit_kept e.source hkept
      by_cases htarget : e.target = b
      · exact .inr (fresh e he htarget hexit)
      · have hsource : 0 < p.solution.visitsOf e.source := by
          rcases (h.visits_pos_iff _).1 hv with hs | hv
          · rw [hs]
            exact (h.quiet ht.visits_size (hkept.resolve_left (not_not_intro hs))).1
          · exact hv
        rcases hp.edge_covered e he hsource with hpend | ⟨hvt, hflow⟩
        · exact .inl ((h.pending_iff _).2 (.inl ⟨hpend, htarget⟩))
        · refine .inr ⟨(h.visits_pos_iff _).2 (.inr hvt), ?_⟩
          rwa [hexit, h.entry_ne _ htarget]
  · by_cases hcb : c = b
    · rw [hcb, h.entry_self, h.exit_self]
      split
      · exact hb.refl _
      · exact hb.of_leq (h.quiet ht.visits_size (Bool.eq_false_iff.2 ‹_›)).2
    · rw [h.entry_ne c hcb, h.exit_ne c hcb]
      exact hp.items_covered c (((h.visits_pos_iff c).1 hv).resolve_left hcb)

/-- With nothing left on the worklist, all that the entry leads to was visited and is covered. -/
theorem Covers.postFixpoint (hg : g.Wired) (hp : Covers below g t start p)
    (hwork : p.work.toList = []) : PostFixpoint below g t start p.solution := by
  have idle : ∀ b, ¬ Pending g p b := by
    intro b hpend
    rw [Pending, SortedSet.mem_def, hwork] at hpend
    exact List.not_mem_nil hpend
  have hstart := hp.start_covered.resolve_left (idle _)
  have visited : ∀ b, g.Leads g.entry b → 0 < p.solution.visitsOf b := by
    intro b hlead
    induction hlead with
    | refl => exact hstart.1
    | tail _ hstep ih =>
        obtain ⟨e, he, rfl, rfl⟩ := hstep
        exact ((hp.edge_covered e he ih).resolve_left (idle _)).1
  refine ⟨hstart.2, fun e he hnot => ?_, hp.items_covered, visited⟩
  exact ((hp.edge_covered e he (visited _ (hg.leads_source he))).resolve_left (idle _)).2 hnot

end Steps

section Runs

variable {g : FlowGraph} {t : Transfer σ} {limits : Limits} {start : σ}

theorem sum_le_of_forall_le {l : List Nat} {m : Nat} (h : ∀ n ∈ l, n ≤ m) :
    l.sum ≤ l.length * m := by
  induction l with
  | nil => exact Nat.zero_le _
  | cons n l ih =>
      have hn := h n List.mem_cons_self
      have hl := ih fun k hk => h k (List.mem_cons_of_mem _ hk)
      rw [List.sum_cons, List.length_cons, Nat.succ_mul]
      omega

/-- Whether no block was visited more often than it may be. -/
def WithinCap (limits : Limits) (s : Solution σ) : Prop :=
  ∀ v ∈ s.visits, v ≤ limits.maxBlockVisits

omit [AbstractDomain σ] in
theorem WithinCap.total_le {s : Solution σ} (h : WithinCap limits s) :
    s.visits.toList.sum ≤ s.visits.size * limits.maxBlockVisits := by
  rw [← Array.length_toList]
  exact sum_le_of_forall_le fun v hv => h v (Array.mem_toList_iff.1 hv)

theorem withinCap_initial (g : FlowGraph) (limits : Limits) :
    WithinCap limits (.initial g : Solution σ) := fun _ hv =>
  (Array.mem_replicate.1 hv).2.symm ▸ Nat.zero_le _

/-- A visit that is not one too many keeps all within their cap. -/
theorem WithinCap.step {p : Pass σ} (h : WithinCap limits p.solution) {place b : Nat}
    {rest : List (Nat × Nat)} (hwork : p.work.toList = (place, b) :: rest)
    (hcap : ¬ limits.maxBlockVisits < (count p.solution b).visitsOf b) :
    WithinCap limits (p.step g t limits start).solution := by
  intro v hv
  rw [step_cons hwork] at hv
  obtain ⟨c, hc, rfl⟩ := Array.mem_iff_getElem.1 hv
  have hlt : c < p.solution.visits.size := by simpa [count] using hc
  by_cases hcb : c = b
  · subst hcb
    have hsame : (count p.solution c).visits[c] = (count p.solution c).visitsOf c := by
      rw [Solution.visitsOf, Array.getD_eq_getD_getElem?, Array.getElem?_eq_getElem hc]
      rfl
    rw [hsame]
    exact Nat.le_of_not_lt hcap
  · have hsame : (count p.solution b).visits[c] = p.solution.visits[c] :=
      Array.getElem_modify_of_ne (Ne.symm hcb) ..
    rw [hsame]
    exact h _ (Array.getElem_mem hlt)

/-- A property that every visit keeps holds at the end of a run that converges. The bound on the
number of visits never stops a run: some block would be visited too often before. -/
theorem iterate_converged {P : Pass σ → Prop} (hg : g.Wired)
    (hstep : ∀ b p q, Tidy g p → P p → Visited g t limits start b p q → P q) (n : Nat)
    (work : Worklist) (s : Solution σ) (ht : Tidy g ⟨work, s⟩) (hp : P ⟨work, s⟩)
    (hvisits : WithinCap limits s)
    (hfuel : g.size * limits.maxBlockVisits < n + s.visits.toList.sum)
    (hdone : (iterate g t limits start n work s).converged = true) :
    ∃ work' : Worklist, work'.toList = [] ∧ P ⟨work', iterate g t limits start n work s⟩ := by
  induction n generalizing work s with
  | zero =>
      have htotal := hvisits.total_le
      rw [show s.visits.size = g.size from ht.visits_size] at htotal
      omega
  | succ n ih =>
      cases hwork : work.toList with
      | nil =>
          rw [iterate_nil g t limits start _ s hwork]
          exact ⟨work, hwork, hp⟩
      | cons taken rest =>
          obtain ⟨place, b⟩ := taken
          have hvisit : Visited g t limits start b _ _ := ht.visited hwork
          rw [iterate_cons g t limits start n s hwork] at hdone ⊢
          split at hdone
          · cases hdone
          · rename_i hcap
            rw [if_neg hcap]
            refine ih _ _ (ht.step hg) (hstep b _ _ ht hp hvisit)
              (WithinCap.step (p := ⟨work, s⟩) hvisits hwork hcap) ?_ hdone
            have htotal := hvisit.total
            dsimp only at htotal
            omega

/-- A converged solution is a post-fixpoint, for every relation that joins and widenings ascend. -/
theorem postFixpoint_of_converged {below : σ → σ → Prop} (hb : Ascending below) (hg : g.Wired)
    (hdone : (solve g t limits start).converged = true) :
    PostFixpoint below g t start (solve g t limits start) := by
  obtain ⟨work, hwork, hcovers⟩ := iterate_converged (P := Covers below g t start) hg
    (fun b p q htidy hp hvisit => hp.visited hb hg htidy hvisit) _ _ _ (tidy_initial hg)
    (covers_initial below g t start) (withinCap_initial g limits)
    (Nat.lt_of_lt_of_le (Nat.lt_succ_self _) (Nat.le_add_right _ _)) hdone
  exact hcovers.postFixpoint hg hwork

end Runs

/-- What the order of a domain is assumed to satisfy: joins and widenings lie above both
arguments. -/
structure LawfulOrder (σ : Type) [AbstractDomain σ] : Prop where
  leq_refl : ∀ a : σ, leq a a = true
  leq_trans : ∀ a b c : σ, leq a b = true → leq b c = true → leq a c = true
  leq_join_left : ∀ a b : σ, leq a (join a b) = true
  leq_join_right : ∀ a b : σ, leq b (join a b) = true
  leq_widen_left : ∀ (a b : σ) (n : Nat), leq a (widen a b n) = true
  leq_widen_right : ∀ (a b : σ) (n : Nat), leq b (widen a b n) = true

theorem LawfulOrder.ascending (h : LawfulOrder σ) : Ascending fun a b : σ => leq a b = true where
  refl := h.leq_refl
  trans hab hbc := h.leq_trans _ _ _ hab hbc
  of_leq hab := hab
  join_left := h.leq_join_left
  join_right := h.leq_join_right
  widen_right := h.leq_widen_right

/-- On every graph that is built, a solution that converged covers the start, what flows along
every edge, and the items of every block, and all that the entry leads to was visited. -/
theorem converged_solve_postFixpoint (h : LawfulOrder σ) {u : FlowGraph.Owner} {body : List Stmt}
    {g : FlowGraph} (hg : FlowGraph.build u body = .ok g) (t : Transfer σ) (limits : Limits)
    (start : σ) (hdone : (solve g t limits start).converged = true) :
    PostFixpoint (fun a b => leq a b = true) g t start (solve g t limits start) :=
  postFixpoint_of_converged h.ascending (FlowGraph.build_wired hg) hdone

theorem lawfulOrder_sign : LawfulOrder Sign where
  leq_refl a := by cases a <;> rfl
  leq_trans a b c := by cases a <;> cases b <;> cases c <;> decide
  leq_join_left a b := by cases a <;> cases b <;> rfl
  leq_join_right a b := by cases a <;> cases b <;> rfl
  leq_widen_left a b _ := by cases a <;> cases b <;> rfl
  leq_widen_right a b _ := by cases a <;> cases b <;> rfl

/-- Every item takes away one. -/
def descent : Transfer Sign := ⟨fun _ s => s.add .negative, fun _ _ s => s⟩

/-- The graph of a loop that goes on while a variable is true. -/
def descentLoop : Except MalformedBody FlowGraph :=
  FlowGraph.build ⟨"f", true⟩ [.whileLoop 0 (.name 1 "x") [.pass 2]]

theorem converged_solve_postFixpoint_descent :
    ∃ g, descentLoop = .ok g ∧ (solve g descent ⟨1, 9⟩ Sign.positive).converged = true ∧
      PostFixpoint (fun a b => leq a b = true) g descent Sign.positive
        (solve g descent ⟨1, 9⟩ Sign.positive) := by
  have hbuilt : ∃ g, descentLoop = .ok g ∧
      (solve g descent ⟨1, 9⟩ Sign.positive).converged = true := by
    refine ⟨_, rfl, ?_⟩
    decide
  obtain ⟨g, hg, hdone⟩ := hbuilt
  exact ⟨g, hg, hdone, converged_solve_postFixpoint lawfulOrder_sign hg descent ⟨1, 9⟩ _ hdone⟩

end Fixpoint

end ValueFlow
