import Mathlib.Algebra.BigOperators.Group.Finset.Piecewise
import Mathlib.Algebra.Group.Action.Defs
import Mathlib.Algebra.Order.BigOperators.Group.Finset
import Mathlib.Logic.Function.Iterate
import Mathlib.Tactic.Choose
import ValueFlow.Proofs.Fixpoint.PostFixpoint
import ValueFlow.Proofs.FlowGraph.LoopHeaders
/-!
Widening makes the iteration converge.

Suppose that the steps without a cap never end. The entry state of a loop header changes only by
widening once the header was visited often enough, so from some step on it stays the same, and soon
after no visit of a header puts anything on the worklist. From then on every visit lowers the weight
of the worklist, because a block weighs more than all blocks that it can put there.
-/

namespace ValueFlow

namespace Fixpoint

open AbstractDomain

variable {σ : Type} [AbstractDomain σ]

/-- Every sequence made by widening is constant from some point on. -/
def StableWidening (σ : Type) [AbstractDomain σ] : Prop :=
  ∀ (x y : Nat → σ) (n : Nat → Nat), (∀ k, x (k + 1) = widen (x k) (y k) (n k)) →
    ∃ last, ∀ k, last ≤ k → x k = x last

/-- Changes by widening come to an end, also when they are spread over other steps. -/
theorem StableWidening.settles (h : StableWidening σ) (x : Nat → σ) (first : Nat)
    (hstep : ∀ k, first ≤ k → x (k + 1) = x k ∨ ∃ y n, x (k + 1) = widen (x k) y n) :
    ∃ last, first ≤ last ∧ ∀ k, last ≤ k → x k = x last := by
  apply Classical.byContradiction
  intro hno
  have change : ∀ k, first ≤ k → ∃ j, k ≤ j ∧ x j = x k ∧ x (j + 1) ≠ x k := by
    intro k hk
    apply Classical.byContradiction
    intro hnone
    refine hno ⟨k, hk, fun j hj => ?_⟩
    induction hj with
    | refl => rfl
    | @step j hj ih =>
        exact Classical.byContradiction fun hne => hnone ⟨j, hj, ih, hne⟩
  choose! next hnext using change
  have seq : ∀ i, first ≤ (fun k => next k + 1)^[i] first := by
    intro i
    induction i with
    | zero => exact Nat.le_refl _
    | succ i ih =>
        rw [Function.iterate_succ_apply']
        have := (hnext _ ih).1
        omega
  have widened : ∀ i, ∃ y n, x ((fun k => next k + 1)^[i + 1] first) =
      widen (x ((fun k => next k + 1)^[i] first)) y n := by
    intro i
    obtain ⟨hle, heq, hne⟩ := hnext _ (seq i)
    rw [Function.iterate_succ_apply', ← heq]
    refine (hstep _ (Nat.le_trans (seq i) hle)).resolve_left fun hsame => hne ?_
    rw [hsame, heq]
  choose y n hyn using widened
  obtain ⟨last, hlast⟩ := h (fun i => x ((fun k => next k + 1)^[i] first)) y n hyn
  have hne := (hnext _ (seq last)).2.2
  rw [← Function.iterate_succ_apply' (fun k => next k + 1) last first] at hne
  exact hne (hlast (last + 1) (Nat.le_succ last))

/-- Widening is stable if every change raises a bounded number. -/
theorem StableWidening.of_measure (m : σ → Nat) (bound : Nat) (hbound : ∀ a, m a ≤ bound)
    (hup : ∀ a b n, widen a b n = a ∨ m a < m (widen a b n)) : StableWidening σ := by
  intro x y n hx
  have highest : ∃ last, ∀ k, m (x k) ≤ m (x last) := by
    apply Classical.byContradiction
    intro hno
    have higher : ∀ v, ∃ k, v ≤ m (x k) := by
      intro v
      induction v with
      | zero => exact ⟨0, Nat.zero_le _⟩
      | succ v ih =>
          obtain ⟨k, hk⟩ := ih
          obtain ⟨j, hj⟩ := Classical.not_forall.1 fun h => hno ⟨k, h⟩
          exact ⟨j, by omega⟩
    obtain ⟨k, hk⟩ := higher (bound + 1)
    have := hbound (x k)
    omega
  obtain ⟨last, hlast⟩ := highest
  refine ⟨last, fun k hk => ?_⟩
  induction hk with
  | refl => rfl
  | @step k _ ih =>
      rw [← ih, hx k]
      refine (hup (x k) (y k) (n k)).resolve_right fun hlt => ?_
      have := hlast (k + 1)
      rw [hx k, ← ih] at this
      omega

/-- Steps that go on forever, and the block that each of them visits. -/
structure Endless (g : FlowGraph) (t : Transfer σ) (limits : Limits) (start : σ)
    (p : Nat → Pass σ) (b : Nat → Nat) : Prop where
  tidy : ∀ k, Tidy g (p k)
  visited : ∀ k, Visited g t limits start (b k) (p k) (p (k + 1))

namespace Endless

variable {g : FlowGraph} {t : Transfer σ} {limits : Limits} {start : σ} {p : Nat → Pass σ}
  {b : Nat → Nat}

/-- Whether a step puts blocks on the worklist. -/
def Loud (g : FlowGraph) (t : Transfer σ) (limits : Limits) (start : σ) (p : Nat → Pass σ)
    (b : Nat → Nat) (k : Nat) : Prop :=
  isLoud g t limits start (count (p k).solution (b k)) (b k) = true

variable (h : Endless g t limits start p b)
include h

theorem visits_mono (c : Nat) {k j : Nat} (hkj : k ≤ j) :
    (p k).solution.visitsOf c ≤ (p j).solution.visitsOf c := by
  induction hkj with
  | refl => exact Nat.le_refl _
  | @step j _ ih =>
      refine Nat.le_trans ih ?_
      by_cases hc : c = b j
      · rw [hc, (h.visited j).visits_self]
        exact Nat.le_succ _
      · rw [(h.visited j).visits_ne c hc]

/-- A block that is visited again and again is visited any number of times. -/
theorem visits_unbounded {c : Nat} (hc : ∀ k, ∃ j, k ≤ j ∧ b j = c) (n : Nat) :
    ∃ k, n ≤ (p k).solution.visitsOf c := by
  induction n with
  | zero => exact ⟨0, Nat.zero_le _⟩
  | succ n ih =>
      obtain ⟨k, hk⟩ := ih
      obtain ⟨j, hkj, rfl⟩ := hc k
      refine ⟨j + 1, ?_⟩
      rw [(h.visited j).visits_self]
      exact Nat.succ_le_succ (Nat.le_trans hk (h.visits_mono _ hkj))

/-- Past the threshold the entry state of a loop header changes by widening only. -/
theorem entry_widened {c : Nat} (hheader : g.isLoopHeader c = true) {first : Nat}
    (hfirst : limits.wideningThreshold ≤ (p first).solution.visitsOf c) (k : Nat)
    (hk : first ≤ k) :
    (p (k + 1)).solution.entryOf c = (p k).solution.entryOf c ∨
      ∃ y n, (p (k + 1)).solution.entryOf c = widen ((p k).solution.entryOf c) y n := by
  by_cases hc : c = b k
  · right
    have hvisits : limits.wideningThreshold < (count (p k).solution (b k)).visitsOf (b k) := by
      rw [visitsOf_count_self _ ((h.tidy k).visits_size ▸ (h.visited k).block_lt), ← hc]
      exact Nat.lt_succ_of_le (Nat.le_trans hfirst (h.visits_mono c hk))
    rw [hc] at hheader ⊢
    refine ⟨inflow g t start (count (p k).solution (b k)) (b k),
      (count (p k).solution (b k)).visitsOf (b k), ?_⟩
    rw [(h.visited k).entry_self, freshEntry, if_pos (by simp [hheader, hvisits]), entryOf_count]
  · exact .inl ((h.visited k).entry_ne c hc)

/-- A block whose entry state does not change any more becomes quiet: the first visit makes its
exit state final. -/
theorem quiet_of_constant (leq_refl : ∀ a : σ, leq a a = true) {c first : Nat}
    (hconst : ∀ k, first ≤ k → (p k).solution.entryOf c = (p first).solution.entryOf c) :
    ∃ last, ∀ k, last ≤ k → b k = c → ¬ Loud g t limits start p b k := by
  by_cases hvisit : ∃ j, first ≤ j ∧ b j = c
  · obtain ⟨j, hj, hbj⟩ := hvisit
    have fresh : ∀ k, first ≤ k → b k = c → freshExit g t limits start
        (count (p k).solution c) c = runItems t (g.block c).items
          ((p first).solution.entryOf c) := by
      rintro k hk rfl
      rw [freshExit, ← (h.visited k).entry_self, hconst (k + 1) (Nat.le_succ_of_le hk)]
    have settled : ∀ k, j + 1 ≤ k → 0 < (p k).solution.visitsOf c ∧
        leq (runItems t (g.block c).items ((p first).solution.entryOf c))
          ((p k).solution.exitOf c) = true := by
      intro k hk
      induction hk with
      | refl =>
          refine ⟨by rw [← hbj, (h.visited j).visits_self]; omega, ?_⟩
          rw [← fresh j hj hbj, ← hbj, (h.visited j).exit_self]
          split
          · exact leq_refl _
          · exact ((h.visited j).quiet (h.tidy j).visits_size (Bool.eq_false_iff.2 ‹_›)).2
      | @step k hk ih =>
          refine ⟨Nat.lt_of_lt_of_le ih.1 (h.visits_mono c (Nat.le_succ k)), ?_⟩
          by_cases hc : c = b k
          · rw [hc, (h.visited k).exit_self]
            split
            · rw [← hc, fresh k (Nat.le_trans hj (Nat.le_of_succ_le hk)) hc.symm]
              exact leq_refl _
            · rw [← hc]
              exact ih.2
          · rw [(h.visited k).exit_ne c hc]
            exact ih.2
    refine ⟨j + 1, fun k hk hbk hloud => ?_⟩
    obtain ⟨hpos, hleq⟩ := settled k hk
    rw [Loud, isLoud, hbk, fresh k (by omega) hbk, exitOf_count, hleq, visitsOf_count_self _
      ((h.tidy k).visits_size ▸ hbk ▸ (h.visited k).block_lt), Bool.not_true, Bool.or_false,
      decide_eq_true_eq] at hloud
    omega
  · exact ⟨first, fun k hk hbk => absurd ⟨k, hk, hbk⟩ hvisit⟩

/-- Every loop header becomes quiet. -/
theorem quiet_header (leq_refl : ∀ a : σ, leq a a = true) (hstable : StableWidening σ) {c : Nat}
    (hheader : g.isLoopHeader c = true) :
    ∃ last, ∀ k, last ≤ k → b k = c → ¬ Loud g t limits start p b k := by
  by_cases hagain : ∀ k, ∃ j, k ≤ j ∧ b j = c
  · obtain ⟨first, hfirst⟩ := h.visits_unbounded hagain limits.wideningThreshold
    obtain ⟨last, -, hlast⟩ := hstable.settles (fun k => (p k).solution.entryOf c) first
      (h.entry_widened hheader hfirst)
    exact h.quiet_of_constant leq_refl hlast
  · obtain ⟨last, hlast⟩ := Classical.not_forall.1 hagain
    exact ⟨last, fun k hk hbk => absurd ⟨k, hk, hbk⟩ hlast⟩

/-- From some step on, all loop headers are quiet. -/
theorem quiet_headers (leq_refl : ∀ a : σ, leq a a = true) (hstable : StableWidening σ) :
    ∃ last, ∀ k, last ≤ k → g.isLoopHeader (b k) = true → ¬ Loud g t limits start p b k := by
  have upTo : ∀ n, ∃ last, ∀ k, last ≤ k → b k < n → g.isLoopHeader (b k) = true →
      ¬ Loud g t limits start p b k := by
    intro n
    induction n with
    | zero => exact ⟨0, fun k _ hk => absurd hk (Nat.not_lt_zero _)⟩
    | succ n ih =>
        obtain ⟨last, hlast⟩ := ih
        by_cases hheader : g.isLoopHeader n = true
        · obtain ⟨more, hmore⟩ := h.quiet_header leq_refl hstable hheader
          refine ⟨max last more, fun k hk hlt hb => ?_⟩
          rcases Nat.lt_succ_iff_lt_or_eq.1 hlt with hlt | heq
          · exact hlast k (by omega) hlt hb
          · exact hmore k (by omega) heq
        · refine ⟨last, fun k hk hlt hb => ?_⟩
          rcases Nat.lt_succ_iff_lt_or_eq.1 hlt with hlt | heq
          · exact hlast k hk hlt hb
          · exact absurd (heq ▸ hb) hheader
  obtain ⟨last, hlast⟩ := upTo g.size
  exact ⟨last, fun k hk => hlast k hk (h.visited k).block_lt⟩

end Endless

section Weight

variable (g : FlowGraph) (rank : Nat → Nat) (top : Nat)

/-- The weight of a block. A block outweighs as many blocks of higher rank as there are. -/
def weight (b : Nat) : Nat := if g.isLoopHeader b then 1 else (g.size + 1) ^ (top - rank b)

theorem weight_pos (b : Nat) : 0 < weight g rank top b := by
  rw [weight]
  split
  · exact Nat.one_pos
  · exact Nat.pow_pos (Nat.succ_pos _)

open Classical in
/-- The weight of all blocks that wait. -/
noncomputable def workWeight (p : Pass σ) : Nat :=
  ∑ c ∈ Finset.range g.size, if Pending g p c then weight g rank top c else 0

variable {t : Transfer σ} {limits : Limits} {start : σ} {p q : Pass σ} {b : Nat}

open Classical in
/-- A visit takes the weight of its block away and adds that of the blocks it puts on the
worklist. -/
theorem workWeight_visited {g : FlowGraph} (h : Visited g t limits start b p q) :
    workWeight g rank top q + weight g rank top b ≤ workWeight g rank top p +
      ∑ c ∈ Finset.range g.size,
        if isLoud g t limits start (count p.solution b) b = true ∧ c ∈ g.successors b then
          weight g rank top c
        else 0 := by
  have single : weight g rank top b =
      ∑ c ∈ Finset.range g.size, if c = b then weight g rank top c else 0 := by
    rw [Finset.sum_ite_eq' (Finset.range g.size) b, if_pos (Finset.mem_range.2 h.block_lt)]
  rw [single, workWeight, workWeight, ← Finset.sum_add_distrib, ← Finset.sum_add_distrib]
  refine Finset.sum_le_sum fun c _ => ?_
  by_cases hc : c = b
  · have hpend : Pending g p c := hc ▸ h.pending
    rw [if_pos hc, if_pos hpend]
    by_cases hq : Pending g q c
    · rw [if_pos hq, if_pos (((h.pending_iff c).1 hq).resolve_left fun h => h.2 hc)]
    · rw [if_neg hq]
      omega
  · rw [if_neg hc]
    by_cases hq : Pending g q c
    · rw [if_pos hq]
      rcases (h.pending_iff c).1 hq with ⟨hp, -⟩ | hnew
      · rw [if_pos hp]
        omega
      · rw [if_pos hnew]
        omega
    · rw [if_neg hq]
      omega

variable {g rank top}

/-- The blocks behind a block that is not a loop header weigh less than the block. -/
theorem weight_successor (hg : g.Wired) (hrank : g.Climbs rank) {c : Nat}
    (hc : c ∈ g.successors b) :
    weight g rank top c ≤ (g.size + 1) ^ (top - rank b - 1) := by
  obtain ⟨e, he, rfl, rfl⟩ := hg.mem_successors.1 hc
  rw [weight]
  split
  · exact Nat.pow_pos (Nat.succ_pos _)
  · have := hrank e he (Bool.eq_false_iff.2 ‹_›)
    exact Nat.pow_le_pow_right (Nat.succ_pos _) (by omega)

/-- Unless a loop header is loud, a visit makes the worklist lighter. -/
theorem workWeight_lt (hg : g.Wired) (hrank : g.Climbs rank) (htop : ∀ c < g.size, rank c < top)
    (h : Visited g t limits start b p q)
    (hquiet : g.isLoopHeader b = true →
      ¬ isLoud g t limits start (count p.solution b) b = true) :
    workWeight g rank top q < workWeight g rank top p := by
  have step := workWeight_visited rank top h
  by_cases hloud : isLoud g t limits start (count p.solution b) b = true
  · have hheader : g.isLoopHeader b = false := Bool.eq_false_iff.2 fun hb => hquiet hb hloud
    have bound := Finset.sum_le_card_nsmul (Finset.range g.size)
      (fun c => if isLoud g t limits start (count p.solution b) b = true ∧ c ∈ g.successors b then
        weight g rank top c else 0) ((g.size + 1) ^ (top - rank b - 1)) (fun c _ => by
          split
          · exact weight_successor hg hrank (And.right ‹_›)
          · exact Nat.zero_le _)
    rw [Finset.card_range, smul_eq_mul] at bound
    have hb : weight g rank top b = (g.size + 1) ^ (top - rank b - 1) * (g.size + 1) := by
      rw [weight, hheader, if_neg Bool.false_ne_true, ← Nat.pow_succ]
      congr 1
      have := htop b h.block_lt
      omega
    have hpos : 0 < (g.size + 1) ^ (top - rank b - 1) := Nat.pow_pos (Nat.succ_pos _)
    rw [Nat.mul_succ, Nat.mul_comm] at hb
    omega
  · have hzero : ∀ c ∈ Finset.range g.size,
        (if isLoud g t limits start (count p.solution b) b = true ∧ c ∈ g.successors b then
          weight g rank top c else 0) = 0 := fun c _ => if_neg fun h => hloud h.1
    rw [Finset.sum_eq_zero hzero] at step
    have := weight_pos g rank top b
    omega

end Weight

section Convergence

variable {g : FlowGraph} {t : Transfer σ} {limits : Limits} {start : σ}

theorem exists_top (rank : Nat → Nat) (n : Nat) : ∃ top, ∀ c < n, rank c < top := by
  induction n with
  | zero => exact ⟨0, fun c hc => absurd hc (Nat.not_lt_zero c)⟩
  | succ n ih =>
      obtain ⟨top, htop⟩ := ih
      refine ⟨max top (rank n + 1), fun c hc => ?_⟩
      rcases Nat.lt_succ_iff_lt_or_eq.1 hc with hc | rfl
      · exact Nat.lt_of_lt_of_le (htop c hc) (Nat.le_max_left _ _)
      · exact Nat.lt_of_lt_of_le (Nat.lt_succ_self _) (Nat.le_max_right _ _)

/-- No iteration without a cap goes on forever. -/
theorem not_endless (leq_refl : ∀ a : σ, leq a a = true) (hstable : StableWidening σ)
    (hg : g.Wired) {rank : Nat → Nat} (hrank : g.Climbs rank) {p : Nat → Pass σ} {b : Nat → Nat}
    (h : Endless g t limits start p b) : False := by
  obtain ⟨top, htop⟩ := exists_top rank g.size
  obtain ⟨last, hlast⟩ := h.quiet_headers leq_refl hstable
  have lighter : ∀ i, workWeight g rank top (p (last + (i + 1))) <
      workWeight g rank top (p (last + i)) := fun i =>
    workWeight_lt hg hrank htop (h.visited (last + i)) (hlast (last + i) (Nat.le_add_right _ _))
  have bounded : ∀ i, workWeight g rank top (p (last + i)) + i ≤
      workWeight g rank top (p last) := by
    intro i
    induction i with
    | zero => exact Nat.le_refl _
    | succ i ih =>
        have := lighter i
        omega
  have := bounded (workWeight g rank top (p last) + 1)
  omega

/-- Without a cap the worklist is empty after some number of steps. -/
theorem exists_idle (t : Transfer σ) (limits : Limits) (start : σ)
    (leq_refl : ∀ a : σ, leq a a = true) (hstable : StableWidening σ)
    (hg : g.Wired) {rank : Nat → Nat} (hrank : g.Climbs rank) {p : Pass σ} (hp : Tidy g p) :
    ∃ n, ((Pass.step g t limits start)^[n] p).work.toList = [] := by
  apply Classical.byContradiction
  intro hbusy
  have tidy : ∀ k, Tidy g ((Pass.step g t limits start)^[k] p) := by
    intro k
    induction k with
    | zero => exact hp
    | succ k ih =>
        rw [Function.iterate_succ_apply']
        exact ih.step hg
  have visits : ∀ k, ∃ b, Visited g t limits start b ((Pass.step g t limits start)^[k] p)
      ((Pass.step g t limits start)^[k + 1] p) := by
    intro k
    obtain ⟨taken, rest, hwork⟩ := List.exists_cons_of_ne_nil fun h => hbusy ⟨k, h⟩
    rw [Function.iterate_succ_apply']
    exact ⟨taken.2, (tidy k).visited hwork⟩
  choose b hb using visits
  exact not_endless leq_refl hstable hg hrank ⟨tidy, hb⟩

/-- A run that is idle after some steps converges, if the cap and the bound allow as many. -/
theorem converged_of_idle (hg : g.Wired) (n fuel : Nat) (p : Pass σ) (hp : Tidy g p)
    (hidle : ((Pass.step g t limits start)^[n] p).work.toList = []) (hfuel : n ≤ fuel)
    (hcap : ∀ b, p.solution.visitsOf b + n ≤ limits.maxBlockVisits) :
    (iterate g t limits start fuel p.work p.solution).converged = p.solution.converged := by
  induction n generalizing fuel p with
  | zero =>
      have hwork : p.work.toList = [] := hidle
      rw [iterate_nil g t limits start fuel p.solution hwork]
  | succ n ih =>
      cases hwork : p.work.toList with
      | nil => rw [iterate_nil g t limits start fuel p.solution hwork]
      | cons taken rest =>
          obtain ⟨place, b⟩ := taken
          obtain ⟨fuel, rfl⟩ : ∃ m, fuel = m + 1 := ⟨fuel - 1, by omega⟩
          have hvisit : Visited g t limits start b p (p.step g t limits start) := hp.visited hwork
          rw [iterate_cons g t limits start fuel p.solution hwork, if_neg]
          · rw [ih fuel _ (hp.step hg) hidle (by omega) fun c => ?_, hvisit.converged]
            have hc := hcap c
            by_cases hcb : c = b
            · rw [hcb, hvisit.visits_self, ← hcb]
              omega
            · rw [hvisit.visits_ne c hcb]
              omega
          · have := hcap b
            rw [visitsOf_count_self _ (hp.visits_size ▸ hvisit.block_lt)]
            omega

end Convergence

/-- On every graph that is built, widening makes the iteration converge under every cap that is
large enough, whatever the transfer functions do. -/
theorem solve_converges (leq_refl : ∀ a : σ, leq a a = true) (hstable : StableWidening σ)
    {u : FlowGraph.Owner} {body : List Stmt} {g : FlowGraph}
    (hg : FlowGraph.build u body = .ok g) (t : Transfer σ) (start : σ) (threshold : Nat) :
    ∃ enough, ∀ cap, enough ≤ cap → (solve g t ⟨threshold, cap⟩ start).converged = true := by
  have wired := FlowGraph.build_wired hg
  obtain ⟨rank, hrank⟩ := FlowGraph.build_climbs hg
  have tidy : Tidy g (⟨.singleton (g.position g.entry, g.entry), .initial g⟩ : Pass σ) :=
    tidy_initial wired
  obtain ⟨n, hn⟩ := exists_idle t ⟨threshold, 0⟩ start leq_refl hstable wired hrank tidy
  refine ⟨n, fun cap hcap => ?_⟩
  have hstep : Pass.step g t ⟨threshold, cap⟩ start = Pass.step g t ⟨threshold, 0⟩ start :=
    funext fun p => step_eq_of_threshold g t start rfl p
  rw [← hstep] at hn
  have fuel : n ≤ g.size * cap + 1 := by
    have hsize : 1 ≤ g.size := Nat.lt_of_le_of_lt (Nat.zero_le _) wired.entry_lt
    have := Nat.mul_le_mul hsize hcap
    omega
  refine converged_of_idle wired n _ _ tidy hn fuel fun b => ?_
  have : (Solution.initial g : Solution σ).visitsOf b = 0 := by
    simp only [Solution.visitsOf, Solution.initial, Array.getD_eq_getD_getElem?,
      Array.getElem?_replicate]
    split <;> rfl
  simpa [this] using hcap

theorem stableWidening_sign : StableWidening Sign := by
  have grows : ∀ a b : Sign, a.join b = a ∨ a.atoms.length < (a.join b).atoms.length := by
    intro a b
    cases a <;> cases b <;> decide
  exact .of_measure (fun s => s.atoms.length) 3 (fun a => by cases a <;> decide)
    fun a b _ => grows a b

theorem solve_converges_descent :
    ∃ g, descentLoop = .ok g ∧ ∃ enough, ∀ cap, enough ≤ cap →
      (solve g descent ⟨1, cap⟩ Sign.positive).converged = true := by
  obtain ⟨g, hg⟩ : ∃ g, descentLoop = .ok g := ⟨_, rfl⟩
  exact ⟨g, hg, solve_converges lawfulOrder_sign.leq_refl stableWidening_sign hg descent _ 1⟩

end Fixpoint

end ValueFlow
