import ValueFlow.Proofs.Fixpoint.PostFixpoint
/-!
Every state that an iteration looks up exists, and the iteration runs to its own end.

The arrays of a solution have an entry for each block all along, and only blocks are put on the
worklist. What bounds the number of visits in the definition of the iteration never stops it.
Main statement: `runsInRange`.
-/

namespace ValueFlow

namespace Fixpoint

open AbstractDomain

variable {σ : Type} [AbstractDomain σ]

def Pass.initial (g : FlowGraph) : Pass σ :=
  ⟨.singleton (g.position g.entry, g.entry), .initial g⟩

section Runs

variable {g : FlowGraph} {t : Transfer σ} {limits : Limits} {start : σ} {p : Pass σ}

theorem Tidy.iterate_step (h : Tidy g p) (hg : g.Wired) (n : Nat) :
    Tidy g ((Pass.step g t limits start)^[n] p) := by
  induction n with
  | zero => exact h
  | succ n ih =>
      rw [Function.iterate_succ_apply']
      exact ih.step hg

variable (g t limits start) in
/-- The states of a run are those after some of its steps. -/
theorem exists_iterate_eq (n : Nat) (p : Pass σ) : ∃ k,
    (iterate g t limits start n p.work p.solution).entry =
        ((Pass.step g t limits start)^[k] p).solution.entry ∧
      (iterate g t limits start n p.work p.solution).exit =
        ((Pass.step g t limits start)^[k] p).solution.exit := by
  induction n generalizing p with
  | zero => exact ⟨0, rfl, rfl⟩
  | succ n ih =>
      cases hwork : p.work.toList with
      | nil =>
          rw [iterate_nil g t limits start _ _ hwork]
          exact ⟨0, rfl, rfl⟩
      | cons taken rest =>
          rw [iterate_cons g t limits start n p.solution hwork]
          split
          · exact ⟨0, rfl, rfl⟩
          · obtain ⟨k, hentry, hexit⟩ := ih (p.step g t limits start)
            exact ⟨k + 1, hentry, hexit⟩

/-- More steps than the visits that are left change nothing. -/
theorem iterate_eq_of_enough (hg : g.Wired) (n m : Nat) (p : Pass σ) (hp : Tidy g p)
    (hcap : WithinCap limits p.solution)
    (hn : g.size * limits.maxBlockVisits < n + p.solution.visits.toList.sum) (hnm : n ≤ m) :
    iterate g t limits start m p.work p.solution = iterate g t limits start n p.work p.solution := by
  induction n generalizing m p with
  | zero =>
      have htotal := hcap.total_le
      rw [hp.visits_size] at htotal
      omega
  | succ n ih =>
      obtain ⟨m, rfl⟩ := Nat.exists_eq_add_of_le' (Nat.le_trans (Nat.le_add_left 1 n) hnm)
      cases hwork : p.work.toList with
      | nil => rw [iterate_nil _ _ _ _ _ _ hwork, iterate_nil _ _ _ _ _ _ hwork]
      | cons taken rest =>
          obtain ⟨place, b⟩ := taken
          have hvisit : Visited g t limits start b p (p.step g t limits start) :=
            hp.visited hwork
          rw [iterate_cons g t limits start m p.solution hwork,
            iterate_cons g t limits start n p.solution hwork]
          split
          · rfl
          · next hleft =>
              have htotal := hvisit.total
              exact ih m (p.step g t limits start) (hp.step hg) (hcap.step hwork hleft) (by omega)
                (by omega)

end Runs

/-- Whether all that an iteration over a graph looks up exists, and it ends by itself. -/
structure RunsInRange (g : FlowGraph) (t : Transfer σ) (limits : Limits) (start : σ) : Prop where
  /-- All along there are states and counts for every block, and the worklist holds blocks. -/
  tidy : ∀ n, Tidy g ((Pass.step g t limits start)^[n] (.initial g))
  /-- The blocks of edges exist, and so do the states at their ends. -/
  edge_lt : ∀ b, ∀ e ∈ g.incoming b ++ g.outgoing b, e.source < g.size ∧ e.target < g.size
  /-- The solution has a state for every block; the one at the exit is read. -/
  entry_size : (solve g t limits start).entry.size = g.size
  exit_lt : g.exit < g.size
  /-- The number of steps in the definition is no limit: more steps give the same solution. -/
  ends : ∀ n, g.size * limits.maxBlockVisits + 1 ≤ n →
    iterate g t limits start n (Pass.initial g : Pass σ).work (Pass.initial g : Pass σ).solution =
      solve g t limits start

theorem runsInRange {g : FlowGraph} (hg : g.Wired) (t : Transfer σ) (limits : Limits) (start : σ) :
    RunsInRange g t limits start where
  tidy := (tidy_initial hg).iterate_step hg
  edge_lt b e he := by
    rcases List.mem_append.1 he with he | he
    · exact hg.edge_lt e (hg.mem_incoming.1 he).1
    · exact hg.edge_lt e (hg.mem_outgoing.1 he).1
  entry_size := by
    obtain ⟨k, hentry, -⟩ := exists_iterate_eq g t limits start
      (g.size * limits.maxBlockVisits + 1) (Pass.initial g)
    exact (congrArg Array.size hentry).trans ((tidy_initial hg).iterate_step hg k).entry_size
  exit_lt := hg.exit_lt
  ends n hn := by
    exact iterate_eq_of_enough hg _ n (Pass.initial g) (tidy_initial hg) (withinCap_initial g limits)
      (Nat.lt_of_lt_of_le (Nat.lt_succ_self _) (Nat.le_add_right _ _)) hn

end Fixpoint

end ValueFlow
