import Mathlib.Algebra.Order.Ring.Nat
import ValueFlow.Fixpoint.Solver
import ValueFlow.Proofs.FlowGraph.Wiring
/-!
One step of the fixpoint iteration: what a visit of a block reads and what it changes.

`Visited` says everything a step does; the proofs about whole runs go by induction over steps and
do not unfold the iteration again.
-/

namespace ValueFlow

namespace Fixpoint

open AbstractDomain

variable {σ : Type} [AbstractDomain σ]

/-- An iteration under way. -/
structure Pass (σ : Type) where
  work : Worklist
  solution : Solution σ

section Step

variable (g : FlowGraph) (t : Transfer σ) (limits : Limits) (start : σ)

def freshEntry (s : Solution σ) (b : Nat) : σ :=
  if g.isLoopHeader b && limits.wideningThreshold < s.visitsOf b then
    widen (s.entryOf b) (inflow g t start s b) (s.visitsOf b)
  else inflow g t start s b

def freshExit (s : Solution σ) (b : Nat) : σ :=
  runItems t (g.block b).items (freshEntry g t limits start s b)

/-- Whether a visit replaces the exit state, so that the following blocks have to be visited. -/
def isLoud (s : Solution σ) (b : Nat) : Bool :=
  s.visitsOf b = 1 || !leq (freshExit g t limits start s b) (s.exitOf b)

/-- The worklist once a block is taken from it and others are put on it. -/
def requeue (work : Worklist) (taken : Nat × Nat) (next : List Nat) : Worklist :=
  next.foldl (fun w c => w.insert (g.position c, c)) (work.erase taken)

/-- The iteration after the first block of the worklist is visited. -/
def Pass.step (p : Pass σ) : Pass σ :=
  match p.work.toList with
  | [] => p
  | (place, b) :: _ =>
      let (s, next) := visit g t limits start (count p.solution b) b
      ⟨requeue g p.work (place, b) next, s⟩

theorem visit_eq (s : Solution σ) (b : Nat) : visit g t limits start s b =
    if isLoud g t limits start s b then
      ({ s with
          entry := s.entry.setIfInBounds b (freshEntry g t limits start s b)
          exit := s.exit.setIfInBounds b (freshExit g t limits start s b) }, g.successors b)
    else ({ s with entry := s.entry.setIfInBounds b (freshEntry g t limits start s b) }, []) := rfl

theorem iterate_nil (n : Nat) {work : Worklist} (s : Solution σ) (h : work.toList = []) :
    iterate g t limits start n work s = s := by
  cases n with
  | zero => rfl
  | succ n => rw [iterate, h]

theorem iterate_cons (n : Nat) {work : Worklist} (s : Solution σ) {place b : Nat}
    {rest : List (Nat × Nat)} (h : work.toList = (place, b) :: rest) :
    iterate g t limits start (n + 1) work s =
      if limits.maxBlockVisits < (count s b).visitsOf b then
        { count s b with converged := false }
      else
        iterate g t limits start n (Pass.step g t limits start ⟨work, s⟩).work
          (Pass.step g t limits start ⟨work, s⟩).solution := by
  rw [iterate, Pass.step, h]
  rfl

/-- Only the threshold matters to a step. -/
theorem step_eq_of_threshold {limits limits' : Limits}
    (h : limits.wideningThreshold = limits'.wideningThreshold) (p : Pass σ) :
    p.step g t limits start = p.step g t limits' start := by
  cases limits
  cases limits'
  cases h
  rfl

end Step

section Worklists

variable {g : FlowGraph}

theorem mem_foldl_insert_position {next : List Nat} {work : Worklist} {q : Nat × Nat} :
    q ∈ next.foldl (fun w c => w.insert (g.position c, c)) work ↔
      q ∈ work ∨ ∃ c ∈ next, q = (g.position c, c) := by
  induction next generalizing work with
  | nil => simp
  | cons c next ih =>
      rw [List.foldl_cons, ih, SortedSet.mem_insert]
      constructor
      · rintro ((h | h) | ⟨c', hc', h⟩)
        · exact .inr ⟨c, List.mem_cons_self, h⟩
        · exact .inl h
        · exact .inr ⟨c', List.mem_cons_of_mem _ hc', h⟩
      · rintro (h | ⟨c', hc', h⟩)
        · exact .inl (.inr h)
        · rcases List.mem_cons.1 hc' with rfl | hc'
          · exact .inl (.inl h)
          · exact .inr ⟨c', hc', h⟩

theorem mem_erase {work : Worklist} {taken q : Nat × Nat} :
    q ∈ work.erase taken ↔ q ∈ work ∧ q ≠ taken := by
  rw [SortedSet.erase, SortedSet.mem_filter, Bool.or_eq_true]
  refine and_congr_right fun _ => ⟨?_, fun hne => ?_⟩
  · rintro (h | h)
    · exact (SortKey.ne_of_before h).symm
    · exact SortKey.ne_of_before h
  · apply Classical.byContradiction
    intro h
    rw [not_or, Bool.not_eq_true, Bool.not_eq_true] at h
    exact hne (SortKey.before_connected _ _ h.2 h.1)

theorem mem_requeue {work : Worklist} {taken q : Nat × Nat} {next : List Nat} :
    q ∈ requeue g work taken next ↔
      (q ∈ work ∧ q ≠ taken) ∨ ∃ c ∈ next, q = (g.position c, c) := by
  rw [requeue, mem_foldl_insert_position, mem_erase]

end Worklists

/-- An iteration whose arrays and worklist fit the graph. -/
structure Tidy (g : FlowGraph) (p : Pass σ) : Prop where
  entry_size : p.solution.entry.size = g.size
  exit_size : p.solution.exit.size = g.size
  visits_size : p.solution.visits.size = g.size
  work_lt : ∀ q ∈ p.work, q.2 < g.size
  work_place : ∀ q ∈ p.work, q.1 = g.position q.2

/-- A block waits for a visit. -/
def Pending (g : FlowGraph) (p : Pass σ) (b : Nat) : Prop := (g.position b, b) ∈ p.work

/-- A step of the iteration that visits a block. -/
structure Visited (g : FlowGraph) (t : Transfer σ) (limits : Limits) (start : σ) (b : Nat)
    (p q : Pass σ) : Prop where
  block_lt : b < g.size
  pending : Pending g p b
  visits_self : q.solution.visitsOf b = p.solution.visitsOf b + 1
  visits_ne : ∀ c, c ≠ b → q.solution.visitsOf c = p.solution.visitsOf c
  entry_self : q.solution.entryOf b = freshEntry g t limits start (count p.solution b) b
  entry_ne : ∀ c, c ≠ b → q.solution.entryOf c = p.solution.entryOf c
  exit_self : q.solution.exitOf b =
    if isLoud g t limits start (count p.solution b) b then
      freshExit g t limits start (count p.solution b) b
    else p.solution.exitOf b
  exit_ne : ∀ c, c ≠ b → q.solution.exitOf c = p.solution.exitOf c
  pending_iff : ∀ c, Pending g q c ↔ (Pending g p c ∧ c ≠ b) ∨
    (isLoud g t limits start (count p.solution b) b = true ∧ c ∈ g.successors b)
  converged : q.solution.converged = p.solution.converged
  total : q.solution.visits.toList.sum = p.solution.visits.toList.sum + 1

section Counting

variable (s : Solution σ) {b : Nat}

omit [AbstractDomain σ] in
theorem visitsOf_count_self (h : b < s.visits.size) :
    (count s b).visitsOf b = s.visitsOf b + 1 := by
  simp only [Solution.visitsOf, count, Array.getD_eq_getD_getElem?, Array.getElem?_modify,
    if_true, Array.getElem?_eq_getElem h]
  rfl

omit [AbstractDomain σ] in
theorem visitsOf_count_ne {c : Nat} (h : c ≠ b) : (count s b).visitsOf c = s.visitsOf c := by
  simp only [Solution.visitsOf, count, Array.getD_eq_getD_getElem?, Array.getElem?_modify,
    if_neg h.symm]

theorem sum_modify_succ {l : List Nat} (h : b < l.length) :
    (l.modify b (· + 1)).sum = l.sum + 1 := by
  induction l generalizing b with
  | nil => exact absurd h (Nat.not_lt_zero b)
  | cons n l ih =>
      cases b with
      | zero =>
          simp only [List.modify_zero_cons, List.sum_cons]
          omega
      | succ b =>
          simp only [List.modify_succ_cons, List.sum_cons, ih (Nat.lt_of_succ_lt_succ h)]
          omega

omit [AbstractDomain σ] in
theorem total_count (h : b < s.visits.size) :
    (count s b).visits.toList.sum = s.visits.toList.sum + 1 := by
  rw [count, Array.toList_modify, sum_modify_succ (by simpa using h)]

@[simp] theorem entryOf_count (c : Nat) : (count s b).entryOf c = s.entryOf c := rfl

@[simp] theorem exitOf_count (c : Nat) : (count s b).exitOf c = s.exitOf c := rfl

end Counting

section Reading

variable {α : Type} {a : Array α} {b c : Nat} {v : α}

theorem getD_setIfInBounds_self (h : b < a.size) (fallback : α) :
    (a.setIfInBounds b v).getD b fallback = v := by
  rw [Array.getD_eq_getD_getElem?, Array.getElem?_setIfInBounds, if_pos rfl, if_pos h]
  rfl

theorem getD_setIfInBounds_ne (h : c ≠ b) (fallback : α) :
    (a.setIfInBounds b v).getD c fallback = a.getD c fallback := by
  rw [Array.getD_eq_getD_getElem?, Array.getElem?_setIfInBounds, if_neg h.symm,
    Array.getD_eq_getD_getElem?]

theorem getD_replicate (size : Nat) (v : α) (b : Nat) : (Array.replicate size v).getD b v = v := by
  rw [Array.getD_eq_getD_getElem?, Array.getElem?_replicate]
  split <;> rfl

end Reading

section Start

variable (g : FlowGraph) (b : Nat)

@[simp] theorem visitsOf_initial : (Solution.initial g : Solution σ).visitsOf b = 0 :=
  getD_replicate ..

@[simp] theorem entryOf_initial : (Solution.initial g : Solution σ).entryOf b = bottom :=
  getD_replicate ..

@[simp] theorem exitOf_initial : (Solution.initial g : Solution σ).exitOf b = bottom :=
  getD_replicate ..

end Start

section Tidiness

variable {g : FlowGraph} {t : Transfer σ} {limits : Limits} {start : σ} {p : Pass σ}

theorem tidy_initial (h : g.Wired) :
    Tidy g (⟨.singleton (g.position g.entry, g.entry), .initial g⟩ : Pass σ) where
  entry_size := Array.size_replicate
  exit_size := Array.size_replicate
  visits_size := Array.size_replicate
  work_lt q hq := by
    cases List.mem_singleton.1 hq
    exact h.entry_lt
  work_place q hq := by
    cases List.mem_singleton.1 hq
    rfl

/-- The fields that a step leaves behind, whether or not it is loud. -/
theorem step_cons {place b : Nat} {rest : List (Nat × Nat)}
    (hwork : p.work.toList = (place, b) :: rest) :
    p.step g t limits start =
      ⟨requeue g p.work (place, b)
          (if isLoud g t limits start (count p.solution b) b then g.successors b else []),
        { count p.solution b with
          entry := p.solution.entry.setIfInBounds b
            (freshEntry g t limits start (count p.solution b) b)
          exit := if isLoud g t limits start (count p.solution b) b then
              p.solution.exit.setIfInBounds b (freshExit g t limits start (count p.solution b) b)
            else p.solution.exit }⟩ := by
  rw [Pass.step, hwork]
  simp only [visit_eq]
  cases isLoud g t limits start (count p.solution b) b <;> rfl

theorem Tidy.step (h : Tidy g p) (hg : g.Wired) : Tidy g (p.step g t limits start) := by
  cases hwork : p.work.toList with
  | nil =>
      rw [Pass.step, hwork]
      exact h
  | cons taken rest =>
      obtain ⟨place, b⟩ := taken
      rw [step_cons hwork]
      have hnext : ∀ c ∈ (if isLoud g t limits start (count p.solution b) b then g.successors b
          else []), c < g.size := by
        intro c hc
        split at hc
        · obtain ⟨e, he, -, rfl⟩ := hg.mem_successors.1 hc
          exact (hg.edge_lt e he).2
        · exact absurd hc List.not_mem_nil
      refine ⟨by simpa using h.entry_size, ?_, by simpa [count] using h.visits_size, ?_, ?_⟩
      · dsimp only
        split
        · simpa using h.exit_size
        · exact h.exit_size
      · intro q hq
        rcases mem_requeue.1 hq with ⟨hq, -⟩ | ⟨c, hc, rfl⟩
        · exact h.work_lt q hq
        · exact hnext c hc
      · intro q hq
        rcases mem_requeue.1 hq with ⟨hq, -⟩ | ⟨c, hc, rfl⟩
        · exact h.work_place q hq
        · rfl

/-- A step on a worklist that is not empty visits the first block. -/
theorem Tidy.visited (h : Tidy g p) {taken : Nat × Nat} {rest : List (Nat × Nat)}
    (hwork : p.work.toList = taken :: rest) :
    Visited g t limits start taken.2 p (p.step g t limits start) := by
  obtain ⟨place, b⟩ := taken
  have hmem : (place, b) ∈ p.work := by
    rw [SortedSet.mem_def, hwork]
    exact List.mem_cons_self
  have hb : b < g.size := h.work_lt _ hmem
  have hplace : place = g.position b := h.work_place _ hmem
  rw [step_cons hwork]
  refine ⟨hb, hplace ▸ hmem, visitsOf_count_self _ (h.visits_size ▸ hb),
    fun c hc => visitsOf_count_ne _ hc, getD_setIfInBounds_self (h.entry_size ▸ hb) _,
    fun c hc => getD_setIfInBounds_ne hc _, ?_, fun c hc => ?_, fun c => ?_, rfl,
    total_count _ (h.visits_size ▸ hb)⟩
  · dsimp only [Solution.exitOf]
    split
    · exact getD_setIfInBounds_self (h.exit_size ▸ hb) _
    · rfl
  · dsimp only [Solution.exitOf]
    split
    · exact getD_setIfInBounds_ne hc _
    · rfl
  · rw [Pending, mem_requeue, hplace]
    constructor
    · rintro (⟨hq, hne⟩ | ⟨c', hc', heq⟩)
      · exact .inl ⟨hq, fun hcb => hne (by rw [hcb])⟩
      · cases (Prod.mk.inj heq).2
        split at hc'
        · exact .inr ⟨‹_›, hc'⟩
        · exact absurd hc' List.not_mem_nil
    · rintro (⟨hq, hne⟩ | ⟨hloud, hc⟩)
      · exact .inl ⟨hq, fun heq => hne (Prod.mk.inj heq).2⟩
      · exact .inr ⟨c, by rwa [if_pos hloud], rfl⟩

end Tidiness

end Fixpoint

end ValueFlow
