import ValueFlow.Proofs.FlowGraph.Wiring
import ValueFlow.Proofs.StackSearch
/-!
Every block and edge that is looked up while a graph is built or read exists.

A body may be malformed: then lowering stops at some statement, and the blocks that it came to up
to there exist. Main statements: `Comes.block_lt` for lowering, and `buildsInRange` for the graph
that is built.
-/

namespace ValueFlow

namespace FlowGraph

/-- While a body is lowered from a block and a draft, a statement comes to be lowered into a block
of a draft. Nothing is said about the statements after one that is misplaced. -/
inductive Comes (u : Owner) :
    Option LoopFrame → List Stmt → Option Nat → Draft → Stmt → Nat → Draft → Prop
  | head {loop s rest cur d} : Comes u loop (s :: rest) (some cur) d s cur d
  | dead {loop s rest d stmt block d'} :
      Comes u loop (s :: rest) (some d.size) (d.addBlock .statement) stmt block d' →
      Comes u loop (s :: rest) none d stmt block d'
  | tail {loop s rest cur mid d d₁ stmt block d'} :
      lowerStmt u loop s cur d = .ok (d₁, mid) →
      Comes u loop rest mid d₁ stmt block d' →
      Comes u loop (s :: rest) (some cur) d stmt block d'
  | thenArm {loop id test body orelse rest cur d stmt block d'} :
      Comes u loop body (some d.size) (d.openArms cur test) stmt block d' →
      Comes u loop (.ifElse id test body orelse :: rest) (some cur) d stmt block d'
  | elseArm {loop id test body orelse rest cur thenEnd d d₁ stmt block d'} :
      lowerBody u loop body (some d.size) (d.openArms cur test) = .ok (d₁, thenEnd) →
      Comes u loop orelse (some (d.size + 1)) d₁ stmt block d' →
      Comes u loop (.ifElse id test body orelse :: rest) (some cur) d stmt block d'
  | loop {outer s head body rest cur d stmt block d'} : s.loop? = some (head, body) →
      Comes u (some d.nextFrame) body (some (d.size + 1)) (d.openBody cur head) stmt block d' →
      Comes u outer (s :: rest) (some cur) d stmt block d'

/-- The block of a statement exists. -/
theorem Comes.block_lt {u : Owner} {loop : Option LoopFrame} {body : List Stmt}
    {cur : Option Nat} {d d' : Draft} {stmt : Stmt} {block : Nat}
    (h : Comes u loop body cur d stmt block d') (hcur : ∀ c, cur = some c → c < d.size) :
    block < d'.size := by
  induction h with
  | head => exact hcur _ rfl
  | dead _ ih =>
      refine ih fun c hc => ?_
      cases hc
      rw [Draft.size_addBlock]
      exact Nat.lt_succ_self _
  | tail hlower _ ih =>
      have hgrown := (lowerStmt_ok hlower .done).outgrows hcur
      exact ih fun c hc => (hgrown.next_new c hc).1
  | thenArm _ ih =>
      refine ih fun c hc => ?_
      cases hc
      rw [Draft.size_openArms]
      omega
  | @elseArm loop id test arm orelse rest cur thenEnd d d₁ stmt block d' hlower _ ih =>
      have hopen : ∀ c, some d.size = some c → c < (d.openArms cur test).size := by
        intro c hc
        cases hc
        rw [Draft.size_openArms]
        omega
      have hsize := ((lowerBody_ok hlower).outgrows hopen).extends_.size_le
      rw [Draft.size_openArms] at hsize
      refine ih fun c hc => ?_
      cases hc
      omega
  | loop _ _ ih =>
      refine ih fun c hc => ?_
      cases hc
      rw [Draft.size_openBody]
      omega

/-- A graph in which every number of a block or an edge is that of one. -/
structure Indexed (g : FlowGraph) : Prop where
  entry_lt : g.entry < g.size
  exit_lt : g.exit < g.size
  edge_lt : ∀ e ∈ g.edges, e.source < g.size ∧ e.target < g.size
  incoming_lt : ∀ b ∈ g.blocks, ∀ e ∈ b.incoming, e < g.edges.size
  outgoing_lt : ∀ b ∈ g.blocks, ∀ e ∈ b.outgoing, e < g.edges.size
  /-- Every block has exactly one place in the order. -/
  order : g.reversePostorder.Perm (List.range g.size)

def ordering (g : FlowGraph) : StackSearch Nat :=
  StackSearch.search g.successors (List.range g.size) g.entry

/-- The blocks of a graph lead to no others. -/
theorem successors_mem_range {g : FlowGraph} (hlt : ∀ e ∈ g.edges, e.target < g.size)
    (hout : ∀ b < g.size, ∀ e ∈ g.outgoing b, e ∈ g.edges) :
    ∀ b ∈ List.range g.size, ∀ c ∈ g.successors b, c ∈ List.range g.size := by
  intro b hb c hc
  obtain ⟨e, he, rfl⟩ := List.mem_map.1 hc
  exact List.mem_range.2 (hlt e (hout b (List.mem_range.1 hb) e he))

/-- Some numbers below a bound, and then the others. -/
theorem perm_append_rest {l : List Nat} {n : Nat} (hl : l.Nodup) (hlt : ∀ b ∈ l, b < n) :
    (l ++ (List.range n).filter fun b => !l.contains b).Perm (List.range n) := by
  have hfront : l.Perm ((List.range n).filter fun b => l.contains b) := by
    refine (List.perm_ext_iff_of_nodup hl (List.nodup_range.filter _)).2 fun b => ?_
    rw [List.mem_filter, List.mem_range, List.contains_iff_mem]
    exact ⟨fun hb => ⟨hlt b hb, hb⟩, fun hb => hb.2⟩
  exact (hfront.append_right _).trans (List.filter_append_perm _ _)

namespace Draft

variable {d : Draft} (function : String)

/-- Both ends of a block list numbers of edges. -/
theorem lt_of_mem_finish_block {b : Block} (hb : b ∈ (d.finish function).blocks) {e : Nat}
    (he : e ∈ b.incoming ∨ e ∈ b.outgoing) : e < (d.finish function).edges.size := by
  have hids (test : Edge → Bool) (h : e ∈ edgeIds (d.finish function).edges.toList test) :
      e < (d.finish function).edges.size := by
    obtain ⟨edge, hedge, -⟩ := mem_edgeIds.1 h
    rw [← Array.length_toList]
    exact (List.getElem?_eq_some_iff.1 hedge).1
  obtain ⟨⟨raw, i⟩, -, rfl⟩ := List.mem_map.1 (List.mem_toArray.1 hb)
  exact he.elim (hids fun e => decide (e.target = i)) (hids fun e => decide (e.source = i))

theorem finish_successors_mem : ∀ b ∈ List.range (d.finish function).size,
    ∀ c ∈ (d.finish function).successors b, c ∈ List.range (d.finish function).size := by
  refine successors_mem_range (fun e he => ?_) fun b hb e he => ?_
  · obtain ⟨e', -, -, htarget, rfl⟩ := (mem_finish_edges function).1 he
    rw [finish_size]
    exact InRange.number_lt htarget
  · rw [finish_outgoing function (by simpa using hb)] at he
    exact Array.mem_toList_iff.1 (List.mem_filter.1 he).1

theorem finish_entry_mem (h : d.InRange) :
    (d.finish function).entry ∈ List.range (d.finish function).size := by
  rw [List.mem_range, finish_size]
  exact InRange.number_lt h.entry_kept

/-- The search orders the blocks that the entry leads to; the others follow. -/
theorem finish_reversePostorder (h : d.InRange) :
    (d.finish function).reversePostorder = (d.finish function).ordering.left ++
      (List.range (d.finish function).size).filter fun b =>
        !(d.finish function).ordering.left.contains b := by
  refine congrArg (_ ++ ·) (List.filter_congr fun b _ => congrArg (! ·) (Bool.eq_iff_iff.2 ?_))
  rw [List.contains_iff_mem, List.contains_iff_mem]
  exact StackSearch.mem_entered_search (finish_successors_mem function)
    (finish_entry_mem function h)

theorem finish_order (h : d.InRange) :
    (d.finish function).reversePostorder.Perm (List.range (d.finish function).size) := by
  rw [finish_reversePostorder function h]
  refine perm_append_rest (StackSearch.nodup_left_search _ _ _) fun b hb => List.mem_range.1 ?_
  exact ((StackSearch.mem_left_search (finish_successors_mem function)
    (finish_entry_mem function h)).1 hb).mem (finish_successors_mem function)
      (finish_entry_mem function h)

/-- A draft whose edges join blocks finishes to a graph without loose numbers. -/
theorem finish_indexed (h : d.InRange) : (d.finish function).Indexed where
  entry_lt := by
    rw [finish_size]
    exact InRange.number_lt h.entry_kept
  exit_lt := by
    rw [finish_size]
    exact InRange.number_lt h.exit_kept
  edge_lt e he := by
    obtain ⟨e', -, hsource, htarget, rfl⟩ := (mem_finish_edges function).1 he
    rw [finish_size]
    exact ⟨InRange.number_lt hsource, InRange.number_lt htarget⟩
  incoming_lt _ hb _ he := lt_of_mem_finish_block function hb (.inl he)
  outgoing_lt _ hb _ he := lt_of_mem_finish_block function hb (.inr he)
  order := finish_order function h

end Draft

/-- The draft of a body whose end, if it has one, leads to the exit. -/
def Draft.close (d : Draft) (last : Option Nat) : Draft :=
  last.toList.foldl (fun d b => d.addEdge b exitId .sequential) d

/-- Whether all that is looked up for a body exists: the blocks into which it is lowered, the ends
of the edges of the draft that is finished, and the blocks and edges of the graph. -/
structure BuildsInRange (u : Owner) (body : List Stmt) : Prop where
  block_lt : ∀ stmt block d,
    Comes u none body (some entryId) Draft.initial stmt block d → block < d.size
  draft : ∀ d last, lowerBody u none body (some entryId) Draft.initial = .ok (d, last) →
    (d.close last).InRange
  graph : ∀ g, build u body = .ok g → g.Indexed

/-- Whatever body is lowered, all that is looked up for it exists. -/
theorem buildsInRange (u : Owner) (body : List Stmt) : BuildsInRange u body := by
  have hdraft : ∀ d last, lowerBody u none body (some entryId) Draft.initial = .ok (d, last) →
      (d.close last).InRange := by
    intro d last hlower
    have hsettled := (lowerBody_ok hlower).settled (l := [exitId]) Settled.initial (by decide)
      fun f hf => nomatch hf
    have hclosed : Settled (d.close last) [exitId] :=
      hsettled.jumpAll (hsettled.pending_lt _ (by simp)) rfl
    exact ⟨hclosed.pending_lt _ List.mem_cons_self, hclosed.edge_lt⟩
  refine ⟨fun stmt block d h => h.block_lt fun c hc => ?_, hdraft, fun g hg => ?_⟩
  · cases hc
    decide
  · rw [build] at hg
    obtain ⟨⟨d, last⟩, hlower, hfinish⟩ := of_bind_ok hg
    cases hfinish
    exact Draft.finish_indexed u.function (hdraft d last hlower)

end FlowGraph

end ValueFlow
