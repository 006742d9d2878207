import ValueFlow.Proofs.FlowGraph.Conditions
import ValueFlow.Proofs.FlowGraph.Ordering
/-!
What holds of every flow graph that is built.

Main statement: `build_wellFormed`.
-/

namespace ValueFlow

namespace FlowGraph

/-- A graph that can be iterated over in its reverse postorder. -/
structure WellFormed (g : FlowGraph) : Prop where
  id_eq : ∀ b < g.size, (g.block b).id = b
  entry_eq : g.entry = 0
  exit_eq : g.exit = 1
  exit_lt : g.exit < g.size
  edge_lt : ∀ e ∈ g.edges, e.source < g.size ∧ e.target < g.size
  /-- The number of an edge stands once among the outgoing edges of its source. -/
  outgoing_count : ∀ b < g.size, ∀ i, (g.block b).outgoing.count i =
    if g.edges[i]?.map Edge.source = some b then 1 else 0
  /-- The number of an edge stands once among the incoming edges of its target. -/
  incoming_count : ∀ b < g.size, ∀ i, (g.block b).incoming.count i =
    if g.edges[i]?.map Edge.target = some b then 1 else 0
  reached : ∀ b < g.size, b ≠ g.exit → ∃ path, g.Path g.entry b path
  conditionLast : ∀ b < g.size, ConditionLast (g.block b).items
  finished : ∀ b < g.size, b ≠ g.exit → Finished (g.outgoing b)
  order_perm : g.reversePostorder.Perm (List.range g.size)
  order_head : g.reversePostorder.head? = some g.entry
  forward : ∀ e ∈ g.edges, e.kind ≠ .loopBack → g.position e.source < g.position e.target
  back : ∀ e ∈ g.edges, e.kind = .loopBack → g.position e.target < g.position e.source ∧
    g.isLoopHeader e.target = true ∧ g.Dominates e.target e.source
  /-- A path back to its start, which has more than one block on it, comes to a loop header. -/
  cycle : ∀ b path, g.Path b b path → 1 < path.length →
    ∃ header ∈ path, g.isLoopHeader header = true

section EdgeNumbers

theorem nodup_edgeIds (edges : List Edge) (test : Edge → Bool) : (edgeIds edges test).Nodup := by
  rw [edgeIds_eq]
  refine List.Nodup.sublist (List.filter_sublist.map _) ?_
  rw [List.zipIdx_map_snd]
  exact List.nodup_range'

/-- The number of an edge is listed once where the edge has the right key. -/
theorem count_edgeIds (edges : Array Edge) (key : Edge → Nat) (b i : Nat) :
    (edgeIds edges.toList fun e => key e = b).count i =
      if edges[i]?.map key = some b then 1 else 0 := by
  rw [(nodup_edgeIds _ _).count]
  refine if_congr ?_ rfl rfl
  rw [mem_edgeIds, Option.map_eq_some_iff, Array.getElem?_toList]
  simp only [decide_eq_true_eq]

end EdgeNumbers

namespace Draft

variable {d : Draft} (function : String)

/-- Dropping blocks moves no block up. -/
theorem number_le {b : Nat} (hb : b ∈ d.kept) : d.number b ≤ b := by
  have hsorted : d.kept.Pairwise (· < ·) := List.pairwise_lt_range.filter _
  have le_getElem : ∀ i (hi : i < d.kept.length), i ≤ d.kept[i] := by
    intro i
    induction i with
    | zero => exact fun _ => Nat.zero_le _
    | succ i ih =>
        intro hi
        exact Nat.lt_of_le_of_lt (ih (Nat.lt_of_succ_lt hi))
          (List.pairwise_iff_getElem.1 hsorted i (i + 1) _ hi (Nat.lt_succ_self i))
  exact Nat.le_trans (le_getElem _ (InRange.number_lt hb))
    (Nat.le_of_eq (List.getElem_idxOf (InRange.number_lt hb)))

variable (h : d.InRange)
include h

theorem finish_entry_eq : (d.finish function).entry = 0 := Nat.le_zero.1 (number_le h.entry_kept)

theorem finish_exit_eq : (d.finish function).exit = 1 := by
  have hle : d.number exitId ≤ 1 := number_le h.exit_kept
  have hentry : d.number entryId = 0 := finish_entry_eq function h
  have hne : d.number exitId ≠ d.number entryId := fun heq =>
    absurd (InRange.number_inj h.exit_kept h.entry_kept heq) (by decide)
  rw [finish_exit]
  omega

end Draft

/-- A block that the search leaves after another stands before it in the order. -/
theorem position_lt {g : FlowGraph} {rest : List Nat}
    (horder : g.reversePostorder = g.ordering.left ++ rest) {a b : Nat}
    (h : [a, b].Sublist g.ordering.left) : g.position a < g.position b := by
  rw [position, position, horder]
  exact idxOf_lt_of_sublist (StackSearch.nodup_left_search _ _ _) h

/-- Every graph that is built is well formed. -/
theorem build_wellFormed {u : Owner} {body : List Stmt} {g : FlowGraph} (h : build u body = .ok g) :
    g.WellFormed := by
  have wired := build_wired h
  have dominates := build_dominates h
  have conditions := fun b hb => conditionLast_of_build (b := b) h hb
  obtain ⟨rank, ascends⟩ := build_ascends h
  obtain ⟨rank', climbs⟩ := build_climbs h
  obtain ⟨d, last, -, settled, rfl⟩ := build_ok h
  generalize last.toList.foldl (fun d b => d.addEdge b exitId .sequential) d = D at *
  have range : D.InRange := ⟨settled.pending_lt _ List.mem_cons_self, settled.edge_lt⟩
  have horder := Draft.finish_reversePostorder u.function range
  have hkept : ∀ {b}, b < (D.finish u.function).size → b < D.kept.length := fun hb => by
    rwa [Draft.finish_size] at hb
  exact
    { id_eq := fun b hb => by rw [Draft.finish_block_eq u.function (hkept hb)]
      entry_eq := Draft.finish_entry_eq u.function range
      exit_eq := Draft.finish_exit_eq u.function range
      exit_lt := wired.exit_lt
      edge_lt := wired.edge_lt
      outgoing_count := fun b hb => by
        rw [Draft.finish_block_eq u.function (hkept hb)]
        exact count_edgeIds _ Edge.source b
      incoming_count := fun b hb => by
        rw [Draft.finish_block_eq u.function (hkept hb)]
        exact count_edgeIds _ Edge.target b
      reached := fun b hb hne =>
        Search.Path.exists_of_leads (wired.leads_successors (wired.entry_leads b hb hne))
      conditionLast := conditions
      finished := wired.finished
      order_perm := Draft.finish_order u.function range
      order_head := by
        rw [horder, List.head?_append, ordering, StackSearch.head?_left_search
          wired.successors_mem_range (List.mem_range.2 wired.entry_lt)]
        rfl
      forward := fun e he hk =>
        position_lt horder (forward_sublist wired ascends dominates he hk)
      back := fun e he hk => by
        have hheader := ascends e he
        rw [if_pos hk] at hheader
        exact ⟨position_lt horder (back_sublist wired dominates he hk), hheader,
          (dominates e he hk).2⟩
      cycle := fun b path hpath hlen => by
        rcases exists_header_of_path wired climbs hpath with hheader | ⟨rfl, -⟩ | hlt
        · exact hheader
        · exact absurd hlen (Nat.lt_irrefl 1)
        · exact absurd hlt (Nat.lt_irrefl _) }

/-- Counts down until a condition holds. -/
def countdown : List Stmt :=
  [.whileLoop 0 (.name 1 "n")
    [.ifElse 2 (.name 3 "done") [.brk 4, .pass 5] [.pass 6, .cont 7], .pass 8], .ret 9 none]

theorem build_wellFormed_countdown :
    ∃ g, build ⟨"f", true⟩ countdown = .ok g ∧ g.WellFormed := by
  have hbuilt : ∃ g, build ⟨"f", true⟩ countdown = .ok g := ⟨_, rfl⟩
  obtain ⟨g, hg⟩ := hbuilt
  exact ⟨g, hg, build_wellFormed hg⟩

end FlowGraph

end ValueFlow
