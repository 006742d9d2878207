import ValueFlow.Proofs.FlowGraph.Drafts
import ValueFlow.Proofs.Search
/-!
How the blocks of a finished graph hang together.

Finishing a draft drops the blocks that the entry does not lead to and numbers the others anew.
`Draft.Kept` and `Draft.number` say which blocks stay and where; `Wired` collects what holds of
every graph that `build` returns.
-/

namespace ValueFlow

namespace FlowGraph

open Relation (ReflTransGen)

section Blocks

variable {g : FlowGraph} {b : Nat}

/-- A number without a block has neither items nor edges. -/
theorem block_of_not_lt (hb : ¬ b < g.size) : g.block b = ⟨b, .statement, [], [], []⟩ := by
  rw [block, Array.getD_eq_getD_getElem?, Array.getElem?_eq_none (Nat.not_lt.1 hb)]
  rfl

theorem lt_size_of_getElem? {k : Nat} {i : BlockItem} (hi : (g.block b).items[k]? = some i) :
    b < g.size := by
  refine Decidable.byContradiction fun hb => ?_
  rw [block_of_not_lt hb] at hi
  cases hi

end Blocks

section EdgeLists

/-- The numbers of the edges that pass a test. -/
def edgeIds (edges : List Edge) (test : Edge → Bool) : List Nat :=
  edges.zipIdx.filterMap fun p => if test p.1 then some p.2 else none

theorem edgeIds_eq (edges : List Edge) (test : Edge → Bool) :
    edgeIds edges test = (edges.zipIdx.filter fun p => test p.1).map Prod.snd := by
  rw [edgeIds]
  induction edges.zipIdx with
  | nil => rfl
  | cons p l ih =>
      rw [List.filterMap_cons, List.filter_cons]
      by_cases h : test p.1
      · simp only [h, if_true, List.map_cons, ih]
      · simp only [h, Bool.false_eq_true, if_false, ih]

theorem mem_edgeIds {edges : List Edge} {test : Edge → Bool} {i : Nat} :
    i ∈ edgeIds edges test ↔ ∃ e, edges[i]? = some e ∧ test e = true := by
  rw [edgeIds_eq, List.mem_map]
  constructor
  · rintro ⟨⟨e, j⟩, hp, rfl⟩
    obtain ⟨hp, htest⟩ := List.mem_filter.1 hp
    exact ⟨e, List.mk_mem_zipIdx_iff_getElem?.1 hp, htest⟩
  · rintro ⟨e, he, htest⟩
    exact ⟨(e, i), List.mem_filter.2 ⟨List.mk_mem_zipIdx_iff_getElem?.2 he, htest⟩, rfl⟩

/-- The numbers of the edges that pass a test, read back as edges. -/
theorem filterMap_zipIdx_getElem? (test : Edge → Bool) (front l : List Edge) :
    ((l.zipIdx front.length).filterMap fun p => if test p.1 then some p.2 else none).filterMap
      (fun i => (front ++ l)[i]?) = l.filter test := by
  induction l generalizing front with
  | nil => rfl
  | cons e l ih =>
      have rest := ih (front ++ [e])
      rw [List.length_append, List.length_singleton, List.append_assoc] at rest
      simp only [List.singleton_append] at rest
      rw [List.zipIdx_cons, List.filterMap_cons, List.filter_cons]
      by_cases h : test e
      · simp only [h, if_true, List.filterMap_cons]
        rw [List.getElem?_append_right (Nat.le_refl _), Nat.sub_self, List.getElem?_cons_zero, rest]
      · simp only [h]
        exact rest

theorem edgesOf_edgeIds (g : FlowGraph) (test : Edge → Bool) :
    g.edgesOf (edgeIds g.edges.toList test) = g.edges.toList.filter test := by
  rw [← filterMap_zipIdx_getElem? test [] g.edges.toList]
  simp only [edgesOf, edgeIds, List.length_nil, List.nil_append, Array.getElem?_toList]

end EdgeLists

namespace Draft

variable (d : Draft)

def nexts (b : Nat) : List Nat :=
  d.edges.toList.filterMap fun e => if e.source = b then some e.target else none

/-- The entry leads to a block. -/
def Reached (b : Nat) : Prop := Search.Leads d.nexts entryId b

def number (b : Nat) : Nat := d.kept.idxOf b

/-- An edge with the numbers of the finished graph. -/
def renumber (e : Edge) : Edge := { e with source := d.number e.source, target := d.number e.target }

variable {d}

theorem mem_nexts {b c : Nat} : c ∈ d.nexts b ↔ ∃ e ∈ d.edges, e.source = b ∧ e.target = c := by
  simp only [nexts, List.mem_filterMap, Array.mem_toList_iff, Option.ite_none_right_eq_some,
    Option.some.injEq]

theorem Reached.step {b : Nat} (h : d.Reached b) {e : Edge} (he : e ∈ d.edges)
    (hs : e.source = b) : d.Reached e.target :=
  ReflTransGen.tail h (mem_nexts.2 ⟨e, he, hs, rfl⟩)

theorem reached_entry : d.Reached entryId := ReflTransGen.refl

/-- Whether every edge joins two blocks and there are an entry and an exit. -/
structure InRange (d : Draft) : Prop where
  exit_lt : exitId < d.size
  edge_lt : ∀ e ∈ d.edges, e.source < d.size ∧ e.target < d.size

namespace InRange

variable (h : d.InRange)
include h

theorem entry_lt : entryId < d.size := Nat.lt_trans Nat.zero_lt_one h.exit_lt

theorem mem_kept {b : Nat} : b ∈ d.kept ↔ b < d.size ∧ (d.Reached b ∨ b = exitId) := by
  have hnodes : ∀ a ∈ List.range d.size, ∀ b ∈ d.nexts a, b ∈ List.range d.size := by
    intro a _ b hb
    obtain ⟨e, he, -, rfl⟩ := mem_nexts.1 hb
    exact List.mem_range.2 (h.edge_lt e he).2
  have hroots : [entryId] ⊆ List.range d.size :=
    List.cons_subset.2 ⟨List.mem_range.2 h.entry_lt, List.nil_subset _⟩
  have entered : b ∈ (Search.visitAll d.nexts (d.size + 1) [entryId]).entered ↔ d.Reached b := by
    rw [Search.mem_entered_visitAll hnodes (by simp) hroots]
    simp [Reached]
  have hkept : d.kept = (List.range d.size).filter fun b =>
    (Search.visitAll d.nexts (d.size + 1) [entryId]).entered.contains b || b = exitId := rfl
  rw [hkept, List.mem_filter, List.mem_range, Bool.or_eq_true, List.contains_iff_mem,
    decide_eq_true_eq, entered]

omit h in
theorem nodup_kept : d.kept.Nodup := List.nodup_range.filter _

theorem reached_lt {b : Nat} (hb : d.Reached b) : b < d.size := by
  rcases ReflTransGen.cases_tail hb with rfl | ⟨c, -, hc⟩
  · exact h.entry_lt
  · obtain ⟨e, he, -, rfl⟩ := mem_nexts.1 hc
    exact (h.edge_lt e he).2

theorem kept_of_reached {b : Nat} (hb : d.Reached b) : b ∈ d.kept :=
  h.mem_kept.2 ⟨h.reached_lt hb, .inl hb⟩

theorem entry_kept : entryId ∈ d.kept := h.kept_of_reached reached_entry

theorem exit_kept : exitId ∈ d.kept := h.mem_kept.2 ⟨h.exit_lt, .inr rfl⟩

omit h in
theorem kept_getElem {b : Nat} (hb : b ∈ d.kept) : d.kept[d.number b]? = some b := by
  rw [number, List.getElem?_eq_getElem (List.idxOf_lt_length_of_mem hb), List.getElem_idxOf]

omit h in
theorem number_lt {b : Nat} (hb : b ∈ d.kept) : d.number b < d.kept.length :=
  List.idxOf_lt_length_of_mem hb

omit h in
theorem number_inj {b c : Nat} (hb : b ∈ d.kept) (hc : c ∈ d.kept)
    (heq : d.number b = d.number c) : b = c := by
  have hb' := kept_getElem hb
  rw [heq, kept_getElem hc] at hb'
  exact (Option.some.inj hb').symm

omit h in
/-- Every number of the finished graph is that of a block that stays. -/
theorem exists_number {i : Nat} (hi : i < d.kept.length) : ∃ b ∈ d.kept, d.number b = i :=
  ⟨d.kept[i], List.getElem_mem hi, nodup_kept.idxOf_getElem i hi⟩

end InRange

section Finish

variable (d) (function : String)

theorem finish_edges : (d.finish function).edges.toList =
    (d.edges.toList.filter fun e => d.kept.contains e.source && d.kept.contains e.target).map
      d.renumber := rfl

@[simp] theorem finish_size : (d.finish function).size = d.kept.length := by
  simp [FlowGraph.size, finish]

theorem finish_exit : (d.finish function).exit = d.number exitId := rfl

variable {d}

theorem mem_finish_edges {e : Edge} : e ∈ (d.finish function).edges ↔
    ∃ e' ∈ d.edges, e'.source ∈ d.kept ∧ e'.target ∈ d.kept ∧ d.renumber e' = e := by
  rw [← Array.mem_toList_iff, finish_edges, List.mem_map]
  simp only [List.mem_filter, Array.mem_toList_iff, Bool.and_eq_true, List.contains_iff_mem,
    and_assoc]

/-- A block of the finished graph: that of the draft which stays at this place, with the numbers of
the edges at its ends. -/
theorem finish_block_eq {i : Nat} (hi : i < d.kept.length) :
    (d.finish function).block i =
      { id := i, kind := d.kindOf d.kept[i], items := d.items d.kept[i]
        incoming := edgeIds (d.finish function).edges.toList fun e => e.target = i
        outgoing := edgeIds (d.finish function).edges.toList fun e => e.source = i } := by
  simp only [FlowGraph.block, finish, Array.getD_eq_getD_getElem?, List.getElem?_toArray,
    List.getElem?_map, List.getElem?_zipIdx, List.getElem?_eq_getElem hi, Option.map_some,
    Option.getD_some, Nat.zero_add, items, kindOf, edgeIds]

theorem finish_block {b : Nat} (hb : b ∈ d.kept) :
    ((d.finish function).block (d.number b)).items = d.items b ∧
      ((d.finish function).block (d.number b)).kind = d.kindOf b := by
  have hlt := InRange.number_lt hb
  have hget : d.kept[d.number b] = b := List.getElem_idxOf hlt
  rw [finish_block_eq function hlt, hget]
  exact ⟨rfl, rfl⟩

theorem finish_outgoing {i : Nat} (hi : i < d.kept.length) :
    (d.finish function).outgoing i =
      (d.finish function).edges.toList.filter fun e => e.source = i := by
  rw [FlowGraph.outgoing, finish_block_eq function hi, edgesOf_edgeIds]

theorem finish_incoming {i : Nat} (hi : i < d.kept.length) :
    (d.finish function).incoming i =
      (d.finish function).edges.toList.filter fun e => e.target = i := by
  rw [FlowGraph.incoming, finish_block_eq function hi, edgesOf_edgeIds]

variable (h : d.InRange)
include h

/-- The edges out of a reached block lead to reached blocks, so none of them is lost. -/
theorem finish_outs {b : Nat} (hb : d.Reached b) :
    (d.finish function).outgoing (d.number b) = (d.outs b).map d.renumber := by
  have hkept := h.kept_of_reached hb
  rw [finish_outgoing function (InRange.number_lt hkept), finish_edges, List.filter_map,
    List.filter_filter, outs]
  congr 1
  refine List.filter_congr fun e he => ?_
  have he' := Array.mem_toList_iff.1 he
  by_cases hs : e.source = b
  · have htarget : e.target ∈ d.kept := h.kept_of_reached (hb.step he' hs)
    simp [renumber, hs, hkept, htarget]
  · by_cases hm : e.source ∈ d.kept
    · have hne : d.number e.source ≠ d.number b :=
        fun heq => hs (InRange.number_inj hm hkept heq)
      simp [renumber, hs, hne]
    · simp [hs, hm]

end Finish

end Draft

/-- A block leads to another along any number of edges. -/
def Leads (g : FlowGraph) : Nat → Nat → Prop :=
  ReflTransGen fun b c => ∃ e ∈ g.edges, e.source = b ∧ e.target = c

/-- What holds of every finished graph: edges join blocks and are listed at both ends, the entry
leads to every block except perhaps the exit, and only the exit has no edge out. -/
structure Wired (g : FlowGraph) : Prop where
  entry_lt : g.entry < g.size
  exit_lt : g.exit < g.size
  edge_lt : ∀ e ∈ g.edges, e.source < g.size ∧ e.target < g.size
  outgoing_eq : ∀ b, g.outgoing b = g.edges.toList.filter fun e => e.source = b
  incoming_eq : ∀ b, g.incoming b = g.edges.toList.filter fun e => e.target = b
  entry_leads : ∀ b < g.size, b ≠ g.exit → g.Leads g.entry b
  exit_outgoing : g.outgoing g.exit = []
  finished : ∀ b < g.size, b ≠ g.exit → Finished (g.outgoing b)

namespace Wired

variable {g : FlowGraph} (h : g.Wired)
include h

theorem mem_outgoing {e : Edge} {b : Nat} : e ∈ g.outgoing b ↔ e ∈ g.edges ∧ e.source = b := by
  rw [h.outgoing_eq, List.mem_filter, Array.mem_toList_iff, decide_eq_true_eq]

theorem mem_incoming {e : Edge} {b : Nat} : e ∈ g.incoming b ↔ e ∈ g.edges ∧ e.target = b := by
  rw [h.incoming_eq, List.mem_filter, Array.mem_toList_iff, decide_eq_true_eq]

theorem mem_successors {b c : Nat} :
    c ∈ g.successors b ↔ ∃ e ∈ g.edges, e.source = b ∧ e.target = c := by
  simp only [FlowGraph.successors, List.mem_map, h.mem_outgoing, and_assoc]

theorem source_ne_exit {e : Edge} (he : e ∈ g.edges) : e.source ≠ g.exit := by
  intro hs
  have := h.mem_outgoing.2 ⟨he, hs⟩
  rw [h.exit_outgoing] at this
  exact List.not_mem_nil this

/-- The entry leads to the source of every edge. -/
theorem leads_source {e : Edge} (he : e ∈ g.edges) : g.Leads g.entry e.source :=
  h.entry_leads e.source (h.edge_lt e he).1 (h.source_ne_exit he)

end Wired

theorem finished_map (f : Edge → Edge) (hf : ∀ e, (f e).kind = e.kind) {outs : List Edge}
    (h : Finished outs) : Finished (outs.map f) := by
  rcases h with ⟨e, rfl, he⟩ | ⟨t, f', rfl, ht, hf'⟩
  · exact .inl ⟨f e, rfl, by rw [hf, he]⟩
  · exact .inr ⟨f t, f f', rfl, by rw [hf, ht], by rw [hf, hf']⟩

namespace Draft

variable {d : Draft} (function : String)

theorem leads_of_reached (h : d.InRange) {b : Nat} (hb : d.Reached b) :
    (d.finish function).Leads (d.number entryId) (d.number b) := by
  have hb' : Search.Leads d.nexts entryId b := hb
  induction hb' with
  | refl => exact ReflTransGen.refl
  | @tail b c hab hbc ih =>
      obtain ⟨e, he, rfl, rfl⟩ := mem_nexts.1 hbc
      have hs : d.Reached e.source := hab
      refine ReflTransGen.tail (ih hs) ⟨d.renumber e, (mem_finish_edges function).2 ?_, rfl, rfl⟩
      exact ⟨e, he, h.kept_of_reached hs, h.kept_of_reached (hs.step he rfl), rfl⟩

/-- A draft whose only block without edges out is the exit finishes to a wired graph. -/
theorem finish_wired (hs : Settled d [exitId]) : (d.finish function).Wired := by
  have h : d.InRange := ⟨hs.pending_lt _ List.mem_cons_self, hs.edge_lt⟩
  have hlt : ∀ {b}, b ∈ d.kept → d.number b < (d.finish function).size := fun hb => by
    rw [finish_size]
    exact InRange.number_lt hb
  have hedge : ∀ e ∈ (d.finish function).edges,
      e.source < (d.finish function).size ∧ e.target < (d.finish function).size := by
    intro e he
    obtain ⟨e', -, hsource, htarget, rfl⟩ := (mem_finish_edges function).1 he
    exact ⟨hlt hsource, hlt htarget⟩
  have reached : ∀ b < (d.finish function).size, b ≠ (d.finish function).exit →
      ∃ c, d.Reached c ∧ c ≠ exitId ∧ d.number c = b := by
    intro b hb hne
    rw [finish_size] at hb
    obtain ⟨c, hc, rfl⟩ := InRange.exists_number hb
    have hne' : c ≠ exitId := by
      rintro rfl
      exact hne rfl
    exact ⟨c, (h.mem_kept.1 hc).2.resolve_right hne', hne', rfl⟩
  refine
    { entry_lt := hlt h.entry_kept
      exit_lt := hlt h.exit_kept
      edge_lt := hedge
      outgoing_eq := fun b => ?_
      incoming_eq := fun b => ?_
      entry_leads := fun b hb hne => ?_
      exit_outgoing := ?_
      finished := fun b hb hne => ?_ }
  · by_cases hb : b < (d.finish function).size
    · exact finish_outgoing function (by simpa using hb)
    · rw [FlowGraph.outgoing, block_of_not_lt hb]
      refine (List.filter_eq_nil_iff.2 fun e he hs => hb ?_).symm
      exact of_decide_eq_true hs ▸ (hedge e (Array.mem_toList_iff.1 he)).1
  · by_cases hb : b < (d.finish function).size
    · exact finish_incoming function (by simpa using hb)
    · rw [FlowGraph.incoming, block_of_not_lt hb]
      refine (List.filter_eq_nil_iff.2 fun e he hs => hb ?_).symm
      exact of_decide_eq_true hs ▸ (hedge e (Array.mem_toList_iff.1 he)).2
  · obtain ⟨c, hc, -, rfl⟩ := reached b hb hne
    exact leads_of_reached function h hc
  · rw [finish_exit, finish_outgoing function (InRange.number_lt h.exit_kept)]
    refine List.filter_eq_nil_iff.2 fun e he hsource => ?_
    obtain ⟨e', he', hkept, -, rfl⟩ := (mem_finish_edges function).1 (Array.mem_toList_iff.1 he)
    have heq : e'.source = exitId :=
      InRange.number_inj hkept h.exit_kept (of_decide_eq_true hsource)
    have hmem : e' ∈ d.outs exitId :=
      List.mem_filter.2 ⟨Array.mem_toList_iff.2 he', decide_eq_true heq⟩
    rw [hs.pending_outs exitId List.mem_cons_self] at hmem
    exact List.not_mem_nil hmem
  · obtain ⟨c, hc, hne', rfl⟩ := reached b hb hne
    rw [finish_outs function h hc]
    exact finished_map d.renumber (fun _ => rfl)
      (hs.finished c (h.reached_lt hc) (by simpa using hne'))

end Draft

/-- The body of a graph that is built is lowered from the entry; the end of the body leads to the
exit, and what stays is numbered anew. -/
theorem build_ok {u : Owner} {body : List Stmt} {g : FlowGraph} (h : build u body = .ok g) :
    ∃ d last, Lowers u none body (some entryId) Draft.initial d last ∧
      Settled (last.toList.foldl (fun d b => d.addEdge b exitId .sequential) d) [exitId] ∧
      g = (last.toList.foldl (fun d b => d.addEdge b exitId .sequential) d).finish u.function := by
  rw [build] at h
  obtain ⟨⟨d, last⟩, hlower, hfinish⟩ := of_bind_ok h
  have lowers := lowerBody_ok hlower
  have settled := lowers.settled (l := [exitId]) Settled.initial (by decide)
    fun f hf => nomatch hf
  refine ⟨d, last, lowers, settled.jumpAll (settled.pending_lt _ (by simp)) rfl, ?_⟩
  cases hfinish
  rfl

/-- Every graph that is built is wired. -/
theorem build_wired {u : Owner} {body : List Stmt} {g : FlowGraph} (h : build u body = .ok g) :
    g.Wired := by
  obtain ⟨d, last, -, settled, rfl⟩ := build_ok h
  exact Draft.finish_wired u.function settled

end FlowGraph

end ValueFlow
