import ValueFlow.Proofs.FlowGraph.LoopHeaders
import ValueFlow.Proofs.FlowGraph.LoopRegions
import ValueFlow.Proofs.FlowGraph.Lookups
/-!
The reverse postorder goes forward along every edge that does not lead back.

An edge back leads to a block that lies on every path to its source (`build_dominates`). A path
without repetitions therefore follows no edge back, so it climbs the ranks of a graph, and an edge
to a block on the path to its source would have to descend. Main statements: `forward_sublist` and
`back_sublist` for the order in which the search leaves the blocks, and `exists_header_of_path`.
-/

namespace ValueFlow

namespace Search

variable {α : Type} {next : α → List α} {a b header : α} {nodes : List α}

/-- A path into some nodes that can be entered through one node only passes through that node. -/
theorem Path.header_mem (inside : α → Prop) (hstart : ¬ inside a)
    (henter : ∀ b, ∀ c ∈ next b, inside c → inside b ∨ b = header) (h : Path next a b nodes)
    (hb : inside b ∨ b = header) : header ∈ nodes := by
  induction h with
  | start => exact List.mem_singleton.2 (hb.resolve_left hstart).symm
  | @step b c nodes h hc ih =>
      rcases hb with hin | rfl
      · exact List.mem_cons_of_mem _ (ih (henter b c hc hin))
      · exact List.mem_cons_self

end Search

namespace FlowGraph

/-- The earlier of two nodes that a list has in this order has the lower index. -/
theorem idxOf_lt_of_sublist {α : Type} [BEq α] [LawfulBEq α] {a b : α} {l rest : List α}
    (hl : l.Nodup) (h : [a, b].Sublist l) : (l ++ rest).idxOf a < (l ++ rest).idxOf b := by
  obtain ⟨front, back, rfl, ha, hb⟩ := List.cons_sublist_iff.1 h
  have hb' : b ∉ front := fun hfront =>
    List.disjoint_of_nodup_append hl hfront (List.singleton_sublist.1 hb)
  rw [List.append_assoc, List.idxOf_append_of_mem ha, List.idxOf_append_of_notMem hb']
  exact Nat.lt_add_right _ (List.idxOf_lt_length_of_mem ha)

/-- A path along the edges of a graph, with all blocks on it, the last one in front. -/
def Path (g : FlowGraph) : Nat → Nat → List Nat → Prop := Search.Path g.successors

/-- A block lies on every path from the entry to another. -/
def Dominates (g : FlowGraph) (a b : Nat) : Prop := ∀ path, g.Path g.entry b path → a ∈ path

/-- Every edge back leads to another block, which lies on every path to its source. -/
def BacksDominate (g : FlowGraph) : Prop :=
  ∀ e ∈ g.edges, e.kind = .loopBack → e.source ≠ e.target ∧ g.Dominates e.target e.source

namespace Draft

variable {d : Draft} (function : String) (hs : Settled d [exitId])
include hs

/-- What closes a loop of a draft leads back to a block that lies on every path to its source. -/
theorem finish_dominates {e : Edge} {bound : Nat} (hsource : e.source ∈ d.kept)
    (htarget : e.target ∈ d.kept) (hcloses : d.Closes bound e) :
    d.number e.source ≠ d.number e.target ∧
      (d.finish function).Dominates (d.number e.target) (d.number e.source) := by
  have wired := finish_wired function hs
  have range : d.InRange := ⟨hs.pending_lt _ List.mem_cons_self, hs.edge_lt⟩
  refine ⟨fun heq => ?_, fun path hpath => ?_⟩
  · exact Nat.ne_of_gt hcloses.source_in.1 (InRange.number_inj hsource htarget heq)
  · refine Search.Path.header_mem
      (fun c => ∃ b ∈ d.kept, d.number b = c ∧ InLoop e.target bound b) ?_ ?_ hpath
      (.inl ⟨e.source, hsource, rfl, hcloses.source_in⟩)
    · rintro ⟨b, hb, heq, hin⟩
      cases InRange.number_inj hb range.entry_kept heq
      exact Nat.not_lt_zero _ hin.1
    · rintro b c hc ⟨b', hb', heq, hin⟩
      obtain ⟨_, hedge, rfl, rfl⟩ := wired.mem_successors.1 hc
      obtain ⟨e', he', hsource', htarget', rfl⟩ := (mem_finish_edges function).1 hedge
      cases InRange.number_inj hb' htarget' heq
      exact (hcloses.entered e' he' hin).imp (fun hin => ⟨e'.source, hsource', rfl, hin⟩)
        (congrArg d.number)

end Draft

/-- On every graph that is built, an edge back leads to a block on every path to its source. -/
theorem build_dominates {u : Owner} {body : List Stmt} {g : FlowGraph} (h : build u body = .ok g) :
    g.BacksDominate := by
  obtain ⟨d, last, lowers, settled, rfl⟩ := build_ok h
  have ready : Ready none Draft.initial :=
    { target_lt := fun e he => by simp [Draft.initial] at he
      exit_lt := by decide
      frame_lt := fun f hf => by cases hf }
  have hentry : ∀ c, some entryId = some c → c < Draft.initial.size := by
    rintro _ ⟨⟩
    decide
  have body_ := lowers.encloses ready hentry
  have exits : Encloses none (last = some ·) d
      (last.toList.foldl (fun d b => d.addEdge b exitId .sequential) d) := by
    cases last with
    | none => exact .refl _ _ _
    | some b =>
        exact .addEdge (body_.ready ready) ((lowers.outgrows hentry).next_new b rfl).1 (.inl rfl)
          EdgeKind.noConfusion
  have all := body_.trans exits ready fun b hb => ((lowers.outgrows hentry).next_new b hb).2
  generalize last.toList.foldl (fun d b => d.addEdge b exitId .sequential) d = D at *
  intro e he hk
  obtain ⟨e', he', hsource, htarget, rfl⟩ := (Draft.mem_finish_edges u.function).1 he
  rcases all.added e' he' with hinitial | hadds
  · simp [Draft.initial] at hinitial
  · rcases hadds.back hk with ⟨f, hf, -⟩ | ⟨-, bound, -, hcloses⟩
    · cases hf
    · exact Draft.finish_dominates u.function settled hsource htarget hcloses

section Order

variable {g : FlowGraph} {rank : Nat → Nat}

/-- A path comes to a loop header, stays where it is, or climbs the ranks; one that leads back to its
start does not climb. -/
theorem exists_header_of_path (hg : g.Wired) (hrank : g.Climbs rank) {a b : Nat} {path : List Nat}
    (h : Search.Path g.successors a b path) :
    (∃ c ∈ path, g.isLoopHeader c = true) ∨ path = [a] ∧ a = b ∨ rank a < rank b := by
  induction h with
  | start => exact .inr (.inl ⟨rfl, rfl⟩)
  | @step b c path h hc ih =>
      cases hheader : g.isLoopHeader c with
      | true => exact .inl ⟨c, List.mem_cons_self, hheader⟩
      | false =>
          obtain ⟨e, he, rfl, rfl⟩ := hg.mem_successors.1 hc
          have hlt := hrank e he hheader
          rcases ih with ⟨c, hc, hheader⟩ | ⟨-, rfl⟩ | hbefore
          · exact .inl ⟨c, List.mem_cons_of_mem _ hc, hheader⟩
          · exact .inr (.inr hlt)
          · exact .inr (.inr (Nat.lt_trans hbefore hlt))

variable (hg : g.Wired) (hrank : g.Ascends rank) (hback : g.BacksDominate)
include hg hrank hback

/-- A path from the entry without repetitions climbs the ranks. -/
theorem rank_le_of_path {b : Nat} {path : List Nat}
    (h : Search.Path g.successors g.entry b path) (hpath : path.Nodup) :
    ∀ c ∈ path, rank c ≤ rank b := by
  induction h with
  | start =>
      intro c hc
      exact Nat.le_of_eq (congrArg rank (List.mem_singleton.1 hc))
  | @step b c path h hc ih =>
      obtain ⟨hnew, hrest⟩ := List.nodup_cons.1 hpath
      obtain ⟨e, he, rfl, rfl⟩ := hg.mem_successors.1 hc
      -- an edge back would lead to a block that is already on the path
      have hk : e.kind ≠ .loopBack := fun hk => hnew ((hback e he hk).2 path h)
      have hlt := hrank e he
      rw [if_neg hk] at hlt
      intro p hp
      rcases List.mem_cons.1 hp with rfl | hp
      · exact Nat.le_refl _
      · exact Nat.le_trans (ih hrest p hp) (Nat.le_of_lt hlt)

omit hrank hback in
theorem Wired.successors_mem_range : ∀ b ∈ List.range g.size, ∀ c ∈ g.successors b,
    c ∈ List.range g.size := by
  exact FlowGraph.successors_mem_range (fun e he => (hg.edge_lt e he).2)
    fun b _ e he => (hg.mem_outgoing.1 he).1

omit hrank hback in
theorem Wired.leads_successors {a b : Nat} (h : g.Leads a b) : Search.Leads g.successors a b :=
  Relation.ReflTransGen.mono (fun _ _ hab => hg.mem_successors.2 hab) _ _ h

omit hrank hback in
/-- The search comes to the source of every edge. -/
theorem Wired.source_mem_ordering {e : Edge} (he : e ∈ g.edges) : e.source ∈ g.ordering.left := by
  exact (StackSearch.mem_left_search hg.successors_mem_range (List.mem_range.2 hg.entry_lt)).2
    (hg.leads_successors (hg.leads_source he))

/-- The source of an edge that does not lead back is left after its target. -/
theorem forward_sublist {e : Edge} (he : e ∈ g.edges) (hk : e.kind ≠ .loopBack) :
    [e.source, e.target].Sublist g.ordering.left := by
  obtain ⟨path, branch⟩ := StackSearch.tree_search hg.successors_mem_range
    (List.mem_range.2 hg.entry_lt) (hg.source_mem_ordering he)
  refine (branch.below e.target (hg.mem_successors.2 ⟨e, he, rfl, rfl⟩)).resolve_left fun hmem => ?_
  have hle := rank_le_of_path hg hrank hback branch.path branch.nodup e.target hmem
  have hlt := hrank e he
  rw [if_neg hk] at hlt
  exact Nat.not_lt.2 hle hlt

omit hrank in
/-- The target of an edge back is left after its source. -/
theorem back_sublist {e : Edge} (he : e ∈ g.edges) (hk : e.kind = .loopBack) :
    [e.target, e.source].Sublist g.ordering.left := by
  obtain ⟨path, branch⟩ := StackSearch.tree_search hg.successors_mem_range
    (List.mem_range.2 hg.entry_lt) (hg.source_mem_ordering he)
  obtain ⟨hne, hdominates⟩ := hback e he hk
  exact (branch.above e.target (hdominates path branch.path) hne.symm).resolve_left List.not_mem_nil

end Order

end FlowGraph

end ValueFlow
