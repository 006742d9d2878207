import ValueFlow.Proofs.FlowGraph.WellFormed
import ValueFlow.Proofs.Trees
/-!
The flow graphs of bodies without loops.

Only loops have headers, and only headers are led back to, so every edge of such a graph goes
forward in the reverse postorder. Main statement: `build_forward`.
-/

namespace ValueFlow

/-- A body without loops; those of nested definitions do not count. -/
def LoopFree (body : List Stmt) : Prop := ∀ s ∈ Stmt.walkAll body, s.loop? = none

namespace LoopFree

variable {s : Stmt} {rest : List Stmt}

theorem head (h : LoopFree (s :: rest)) : s.loop? = none :=
  h s (Stmt.mem_walkAll.2 ⟨s, List.mem_cons_self, Stmt.mem_walk_self s⟩)

theorem tail (h : LoopFree (s :: rest)) : LoopFree rest := fun s' hs' => by
  rw [LoopFree, Stmt.walkAll] at h
  exact h s' (List.mem_append_right _ hs')

theorem arms {id : Nat} {test : Expr} {body orelse : List Stmt}
    (h : LoopFree (.ifElse id test body orelse :: rest)) : LoopFree body ∧ LoopFree orelse := by
  rw [LoopFree, Stmt.walkAll, Stmt.walk] at h
  refine ⟨fun s hs => h s ?_, fun s hs => h s ?_⟩
  · exact List.mem_append_left _ (List.mem_cons_of_mem _ (List.mem_append_left _ hs))
  · exact List.mem_append_left _ (List.mem_cons_of_mem _ (List.mem_append_right _ hs))

end LoopFree

namespace FlowGraph

/-- A draft without a loop header. -/
def Draft.Headless (d : Draft) : Prop := ∀ b, d.kindOf b ≠ .loopHeader

namespace Draft.Headless

variable {d : Draft}

theorem initial : Draft.initial.Headless := by
  intro b
  rcases b with _ | _ | b
  · decide
  · decide
  · rw [kindOf, Draft.initial, Array.getD_eq_getD_getElem?, Array.getElem?_eq_none (by simp)]
    exact BlockKind.noConfusion

theorem addBlock (h : d.Headless) {kind : BlockKind} (hkind : kind ≠ .loopHeader) :
    (d.addBlock kind).Headless := by
  intro b
  rw [kindOf_addBlock]
  split
  · exact hkind
  · exact h b

theorem addItem (h : d.Headless) (b : Nat) (item : BlockItem) : (d.addItem b item).Headless :=
  fun c => by
    rw [kindOf_addItem]
    exact h c

theorem openArms (h : d.Headless) (cur : Nat) (test : Expr) : (d.openArms cur test).Headless :=
  ((h.addItem cur _).addBlock BlockKind.noConfusion).addBlock BlockKind.noConfusion

theorem foldl_addEdge (h : d.Headless) (ends : List Nat) (target : Nat) (kind : EdgeKind) :
    (ends.foldl (fun d' b => d'.addEdge b target kind) d).Headless := by
  induction ends generalizing d with
  | nil => exact h
  | cons b ends ih => exact ih h

end Draft.Headless

/-- Lowering a body without loops makes no loop header. -/
theorem Lowers.headless {u : Owner} {loop : Option LoopFrame} {body : List Stmt}
    {cur next : Option Nat} {d d' : Draft} (h : Lowers u loop body cur d d' next)
    (hbody : LoopFree body) (hd : d.Headless) : d'.Headless := by
  induction h with
  | done => exact hd
  | dead _ ih => exact ih hbody (hd.addBlock BlockKind.noConfusion)
  | plain _ _ ih => exact ih hbody.tail (hd.addItem _ _)
  | ret _ _ ih => exact ih hbody.tail (hd.addItem _ _)
  | brk _ ih => exact ih hbody.tail hd
  | cont _ ih => exact ih hbody.tail hd
  | ifElse _ _ _ i₁ i₂ i₃ =>
      obtain ⟨hthen, helse⟩ := hbody.arms
      have joined := i₂ helse (i₁ hthen (hd.openArms _ _))
      exact i₃ hbody.tail ((joined.addBlock BlockKind.noConfusion).foldl_addEdge _ _ _)
  | loop hs =>
      rw [hbody.head] at hs
      cases hs

/-- The exit of every graph that is built holds no items. -/
theorem build_exit_items {u : Owner} {body : List Stmt} {g : FlowGraph}
    (h : build u body = .ok g) : (g.block g.exit).items = [] := by
  obtain ⟨d, last, lowers, settled, rfl⟩ := build_ok h
  have range : Draft.InRange _ := ⟨settled.pending_lt _ List.mem_cons_self, settled.edge_lt⟩
  rw [Draft.finish_exit, (Draft.finish_block u.function range.exit_kept).1,
    Draft.items_foldl_addEdge]
  have hentry : ∀ c, some entryId = some c → c < Draft.initial.size := by
    rintro _ ⟨⟩
    decide
  refine (lowers.outgrows hentry).extends_.items_eq exitId (by decide) ?_
  rintro ⟨⟩

/-- A graph without loop headers whose edges all go forward in the order of its blocks. -/
structure Forward (g : FlowGraph) : Prop where
  wired : g.Wired
  order : g.reversePostorder.Perm (List.range g.size)
  headless : ∀ b < g.size, g.isLoopHeader b = false
  edge_lt : ∀ e ∈ g.edges, g.position e.source < g.position e.target

/-- Two blocks do not share a place. -/
theorem Forward.position_inj {g : FlowGraph} (h : g.Forward) {b c : Nat} (hb : b < g.size)
    (heq : g.position b = g.position c) : b = c :=
  (List.idxOf_inj (h.order.mem_iff.2 (List.mem_range.2 hb))).1 heq

/-- The graph of a body without loops goes forward. -/
theorem build_forward {u : Owner} {body : List Stmt} {g : FlowGraph} (h : build u body = .ok g)
    (hbody : LoopFree body) : g.Forward := by
  have formed := build_wellFormed h
  have headless : ∀ b < g.size, g.isLoopHeader b = false := by
    obtain ⟨d, last, lowers, settled, rfl⟩ := build_ok h
    have final := (lowers.headless hbody .initial).foldl_addEdge last.toList exitId .sequential
    intro b hb
    rw [Draft.finish_size] at hb
    rw [isLoopHeader, Draft.finish_block_eq u.function hb]
    exact decide_eq_false (final _)
  refine ⟨build_wired h, formed.order_perm, headless, fun e he => formed.forward e he fun hk => ?_⟩
  have hheader := (formed.back e he hk).2.1
  rw [headless _ (formed.edge_lt e he).2] at hheader
  cases hheader

end FlowGraph

end ValueFlow
