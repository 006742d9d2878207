import ValueFlow.Proofs.FlowGraph.Wiring
import ValueFlow.Proofs.Trees
/-!
The items of a flow graph are those of the statements of its body.
-/

namespace ValueFlow

namespace Stmt

/-- The items that a statement adds to a graph itself. -/
def items : Stmt → List BlockItem
  | ifElse _ test _ _ | whileLoop _ test _ => [.condition test]
  | forLoop id target iter _ => [.evaluate iter, .bind id target iter]
  | brk _ | cont _ => []
  | s => [.statement s]

theorem items_of_isPlain {s : Stmt} (h : s.isPlain = true) : s.items = [.statement s] := by
  cases s with
  | assign | expr | pass | functionDef | classDef => rfl
  | ifElse | whileLoop | forLoop | ret | brk | cont => cases h

theorem not_isReturn_of_isPlain {s : Stmt} (h : s.isPlain = true) : ¬ s.isReturn = true := by
  cases s with
  | ret => cases h
  | assign | expr | pass | functionDef | classDef | ifElse | whileLoop | forLoop | brk | cont =>
      exact nofun

theorem not_isReturn_of_loop? {s : Stmt} {head : LoopHead} {body : List Stmt}
    (h : s.loop? = some (head, body)) : ¬ s.isReturn = true := by
  cases s with
  | ret => cases h
  | assign | expr | pass | functionDef | classDef | ifElse | whileLoop | forLoop | brk | cont =>
      exact nofun

theorem items_of_loop? {s : Stmt} {head : LoopHead} {body : List Stmt}
    (h : s.loop? = some (head, body)) : s.items = head.before ++ head.header ++ head.first := by
  cases s with
  | whileLoop | forLoop =>
      cases h
      rfl
  | assign | expr | pass | functionDef | classDef | ifElse | ret | brk | cont => cases h

theorem walk_ifElse {id : Nat} {test : Expr} {body orelse : List Stmt} :
    walkAll body ⊆ walk (.ifElse id test body orelse) ∧
      walkAll orelse ⊆ walk (.ifElse id test body orelse) := by
  rw [walk]
  exact ⟨fun s hs => List.mem_cons_of_mem _ (List.mem_append_left _ hs),
    fun s hs => List.mem_cons_of_mem _ (List.mem_append_right _ hs)⟩

theorem walk_loop {s : Stmt} {head : LoopHead} {body : List Stmt}
    (h : s.loop? = some (head, body)) : walkAll body ⊆ s.walk := by
  cases s with
  | whileLoop | forLoop =>
      cases h
      rw [walk]
      exact List.subset_cons_self _ _
  | assign | expr | pass | functionDef | classDef | ifElse | ret | brk | cont => cases h

end Stmt

namespace FlowGraph

variable {P : BlockItem → Prop}

/-- Whether all items of a draft have a property. -/
def Draft.Only (P : BlockItem → Prop) (d : Draft) : Prop := ∀ b, ∀ i ∈ d.items b, P i

namespace Draft.Only

variable {d : Draft}

theorem initial : Only P Draft.initial := by
  intro b i hi
  cases b with
  | zero => cases hi
  | succ b =>
      cases b with
      | zero => cases hi
      | succ b => cases hi

theorem addItem (h : Only P d) {item : BlockItem} (hitem : P item) (c : Nat) :
    Only P (d.addItem c item) := by
  intro b i hi
  by_cases hbc : b = c
  · subst hbc
    by_cases hb : b < d.size
    · rw [Draft.items_addItem_self d b item hb] at hi
      rcases List.mem_append.1 hi with hi | hi
      · exact h b i hi
      · exact List.mem_singleton.1 hi ▸ hitem
    · rw [Draft.items_of_size_le (by simpa using hb)] at hi
      cases hi
  · rw [Draft.items_addItem_ne hbc] at hi
    exact h b i hi

theorem addItems (h : Only P d) {its : List BlockItem} (hits : ∀ i ∈ its, P i) (c : Nat) :
    Only P (d.addItems c its) := by
  induction its generalizing d with
  | nil => exact h
  | cons item its ih =>
      exact ih (h.addItem (hits item List.mem_cons_self) c)
        fun i hi => hits i (List.mem_cons_of_mem _ hi)

theorem addBlock (h : Only P d) (kind : BlockKind) : Only P (d.addBlock kind) := fun b i hi =>
  h b i (by rwa [Draft.items_addBlock] at hi)

theorem addEdge (h : Only P d) (source target : Nat) (kind : EdgeKind) :
    Only P (d.addEdge source target kind) := h

theorem addEdges (h : Only P d) (ends : List Nat) (target : Nat) (kind : EdgeKind) :
    Only P (ends.foldl (fun d b => d.addEdge b target kind) d) := fun b i hi =>
  h b i (by rwa [Draft.items_foldl_addEdge] at hi)

theorem openArms (h : Only P d) {test : Expr} (htest : P (.condition test)) (cur : Nat) :
    Only P (d.openArms cur test) :=
  ((((h.addItem htest cur).addBlock .statement).addBlock .statement).addEdge _ _ _).addEdge _ _ _

theorem openBody (h : Only P d) {head : LoopHead}
    (hhead : ∀ i ∈ head.before ++ head.header ++ head.first, P i) (cur : Nat) :
    Only P (d.openBody cur head) := by
  have hbefore : ∀ i ∈ head.before, P i := fun i hi =>
    hhead i (List.mem_append_left _ (List.mem_append_left _ hi))
  have hheader : ∀ i ∈ head.header, P i := fun i hi =>
    hhead i (List.mem_append_left _ (List.mem_append_right _ hi))
  have hopen : Only P (d.openHeader cur head) :=
    (((h.addItems hbefore cur).addBlock .loopHeader).addEdge _ _ _).addItems hheader d.size
  exact ((((hopen.addBlock .statement).addBlock .statement).addEdge _ _ _).addEdge _ _ _).addItems
    (fun i hi => hhead i (List.mem_append_right _ hi)) _

end Draft.Only

/-- Lowering adds the items of statements, and those of `return` only where it has a meaning. -/
theorem Lowers.only {u : Owner} {loop : Option LoopFrame} {body : List Stmt} {cur next : Option Nat}
    {d d' : Draft} (h : Lowers u loop body cur d d' next)
    (hbody : ∀ s ∈ Stmt.walkAll body, (s.isReturn = true → u.mayReturn = true) → ∀ i ∈ s.items, P i)
    (hd : d.Only P) : d'.Only P := by
  induction h with
  | done => exact hd
  | dead _ ih => exact ih hbody (hd.addBlock .statement)
  | @plain loop s rest cur d d' next hs _ ih =>
      rw [Stmt.walkAll] at hbody
      refine ih (fun t ht => hbody t (List.mem_append_right _ ht)) (hd.addItem ?_ _)
      refine hbody s (List.mem_append_left _ s.mem_walk_self)
        (fun hreturn => absurd hreturn (Stmt.not_isReturn_of_isPlain hs)) _ ?_
      rw [Stmt.items_of_isPlain hs]
      exact List.mem_cons_self
  | @ret loop id value rest cur d d' next hmay _ ih =>
      rw [Stmt.walkAll] at hbody
      refine ih (fun t ht => hbody t (List.mem_append_right _ ht)) (hd.addItem ?_ _)
      exact hbody _ (List.mem_append_left _ (Stmt.mem_walk_self _)) (fun _ => hmay) _
        List.mem_cons_self
  | brk _ ih | cont _ ih =>
      rw [Stmt.walkAll] at hbody
      exact ih (fun t ht => hbody t (List.mem_append_right _ ht)) hd
  | @ifElse loop id test body orelse rest cur d d₁ d₂ d' thenEnd elseEnd next _ _ _ ihb iho ihr =>
      rw [Stmt.walkAll] at hbody
      have htest : P (.condition test) :=
        hbody _ (List.mem_append_left _ (Stmt.mem_walk_self _))
          (fun hreturn => absurd hreturn Bool.false_ne_true) _ List.mem_cons_self
      have hthen := ihb (fun t ht => hbody t (List.mem_append_left _ (Stmt.walk_ifElse.1 ht)))
        (hd.openArms htest _)
      have helse := iho (fun t ht => hbody t (List.mem_append_left _ (Stmt.walk_ifElse.2 ht))) hthen
      exact ihr (fun t ht => hbody t (List.mem_append_right _ ht))
        ((helse.addBlock .join).addEdges _ _ _)
  | @loop outer s head body rest cur d d₁ d' last next hs _ _ ihb ihr =>
      rw [Stmt.walkAll] at hbody
      have hhead := hbody s (List.mem_append_left _ s.mem_walk_self) fun hreturn =>
        absurd hreturn (Stmt.not_isReturn_of_loop? hs)
      rw [Stmt.items_of_loop? hs] at hhead
      have hround := ihb (fun t ht => hbody t (List.mem_append_left _ (Stmt.walk_loop hs ht)))
        (hd.openBody hhead _)
      exact ihr (fun t ht => hbody t (List.mem_append_right _ ht)) (hround.addEdges _ _ _)

/-- What holds of the items of all statements of a body that have a meaning holds of all items of
its graph. -/
theorem only_of_build {u : Owner} {body : List Stmt} {g : FlowGraph} (h : build u body = .ok g)
    (hbody : ∀ s ∈ Stmt.walkAll body, (s.isReturn = true → u.mayReturn = true) →
      ∀ i ∈ s.items, P i) (b : Nat) :
    ∀ i ∈ (g.block b).items, P i := by
  obtain ⟨d, last, lowers, settled, rfl⟩ := build_ok h
  have honly := (lowers.only hbody Draft.Only.initial).addEdges last.toList exitId .sequential
  intro i hi
  obtain ⟨k, hk⟩ := List.mem_iff_getElem?.1 hi
  have hb := lt_size_of_getElem? hk
  rw [Draft.finish_size] at hb
  obtain ⟨c, hc, rfl⟩ := Draft.InRange.exists_number hb
  rw [(Draft.finish_block u.function hc).1] at hi
  exact honly c i hi

end FlowGraph

end ValueFlow
