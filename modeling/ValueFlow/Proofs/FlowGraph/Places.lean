import Mathlib.Data.List.Nodup
import Mathlib.Data.List.Pairwise
import Mathlib.Data.List.Perm.Subperm
import ValueFlow.Proofs.Analysis.ScalarPrograms
import ValueFlow.Proofs.FlowGraph.Contents
/-!
An item stands at one place of the flow graph, if the nodes of the body have identifiers of their
own. Main statement: `place_unique_of_build`.
-/

namespace ValueFlow

namespace BlockItem

/-- The identifiers of the nodes that an item evaluates; the iterable of a loop is evaluated before
its target is bound. -/
def nodes : BlockItem → List Nat
  | statement s => s.ownIds ++ (Expr.walkAll s.ownExprs).map Expr.id
  | condition e | evaluate e => e.walk.map Expr.id
  | bind _ _ _ => []

end BlockItem

namespace Stmt

/-- The identifiers of the nodes of the items of a body. -/
def itemNodes (body : List Stmt) : List Nat :=
  (walkAll body).flatMap fun s => s.items.flatMap BlockItem.nodes

theorem itemNodes_cons (s : Stmt) (rest : List Stmt) :
    itemNodes (s :: rest) = itemNodes [s] ++ itemNodes rest := by
  simp [itemNodes, walkAll]

theorem itemNodes_of_isPlain {s : Stmt} (h : s.isPlain = true) :
    itemNodes [s] = (BlockItem.statement s).nodes := by
  have hwalk : s.walk = [s] := by
    cases s with
    | assign | expr | pass | functionDef | classDef => rw [walk]
    | ifElse | whileLoop | forLoop | ret | brk | cont => cases h
  simp [itemNodes, walkAll, hwalk, items_of_isPlain h]

theorem itemNodes_ret (id : Nat) (value : Option Expr) :
    itemNodes [.ret id value] = (BlockItem.statement (.ret id value)).nodes := by
  simp [itemNodes, walkAll, walk, items]

theorem itemNodes_ifElse (id : Nat) (test : Expr) (body orelse : List Stmt) :
    itemNodes [.ifElse id test body orelse] =
      test.walk.map Expr.id ++ itemNodes body ++ itemNodes orelse := by
  simp [itemNodes, walkAll, walk, items, BlockItem.nodes]

theorem itemNodes_loop {s : Stmt} {head : LoopHead} {body : List Stmt}
    (h : s.loop? = some (head, body)) : itemNodes [s] =
      (head.before ++ head.header ++ head.first).flatMap BlockItem.nodes ++
        itemNodes body := by
  have hwalk : s.walk = s :: walkAll body := by
    cases s with
    | whileLoop | forLoop =>
        cases h
        rw [walk]
    | assign | expr | pass | functionDef | classDef | ifElse | ret | brk | cont => cases h
  simp [itemNodes, walkAll, hwalk, items_of_loop? h]

/-- The nodes of items are nodes of the body. -/
theorem itemNodes_sublist (body : List Stmt) : (itemNodes body).Sublist (idsOf body) := by
  refine List.Sublist.flatMap_right _ fun s _ => ?_
  cases s with
  | ifElse | whileLoop | forLoop =>
      simp [items, BlockItem.nodes, ownExprs, Expr.walkAll]
  | brk | cont => exact List.nil_sublist _
  | assign | expr | ret | pass | functionDef | classDef => simp [items, BlockItem.nodes]

end Stmt

namespace FlowGraph

namespace Draft

/-- The identifiers of the nodes of the items of a draft. -/
def itemNodes (d : Draft) : List Nat :=
  d.blocks.toList.flatMap fun b => b.2.flatMap BlockItem.nodes

variable {d : Draft}

theorem itemNodes_addBlock (kind : BlockKind) :
    (d.addBlock kind).itemNodes = d.itemNodes := by
  simp [itemNodes, addBlock]

theorem itemNodes_addEdge (source target : Nat) (kind : EdgeKind) :
    (d.addEdge source target kind).itemNodes = d.itemNodes := rfl

theorem itemNodes_addEdges (ends : List Nat) (target : Nat) (kind : EdgeKind) :
    (ends.foldl (fun d b => d.addEdge b target kind) d).itemNodes = d.itemNodes := by
  induction ends generalizing d with
  | nil => rfl
  | cons b rest ih => exact ih

theorem subperm_addItem (c : Nat) (item : BlockItem) :
    (d.addItem c item).itemNodes.Subperm (d.itemNodes ++ item.nodes) := by
  have hblocks : ∀ (l : List (BlockKind × List BlockItem)) (c : Nat),
      ((l.modify c fun b => (b.1, b.2 ++ [item])).flatMap fun b =>
        b.2.flatMap BlockItem.nodes).Subperm
        ((l.flatMap fun b => b.2.flatMap BlockItem.nodes) ++ item.nodes) := by
    intro l
    induction l with
    | nil => exact fun c => by simp
    | cons b rest ih =>
        intro c
        cases c with
        | zero =>
            rw [List.modify_zero_cons, List.flatMap_cons, List.flatMap_cons, List.flatMap_append,
              List.flatMap_singleton, List.append_assoc, List.append_assoc]
            exact (List.Perm.append_left _ List.perm_append_comm).subperm
        | succ c =>
            rw [List.modify_succ_cons, List.flatMap_cons, List.flatMap_cons, List.append_assoc]
            exact (List.subperm_append_left _).2 (ih c)
  unfold itemNodes addItem
  rw [Array.toList_modify]
  exact hblocks _ c

theorem subperm_addItems (c : Nat) (its : List BlockItem) :
    (d.addItems c its).itemNodes.Subperm (d.itemNodes ++ its.flatMap BlockItem.nodes) := by
  induction its generalizing d with
  | nil =>
      rw [List.flatMap_nil, List.append_nil]
      exact List.Subperm.refl _
  | cons item rest ih =>
      have hrest : ((d.addItem c item).addItems c rest).itemNodes.Subperm
          ((d.addItem c item).itemNodes ++ rest.flatMap BlockItem.nodes) := ih
      refine hrest.trans ?_
      rw [List.flatMap_cons, ← List.append_assoc]
      exact (List.subperm_append_right _).2 (subperm_addItem c item)

theorem subperm_openArms (cur : Nat) (test : Expr) :
    (d.openArms cur test).itemNodes.Subperm (d.itemNodes ++ test.walk.map Expr.id) := by
  unfold openArms
  simp only [itemNodes_addEdge, itemNodes_addBlock]
  exact subperm_addItem cur (.condition test)

theorem subperm_openBody (cur : Nat) (head : LoopHead) :
    (d.openBody cur head).itemNodes.Subperm (d.itemNodes ++
      (head.before ++ head.header ++ head.first).flatMap BlockItem.nodes) := by
  have hheader : (d.openHeader cur head).itemNodes.Subperm
      (d.itemNodes ++ head.before.flatMap BlockItem.nodes ++
        head.header.flatMap BlockItem.nodes) := by
    refine (subperm_addItems d.size head.header).trans ((List.subperm_append_right _).2 ?_)
    rw [itemNodes_addEdge, itemNodes_addBlock]
    exact subperm_addItems cur head.before
  unfold openBody
  rw [openLoop_eq, List.flatMap_append, List.flatMap_append, ← List.append_assoc,
    ← List.append_assoc]
  refine (subperm_addItems _ head.first).trans ((List.subperm_append_right _).2 ?_)
  simp only [itemNodes_addEdge, itemNodes_addBlock]
  exact hheader

end Draft

/-- Lowering adds the items of statements, each once. -/
theorem Lowers.subperm {u : Owner} {loop : Option LoopFrame} {body : List Stmt}
    {cur next : Option Nat} {d d' : Draft} (h : Lowers u loop body cur d d' next) :
    d'.itemNodes.Subperm (d.itemNodes ++ Stmt.itemNodes body) := by
  have andThen : ∀ {s : Stmt} {rest : List Stmt} {d d₁ d' : Draft},
      d₁.itemNodes.Subperm (d.itemNodes ++ Stmt.itemNodes [s]) →
      d'.itemNodes.Subperm (d₁.itemNodes ++ Stmt.itemNodes rest) →
      d'.itemNodes.Subperm (d.itemNodes ++ Stmt.itemNodes (s :: rest)) := by
    intro s rest d d₁ d' h₁ h'
    rw [Stmt.itemNodes_cons, ← List.append_assoc]
    exact h'.trans ((List.subperm_append_right _).2 h₁)
  have same : ∀ (d : Draft) (l : List Nat), d.itemNodes.Subperm (d.itemNodes ++ l) :=
    fun d l => (List.sublist_append_left _ l).subperm
  induction h with
  | done => exact same _ _
  | dead _ ih => rwa [Draft.itemNodes_addBlock] at ih
  | @plain loop s rest cur d d' next hs _ ih =>
      refine andThen ?_ ih
      rw [Stmt.itemNodes_of_isPlain hs]
      exact Draft.subperm_addItem cur (.statement s)
  | @ret loop id value rest cur d d' next _ _ ih =>
      refine andThen ?_ ih
      rw [Stmt.itemNodes_ret]
      exact Draft.subperm_addItem cur (.statement (.ret id value))
  | brk _ ih | cont _ ih => exact andThen (same _ _) ih
  | @ifElse loop id test body orelse rest cur d d₁ d₂ d' thenEnd elseEnd next _ _ _ ihb iho ihr =>
      rw [Draft.joinArms, Draft.itemNodes_addEdges, Draft.itemNodes_addBlock] at ihr
      refine andThen (iho.trans ?_) ihr
      rw [Stmt.itemNodes_ifElse, ← List.append_assoc, ← List.append_assoc]
      refine (List.subperm_append_right _).2 (ihb.trans ?_)
      exact (List.subperm_append_right _).2 (Draft.subperm_openArms cur test)
  | @loop outer s head body rest cur d d₁ d' last next hs _ _ ihb ihr =>
      rw [Draft.closeLoop, Draft.itemNodes_addEdges] at ihr
      refine andThen (ihb.trans ?_) ihr
      rw [Stmt.itemNodes_loop hs, ← List.append_assoc]
      exact (List.subperm_append_right _).2 (Draft.subperm_openBody cur head)

section Places

variable {n : Nat}

/-- Two items with one identifier in lists of items that share none are one item. -/
theorem place_unique {items : Nat → List BlockItem} {l : List Nat}
    (h : (l.flatMap fun b => (items b).flatMap BlockItem.nodes).Nodup) {b c k j : Nat}
    {i i' : BlockItem} (hb : b ∈ l) (hc : c ∈ l) (hi : (items b)[k]? = some i)
    (hi' : (items c)[j]? = some i') (hn : n ∈ i.nodes) (hn' : n ∈ i'.nodes) :
    b = c ∧ k = j := by
  obtain ⟨hown, hother⟩ := List.nodup_flatMap.1 h
  have hbc : b = c := by
    by_contra hne
    have : Std.Symm (Function.onFun List.Disjoint fun b =>
        (items b).flatMap BlockItem.nodes) := ⟨fun _ _ hd _ h h' => hd h' h⟩
    have hdisjoint := hother.forall hb hc hne
    exact hdisjoint (List.mem_flatMap.2 ⟨i, List.mem_of_getElem? hi, hn⟩)
      (List.mem_flatMap.2 ⟨i', List.mem_of_getElem? hi', hn'⟩)
  subst hbc
  refine ⟨rfl, ?_⟩
  have hpairs := (List.nodup_flatMap.1 (hown b hb)).2
  have apart : ∀ {k j : Nat} {i i' : BlockItem}, (items b)[k]? = some i → (items b)[j]? = some i' →
      n ∈ i.nodes → n ∈ i'.nodes → ¬ k < j := by
    intro k j i i' hi hi' hn hn' hlt
    obtain ⟨hk, rfl⟩ := List.getElem?_eq_some_iff.1 hi
    obtain ⟨hj, rfl⟩ := List.getElem?_eq_some_iff.1 hi'
    exact List.pairwise_iff_getElem.1 hpairs k j hk hj hlt hn hn'
  exact Nat.le_antisymm (Nat.le_of_not_lt (apart hi' hi hn' hn))
    (Nat.le_of_not_lt (apart hi hi' hn hn'))

theorem Draft.itemNodes_eq (d : Draft) :
    d.itemNodes = (List.range d.size).flatMap fun b =>
      (d.items b).flatMap BlockItem.nodes := by
  have hblocks : d.blocks.toList =
      (List.range d.size).map fun b => d.blocks.getD b (.statement, []) := by
    refine List.ext_getElem (by simp [Draft.size]) fun b hb _ => ?_
    have hb : b < d.blocks.size := by simpa using hb
    simp [Array.getD, hb]
  rw [Draft.itemNodes, hblocks, List.flatMap_map]
  rfl

/-- An item of a finished graph is one of the draft, in the block of which it stands. -/
theorem Draft.exists_place {d : Draft} {function : String} {b k : Nat} {i : BlockItem}
    (h : ((d.finish function).block b).items[k]? = some i) :
    ∃ c < d.size, d.number c = b ∧ (d.items c)[k]? = some i := by
  have hb := lt_size_of_getElem? h
  rw [Draft.finish_size] at hb
  obtain ⟨c, hc, rfl⟩ := Draft.InRange.exists_number hb
  rw [(Draft.finish_block function hc).1] at h
  exact ⟨c, List.mem_range.1 (List.mem_filter.1 hc).1, rfl, h⟩

/-- The nodes of the items of a graph are those of the items of its body. -/
theorem mem_itemNodes_of_build {u : Owner} {body : List Stmt} {g : FlowGraph}
    (h : build u body = .ok g) {b k : Nat} {i : BlockItem} (hi : (g.block b).items[k]? = some i)
    (hn : n ∈ i.nodes) : n ∈ Stmt.itemNodes body :=
  only_of_build (P := fun i => ∀ n ∈ i.nodes, n ∈ Stmt.itemNodes body) h
    (fun s hs _ i hi _ hn => List.mem_flatMap.2 ⟨s, hs, List.mem_flatMap.2 ⟨i, hi, hn⟩⟩) b i
    (List.mem_of_getElem? hi) n hn

/-- An item stands at one place of a graph. -/
theorem place_unique_of_build {u : Owner} {body : List Stmt} {g : FlowGraph}
    (h : build u body = .ok g) (hids : (Stmt.itemNodes body).Nodup) {b c k j : Nat}
    {i i' : BlockItem} (hi : (g.block b).items[k]? = some i)
    (hi' : (g.block c).items[j]? = some i') (hn : n ∈ i.nodes)
    (hn' : n ∈ i'.nodes) : b = c ∧ k = j := by
  obtain ⟨d, last, lowers, -, rfl⟩ := build_ok h
  have hnodup : d.itemNodes.Nodup := by
    obtain ⟨l, hperm, hsub⟩ := lowers.subperm
    rw [← hperm.nodup_iff]
    exact hsub.nodup hids
  rw [← Draft.itemNodes_addEdges last.toList exitId .sequential, Draft.itemNodes_eq] at hnodup
  obtain ⟨b, hb, rfl, hplace⟩ := Draft.exists_place hi
  obtain ⟨c, hc, rfl, hplace'⟩ := Draft.exists_place hi'
  obtain ⟨rfl, rfl⟩ := place_unique hnodup (List.mem_range.2 hb) (List.mem_range.2 hc) hplace
    hplace' hn hn'
  exact ⟨rfl, rfl⟩

end Places

end FlowGraph

end ValueFlow
