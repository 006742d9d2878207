import ValueFlow.FlowGraph.Lowering
/-!
What lowering does to a draft, as one relation between the draft before and after a body.

`Lowers` has a rule for every shape of statement. Later proofs go by induction over it and never
unfold the lowering functions. Main statements: a body that is lowered is related (`lowerBody_ok`),
it changes no old block except the one it starts in (`Lowers.outgrows`), and it leaves no block
without edges out except the one in which control goes on (`Lowers.settled`).
-/

namespace ValueFlow

/-- What keeps a loop going. -/
inductive LoopHead where
  | whileTrue (test : Expr)
  | forEach (node : Nat) (target : String) (iter : Expr)

namespace LoopHead

def before : LoopHead → List BlockItem
  | whileTrue _ => []
  | forEach _ _ iter => [.evaluate iter]

def header : LoopHead → List BlockItem
  | whileTrue test => [.condition test]
  | forEach _ _ _ => []

/-- The items at the start of the body. -/
def first : LoopHead → List BlockItem
  | whileTrue _ => []
  | forEach node target iter => [.bind node target iter]

end LoopHead

namespace Stmt

/-- Whether a statement has no control flow of its own. -/
def isPlain : Stmt → Bool
  | assign _ _ _ | expr _ _ | pass _ | functionDef _ _ _ _ _ | classDef _ _ _ _ _ => true
  | _ => false

/-- The head and the body of a loop. -/
def loop? : Stmt → Option (LoopHead × List Stmt)
  | whileLoop _ test body => some (.whileTrue test, body)
  | forLoop id target iter body => some (.forEach id target iter, body)
  | _ => none

end Stmt

namespace FlowGraph

namespace Draft

def size (d : Draft) : Nat := d.blocks.size

def items (d : Draft) (b : Nat) : List BlockItem := (d.blocks.getD b (.statement, [])).2

def kindOf (d : Draft) (b : Nat) : BlockKind := (d.blocks.getD b (.statement, [])).1

/-- The edges out of a block, in the order in which they were added. -/
def outs (d : Draft) (b : Nat) : List Edge := d.edges.toList.filter fun e => e.source = b

def addItems (d : Draft) (block : Nat) (items : List BlockItem) : Draft :=
  items.foldl (fun d item => d.addItem block item) d

section Views

variable (d : Draft) (b c : Nat) (kind : BlockKind) (item : BlockItem) (e : EdgeKind)

@[simp] theorem size_addBlock : (d.addBlock kind).size = d.size + 1 := Array.size_push ..

@[simp] theorem size_addEdge : (d.addEdge b c e).size = d.size := rfl

@[simp] theorem size_addItem : (d.addItem b item).size = d.size := Array.size_modify

@[simp] theorem edges_addBlock : (d.addBlock kind).edges = d.edges := rfl

@[simp] theorem edges_addEdge : (d.addEdge b c e).edges = d.edges.push ⟨b, c, e⟩ := rfl

@[simp] theorem edges_addItem : (d.addItem b item).edges = d.edges := rfl

@[simp] theorem outs_addBlock : (d.addBlock kind).outs b = d.outs b := rfl

@[simp] theorem outs_addItem : (d.addItem c item).outs b = d.outs b := rfl

theorem outs_addEdge (source target : Nat) :
    (d.addEdge source target e).outs b =
      if source = b then d.outs b ++ [⟨source, target, e⟩] else d.outs b := by
  simp only [outs, edges_addEdge, Array.toList_push, List.filter_append, List.filter_cons,
    List.filter_nil]
  by_cases h : source = b <;> simp [h]

@[simp] theorem items_addEdge (source target : Nat) :
    (d.addEdge source target e).items b = d.items b := rfl

@[simp] theorem kindOf_addEdge (source target : Nat) :
    (d.addEdge source target e).kindOf b = d.kindOf b := rfl

/-- A new block has no items, as has a number without a block. -/
@[simp] theorem items_addBlock : (d.addBlock kind).items b = d.items b := by
  simp only [items, addBlock, Array.getD_eq_getD_getElem?, Array.getElem?_push]
  by_cases h : b = d.blocks.size
  · simp [h]
  · simp [h]

theorem kindOf_addBlock :
    (d.addBlock kind).kindOf b = if b = d.size then kind else d.kindOf b := by
  simp only [kindOf, addBlock, Array.getD_eq_getD_getElem?, Array.getElem?_push, size]
  by_cases h : b = d.blocks.size
  · simp [h]
  · simp [h]

theorem items_addItem_self (h : b < d.size) : (d.addItem b item).items b = d.items b ++ [item] := by
  simp only [items, addItem, Array.getD_eq_getD_getElem?, Array.getElem?_modify, if_true]
  rw [Array.getElem?_eq_getElem h]
  rfl

theorem items_addItem_ne {d : Draft} {b c : Nat} {item : BlockItem} (h : b ≠ c) :
    (d.addItem c item).items b = d.items b := by
  simp only [items, addItem, Array.getD_eq_getD_getElem?, Array.getElem?_modify, if_neg h.symm]

@[simp] theorem kindOf_addItem : (d.addItem c item).kindOf b = d.kindOf b := by
  simp only [kindOf, addItem, Array.getD_eq_getD_getElem?, Array.getElem?_modify]
  by_cases h : c = b
  · rw [if_pos h]
    cases d.blocks[b]? <;> rfl
  · rw [if_neg h]

end Views

section AddItems

variable {d : Draft} {b c : Nat} {its : List BlockItem}

@[simp] theorem size_addItems : (d.addItems b its).size = d.size := by
  induction its generalizing d with
  | nil => rfl
  | cons item its ih => exact ih.trans (size_addItem ..)

@[simp] theorem edges_addItems : (d.addItems b its).edges = d.edges := by
  induction its generalizing d with
  | nil => rfl
  | cons item its ih => exact ih.trans (edges_addItem ..)

@[simp] theorem outs_addItems : (d.addItems c its).outs b = d.outs b := by
  simp only [outs, edges_addItems]

@[simp] theorem kindOf_addItems : (d.addItems c its).kindOf b = d.kindOf b := by
  induction its generalizing d with
  | nil => rfl
  | cons item its ih => exact ih.trans (kindOf_addItem ..)

theorem items_addItems_self (h : b < d.size) : (d.addItems b its).items b = d.items b ++ its := by
  induction its generalizing d with
  | nil => exact (List.append_nil _).symm
  | cons item its ih =>
      have hd : (d.addItem b item).addItems b its = d.addItems b (item :: its) := rfl
      rw [← hd, ih (by simpa using h), items_addItem_self d b item h, List.append_assoc]
      rfl

theorem items_addItems_ne (h : b ≠ c) : (d.addItems c its).items b = d.items b := by
  induction its generalizing d with
  | nil => rfl
  | cons item its ih => exact ih.trans (items_addItem_ne h)

end AddItems

/-- The draft in which a block ends with a condition and leads to a new block for each arm. -/
def openArms (d : Draft) (cur : Nat) (test : Expr) : Draft :=
  ((((d.addItem cur (.condition test)).addBlock .statement).addBlock .statement).addEdge cur d.size
    .trueBranch).addEdge cur (d.size + 1) .falseBranch

/-- The draft in which the ends of the arms lead to a new block. -/
def joinArms (d : Draft) (ends : List Nat) : Draft :=
  ends.foldl (fun d' last => d'.addEdge last d.size .sequential) (d.addBlock .join)

/-- The frame of a loop whose header is the next block. -/
def nextFrame (d : Draft) : LoopFrame := ⟨d.size, d.size + 2⟩

/-- The draft in which a block leads to the new header of a loop. -/
def openHeader (d : Draft) (cur : Nat) (head : LoopHead) : Draft :=
  (((d.addItems cur head.before).addBlock .loopHeader).addEdge cur d.size .sequential).addItems
    d.size head.header

/-- The draft in which a new loop has its header, the first block of its body and the block after
it. -/
def openBody (d : Draft) (cur : Nat) (head : LoopHead) : Draft :=
  (d.openHeader cur head).openLoop d.nextFrame head.first

@[simp] theorem size_openHeader (d : Draft) (cur : Nat) (head : LoopHead) :
    (d.openHeader cur head).size = d.size + 1 := by
  simp [openHeader]

theorem openLoop_eq (d : Draft) (frame : LoopFrame) (first : List BlockItem) :
    d.openLoop frame first = ((((d.addBlock .statement).addBlock .statement).addEdge frame.header
      d.size .trueBranch).addEdge frame.header frame.after .falseBranch).addItems d.size first :=
  rfl

end Draft

/-- The draft and the block in which control goes on after a body is lowered from a draft and a
block. Without a block the code is dead and gets a block that nothing leads to. -/
inductive Lowers (u : Owner) :
    Option LoopFrame → List Stmt → Option Nat → Draft → Draft → Option Nat → Prop
  | done {loop cur d} : Lowers u loop [] cur d d cur
  | dead {loop s rest d d' next} :
      Lowers u loop (s :: rest) (some d.size) (d.addBlock .statement) d' next →
      Lowers u loop (s :: rest) none d d' next
  | plain {loop s rest cur d d' next} : s.isPlain = true →
      Lowers u loop rest (some cur) (d.addItem cur (.statement s)) d' next →
      Lowers u loop (s :: rest) (some cur) d d' next
  | ret {loop id value rest cur d d' next} : u.mayReturn = true →
      Lowers u loop rest none
        ((d.addItem cur (.statement (.ret id value))).addEdge cur exitId .returnOut) d' next →
      Lowers u loop (.ret id value :: rest) (some cur) d d' next
  | brk {frame id rest cur d d' next} :
      Lowers u (some frame) rest none (d.addEdge cur frame.after .breakOut) d' next →
      Lowers u (some frame) (.brk id :: rest) (some cur) d d' next
  | cont {frame id rest cur d d' next} :
      Lowers u (some frame) rest none (d.addEdge cur frame.header .loopBack) d' next →
      Lowers u (some frame) (.cont id :: rest) (some cur) d d' next
  | ifElse {loop id test body orelse rest cur d d₁ d₂ d' thenEnd elseEnd next} :
      Lowers u loop body (some d.size) (d.openArms cur test) d₁ thenEnd →
      Lowers u loop orelse (some (d.size + 1)) d₁ d₂ elseEnd →
      Lowers u loop rest (some d₂.size) (d₂.joinArms (thenEnd.toList ++ elseEnd.toList)) d' next →
      Lowers u loop (.ifElse id test body orelse :: rest) (some cur) d d' next
  | loop {outer s head body rest cur d d₁ d' last next} : s.loop? = some (head, body) →
      Lowers u (some d.nextFrame) body (some (d.size + 1)) (d.openBody cur head) d₁ last →
      Lowers u outer rest (some (d.size + 2)) (d₁.closeLoop d.nextFrame last) d' next →
      Lowers u outer (s :: rest) (some cur) d d' next

section Inversion

variable {ε α β : Type}

theorem of_bind_ok {x : Except ε α} {f : α → Except ε β} {r : β} (h : (x >>= f) = .ok r) :
    ∃ a, x = .ok a ∧ f a = .ok r := by
  cases x with
  | error e => cases h
  | ok a => exact ⟨a, rfl, h⟩

end Inversion

mutual

theorem lowerStmt_ok {u : Owner} {loop : Option LoopFrame} :
    ∀ {s : Stmt} {cur : Nat} {d d₁ d' : Draft} {mid next : Option Nat} {rest : List Stmt},
      lowerStmt u loop s cur d = .ok (d₁, mid) → Lowers u loop rest mid d₁ d' next →
      Lowers u loop (s :: rest) (some cur) d d' next
  | .assign _ _ _, _, _, _, _, _, _, _, h, k => by
      rw [lowerStmt] at h
      cases h
      exact .plain rfl k
  | .expr _ _, _, _, _, _, _, _, _, h, k => by
      rw [lowerStmt] at h
      cases h
      exact .plain rfl k
  | .pass _, _, _, _, _, _, _, _, h, k => by
      rw [lowerStmt] at h
      cases h
      exact .plain rfl k
  | .functionDef _ _ _ _ _, _, _, _, _, _, _, _, h, k => by
      rw [lowerStmt] at h
      cases h
      exact .plain rfl k
  | .classDef _ _ _ _ body, _, _, _, _, _, _, _, h, k => by
      rw [lowerStmt] at h
      split at h
      · cases h
      · cases h
        exact .plain rfl k
  | .ret _ _, _, _, _, _, _, _, _, h, k => by
      rw [lowerStmt] at h
      split at h
      · cases h
        exact .ret ‹_› k
      · cases h
  | .brk _, _, _, _, _, _, _, _, h, k => by
      cases loop with
      | none => rw [lowerStmt] at h; cases h
      | some frame => rw [lowerStmt] at h; cases h; exact .brk k
  | .cont _, _, _, _, _, _, _, _, h, k => by
      cases loop with
      | none => rw [lowerStmt] at h; cases h
      | some frame => rw [lowerStmt] at h; cases h; exact .cont k
  | .ifElse id test body orelse, cur, d, _, _, _, _, _, h, k => by
      rw [lowerStmt] at h
      obtain ⟨⟨d₁, thenEnd⟩, h₁, h⟩ := of_bind_ok h
      obtain ⟨⟨d₂, elseEnd⟩, h₂, h⟩ := of_bind_ok h
      cases h
      have hsize : (d.addItem cur (.condition test)).blocks.size = d.size :=
        Draft.size_addItem d cur _
      simp only [hsize] at h₁ h₂
      exact .ifElse (lowerBody_ok h₁) (lowerBody_ok h₂) k
  | .whileLoop id test body, cur, d, _, _, _, _, _, h, k => by
      rw [lowerStmt] at h
      obtain ⟨⟨d₁, last⟩, h₁, h⟩ := of_bind_ok h
      cases h
      have hsize : (((d.addBlock .loopHeader).addEdge cur d.blocks.size .sequential).addItem
          d.blocks.size (.condition test)).blocks.size = d.size + 1 := by
        exact (Draft.size_addItem _ _ _).trans (Draft.size_addBlock d _)
      simp only [Draft.loopFrame, hsize] at h₁ k
      exact .loop rfl (lowerBody_ok h₁) k
  | .forLoop id target iter body, cur, d, _, _, _, _, _, h, k => by
      rw [lowerStmt] at h
      obtain ⟨⟨d₁, last⟩, h₁, h⟩ := of_bind_ok h
      cases h
      have hcur : (d.addItem cur (.evaluate iter)).blocks.size = d.size :=
        Draft.size_addItem d cur _
      have hsize : (((d.addItem cur (.evaluate iter)).addBlock .loopHeader).addEdge cur d.size
          .sequential).blocks.size = d.size + 1 :=
        (Draft.size_addBlock (d.addItem cur (.evaluate iter)) _).trans (by rw [Draft.size_addItem])
      simp only [Draft.loopFrame, hcur, hsize] at h₁ k
      exact .loop rfl (lowerBody_ok h₁) k

/-- Whatever the lowering of a body returns is related to what it started from. -/
theorem lowerBody_ok {u : Owner} {loop : Option LoopFrame} :
    ∀ {body : List Stmt} {cur : Option Nat} {d d' : Draft} {next : Option Nat},
      lowerBody u loop body cur d = .ok (d', next) → Lowers u loop body cur d d' next
  | [], _, _, _, _, h => by
      rw [lowerBody] at h
      cases h
      exact .done
  | s :: rest, some cur, d, _, _, h => by
      rw [lowerBody] at h
      obtain ⟨⟨d₁, mid⟩, h₁, h⟩ := of_bind_ok h
      exact lowerStmt_ok h₁ (lowerBody_ok h)
  | s :: rest, none, d, _, _, h => by
      rw [lowerBody] at h
      obtain ⟨⟨d₁, mid⟩, h₁, h⟩ := of_bind_ok h
      exact .dead (lowerStmt_ok h₁ (lowerBody_ok h))

end

/-- A draft grown from another. Old blocks keep their roles, and those that are not in `own` also
keep their items. -/
structure Extends (own : Nat → Prop) (d d' : Draft) : Prop where
  size_le : d.size ≤ d'.size
  edges_sub : ∀ e ∈ d.edges, e ∈ d'.edges
  items_grow : ∀ b, d.items b <+: d'.items b
  items_eq : ∀ b < d.size, ¬ own b → d'.items b = d.items b
  kind_eq : ∀ b < d.size, d'.kindOf b = d.kindOf b

namespace Extends

variable {own own' : Nat → Prop} {d d₁ d₂ : Draft}

theorem refl (own : Nat → Prop) (d : Draft) : Extends own d d where
  size_le := Nat.le_refl _
  edges_sub _ h := h
  items_grow _ := List.prefix_rfl
  items_eq _ _ _ := rfl
  kind_eq _ _ := rfl

/-- A second step may touch what the first may, and what the first added. -/
theorem trans (h : Extends own d d₁) (k : Extends own' d₁ d₂)
    (hown : ∀ b < d.size, own' b → own b) : Extends own d d₂ where
  size_le := Nat.le_trans h.size_le k.size_le
  edges_sub e he := k.edges_sub e (h.edges_sub e he)
  items_grow b := (h.items_grow b).trans (k.items_grow b)
  items_eq b hb ho :=
    (k.items_eq b (Nat.lt_of_lt_of_le hb h.size_le) (fun h' => ho (hown b hb h'))).trans
      (h.items_eq b hb ho)
  kind_eq b hb := (k.kind_eq b (Nat.lt_of_lt_of_le hb h.size_le)).trans (h.kind_eq b hb)

/-- What is touched among new blocks does not matter. -/
theorem mono (h : Extends own' d d₁) (hown : ∀ b < d.size, own' b → own b) : Extends own d d₁ :=
  (refl own d).trans h hown

theorem addBlock (own : Nat → Prop) (d : Draft) (kind : BlockKind) :
    Extends own d (d.addBlock kind) where
  size_le := by simp
  edges_sub _ h := h
  items_grow b := (Draft.items_addBlock d b kind).symm ▸ List.prefix_rfl
  items_eq b _ _ := Draft.items_addBlock d b kind
  kind_eq b hb := by rw [Draft.kindOf_addBlock, if_neg (Nat.ne_of_lt hb)]

theorem addEdge (own : Nat → Prop) (d : Draft) (source target : Nat) (kind : EdgeKind) :
    Extends own d (d.addEdge source target kind) where
  size_le := Nat.le_refl _
  edges_sub _ h := Array.mem_push_of_mem _ h
  items_grow _ := List.prefix_rfl
  items_eq _ _ _ := rfl
  kind_eq _ _ := rfl

theorem addItem (own : Nat → Prop) {c : Nat} (hown : own c) (hc : c < d.size) (item : BlockItem) :
    Extends own d (d.addItem c item) where
  size_le := by simp
  edges_sub _ h := h
  items_grow b := by
    by_cases hb : b = c
    · rw [hb, Draft.items_addItem_self d c item hc]
      exact List.prefix_append _ _
    · exact (Draft.items_addItem_ne hb).symm ▸ List.prefix_rfl
  items_eq b _ ho := Draft.items_addItem_ne (by rintro rfl; exact ho hown)
  kind_eq b _ := Draft.kindOf_addItem ..

theorem addItems (own : Nat → Prop) {c : Nat} (hown : own c) (its : List BlockItem)
    (hc : c < d.size) : Extends own d (d.addItems c its) := by
  induction its generalizing d with
  | nil => exact refl own d
  | cons item its ih =>
      exact (addItem own hown hc item).trans (ih (by simpa using hc)) fun _ _ h => h

theorem foldl_addEdge (own : Nat → Prop) (d : Draft) (ends : List Nat) (target : Nat)
    (kind : EdgeKind) :
    Extends own d (ends.foldl (fun d' b => d'.addEdge b target kind) d) := by
  induction ends generalizing d with
  | nil => exact refl own d
  | cons b ends ih => exact (addEdge own d b target kind).trans (ih _) fun _ _ h => h

end Extends

namespace Draft

variable (d : Draft)

theorem openArms_extends {cur : Nat} (hcur : cur < d.size) (test : Expr) :
    Extends (some cur = some ·) d (d.openArms cur test) := by
  rw [openArms]
  refine (Extends.addItem (some cur = some ·) rfl hcur (.condition test)).trans ?_ fun _ _ h => h
  refine (Extends.addBlock (some cur = some ·) _ .statement).trans ?_ fun _ _ h => h
  refine (Extends.addBlock (some cur = some ·) _ .statement).trans ?_ fun _ _ h => h
  exact (Extends.addEdge _ _ _ _ _).trans (Extends.addEdge _ _ _ _ _) fun _ _ h => h

theorem joinArms_extends (own : Nat → Prop) (ends : List Nat) :
    Extends own d (d.joinArms ends) :=
  (Extends.addBlock own _ _).trans (Extends.foldl_addEdge own _ _ _ _) fun _ _ h => h

theorem closeLoop_extends (own : Nat → Prop) (frame : LoopFrame) (last : Option Nat) :
    Extends own d (d.closeLoop frame last) :=
  Extends.foldl_addEdge own _ _ _ _

theorem openHeader_extends {cur : Nat} (hcur : cur < d.size) (head : LoopHead) :
    Extends (some cur = some ·) d (d.openHeader cur head) := by
  have h : Extends (fun b => some cur = some b ∨ d.size ≤ b) d (d.openHeader cur head) := by
    rw [openHeader]
    refine (Extends.addItems _ (.inl rfl) head.before hcur).trans ?_ fun _ _ h => h
    refine (Extends.addBlock _ _ .loopHeader).trans ?_ fun _ _ h => h
    refine (Extends.addEdge _ _ cur d.size .sequential).trans ?_ fun _ _ h => h
    exact Extends.addItems _ (.inr (Nat.le_refl _)) _ (by simp)
  exact h.mono fun b hb hown => hown.resolve_right (Nat.not_le_of_lt hb)

theorem openLoop_extends (own : Nat → Prop) (frame : LoopFrame) (first : List BlockItem) :
    Extends own d (d.openLoop frame first) := by
  have h : Extends (fun b => d.size ≤ b) d (d.openLoop frame first) := by
    rw [openLoop_eq]
    refine (Extends.addBlock _ _ .statement).trans ?_ fun _ _ h => h
    refine (Extends.addBlock _ _ .statement).trans ?_ fun _ _ h => h
    refine (Extends.addEdge _ _ frame.header d.size .trueBranch).trans ?_ fun _ _ h => h
    refine (Extends.addEdge _ _ frame.header frame.after .falseBranch).trans ?_ fun _ _ h => h
    refine Extends.addItems _ (Nat.le_refl _) _ ?_
    simp only [Draft.size_addBlock, Draft.size_addEdge]
    omega
  exact h.mono fun b hb hown => absurd hown (Nat.not_le_of_lt hb)

theorem openBody_extends {cur : Nat} (hcur : cur < d.size) (head : LoopHead) :
    Extends (some cur = some ·) d (d.openBody cur head) :=
  (d.openHeader_extends hcur head).trans (openLoop_extends _ _ _ _) fun _ _ h => h

@[simp] theorem size_openArms (cur : Nat) (test : Expr) :
    (d.openArms cur test).size = d.size + 2 := by
  simp [openArms]

@[simp] theorem size_openBody (cur : Nat) (head : LoopHead) :
    (d.openBody cur head).size = d.size + 3 := by
  simp [openBody, openLoop_eq]

theorem size_foldl_addEdge (ends : List Nat) (target : Nat) (kind : EdgeKind) :
    (ends.foldl (fun d' b => d'.addEdge b target kind) d).size = d.size := by
  induction ends generalizing d with
  | nil => rfl
  | cons b ends ih => exact ih (d.addEdge b target kind)

@[simp] theorem size_joinArms (ends : List Nat) : (d.joinArms ends).size = d.size + 1 := by
  rw [joinArms, size_foldl_addEdge, size_addBlock]

@[simp] theorem size_closeLoop (frame : LoopFrame) (last : Option Nat) :
    (d.closeLoop frame last).size = d.size := size_foldl_addEdge ..

end Draft

section Opened

variable {d : Draft} {cur : Nat}

theorem Draft.items_of_size_le {b : Nat} (h : d.size ≤ b) : d.items b = [] := by
  rw [Draft.items, Array.getD_eq_getD_getElem?, Array.getElem?_eq_none h]
  rfl

theorem Draft.items_foldl_addEdge {b target : Nat} {ends : List Nat} {kind : EdgeKind} :
    (ends.foldl (fun d' b => d'.addEdge b target kind) d).items b = d.items b := by
  induction ends generalizing d with
  | nil => rfl
  | cons c ends ih => exact ih

theorem Draft.items_openArms (hcur : cur < d.size) (test : Expr) :
    (d.openArms cur test).items cur = d.items cur ++ [.condition test] := by
  simp only [Draft.openArms, Draft.items_addEdge, Draft.items_addBlock]
  exact Draft.items_addItem_self d cur _ hcur

/-- The items of a block that is neither the header nor the start of a new loop. -/
theorem Draft.items_openBody_of_ne {b : Nat} (head : LoopHead) (hheader : b ≠ d.size)
    (hstart : b ≠ d.size + 1) :
    (d.openBody cur head).items b = (d.addItems cur head.before).items b := by
  rw [Draft.openBody, Draft.openLoop_eq, Draft.size_openHeader, Draft.items_addItems_ne hstart]
  simp only [Draft.items_addEdge, Draft.items_addBlock]
  rw [Draft.openHeader, Draft.items_addItems_ne hheader]
  simp only [Draft.items_addEdge, Draft.items_addBlock]

theorem Draft.items_openBody_header (hcur : cur < d.size) (head : LoopHead) :
    (d.openBody cur head).items d.size = head.header := by
  rw [Draft.openBody, Draft.openLoop_eq, Draft.size_openHeader,
    Draft.items_addItems_ne (Nat.ne_of_lt (Nat.lt_succ_self _))]
  simp only [Draft.items_addEdge, Draft.items_addBlock]
  rw [Draft.openHeader, Draft.items_addItems_self (by simp)]
  simp only [Draft.items_addEdge, Draft.items_addBlock]
  rw [Draft.items_addItems_ne (Nat.ne_of_gt hcur), Draft.items_of_size_le (Nat.le_refl _),
    List.nil_append]

theorem Draft.items_openBody_start (hcur : cur < d.size) (head : LoopHead) :
    (d.openBody cur head).items (d.size + 1) = head.first := by
  rw [Draft.openBody, Draft.openLoop_eq, Draft.size_openHeader,
    Draft.items_addItems_self (by simp)]
  simp only [Draft.items_addEdge, Draft.items_addBlock]
  rw [Draft.openHeader, Draft.items_addItems_ne (Nat.succ_ne_self _)]
  simp only [Draft.items_addEdge, Draft.items_addBlock]
  rw [Draft.items_addItems_ne (Nat.ne_of_gt (Nat.lt_succ_of_lt hcur)),
    Draft.items_of_size_le (Nat.le_succ _), List.nil_append]

/-- The edges of a new loop: into its header, and from there into its body and past it. -/
theorem Draft.edges_openBody (head : LoopHead) : (d.openBody cur head).edges =
    ((d.edges.push ⟨cur, d.size, .sequential⟩).push ⟨d.size, d.size + 1, .trueBranch⟩).push
      ⟨d.size, d.size + 2, .falseBranch⟩ := by
  rw [Draft.openBody, Draft.openLoop_eq, Draft.size_openHeader]
  simp only [Draft.edges_addItems, Draft.edges_addEdge, Draft.edges_addBlock, Draft.openHeader,
    Draft.nextFrame]

theorem Draft.mem_foldl_addEdge {ends : List Nat} {target : Nat} {kind : EdgeKind} {b : Nat}
    (hb : b ∈ ends) :
    ⟨b, target, kind⟩ ∈ (ends.foldl (fun d' b => d'.addEdge b target kind) d).edges := by
  induction ends generalizing d with
  | nil => cases hb
  | cons c ends ih =>
      rcases List.mem_cons.1 hb with rfl | hb
      · exact (Extends.foldl_addEdge (fun _ => False) _ ends target kind).edges_sub _
          Array.mem_push_self
      · exact ih hb

end Opened

/-- What lowering a body leaves behind: only the block it started in is touched, and the block in
which control goes on is that one or a new one. -/
structure Outgrows (cur : Option Nat) (d d' : Draft) (next : Option Nat) : Prop where
  extends_ : Extends (cur = some ·) d d'
  next_new : ∀ n, next = some n → n < d'.size ∧ (cur = some n ∨ d.size ≤ n)

namespace Outgrows

variable {cur mid next : Option Nat} {d d₁ d₂ : Draft}

/-- Work that goes on in the old block or in a new one. -/
theorem after (h : Extends (cur = some ·) d d₁) (k : Outgrows mid d₁ d₂ next)
    (hmid : ∀ m, mid = some m → cur = some m ∨ d.size ≤ m) : Outgrows cur d d₂ next where
  extends_ := h.trans k.extends_ fun b hb hm => (hmid b hm).resolve_right (Nat.not_le_of_lt hb)
  next_new n hn := by
    obtain ⟨hlt, hm | hle⟩ := k.next_new n hn
    · exact ⟨hlt, hmid n hm⟩
    · exact ⟨hlt, .inr (Nat.le_trans h.size_le hle)⟩

end Outgrows

/-- Lowering touches no old block except the one it starts in. -/
theorem Lowers.outgrows {u : Owner} {loop : Option LoopFrame} {body : List Stmt}
    {cur next : Option Nat} {d d' : Draft} (h : Lowers u loop body cur d d' next)
    (hcur : ∀ c, cur = some c → c < d.size) : Outgrows cur d d' next := by
  induction h with
  | done => exact ⟨Extends.refl _ _, fun n hn => ⟨hcur n hn, .inl hn⟩⟩
  | dead h ih =>
      refine .after (Extends.addBlock _ _ _) (ih fun c hc => ?_) fun m hm => .inr ?_
      · cases hc; simp
      · cases hm; exact Nat.le_refl _
  | plain hs h ih =>
      have hc := hcur _ rfl
      exact .after (Extends.addItem (some _ = some ·) rfl hc _) (ih fun c hc' => by cases hc'; simpa using hc)
        fun m hm => .inl hm
  | ret hu h ih =>
      refine .after ?_ (ih fun c hc => by cases hc) fun m hm => by cases hm
      exact (Extends.addItem (some _ = some ·) rfl (hcur _ rfl) _).trans
        (Extends.addEdge _ _ _ _ _) fun _ _ h => h
  | brk h ih =>
      exact .after (Extends.addEdge _ _ _ _ _) (ih fun c hc => by cases hc) fun m hm => by cases hm
  | cont h ih =>
      exact .after (Extends.addEdge _ _ _ _ _) (ih fun c hc => by cases hc) fun m hm => by cases hm
  | @ifElse loop id test body orelse rest cur d d₁ d₂ d' thenEnd elseEnd next h₁ h₂ h₃ i₁ i₂ i₃ =>
      have open_ := d.openArms_extends (hcur _ rfl) test
      have g₁ := i₁ (by intro c hc; cases hc; simp)
      have hsize := g₁.extends_.size_le
      rw [Draft.size_openArms] at hsize
      have g₂ := i₂ (by intro c hc; cases hc; omega)
      have hsize₂ := g₂.extends_.size_le
      have arms : Extends (some cur = some ·) d d₂ := by
        refine (open_.trans g₁.extends_ fun b hb h => ?_).trans g₂.extends_ fun b hb h => ?_
        · cases h; omega
        · cases h; omega
      refine .after (arms.trans (d₂.joinArms_extends _ _) fun _ _ h => h) (i₃ ?_) fun m hm => ?_
      · intro c hc; cases hc; simp
      · cases hm; right; omega
  | @loop outer s head body rest cur d d₁ d' last next hs h₁ h₂ i₁ i₂ =>
      have open_ := d.openBody_extends (hcur _ rfl) head
      have g₁ := i₁ (by intro c hc; cases hc; simp)
      have hsize := g₁.extends_.size_le
      rw [Draft.size_openBody] at hsize
      have body_ : Extends (some cur = some ·) d d₁ := by
        refine open_.trans g₁.extends_ fun b hb h => ?_
        cases h; omega
      refine .after (body_.trans (d₁.closeLoop_extends _ _ _) fun _ _ h => h) (i₂ ?_)
        fun m hm => ?_
      · intro c hc; cases hc; simp; omega
      · cases hm; right; omega

/-- The blocks in which control leaves the arms of a conditional are new. -/
theorem Lowers.ends_new {u : Owner} {loop : Option LoopFrame} {test : Expr}
    {body orelse : List Stmt} {cur : Nat} {thenEnd elseEnd : Option Nat} {d d₁ d₂ : Draft}
    (h₁ : Lowers u loop body (some d.size) (d.openArms cur test) d₁ thenEnd)
    (h₂ : Lowers u loop orelse (some (d.size + 1)) d₁ d₂ elseEnd) :
    ∀ b ∈ thenEnd.toList ++ elseEnd.toList, d.size ≤ b ∧ b < d₂.size := by
  have g₁ := h₁.outgrows (by intro c hc; cases hc; simp)
  have hsize₁ := g₁.extends_.size_le
  rw [Draft.size_openArms] at hsize₁
  have g₂ := h₂.outgrows (by intro c hc; cases hc; omega)
  have hsize₂ := g₂.extends_.size_le
  intro b hb
  rcases List.mem_append.1 hb with hb | hb
  · obtain ⟨hb, heq | hle⟩ := g₁.next_new b (Option.mem_toList.1 hb)
    · cases heq; omega
    · rw [Draft.size_openArms] at hle; omega
  · obtain ⟨hb, heq | hle⟩ := g₂.next_new b (Option.mem_toList.1 hb)
    · cases heq; omega
    · omega

/-- Whether the edges out of a block say where control goes: along the only one, or along one for
each outcome of a condition. -/
def Finished (outs : List Edge) : Prop :=
  (∃ e, outs = [e] ∧ e.kind.outcome? = none) ∨
    ∃ t f, outs = [t, f] ∧ t.kind = .trueBranch ∧ f.kind = .falseBranch

/-- A draft in which the listed blocks have no edges out and all others are finished. -/
structure Settled (d : Draft) (pending : List Nat) : Prop where
  edge_lt : ∀ e ∈ d.edges, e.source < d.size ∧ e.target < d.size
  nodup : pending.Nodup
  pending_lt : ∀ b ∈ pending, b < d.size
  pending_outs : ∀ b ∈ pending, d.outs b = []
  finished : ∀ b < d.size, b ∉ pending → Finished (d.outs b)

namespace Settled

variable {d : Draft} {b c : Nat} {pending l : List Nat}

theorem initial : Settled Draft.initial [entryId, exitId] where
  edge_lt e he := by simp [Draft.initial] at he
  nodup := by decide
  pending_lt := by decide
  pending_outs _ _ := rfl
  finished b hb hn := by
    have hlt : b < 2 := hb
    simp only [entryId, exitId, List.mem_cons, List.not_mem_nil, or_false] at hn
    omega

theorem perm (h : Settled d pending) (hp : pending.Perm l) : Settled d l where
  edge_lt := h.edge_lt
  nodup := hp.nodup_iff.1 h.nodup
  pending_lt b hb := h.pending_lt b (hp.mem_iff.2 hb)
  pending_outs b hb := h.pending_outs b (hp.mem_iff.2 hb)
  finished b hb hn := h.finished b hb fun hm => hn (hp.mem_iff.1 hm)

theorem outs_eq_nil (h : Settled d pending) (hb : d.size ≤ b) : d.outs b = [] := by
  refine List.filter_eq_nil_iff.2 fun e he hs => ?_
  have := (h.edge_lt e (Array.mem_toList_iff.1 he)).1
  simp only [decide_eq_true_eq] at hs
  omega

theorem addBlock (h : Settled d pending) (kind : BlockKind) :
    Settled (d.addBlock kind) (d.size :: pending) where
  edge_lt e he := by
    have := h.edge_lt e he
    rw [Draft.size_addBlock]
    omega
  nodup := List.nodup_cons.2 ⟨fun hm => Nat.lt_irrefl _ (h.pending_lt _ hm), h.nodup⟩
  pending_lt b hb := by
    rw [Draft.size_addBlock]
    rcases List.mem_cons.1 hb with rfl | hb
    · omega
    · have := h.pending_lt b hb
      omega
  pending_outs b hb := by
    rcases List.mem_cons.1 hb with rfl | hb
    · exact h.outs_eq_nil (Nat.le_refl _)
    · exact h.pending_outs b hb
  finished b hb hn := by
    have hne : b ≠ d.size := fun h => hn (h ▸ List.mem_cons_self)
    rw [Draft.size_addBlock] at hb
    exact h.finished b (by omega) fun h => hn (List.mem_cons_of_mem _ h)

theorem addItem (h : Settled d pending) (b : Nat) (item : BlockItem) :
    Settled (d.addItem b item) pending where
  edge_lt e he := by simpa using h.edge_lt e he
  nodup := h.nodup
  pending_lt c hc := by simpa using h.pending_lt c hc
  pending_outs c hc := h.pending_outs c hc
  finished c hc hn := h.finished c (by simpa using hc) hn

theorem addItems (h : Settled d pending) (b : Nat) (its : List BlockItem) :
    Settled (d.addItems b its) pending := by
  induction its generalizing d with
  | nil => exact h
  | cons item its ih => exact ih (h.addItem b item)

/-- One new edge out of a block touches no other block. -/
theorem outs_addEdge_of_ne (hne : c ≠ b) (target : Nat) (kind : EdgeKind) :
    (d.addEdge b target kind).outs c = d.outs c := by
  rw [Draft.outs_addEdge, if_neg hne.symm]

theorem edge_lt_addEdge (h : Settled d (b :: l)) {target : Nat} (ht : target < d.size)
    (kind : EdgeKind) (e : Edge) (he : e ∈ (d.addEdge b target kind).edges) :
    e.source < d.size ∧ e.target < d.size := by
  rcases Array.mem_push.1 he with he | rfl
  · exact h.edge_lt e he
  · exact ⟨h.pending_lt b List.mem_cons_self, ht⟩

/-- A pending block that jumps is finished. -/
theorem jump (h : Settled d (b :: l)) {target : Nat} (ht : target < d.size) {kind : EdgeKind}
    (hk : kind.outcome? = none) : Settled (d.addEdge b target kind) l where
  edge_lt := h.edge_lt_addEdge ht kind
  nodup := (List.nodup_cons.1 h.nodup).2
  pending_lt c hc := h.pending_lt c (List.mem_cons_of_mem _ hc)
  pending_outs c hc := by
    have hne : c ≠ b := fun hcb => (List.nodup_cons.1 h.nodup).1 (hcb ▸ hc)
    rw [outs_addEdge_of_ne hne]
    exact h.pending_outs c (List.mem_cons_of_mem _ hc)
  finished c hc hn := by
    by_cases hcb : c = b
    · left
      refine ⟨⟨b, target, kind⟩, ?_, hk⟩
      rw [hcb, Draft.outs_addEdge, if_pos rfl, h.pending_outs b List.mem_cons_self]
      rfl
    · rw [outs_addEdge_of_ne hcb]
      exact h.finished c hc (List.not_mem_cons_of_ne_of_not_mem hcb hn)

/-- A pending block that branches is finished. -/
theorem branch (h : Settled d (b :: l)) {yes no : Nat} (hy : yes < d.size) (hn : no < d.size) :
    Settled ((d.addEdge b yes .trueBranch).addEdge b no .falseBranch) l where
  edge_lt e he := by
    rcases Array.mem_push.1 he with he | rfl
    · exact h.edge_lt_addEdge hy .trueBranch e he
    · exact ⟨h.pending_lt b List.mem_cons_self, hn⟩
  nodup := (List.nodup_cons.1 h.nodup).2
  pending_lt c hc := h.pending_lt c (List.mem_cons_of_mem _ hc)
  pending_outs c hc := by
    have hne : c ≠ b := fun hcb => (List.nodup_cons.1 h.nodup).1 (hcb ▸ hc)
    rw [outs_addEdge_of_ne hne, outs_addEdge_of_ne hne]
    exact h.pending_outs c (List.mem_cons_of_mem _ hc)
  finished c hc hm := by
    by_cases hcb : c = b
    · right
      refine ⟨⟨b, yes, .trueBranch⟩, ⟨b, no, .falseBranch⟩, ?_, rfl, rfl⟩
      rw [hcb, Draft.outs_addEdge, if_pos rfl, Draft.outs_addEdge, if_pos rfl,
        h.pending_outs b List.mem_cons_self]
      rfl
    · rw [outs_addEdge_of_ne hcb, outs_addEdge_of_ne hcb]
      exact h.finished c hc (List.not_mem_cons_of_ne_of_not_mem hcb hm)

/-- Several pending blocks that jump to one place are finished. -/
theorem jumpAll {ends : List Nat} (h : Settled d (ends ++ l)) {target : Nat}
    (ht : target < d.size) {kind : EdgeKind} (hk : kind.outcome? = none) :
    Settled (ends.foldl (fun d' b => d'.addEdge b target kind) d) l := by
  induction ends generalizing d with
  | nil => exact h
  | cons b ends ih => exact ih (h.jump ht hk) ht

theorem openArms (h : Settled d (b :: l)) (test : Expr) :
    Settled (d.openArms b test) (d.size :: (d.size + 1) :: l) := by
  have opened := (((h.addItem b (.condition test)).addBlock .statement).addBlock .statement)
  simp only [Draft.size_addBlock, Draft.size_addItem] at opened
  have hp : ([d.size + 1, d.size] ++ b :: l).Perm (b :: d.size :: (d.size + 1) :: l) :=
    List.perm_middle.trans ((List.Perm.swap ..).cons b)
  refine (opened.perm hp).branch ?_ ?_
  · simp only [Draft.size_addBlock, Draft.size_addItem]
    omega
  · simp

theorem joinArms {ends : List Nat} (h : Settled d (ends ++ l)) :
    Settled (d.joinArms ends) (d.size :: l) :=
  ((h.addBlock .join).perm List.perm_middle.symm).jumpAll (by simp) rfl

theorem openBody (h : Settled d (b :: l)) (head : LoopHead) :
    Settled (d.openBody b head) ((d.size + 1) :: (d.size + 2) :: l) := by
  have header : Settled (d.openHeader b head) (d.size :: l) := by
    have added := (h.addItems b head.before).addBlock .loopHeader
    rw [Draft.size_addItems] at added
    exact ((added.perm (List.Perm.swap ..)).jump (by simp) rfl).addItems d.size head.header
  have blocks := (header.addBlock .statement).addBlock .statement
  simp only [Draft.size_addBlock, Draft.size_openHeader] at blocks
  have hp : ([d.size + 2, d.size + 1] ++ d.size :: l).Perm
      (d.size :: (d.size + 1) :: (d.size + 2) :: l) :=
    List.perm_middle.trans ((List.Perm.swap ..).cons d.size)
  rw [Draft.openBody, Draft.openLoop_eq, Draft.size_openHeader]
  exact ((blocks.perm hp).branch (by simp) (by simp [Draft.nextFrame])).addItems _ _

theorem closeLoop {last : Option Nat} (h : Settled d (last.toList ++ l)) {frame : LoopFrame}
    (hf : frame.header < d.size) : Settled (d.closeLoop frame last) l :=
  h.jumpAll hf rfl

end Settled

/-- Lowering a body finishes every block except the one in which control goes on. -/
theorem Lowers.settled {u : Owner} {loop : Option LoopFrame} {body : List Stmt}
    {cur next : Option Nat} {d d' : Draft} (h : Lowers u loop body cur d d' next) {l : List Nat}
    (hs : Settled d (cur.toList ++ l)) (hexit : exitId < d.size)
    (hloop : ∀ frame, loop = some frame → frame.header < d.size ∧ frame.after < d.size) :
    Settled d' (next.toList ++ l) := by
  induction h generalizing l with
  | done => exact hs
  | dead h ih =>
      refine ih (hs.addBlock _) (by simp; omega) fun f hf => ?_
      have := hloop f hf
      simp; omega
  | plain _ h ih =>
      exact ih (hs.addItem _ _) (by simpa using hexit) fun f hf => by simpa using hloop f hf
  | ret _ h ih =>
      exact ih ((hs.addItem _ _).jump (by simpa using hexit) rfl) (by simpa using hexit)
        fun f hf => by simpa using hloop f hf
  | brk h ih => exact ih (hs.jump (hloop _ rfl).2 rfl) hexit hloop
  | cont h ih => exact ih (hs.jump (hloop _ rfl).1 rfl) hexit hloop
  | @ifElse loop id test body orelse rest cur d d₁ d₂ d' thenEnd elseEnd next h₁ h₂ h₃ i₁ i₂ i₃ =>
      have hcur : cur < d.size := hs.pending_lt cur List.mem_cons_self
      have g₁ := h₁.outgrows (by intro c hc; cases hc; simp)
      have hsize₁ := g₁.extends_.size_le
      rw [Draft.size_openArms] at hsize₁
      have hsize₂ := (h₂.outgrows (by intro c hc; cases hc; omega)).extends_.size_le
      have s₁ := i₁ (hs.openArms test) (by simp; omega) (by
        intro f hf
        have := hloop f hf
        simp; omega)
      have s₂ := i₂ (s₁.perm List.perm_middle) (by omega) (by
        intro f hf
        have := hloop f hf
        omega)
      have hp : (elseEnd.toList ++ (thenEnd.toList ++ l)).Perm
          ((thenEnd.toList ++ elseEnd.toList) ++ l) := by
        rw [← List.append_assoc]
        exact List.perm_append_comm.append_right l
      refine i₃ (s₂.perm hp).joinArms (by simp; omega) fun f hf => ?_
      have := hloop f hf
      simp; omega
  | @loop outer s head body rest cur d d₁ d' last next hloop? h₁ h₂ i₁ i₂ =>
      have hsize₁ := (h₁.outgrows (by intro c hc; cases hc; simp)).extends_.size_le
      rw [Draft.size_openBody] at hsize₁
      have s₁ := i₁ (hs.openBody head) (by simp; omega) (by
        intro f hf
        cases hf
        simp [Draft.nextFrame])
      refine i₂ (s₁.closeLoop (by simp [Draft.nextFrame]; omega)) (by simp; omega) fun f hf => ?_
      have := hloop f hf
      simp; omega

end FlowGraph

end ValueFlow
