import ValueFlow.Proofs.FlowGraph.Wiring
/-!
A block is over when it comes to a condition.

Lowering goes on in blocks without conditions only, and it appends items to no other block. Main
statement: `conditionLast_of_build`.
-/

namespace ValueFlow

namespace FlowGraph

/-- No item is a condition. -/
def Unconditional (items : List BlockItem) : Prop := ∀ e, .condition e ∉ items

/-- A condition among some items is the last of them. -/
def ConditionLast (items : List BlockItem) : Prop :=
  ∀ front e back, items = front ++ .condition e :: back → back = []

section Items

variable {items : List BlockItem} {item : BlockItem}

theorem unconditional_nil : Unconditional [] := fun _ => List.not_mem_nil

theorem Unconditional.append {more : List BlockItem} (h : Unconditional items)
    (hmore : Unconditional more) : Unconditional (items ++ more) := fun e he =>
  (List.mem_append.1 he).elim (h e) (hmore e)

theorem Unconditional.conditionLast (h : Unconditional items) : ConditionLast items := by
  rintro front e back rfl
  exact absurd (List.mem_append_right _ List.mem_cons_self) (h e)

/-- Any item can follow items without conditions. -/
theorem Unconditional.conditionLast_concat (h : Unconditional items) (item : BlockItem) :
    ConditionLast (items ++ [item]) := by
  intro front e back heq
  rcases List.eq_nil_or_concat back with rfl | ⟨middle, last, rfl⟩
  · rfl
  · rw [List.concat_eq_append, ← List.cons_append, ← List.append_assoc] at heq
    have hitems := (List.append_inj' heq rfl).1
    exact absurd (hitems ▸ List.mem_append_right _ List.mem_cons_self) (h e)

theorem conditionLast_nil : ConditionLast [] := unconditional_nil.conditionLast

end Items

theorem unconditional_before (head : LoopHead) : Unconditional head.before := by
  cases head with
  | whileTrue => exact unconditional_nil
  | forEach => exact fun e he => by cases List.mem_singleton.1 he

theorem unconditional_first (head : LoopHead) : Unconditional head.first := by
  cases head with
  | whileTrue => exact unconditional_nil
  | forEach => exact fun e he => by cases List.mem_singleton.1 he

theorem Draft.items_initial (b : Nat) : Draft.initial.items b = [] := by
  cases b with
  | zero => rfl
  | succ b =>
      cases b with
      | zero => rfl
      | succ b => rfl

/-- A draft in which conditions are last, and the block in which control goes on has none. -/
structure Draft.Tidy (cur : Option Nat) (d : Draft) : Prop where
  last : ∀ b, ConditionLast (d.items b)
  going : ∀ b, cur = some b → Unconditional (d.items b)

namespace Draft.Tidy

variable {d : Draft} {cur : Nat} {mid : Option Nat}

theorem initial : Tidy (some entryId) Draft.initial where
  last b := by
    rw [Draft.items_initial b]
    exact conditionLast_nil
  going b _ := by
    rw [Draft.items_initial b]
    exact unconditional_nil

/-- Control goes on nowhere. -/
theorem stop (h : Tidy mid d) : Tidy none d where
  last := h.last
  going b hb := by cases hb

/-- Control goes on in a block without items. -/
theorem goOn (h : Tidy mid d) {b : Nat} (hb : d.items b = []) : Tidy (some b) d where
  last := h.last
  going c hc := by
    cases hc
    rw [hb]
    exact unconditional_nil

theorem congr {d' : Draft} (h : Tidy mid d) (hitems : ∀ b, d'.items b = d.items b) :
    Tidy mid d' where
  last b := by
    rw [hitems b]
    exact h.last b
  going b hb := by
    rw [hitems b]
    exact h.going b hb

/-- The block in which control goes on gets an item. -/
theorem addItem (h : Tidy (some cur) d) (hcur : cur < d.size) (item : BlockItem) :
    Tidy none (d.addItem cur item) where
  last b := by
    by_cases hb : b = cur
    · rw [hb, Draft.items_addItem_self d cur item hcur]
      exact (h.going cur rfl).conditionLast_concat item
    · rw [Draft.items_addItem_ne hb]
      exact h.last b
  going b hb := by cases hb

/-- The block in which control goes on gets items without conditions. -/
theorem addItems (h : Tidy (some cur) d) (hcur : cur < d.size) {its : List BlockItem}
    (hits : Unconditional its) : Tidy (some cur) (d.addItems cur its) where
  last b := by
    by_cases hb : b = cur
    · rw [hb, Draft.items_addItems_self hcur]
      exact ((h.going cur rfl).append hits).conditionLast
    · rw [Draft.items_addItems_ne hb]
      exact h.last b
  going b hb := by
    cases hb
    rw [Draft.items_addItems_self hcur]
    exact (h.going cur rfl).append hits

theorem addBlock (h : Tidy mid d) (kind : BlockKind) : Tidy (some d.size) (d.addBlock kind) :=
  (h.congr fun b => Draft.items_addBlock d b kind).goOn
    ((Draft.items_addBlock d d.size kind).trans (Draft.items_of_size_le (Nat.le_refl _)))

theorem foldl_addEdge (h : Tidy mid d) (ends : List Nat) (target : Nat) (kind : EdgeKind) :
    Tidy mid (ends.foldl (fun d' b => d'.addEdge b target kind) d) :=
  h.congr fun _ => Draft.items_foldl_addEdge

theorem openArms (h : Tidy (some cur) d) (hcur : cur < d.size) (test : Expr) :
    Tidy none (d.openArms cur test) :=
  (h.addItem hcur (.condition test)).congr fun b => by
    simp only [Draft.openArms, Draft.items_addEdge, Draft.items_addBlock]

theorem openHeader (h : Tidy (some cur) d) (hcur : cur < d.size) (head : LoopHead) :
    Tidy none (d.openHeader cur head) := by
  have header : Tidy (some d.size)
      (((d.addItems cur head.before).addBlock .loopHeader).addEdge cur d.size .sequential) := by
    have before := (h.addItems hcur (unconditional_before head)).addBlock .loopHeader
    rw [Draft.size_addItems] at before
    exact before.congr fun _ => rfl
  cases head with
  | whileTrue test => exact header.addItem (by simp) (.condition test)
  | forEach => exact header.stop

theorem openBody (h : Tidy (some cur) d) (hcur : cur < d.size) (head : LoopHead) :
    Tidy (some (d.size + 1)) (d.openBody cur head) := by
  have body := (h.openHeader hcur head).addBlock .statement
  rw [Draft.size_openHeader] at body
  have edges : Tidy (some (d.size + 1)) (((((d.openHeader cur head).addBlock .statement).addBlock
      .statement).addEdge d.nextFrame.header (d.size + 1) .trueBranch).addEdge d.nextFrame.header
        d.nextFrame.after .falseBranch) :=
    body.congr fun b => by simp only [Draft.items_addEdge, Draft.items_addBlock]
  rw [Draft.openBody, Draft.openLoop_eq, Draft.size_openHeader]
  exact edges.addItems (by simp) (unconditional_first head)

end Draft.Tidy

/-- Lowering appends items to the block in which control goes on only. -/
theorem Lowers.tidy {u : Owner} {loop : Option LoopFrame} {body : List Stmt} {cur next : Option Nat}
    {d d' : Draft} (h : Lowers u loop body cur d d' next) (hd : d.Tidy cur)
    (hcur : ∀ c, cur = some c → c < d.size) : d'.Tidy next := by
  induction h with
  | done => exact hd
  | dead h ih => exact ih (hd.addBlock .statement) (by rintro _ ⟨⟩; simp)
  | @plain loop s rest cur d d' next hs h ih =>
      have hitem : Unconditional [.statement s] := fun e he => by cases List.mem_singleton.1 he
      exact ih (hd.addItems (hcur cur rfl) hitem) fun c hc => by simpa using hcur c hc
  | @ret loop id value rest cur d d' next hu h ih =>
      exact ih ((hd.addItem (hcur cur rfl) _).congr fun _ => rfl) fun c hc => by cases hc
  | brk h ih | cont h ih => exact ih (hd.stop.congr fun _ => rfl) fun c hc => by cases hc
  | @ifElse loop id test body orelse rest cur d d₁ d₂ d' thenEnd elseEnd next h₁ h₂ h₃ i₁ i₂ i₃ =>
      have arms := hd.openArms (hcur cur rfl) test
      have new_items : ∀ b, d.size ≤ b → (d.openArms cur test).items b = [] := fun b hb => by
        simp only [Draft.openArms, Draft.items_addEdge, Draft.items_addBlock]
        exact Draft.items_of_size_le (by simpa using hb)
      have yes := i₁ (arms.goOn (new_items d.size (Nat.le_refl _))) (by rintro _ ⟨⟩; simp)
      have grown := (h₁.outgrows (by rintro _ ⟨⟩; simp)).extends_
      have hsize := grown.size_le
      rw [Draft.size_openArms] at hsize
      have else_items : d₁.items (d.size + 1) = [] := by
        rw [grown.items_eq _ (by simp) (by simp), new_items _ (Nat.le_succ _)]
      have no := i₂ (yes.goOn else_items) (by rintro _ ⟨⟩; omega)
      exact i₃ ((no.addBlock .join).foldl_addEdge _ _ _) (by rintro _ ⟨⟩; simp)
  | @loop outer s head body rest cur d d₁ d' last next hs h₁ h₂ i₁ i₂ =>
      have hcur := hcur cur rfl
      have round := i₁ (hd.openBody hcur head) (by rintro _ ⟨⟩; simp)
      have grown := (h₁.outgrows (by rintro _ ⟨⟩; simp)).extends_
      have hsize := grown.size_le
      rw [Draft.size_openBody] at hsize
      have after_items : d₁.items (d.size + 2) = [] := by
        rw [grown.items_eq _ (by simp) (by simp),
          Draft.items_openBody_of_ne head (by omega) (by omega), Draft.items_addItems_ne (by omega),
          Draft.items_of_size_le (Nat.le_add_right _ _)]
      exact i₂ ((round.goOn after_items).foldl_addEdge _ _ _) (by rintro _ ⟨⟩; simp; omega)

/-- On every graph that is built, a condition is the last item of its block. -/
theorem conditionLast_of_build {u : Owner} {body : List Stmt} {g : FlowGraph}
    (h : build u body = .ok g) {b : Nat} (hb : b < g.size) : ConditionLast (g.block b).items := by
  obtain ⟨d, last, lowers, -, rfl⟩ := build_ok h
  have tidy := (lowers.tidy .initial (by rintro _ ⟨⟩; decide)).foldl_addEdge last.toList exitId
    .sequential
  rw [Draft.finish_size] at hb
  obtain ⟨c, hc, rfl⟩ := Draft.InRange.exists_number hb
  rw [(Draft.finish_block u.function hc).1]
  exact tidy.last c

end FlowGraph

end ValueFlow
