import ValueFlow.Proofs.FlowGraph.Contents
import ValueFlow.Proofs.FlowGraph.Structured
/-!
Executing a body and following its flow graph agree, for any meaning of the parts.

Assertions about the places of a graph are closed when every move along items and edges keeps them.
Main statement: if closed assertions hold of a state at the entry, then they hold of the end of every
execution of the body from that state (`final_of_runBody`). The proof goes by induction over the
lowering, and over the rounds of each loop.
-/

namespace ValueFlow

namespace BlockItem

def isReturn : BlockItem → Bool
  | .statement s => s.isReturn
  | _ => false

end BlockItem

namespace LoopHead

theorem not_isReturn_before (head : LoopHead) : ∀ i ∈ head.before, i.isReturn = false := by
  cases head <;> simp [before, BlockItem.isReturn]

theorem not_isReturn_header (head : LoopHead) : ∀ i ∈ head.header, i.isReturn = false := by
  cases head <;> simp [header, BlockItem.isReturn]

end LoopHead

namespace FlowGraph

variable {σ ι : Type}

/-- What matters of a graph to those who follow it. -/
structure Chart where
  items : Nat → List BlockItem
  edge : Edge → Prop
  exit : Nat

def Draft.chart (d : Draft) : Chart := ⟨d.items, (· ∈ d.edges), exitId⟩

def chart (g : FlowGraph) : Chart := ⟨fun b => (g.block b).items, (· ∈ g.edges), g.exit⟩

/-- Assertions about states at the places of a graph, about the elements that its loops go over,
and about the ends of executions. A place is a block and how many of its items are done. -/
structure Assertions (σ ι : Type) where
  here : Nat → Nat → σ → Prop
  live : Nat → LoopHead → ι → Prop
  final : Ending → σ → Prop

/-- Every move in a graph keeps the assertions. -/
structure Closed (m : Meaning σ ι) (c : Chart) (a : Assertions σ ι) : Prop where
  item : ∀ {b k i s s'}, a.here b k s → (c.items b)[k]? = some i → i.isReturn = false →
    m.item i s = some s' → a.here b (k + 1) s'
  test : ∀ {b cond o s s' e}, a.here b (c.items b).length s →
    (c.items b).getLast? = some (.condition cond) → m.test cond s = some (o, s') → c.edge e →
    e.source = b → e.kind.outcome? = some o → a.here e.target 0 s'
  testStarves : ∀ {b cond s e}, a.here b (c.items b).length s →
    (c.items b).getLast? = some (.condition cond) → m.test cond s = none → c.edge e →
    e.source = b → e.kind = .trueBranch → a.final .starved s
  opens : ∀ {b head s it}, a.here b 0 s → c.items b = head.header → m.opens head s = some it →
    a.live b head it
  asks : ∀ {b head it o s s' e}, a.live b head it → a.here b (c.items b).length s →
    c.items b = head.header → m.asks head it s = some (o, s') → c.edge e → e.source = b →
    e.kind.outcome? = some o → a.here e.target 0 s'
  asksStarves : ∀ {b head it s e}, a.live b head it → a.here b (c.items b).length s →
    c.items b = head.header → m.asks head it s = none → c.edge e → e.source = b →
    e.kind = .trueBranch → a.final .starved s
  starts : ∀ {b head it it' s s' e}, a.live b head it → c.items b = head.header → c.edge e →
    e.source = b → e.kind = .trueBranch → head.first <+: c.items e.target →
    a.here e.target 0 s → m.starts head it s = some (it', s') →
    a.live b head it' ∧ a.here e.target head.first.length s'
  jump : ∀ {b s e}, a.here b (c.items b).length s → c.edge e → e.source = b →
    e.kind.outcome? = none → e.target ≠ c.exit → a.here e.target 0 s
  falls : ∀ {b s e}, a.here b (c.items b).length s → c.edge e → e.source = b →
    e.kind = .sequential → e.target = c.exit → a.final .done s
  returns : ∀ {b k i s s' e}, a.here b k s → (c.items b)[k]? = some i → i.isReturn = true →
    k + 1 = (c.items b).length → m.item i s = some s' → c.edge e → e.source = b →
    e.kind = .returnOut → e.target = c.exit → a.final .returned s'
  stops : ∀ {b k s}, a.here b k s → a.final .failed s

theorem Closed.runItems {m : Meaning σ ι} {c : Chart} {a : Assertions σ ι} (h : Closed m c a)
    {b k : Nat} {its : List BlockItem} {s s' : σ} (hs : a.here b k s)
    (hits : its <+: (c.items b).drop k) (hplain : ∀ i ∈ its, i.isReturn = false)
    (hrun : m.runItems its s = some s') : a.here b (k + its.length) s' := by
  induction its generalizing k s with
  | nil =>
      cases hrun
      exact hs
  | cons i its ih =>
      obtain ⟨post, hpost⟩ := hits
      have hi : (c.items b)[k]? = some i := by
        rw [← Nat.add_zero k, ← List.getElem?_drop, ← hpost]
        rfl
      have hrest : its <+: (c.items b).drop (k + 1) := by
        refine ⟨post, ?_⟩
        rw [← List.drop_drop, ← hpost]
        rfl
      rw [Meaning.runItems, List.foldlM_cons] at hrun
      obtain ⟨s₁, hitem, hrun⟩ := Option.bind_eq_some_iff.1 hrun
      have := ih (h.item hs hi (hplain i List.mem_cons_self) hitem) hrest
        (fun j hj => hplain j (List.mem_cons_of_mem _ hj)) hrun
      rwa [List.length_cons, Nat.add_comm its.length, ← Nat.add_assoc]

section Arrival

variable (a : Assertions σ ι)

/-- What holds of the end of the execution of a body whose lowering goes on in a block: where
control goes on, the assertions hold. -/
def Arrives (loop : Option LoopFrame) (next : Option Nat) (d : Draft) (r : Ran σ) : Prop :=
  match r.ending with
  | .done => ∃ b, next = some b ∧ a.here b (d.items b).length r.state
  | .broke => ∃ frame, loop = some frame ∧ a.here frame.after 0 r.state
  | .continued => ∃ frame, loop = some frame ∧ a.here frame.header 0 r.state
  | .returned => a.final .returned r.state
  | .starved => a.final .starved r.state
  | .failed => a.final .failed r.state

variable {a} {loop : Option LoopFrame} {mid next : Option Nat} {d d' : Draft}

theorem Arrives.andThen {r : Ran σ} (h : Arrives a loop mid d r) {k : σ → Ran σ}
    (hk : ∀ b s, mid = some b → a.here b (d.items b).length s → Arrives a loop next d' (k s)) :
    Arrives a loop next d' (r.andThen k) := by
  obtain ⟨ending, s⟩ := r
  cases ending with
  | done =>
      obtain ⟨b, hb, hs⟩ := h
      exact hk b s hb hs
  | broke | continued | returned | starved | failed => exact h

theorem Arrives.orElse_failed {α : Type} {result : Option α} {s : σ} {k : α → Ran σ}
    (hnone : a.final .failed s) (hk : ∀ x, result = some x → Arrives a loop next d (k x)) :
    Arrives a loop next d (Ran.orElse result .failed s k) := by
  cases result with
  | none => exact hnone
  | some x => exact hk x rfl

theorem Arrives.orElse_starved {α : Type} {result : Option α} {s : σ} {k : α → Ran σ}
    (hnone : result = none → a.final .starved s)
    (hk : ∀ x, result = some x → Arrives a loop next d (k x)) :
    Arrives a loop next d (Ran.orElse result .starved s k) := by
  cases result with
  | none => exact hnone rfl
  | some x => exact hk x rfl

/-- The end of an arm leads to a block that has no items yet. -/
theorem Arrives.joins {r : Ran σ} (h : Arrives a loop mid d r) {target : Nat}
    (hjoin : ∀ b s, mid = some b → a.here b (d.items b).length s → a.here target 0 s)
    (hempty : d'.items target = []) : Arrives a loop (some target) d' r := by
  obtain ⟨ending, s⟩ := r
  cases ending with
  | done =>
      obtain ⟨b, hb, hs⟩ := h
      refine ⟨target, rfl, ?_⟩
      rw [hempty]
      exact hjoin b s hb hs
  | broke | continued | returned | starved | failed => exact h

/-- How a round of a loop ended decides where the loop goes on. -/
theorem Arrives.afterRound {frame : LoopFrame} {last : Option Nat} {d₁ : Draft} {r : Ran σ}
    (h : Arrives a (some frame) last d₁ r) {again : σ → Ran σ}
    (hlast : ∀ b s, last = some b → a.here b (d₁.items b).length s → a.here frame.header 0 s)
    (hafter : ∀ s, a.here frame.after 0 s → Arrives a loop next d ⟨.done, s⟩)
    (hagain : ∀ s, a.here frame.header 0 s → Arrives a loop next d (again s)) :
    Arrives a loop next d (Meaning.afterRound r again) := by
  obtain ⟨ending, s⟩ := r
  cases ending with
  | done =>
      obtain ⟨b, hb, hs⟩ := h
      exact hagain s (hlast b s hb hs)
  | continued =>
      obtain ⟨_, hframe, hs⟩ := h
      cases hframe
      exact hagain s hs
  | broke =>
      obtain ⟨_, hframe, hs⟩ := h
      cases hframe
      exact hafter s hs
  | returned | starved | failed => exact h

/-- The rounds of a loop end where the loop leads to. -/
theorem Closed.rounds {m : Meaning σ ι} {D d₁ : Draft} (h : Closed m D.chart a) {frame : LoopFrame}
    {head : LoopHead} {start : Nat} {last : Option Nat} {round : σ → Ran σ}
    (hitems : D.items frame.header = head.header)
    (hin : ⟨frame.header, start, .trueBranch⟩ ∈ D.edges)
    (hout : ⟨frame.header, frame.after, .falseBranch⟩ ∈ D.edges)
    (hfirst : head.first <+: D.items start)
    (hround : ∀ s, a.here start head.first.length s → Arrives a (some frame) last d₁ (round s))
    (hlast : ∀ b s, last = some b → a.here b (d₁.items b).length s → a.here frame.header 0 s)
    (hafter : d.items frame.after = []) :
    ∀ n it s, a.live frame.header head it → a.here frame.header 0 s →
      Arrives a loop (some frame.after) d (m.rounds head round n it s) := by
  have harrives : ∀ s, a.here frame.after 0 s →
      Arrives a loop (some frame.after) d ⟨.done, s⟩ := fun s hs =>
    ⟨frame.after, rfl, by rw [hafter]; exact hs⟩
  intro n
  induction n with
  | zero => exact fun _ _ _ hs => h.stops hs
  | succ n ih =>
      intro it s hit hs
      rw [Meaning.rounds]
      refine .orElse_failed (h.stops hs) fun s₁ hs₁ => ?_
      have hend : a.here frame.header (D.items frame.header).length s₁ := by
        have hits : head.header <+: (D.items frame.header).drop 0 := by
          rw [hitems]
          exact List.prefix_rfl
        have := h.runItems hs hits head.not_isReturn_header hs₁
        rwa [Nat.zero_add, ← hitems] at this
      refine .orElse_starved (fun hnone => h.asksStarves hit hend hitems hnone hin rfl rfl) ?_
      rintro ⟨o, s₂⟩ hs₂
      cases o with
      | false => exact harrives s₂ (h.asks hit hend hitems hs₂ hout rfl rfl)
      | true =>
          have hbody : a.here start 0 s₂ := h.asks hit hend hitems hs₂ hin rfl rfl
          refine .orElse_failed (h.stops hbody) fun ⟨it', s₃⟩ hs₃ => ?_
          obtain ⟨hit', hs₃⟩ := h.starts hit hitems hin rfl rfl hfirst hbody hs₃
          exact (hround s₃ hs₃).afterRound hlast harrives fun s₄ hs₄ => ih it' s₄ hit' hs₄

end Arrival

/-- What a draft is in the end, seen from a piece of the work on it: the blocks that the piece
filled stay as they are, except the one in which control goes on. -/
structure Completed (cur next : Option Nat) (d d' D : Draft) : Prop where
  edges_sub : ∀ e ∈ d'.edges, e ∈ D.edges
  items_grow : ∀ b, d'.items b <+: D.items b
  items_eq : ∀ b < d'.size, (cur = some b ∨ d.size ≤ b) → next ≠ some b → D.items b = d'.items b

/-- A part of a piece of work, when the rest of the piece leaves its blocks alone. -/
theorem Completed.part {own : Nat → Prop} {cur cur₁ mid next : Option Nat} {d d₁ d₂ d' D : Draft}
    (h : Completed cur next d d' D) (k : Extends own d₂ d')
    (hown : ∀ b < d₂.size, (cur₁ = some b ∨ d₁.size ≤ b) → mid ≠ some b →
      (cur = some b ∨ d.size ≤ b) ∧ next ≠ some b ∧ ¬ own b) : Completed cur₁ mid d₁ d₂ D where
  edges_sub e he := h.edges_sub e (k.edges_sub e he)
  items_grow b := (k.items_grow b).trans (h.items_grow b)
  items_eq b hb hb₁ hmid := by
    obtain ⟨hcur, hnext, ho⟩ := hown b hb hb₁ hmid
    exact (h.items_eq b (Nat.lt_of_lt_of_le hb k.size_le) hcur hnext).trans (k.items_eq b hb ho)

/-- A piece of work that only goes on with what was there. -/
theorem Completed.rest {cur mid next : Option Nat} {d d₁ d' D : Draft}
    (h : Completed cur next d d' D) (hmid : ∀ b, mid = some b → cur = some b ∨ d.size ≤ b)
    (hsize : d.size ≤ d₁.size) : Completed mid next d₁ d' D :=
  h.part (Extends.refl (fun _ => False) d') fun b _ hb hnext =>
    ⟨hb.elim (hmid b) fun hb => .inr (Nat.le_trans hsize hb), hnext, fun hf => hf⟩

/-- A block that control has left is as it stays. -/
theorem Completed.filled {c : Nat} {mid next : Option Nat} {d d₁ d' D : Draft}
    (h : Completed (some c) next d d' D) (g : Outgrows mid d₁ d' next) (hmid : mid ≠ some c)
    (hc : c < d₁.size) : D.items c = d₁.items c := by
  have hnext : next ≠ some c := fun hn =>
    (g.next_new c hn).2.elim hmid fun hle => Nat.not_le_of_lt hc hle
  exact (h.items_eq c (Nat.lt_of_lt_of_le hc g.extends_.size_le) (.inl rfl) hnext).trans
    (g.extends_.items_eq c hc hmid)

/-- What was added before the rest of a piece of work is there in the end. -/
theorem Completed.edge {cur mid next : Option Nat} {d d₁ d' D : Draft}
    (h : Completed cur next d d' D) (g : Outgrows mid d₁ d' next) {e : Edge} (he : e ∈ d₁.edges) :
    e ∈ D.edges :=
  h.edges_sub e (g.extends_.edges_sub e he)

/-- Where no control goes on, control may as well go on. -/
theorem Completed.weaken {cur : Option Nat} {d d' D : Draft} (h : Completed cur none d d' D)
    (next : Option Nat) : Completed cur next d d' D where
  edges_sub := h.edges_sub
  items_grow := h.items_grow
  items_eq b hb hcur _ := h.items_eq b hb hcur nofun

/-- Where a conditional stands in the draft that it becomes part of. -/
structure ArmsPlaced (cur : Nat) (test : Expr) (d d₁ d₂ D : Draft) (ends : List Nat) : Prop where
  items : D.items cur = d.items cur ++ [.condition test]
  yes : ⟨cur, d.size, .trueBranch⟩ ∈ D.edges
  no : ⟨cur, d.size + 1, .falseBranch⟩ ∈ D.edges
  then_ : Completed (some d.size) none (d.openArms cur test) d₁ D
  else_ : Completed (some (d.size + 1)) none d₁ d₂ D
  join : ∀ b ∈ ends, ⟨b, d₂.size, .sequential⟩ ∈ D.edges
  thenStart : (d.openArms cur test).items d.size = []
  elseStart : d₁.items (d.size + 1) = []
  joinStart : (d₂.joinArms ends).items d₂.size = []

theorem Completed.arms {cur : Nat} {test : Expr} {thenEnd elseEnd next : Option Nat}
    {d d₁ d₂ d' D : Draft} (h : Completed (some cur) next d d' D) (hcur : cur < d.size)
    (g₁ : Outgrows (some d.size) (d.openArms cur test) d₁ thenEnd)
    (g₂ : Outgrows (some (d.size + 1)) d₁ d₂ elseEnd) {ends : List Nat}
    (g₃ : Outgrows (some d₂.size) (d₂.joinArms ends) d' next) :
    ArmsPlaced cur test d d₁ d₂ D ends := by
  have hsize₁ : d.size + 2 ≤ d₁.size := Draft.size_openArms d cur test ▸ g₁.extends_.size_le
  have hsize₂ := g₂.extends_.size_le
  have hsize₃ : d₂.size + 1 ≤ d'.size := Draft.size_joinArms d₂ ends ▸ g₃.extends_.size_le
  have hnext : ∀ b < d₂.size, next ≠ some b := fun b hb hn => by
    have := (g₃.next_new b hn).2
    simp only [Option.some.injEq, Draft.size_joinArms] at this
    omega
  -- the arms work on blocks of their own, and the rest of the body on none of these
  have join_ := d₂.joinArms_extends (some d₂.size = some ·) ends
  have after₂ : Extends (some d₂.size = some ·) d₂ d' := join_.trans g₃.extends_ fun _ _ h => h
  have after₁ : Extends (some (d.size + 1) = some ·) d₁ d' :=
    g₂.extends_.trans after₂ fun b hb h => by cases h; omega
  have after₀ : Extends (d.size ≤ ·) (d.openArms cur test) d' := by
    refine (g₁.extends_.mono fun b _ h => ?_).trans after₁ fun b _ h => ?_
    · exact Nat.le_of_eq (Option.some.inj h)
    · exact Nat.le_of_succ_le (Nat.le_of_eq (Option.some.inj h))
  have hempty : ∀ b, b ≠ cur → (d.openArms cur test).items b = d.items b := fun b hb => by
    simp only [Draft.openArms, Draft.items_addEdge, Draft.items_addBlock]
    exact Draft.items_addItem_ne hb
  exact {
    items := by
      rw [h.items_eq cur (by omega) (.inl rfl) (hnext cur (by omega)),
        after₀.items_eq cur (by simp; omega) (by omega), Draft.items_openArms hcur]
    yes := h.edges_sub _ (after₀.edges_sub _ (by simp [Draft.openArms]))
    no := h.edges_sub _ (after₀.edges_sub _ (by simp [Draft.openArms]))
    then_ := h.part after₁ fun b hb hown _ => by
      simp only [Option.some.injEq, Draft.size_openArms] at hown ⊢
      exact ⟨.inr (by omega), hnext b (by omega), by omega⟩
    else_ := h.part after₂ fun b hb hown _ => by
      simp only [Option.some.injEq] at hown ⊢
      exact ⟨.inr (by omega), hnext b hb, by omega⟩
    join b hb := h.edges_sub _ (g₃.extends_.edges_sub _ (Draft.mem_foldl_addEdge hb))
    thenStart := by rw [hempty d.size (by omega), Draft.items_of_size_le (Nat.le_refl _)]
    elseStart := by
      rw [g₁.extends_.items_eq _ (by simp) (by simp), hempty _ (by omega),
        Draft.items_of_size_le (Nat.le_succ _)]
    joinStart := by
      rw [Draft.joinArms, Draft.items_foldl_addEdge, Draft.items_addBlock,
        Draft.items_of_size_le (Nat.le_refl _)] }

/-- Where a loop stands in the draft that it becomes part of. -/
structure LoopPlaced (cur : Nat) (head : LoopHead) (d d₁ D : Draft) (last : Option Nat) : Prop where
  items : D.items cur = d.items cur ++ head.before
  header : D.items d.size = head.header
  first : head.first <+: D.items (d.size + 1)
  enter : ⟨cur, d.size, .sequential⟩ ∈ D.edges
  inside : ⟨d.size, d.size + 1, .trueBranch⟩ ∈ D.edges
  past : ⟨d.size, d.size + 2, .falseBranch⟩ ∈ D.edges
  back : ∀ b, last = some b → ⟨b, d.size, .loopBack⟩ ∈ D.edges
  round : Completed (some (d.size + 1)) none (d.openBody cur head) d₁ D
  after : (d₁.closeLoop d.nextFrame last).items (d.size + 2) = []

theorem Completed.loop {cur : Nat} {head : LoopHead} {last next : Option Nat} {d d₁ d' D : Draft}
    (h : Completed (some cur) next d d' D) (hcur : cur < d.size)
    (g₁ : Outgrows (some (d.size + 1)) (d.openBody cur head) d₁ last)
    (g₂ : Outgrows (some (d.size + 2)) (d₁.closeLoop d.nextFrame last) d' next) :
    LoopPlaced cur head d d₁ D last := by
  have hsize₁ : d.size + 3 ≤ d₁.size := Draft.size_openBody d cur head ▸ g₁.extends_.size_le
  have hsize₂ : d₁.size ≤ d'.size :=
    Draft.size_closeLoop d₁ d.nextFrame last ▸ g₂.extends_.size_le
  have hnext : ∀ b < d₁.size, b ≠ d.size + 2 → next ≠ some b := fun b hb hne hn => by
    have := (g₂.next_new b hn).2
    simp only [Option.some.injEq, Draft.size_closeLoop] at this
    omega
  have after₁ : Extends (some (d.size + 2) = some ·) d₁ d' :=
    (d₁.closeLoop_extends _ _ _).trans g₂.extends_ fun _ _ h => h
  have after₀ : Extends (d.size < ·) (d.openBody cur head) d' := by
    refine (g₁.extends_.mono fun b _ h => ?_).trans after₁ fun b _ h => ?_
    · exact Nat.le_of_eq (Option.some.inj h)
    · exact Nat.le_of_succ_le (Nat.le_of_eq (Option.some.inj h))
  have hedges : ∀ e ∈ (d.openBody cur head).edges, e ∈ D.edges := fun e he =>
    h.edges_sub e (after₀.edges_sub e he)
  simp only [Draft.edges_openBody, Array.mem_push] at hedges
  exact {
    items := by
      rw [h.items_eq cur (by omega) (.inl rfl) (hnext cur (by omega) (by omega)),
        after₀.items_eq cur (by simp; omega) (by omega),
        Draft.items_openBody_of_ne head (by omega) (by omega), Draft.items_addItems_self hcur]
    header := by
      rw [h.items_eq d.size (by omega) (.inr (Nat.le_refl _)) (hnext _ (by omega) (by omega)),
        after₀.items_eq d.size (by simp) (by omega), Draft.items_openBody_header hcur]
    first := by
      rw [← Draft.items_openBody_start hcur head]
      exact (after₀.items_grow _).trans (h.items_grow _)
    enter := hedges _ (.inl (.inl (.inr rfl)))
    inside := hedges _ (.inl (.inr rfl))
    past := hedges _ (.inr rfl)
    back b hb := by
      refine h.edges_sub _ (g₂.extends_.edges_sub _ (Draft.mem_foldl_addEdge ?_))
      rw [hb]
      exact List.mem_singleton_self b
    round := h.part after₁ fun b hb hown _ => by
      simp only [Option.some.injEq, Draft.size_openBody] at hown ⊢
      exact ⟨.inr (by omega), hnext b hb (by omega), by omega⟩
    after := by
      rw [Draft.closeLoop, Draft.items_foldl_addEdge, g₁.extends_.items_eq _ (by simp) (by simp),
        Draft.items_openBody_of_ne head (by omega) (by omega),
        Draft.items_addItems_ne (by omega), Draft.items_of_size_le (by omega)] }

/-- The end of a piece of work that is over leads on. -/
theorem Completed.jump {m : Meaning σ ι} {a : Assertions σ ι} {cur last : Option Nat}
    {d d' D : Draft} (h : Completed cur none d d' D) (hD : Closed m D.chart a)
    (g : Outgrows cur d d' last) {target : Nat} {kind : EdgeKind} (htarget : target ≠ exitId)
    (hkind : kind.outcome? = none) {b : Nat} {s : σ} (hb : last = some b)
    (he : ⟨b, target, kind⟩ ∈ D.edges) (hs : a.here b (d'.items b).length s) :
    a.here target 0 s := by
  have hend : a.here b (D.items b).length s := by
    rw [h.items_eq b (g.next_new b hb).1 (g.next_new b hb).2 nofun]
    exact hs
  exact hD.jump hend he rfl hkind htarget

section Lowering

variable {m : Meaning σ ι} {a : Assertions σ ι} {D : Draft}

theorem getElem?_of_append_singleton {its : List BlockItem} {i : BlockItem} {all : List BlockItem}
    (h : its ++ [i] <+: all) : all[its.length]? = some i := by
  obtain ⟨post, rfl⟩ := h
  simp

/-- An execution of a body ends where its lowering says, if closed assertions hold where it
starts. -/
theorem Lowers.arrives (hD : Closed m D.chart a) (n : Nat) {u : Owner} {loop : Option LoopFrame}
    {body : List Stmt} {cur next : Option Nat} {d d' : Draft} (h : Lowers u loop body cur d d' next)
    (hcur : ∀ c, cur = some c → c < d.size) (hexit : exitId < d.size)
    (hloop : ∀ frame, loop = some frame → frame.header ≠ exitId ∧ frame.after ≠ exitId)
    (hfull : Completed cur next d d' D) {c : Nat} {s : σ} (hc : cur = some c)
    (hs : a.here c (d.items c).length s) : Arrives a loop next d' (m.runBody n body s) := by
  induction h generalizing c s with
  | done =>
      rw [Meaning.runBody]
      exact ⟨c, hc, hs⟩
  | dead => cases hc
  | @plain loop stmt rest cur d d' next hplain h ih =>
      cases hc
      have hcd := hcur _ rfl
      have hcd' : cur < (d.addItem cur (.statement stmt)).size := by simpa using hcd
      have hitems := d.items_addItem_self cur (.statement stmt) hcd
      have g := h.outgrows fun c hc => by cases hc; exact hcd'
      have hitem : (D.items cur)[(d.items cur).length]? = some (.statement stmt) :=
        getElem?_of_append_singleton (hitems ▸ (g.extends_.items_grow cur).trans (hfull.items_grow cur))
      have hstmt : Arrives a loop (some cur) (d.addItem cur (.statement stmt))
          (m.runStmt n stmt s) := by
        rw [Meaning.runStmt_plain hplain]
        refine .orElse_failed (hD.stops hs) fun s' hs' => ⟨cur, rfl, ?_⟩
        rw [hitems, List.length_append]
        exact hD.item hs hitem (Bool.eq_false_iff.2 (Stmt.not_isReturn_of_isPlain hplain)) hs'
      rw [Meaning.runBody]
      refine hstmt.andThen fun b s' hb hs' => ih (fun c hc => by cases hc; exact hcd')
        (by simpa using hexit) hloop (hfull.rest (fun b hb => .inl hb) (by simp)) hb hs'
  | @ret loop id value rest cur d d' next hu h ih =>
      cases hc
      have hcd := hcur _ rfl
      have g := h.outgrows fun c hc => by cases hc
      have hitems : D.items cur = d.items cur ++ [.statement (.ret id value)] :=
        (hfull.filled g nofun (by simpa using hcd)).trans (d.items_addItem_self cur _ hcd)
      have hitem : (D.items cur)[(d.items cur).length]? = some (.statement (.ret id value)) :=
        getElem?_of_append_singleton (hitems ▸ List.prefix_rfl)
      rw [Meaning.runBody, Meaning.runStmt]
      cases hrun : m.item (.statement (.ret id value)) s with
      | none => exact hD.stops hs
      | some s' =>
          have hlast : (d.items cur).length + 1 = (D.items cur).length := by
            rw [hitems, List.length_append]
            rfl
          exact hD.returns hs hitem rfl hlast hrun (hfull.edge g Array.mem_push_self) rfl rfl rfl
  | @brk frame id rest cur d d' next h ih =>
      cases hc
      have g := h.outgrows fun c hc => by cases hc
      have hitems := hfull.filled g nofun (hcur _ rfl)
      rw [Meaning.runBody, Meaning.runStmt]
      have hend : a.here cur (D.items cur).length s := by
        rw [hitems]
        exact hs
      exact ⟨frame, rfl,
        hD.jump hend (hfull.edge g Array.mem_push_self) rfl rfl (hloop frame rfl).2⟩
  | @cont frame id rest cur d d' next h ih =>
      cases hc
      have g := h.outgrows fun c hc => by cases hc
      have hitems := hfull.filled g nofun (hcur _ rfl)
      rw [Meaning.runBody, Meaning.runStmt]
      have hend : a.here cur (D.items cur).length s := by
        rw [hitems]
        exact hs
      exact ⟨frame, rfl,
        hD.jump hend (hfull.edge g Array.mem_push_self) rfl rfl (hloop frame rfl).1⟩
  | @ifElse loop id test body orelse rest cur d d₁ d₂ d' thenEnd elseEnd next h₁ h₂ h₃ i₁ i₂ i₃ =>
      cases hc
      have hcd := hcur _ rfl
      have hlt₁ : ∀ c, some d.size = some c → c < (d.openArms cur test).size := by simp
      have g₁ := h₁.outgrows hlt₁
      have hsize₁ : d.size + 2 ≤ d₁.size := Draft.size_openArms d cur test ▸ g₁.extends_.size_le
      have hlt₂ : ∀ c, some (d.size + 1) = some c → c < d₁.size := by simp; omega
      have g₂ := h₂.outgrows hlt₂
      have hsize₂ := g₂.extends_.size_le
      have hlt₃ : ∀ c, some d₂.size = some c →
          c < (d₂.joinArms (thenEnd.toList ++ elseEnd.toList)).size := by simp
      have at_ := hfull.arms hcd g₁ g₂ (h₃.outgrows hlt₃)
      have hif : Arrives a loop (some d₂.size) (d₂.joinArms (thenEnd.toList ++ elseEnd.toList))
          (m.runStmt n (.ifElse id test body orelse) s) := by
        rw [Meaning.runStmt]
        refine .orElse_failed (hD.stops hs) fun s₁ hs₁ => ?_
        have hlast : (D.items cur).getLast? = some (.condition test) := by
          rw [at_.items, List.getLast?_concat]
        have hend : a.here cur (D.items cur).length s₁ := by
          rw [at_.items, List.length_append]
          exact hD.item hs (getElem?_of_append_singleton (at_.items ▸ List.prefix_rfl)) rfl hs₁
        refine .orElse_starved (fun hnone => hD.testStarves hend hlast hnone at_.yes rfl rfl) ?_
        rintro ⟨o, s₂⟩ hs₂
        cases o with
        | true =>
            have hstart : a.here d.size ((d.openArms cur test).items d.size).length s₂ := by
              rw [at_.thenStart]
              exact hD.test hend hlast hs₂ at_.yes rfl rfl
            refine (i₁ hlt₁ (by simp; omega) hloop (at_.then_.weaken _) rfl hstart).joins
              (fun b s hb hs => ?_) at_.joinStart
            exact at_.then_.jump hD g₁ (by omega) rfl hb (at_.join b (by simp [hb])) hs
        | false =>
            have hstart : a.here (d.size + 1) (d₁.items (d.size + 1)).length s₂ := by
              rw [at_.elseStart]
              exact hD.test hend hlast hs₂ at_.no rfl rfl
            refine (i₂ hlt₂ (by omega) hloop (at_.else_.weaken _) rfl hstart).joins
              (fun b s hb hs => ?_) at_.joinStart
            exact at_.else_.jump hD g₂ (by omega) rfl hb (at_.join b (by simp [hb])) hs
      rw [Meaning.runBody]
      exact hif.andThen fun b s' hb hs' => i₃ hlt₃ (by simp; omega) hloop
        (hfull.rest (fun b hb => .inr (by cases hb; omega)) (by simp; omega)) hb hs'
  | @loop outer stmt head body rest cur d d₁ d' last next hstmt? h₁ h₂ i₁ i₂ =>
      cases hc
      have hcd := hcur _ rfl
      have hlt₁ : ∀ c, some (d.size + 1) = some c → c < (d.openBody cur head).size := by simp
      have g₁ := h₁.outgrows hlt₁
      have hsize₁ : d.size + 3 ≤ d₁.size := Draft.size_openBody d cur head ▸ g₁.extends_.size_le
      have hlt₂ : ∀ c, some (d.size + 2) = some c → c < (d₁.closeLoop d.nextFrame last).size := by
        simp; omega
      have at_ := hfull.loop hcd g₁ (h₂.outgrows hlt₂)
      have hloop₁ : ∀ frame, some d.nextFrame = some frame →
          frame.header ≠ exitId ∧ frame.after ≠ exitId := by
        intro frame hframe
        cases hframe
        exact ⟨Nat.ne_of_gt hexit, Nat.ne_of_gt (Nat.lt_add_right 2 hexit)⟩
      have hround : ∀ s, a.here (d.size + 1) head.first.length s →
          Arrives a (some d.nextFrame) last d₁ (m.runBody n body s) := fun s hs =>
        i₁ hlt₁ (by simp; omega) hloop₁ (at_.round.weaken _) rfl
          (by rw [Draft.items_openBody_start hcd]; exact hs)
      have hlast : ∀ b s, last = some b → a.here b (d₁.items b).length s →
          a.here d.nextFrame.header 0 s := fun b s hb hs =>
        at_.round.jump hD g₁ (Nat.ne_of_gt hexit) rfl hb (at_.back b hb) hs
      have hstmt : Arrives a outer (some (d.size + 2)) (d₁.closeLoop d.nextFrame last)
          (m.runStmt n stmt s) := by
        rw [Meaning.runStmt_loop hstmt?, Meaning.runLoop]
        refine .orElse_failed (hD.stops hs) fun s₁ hs₁ => ?_
        have hbefore : a.here cur (D.items cur).length s₁ := by
          rw [at_.items, List.length_append]
          refine hD.runItems hs ?_ head.not_isReturn_before hs₁
          show _ <+: (D.items cur).drop _
          exact (at_.items ▸ List.drop_left).symm ▸ List.prefix_rfl
        have hheader : a.here d.size 0 s₁ :=
          hD.jump hbefore at_.enter rfl rfl (Nat.ne_of_gt hexit)
        refine .orElse_failed (hD.stops hheader) fun it hit => ?_
        exact hD.rounds at_.header at_.inside at_.past at_.first hround hlast at_.after n it s₁
          (hD.opens hheader at_.header hit) hheader
      rw [Meaning.runBody]
      exact hstmt.andThen fun b s' hb hs' => i₂ hlt₂ (by simp; omega) hloop
        (hfull.rest (fun b hb => .inr (by cases hb; omega)) (by simp; omega)) hb hs'

end Lowering

section Finished

variable {m : Meaning σ ι} {a : Assertions σ ι} {d : Draft} {function : String}

/-- Assertions about a finished graph, at the places of the draft that it comes from. -/
def Assertions.ofFinished (a : Assertions σ ι) (d : Draft) : Assertions σ ι where
  here b k s := d.Reached b ∧ a.here (d.number b) k s
  live b head it := d.Reached b ∧ a.live (d.number b) head it
  final := a.final

theorem chart_items_finish (h : d.InRange) {b : Nat} (hb : d.Reached b) :
    (d.finish function).chart.items (d.number b) = d.items b :=
  (Draft.finish_block function (h.kept_of_reached hb)).1

theorem chart_edge_finish (h : d.InRange) {e : Edge} (he : e ∈ d.edges) (hs : d.Reached e.source) :
    (d.finish function).chart.edge (d.renumber e) :=
  (Draft.mem_finish_edges function).2
    ⟨e, he, h.kept_of_reached hs, h.kept_of_reached (hs.step he rfl), rfl⟩

/-- Moves in a draft are moves in the graph that it finishes to. -/
theorem Closed.ofFinished (hg : Closed m (d.finish function).chart a) (h : d.InRange) :
    Closed m d.chart (a.ofFinished d) := by
  have items : ∀ {b}, d.Reached b → (d.finish function).chart.items (d.number b) = d.items b :=
    chart_items_finish h
  have edge : ∀ {e}, e ∈ d.edges → d.Reached e.source →
      (d.finish function).chart.edge (d.renumber e) := chart_edge_finish h
  have atEnd : ∀ {b s}, (a.ofFinished d).here b (d.items b).length s →
      a.here (d.number b) ((d.finish function).chart.items (d.number b)).length s := by
    rintro b s ⟨hb, hs⟩
    rw [items hb]
    exact hs
  refine
    { item := ?item, test := ?test, testStarves := ?testStarves, opens := ?opens, asks := ?asks,
      asksStarves := ?asksStarves, starts := ?starts, jump := ?jump, falls := ?falls,
      returns := ?returns, stops := fun hs => hg.stops hs.2 }
  case item =>
    intro b k i s s' hs hi hplain hrun
    exact ⟨hs.1, hg.item hs.2 ((items hs.1).symm ▸ hi) hplain hrun⟩
  case test =>
    rintro b cond o s s' e hs hlast hrun he rfl ho
    exact ⟨hs.1.step he rfl, hg.test (atEnd hs) ((items hs.1).symm ▸ hlast) hrun (edge he hs.1) rfl ho⟩
  case testStarves =>
    rintro b cond s e hs hlast hrun he rfl hk
    exact hg.testStarves (atEnd hs) ((items hs.1).symm ▸ hlast) hrun (edge he hs.1) rfl hk
  case opens =>
    intro b head s it hs hhead hopens
    exact ⟨hs.1, hg.opens hs.2 ((items hs.1).trans hhead) hopens⟩
  case asks =>
    rintro b head it o s s' e hlive hs hhead hrun he rfl ho
    exact ⟨hs.1.step he rfl,
      hg.asks hlive.2 (atEnd hs) ((items hs.1).trans hhead) hrun (edge he hs.1) rfl ho⟩
  case asksStarves =>
    rintro b head it s e hlive hs hhead hrun he rfl hk
    exact hg.asksStarves hlive.2 (atEnd hs) ((items hs.1).trans hhead) hrun (edge he hs.1) rfl hk
  case starts =>
    rintro b head it it' s s' e hlive hhead he rfl hk hfirst hs hrun
    obtain ⟨hlive', hs'⟩ := hg.starts hlive.2 ((items hlive.1).trans hhead) (edge he hlive.1) rfl hk
      ((items hs.1).symm ▸ hfirst) hs.2 hrun
    exact ⟨⟨hlive.1, hlive'⟩, hs.1, hs'⟩
  case jump =>
    rintro b s e hs he rfl hk hne
    have htarget := hs.1.step he rfl
    refine ⟨htarget, hg.jump (atEnd hs) (edge he hs.1) rfl hk fun heq => hne ?_⟩
    exact Draft.InRange.number_inj (h.kept_of_reached htarget) h.exit_kept heq
  case falls =>
    rintro b s e hs he rfl hk hexit
    exact hg.falls (atEnd hs) (edge he hs.1) rfl hk (congrArg d.number hexit)
  case returns =>
    rintro b k i s s' e hs hi hreturn hlast hrun he rfl hk hexit
    exact hg.returns hs.2 ((items hs.1).symm ▸ hi) hreturn ((items hs.1).symm ▸ hlast) hrun
      (edge he hs.1) rfl hk (congrArg d.number hexit)

end Finished

/-- Closed assertions that hold at the entry hold of the end of every execution of the body. -/
theorem final_of_runBody {m : Meaning σ ι} {a : Assertions σ ι} {u : Owner} {body : List Stmt}
    {g : FlowGraph} (hbuild : build u body = .ok g) (hg : Closed m g.chart a) {s : σ}
    (hs : a.here g.entry 0 s) (n : Nat) {r : Ran σ} (hr : m.runBody n body s = r) :
    a.final r.ending r.state := by
  obtain ⟨d, last, lowers, settled, rfl⟩ := build_ok hbuild
  have hexit := Extends.foldl_addEdge (fun _ => False) d last.toList exitId .sequential
  have hends : ∀ b, last = some b → ⟨b, exitId, .sequential⟩ ∈
      (last.toList.foldl (fun d b => d.addEdge b exitId .sequential) d).edges := fun b hb =>
    Draft.mem_foldl_addEdge (by simp [hb])
  have hitems : ∀ b, (last.toList.foldl (fun d b => d.addEdge b exitId .sequential) d).items b =
      d.items b := fun b => Draft.items_foldl_addEdge
  generalize last.toList.foldl (fun d b => d.addEdge b exitId .sequential) d = D at *
  have hD := hg.ofFinished ⟨settled.pending_lt _ List.mem_cons_self, settled.edge_lt⟩
  have hfull : Completed (some entryId) last Draft.initial d D :=
    { edges_sub := hexit.edges_sub
      items_grow := hexit.items_grow
      items_eq := fun b hb _ _ => hitems b }
  have harr := lowers.arrives hD n (fun c hc => by cases hc; decide) (by decide)
    (fun _ hf => by cases hf) hfull rfl ⟨Draft.reached_entry, hs⟩
  rw [hr] at harr
  obtain ⟨ending, s'⟩ := r
  cases ending with
  | done =>
      obtain ⟨b, hb, hs'⟩ := harr
      rw [← hitems] at hs'
      exact hD.falls hs' (hends b hb) rfl rfl rfl
  | broke | continued =>
      obtain ⟨_, hframe, _⟩ := harr
      cases hframe
  | returned | starved | failed => exact harr

end FlowGraph

end ValueFlow
