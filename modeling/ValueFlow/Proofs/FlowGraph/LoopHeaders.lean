import Mathlib.Order.WellFounded
import ValueFlow.Proofs.FlowGraph.Wiring
/-!
Every cycle of a flow graph passes through the header of a loop.

The blocks of a draft get ranks that every edge climbs, unless it leads back to a loop header.
Lowering inserts the ranks of new blocks right above that of the block it starts in: old ranks are
spread by a strictly monotone function, and new ones stay below what was above the start.
-/

namespace ValueFlow

namespace FlowGraph

/-- An edge climbs from one rank to a higher one, unless it leads back to a loop header. -/
def Draft.Uphill (d : Draft) (rank : Nat → Nat) (e : Edge) : Prop :=
  if e.kind = .loopBack then d.kindOf e.target = .loopHeader else rank e.source < rank e.target

theorem Draft.uphill_of_lt {d : Draft} {rank : Nat → Nat} {e : Edge} (hk : e.kind ≠ .loopBack)
    (h : rank e.source < rank e.target) : d.Uphill rank e := by
  rw [Uphill, if_neg hk]
  exact h

/-- Ranks that every edge climbs, unless it leads back to a loop header. -/
def Draft.Climbs (d : Draft) (rank : Nat → Nat) : Prop := ∀ e ∈ d.edges, d.Uphill rank e

/-- Ranks of a draft in which code is lowered from rank `r` on: the exit and the end of the
innermost loop lie above. -/
structure Placed (d : Draft) (loop : Option LoopFrame) (r : Nat) (rank : Nat → Nat) : Prop where
  edge_lt : ∀ e ∈ d.edges, e.source < d.size ∧ e.target < d.size
  climbs : d.Climbs rank
  exit_lt : exitId < d.size
  below_exit : r < rank exitId
  frame_lt : ∀ f, loop = some f → f.header < d.size ∧ f.after < d.size
  frame_header : ∀ f, loop = some f → d.kindOf f.header = .loopHeader
  below_after : ∀ f, loop = some f → r < rank f.after

/-- New ranks for a grown draft. The ranks of old blocks are spread by `f`, and those of new ones
stay below what was above `r`. -/
structure Reranks (d d' : Draft) (r : Nat) (rank rank' : Nat → Nat) (f : Nat → Nat) : Prop where
  mono : StrictMono f
  size_le : d.size ≤ d'.size
  kind_eq : ∀ b < d.size, d'.kindOf b = d.kindOf b
  edge_lt : ∀ e ∈ d'.edges, e.source < d'.size ∧ e.target < d'.size
  climbs : d'.Climbs rank'
  old : ∀ b < d.size, rank' b = f (rank b)
  new : ∀ b, d.size ≤ b → b < d'.size → rank' b < f (r + 1)

namespace Reranks

variable {d d₁ d₂ : Draft} {loop : Option LoopFrame} {r r₁ : Nat} {rank rank₁ rank₂ f f₁ : Nat → Nat}

theorem above (h : Reranks d d₁ r rank rank₁ f) {b : Nat} (hb : b < d.size) (hr : r < rank b) :
    f (r + 1) ≤ rank₁ b := by
  rw [h.old b hb]
  exact h.mono.monotone hr

theorem start_lt (h : Reranks d d₁ r rank rank₁ f) : r < f (r + 1) :=
  Nat.lt_of_lt_of_le (Nat.lt_succ_self r) (h.mono.le_apply)

/-- Code goes on anywhere below what was above the start. -/
theorem placed (h : Reranks d d₁ r rank rank₁ f) (hp : Placed d loop r rank)
    (hr : r₁ < f (r + 1)) : Placed d₁ loop r₁ rank₁ where
  edge_lt := h.edge_lt
  climbs := h.climbs
  exit_lt := Nat.lt_of_lt_of_le hp.exit_lt h.size_le
  below_exit := Nat.lt_of_lt_of_le hr (h.above hp.exit_lt hp.below_exit)
  frame_lt frame hf :=
    ⟨Nat.lt_of_lt_of_le (hp.frame_lt frame hf).1 h.size_le,
      Nat.lt_of_lt_of_le (hp.frame_lt frame hf).2 h.size_le⟩
  frame_header frame hf := by
    rw [h.kind_eq _ (hp.frame_lt frame hf).1]
    exact hp.frame_header frame hf
  below_after frame hf :=
    Nat.lt_of_lt_of_le hr (h.above (hp.frame_lt frame hf).2 (hp.below_after frame hf))

theorem trans (h : Reranks d d₁ r rank rank₁ f) (k : Reranks d₁ d₂ r₁ rank₁ rank₂ f₁)
    (hr : r₁ < f (r + 1)) : Reranks d d₂ r rank rank₂ (f₁ ∘ f) where
  mono := k.mono.comp h.mono
  size_le := Nat.le_trans h.size_le k.size_le
  kind_eq b hb := (k.kind_eq b (Nat.lt_of_lt_of_le hb h.size_le)).trans (h.kind_eq b hb)
  edge_lt := k.edge_lt
  climbs := k.climbs
  old b hb := by
    rw [k.old b (Nat.lt_of_lt_of_le hb h.size_le), h.old b hb]
    rfl
  new b hb hlt := by
    by_cases hb₁ : b < d₁.size
    · rw [k.old b hb₁]
      exact k.mono (h.new b hb hb₁)
    · exact Nat.lt_of_lt_of_le (k.new b (Nat.not_lt.1 hb₁) hlt) (k.mono.monotone hr)

theorem refl (hp : Placed d loop r rank) : Reranks d d r rank rank id where
  mono := strictMono_id
  size_le := Nat.le_refl _
  kind_eq _ _ := rfl
  edge_lt := hp.edge_lt
  climbs := hp.climbs
  old _ _ := rfl
  new _ hb hlt := absurd hlt (Nat.not_lt.2 hb)

/-- Makes room above a rank. -/
def spread (r x : Nat) : Nat := if x ≤ r then x else x + 1

/-- The ranks with a new block right above a rank. -/
def insertRank (r new : Nat) (rank : Nat → Nat) (b : Nat) : Nat :=
  if b = new then r + 1 else spread r (rank b)

theorem spread_mono (r : Nat) : StrictMono (spread r) := by
  intro x y hxy
  rw [spread, spread]
  split <;> split <;> omega

theorem spread_of_le (h : r₁ ≤ r) : spread r r₁ = r₁ := if_pos h

theorem spread_succ (r : Nat) : spread r (r + 1) = r + 2 := if_neg (by omega)

theorem addBlock (hp : Placed d loop r rank) (kind : BlockKind) :
    Reranks d (d.addBlock kind) r rank (insertRank r d.size rank) (spread r) where
  mono := spread_mono r
  size_le := by simp
  kind_eq b hb := by rw [Draft.kindOf_addBlock, if_neg (Nat.ne_of_lt hb)]
  edge_lt e he := by
    have := hp.edge_lt e he
    rw [Draft.size_addBlock]
    omega
  climbs e he := by
    have hlt := hp.edge_lt e he
    rw [Draft.Uphill, Draft.kindOf_addBlock, if_neg (Nat.ne_of_lt hlt.2), insertRank, insertRank,
      if_neg (Nat.ne_of_lt hlt.1), if_neg (Nat.ne_of_lt hlt.2), (spread_mono r).lt_iff_lt]
    exact hp.climbs e he
  old b hb := if_neg (Nat.ne_of_lt hb)
  new b hb hlt := by
    rw [Draft.size_addBlock] at hlt
    rw [insertRank, if_pos (by omega), spread_succ]
    omega

theorem addItem (hp : Placed d loop r rank) (b : Nat) (item : BlockItem) :
    Reranks d (d.addItem b item) r rank rank id where
  mono := strictMono_id
  size_le := by simp
  kind_eq _ _ := Draft.kindOf_addItem ..
  edge_lt e he := by simpa using hp.edge_lt e he
  climbs e he := by
    rw [Draft.Uphill, Draft.kindOf_addItem]
    exact hp.climbs e he
  old _ _ := rfl
  new c hc hlt := absurd hlt (by rw [Draft.size_addItem]; omega)

theorem addItems (hp : Placed d loop r rank) (b : Nat) (its : List BlockItem) :
    Reranks d (d.addItems b its) r rank rank id := by
  induction its generalizing d with
  | nil => exact refl hp
  | cons item its ih =>
      have first := addItem hp b item
      exact first.trans (ih (first.placed hp first.start_lt)) first.start_lt

theorem addEdge (hp : Placed d loop r rank) (source target : Nat) (kind : EdgeKind)
    (hs : source < d.size) (ht : target < d.size)
    (hup : d.Uphill rank ⟨source, target, kind⟩) :
    Reranks d (d.addEdge source target kind) r rank rank id where
  mono := strictMono_id
  size_le := Nat.le_refl _
  kind_eq _ _ := rfl
  edge_lt e he := by
    rcases Array.mem_push.1 he with he | rfl
    · exact hp.edge_lt e he
    · exact ⟨hs, ht⟩
  climbs e he := by
    rcases Array.mem_push.1 he with he | rfl
    · exact hp.climbs e he
    · exact hup
  old _ _ := rfl
  new c hc hlt := absurd hlt (Nat.not_lt.2 hc)

theorem foldl_addEdge (hp : Placed d loop r rank) (ends : List Nat) (target : Nat)
    (kind : EdgeKind) (hends : ∀ b ∈ ends, b < d.size) (ht : target < d.size)
    (hup : ∀ b ∈ ends, d.Uphill rank ⟨b, target, kind⟩) :
    Reranks d (ends.foldl (fun d' b => d'.addEdge b target kind) d) r rank rank id := by
  induction ends generalizing d with
  | nil => exact refl hp
  | cons b ends ih =>
      have first := addEdge hp b target kind (hends b List.mem_cons_self) ht
        (hup b List.mem_cons_self)
      exact first.trans (ih (first.placed hp first.start_lt)
        (fun c hc => hends c (List.mem_cons_of_mem _ hc)) ht
        (fun c hc => hup c (List.mem_cons_of_mem _ hc))) first.start_lt

theorem insertRank_old {b : Nat} (hb : b < d.size) (hr : rank b ≤ r) :
    insertRank r d.size rank b = rank b := by
  rw [insertRank, if_neg (Nat.ne_of_lt hb), spread_of_le hr]

theorem insertRank_new (r : Nat) (rank : Nat → Nat) (b : Nat) : insertRank r b rank b = r + 1 :=
  if_pos rfl

/-- The arms of a conditional get ranks above the block that branches. -/
theorem openArms (hp : Placed d loop r rank) {cur : Nat} (hcur : cur < d.size)
    (hr : rank cur = r) (test : Expr) :
    ∃ rank₁ f, Reranks d (d.openArms cur test) r rank rank₁ f := by
  have item := addItem hp cur (.condition test)
  have hp₁ := item.placed hp item.start_lt
  have yes := addBlock hp₁ .statement
  rw [Draft.size_addItem] at yes
  have hp₂ := yes.placed hp₁ yes.start_lt
  have no := addBlock hp₂ .statement
  rw [Draft.size_addBlock, Draft.size_addItem] at no
  have hp₃ := no.placed hp₂ no.start_lt
  have rank_cur : insertRank r (d.size + 1) (insertRank r d.size rank) cur = r := by
    rw [insertRank, if_neg (by omega), insertRank_old hcur (by omega), hr, spread_of_le (by omega)]
  have rank_yes : insertRank r (d.size + 1) (insertRank r d.size rank) d.size = r + 2 := by
    rw [insertRank, if_neg (by omega), insertRank_new, spread_succ]
  have hsize : (((d.addItem cur (.condition test)).addBlock .statement).addBlock .statement).size =
      d.size + 2 := by rw [Draft.size_addBlock, Draft.size_addBlock, Draft.size_addItem]
  have toYes := addEdge hp₃ cur d.size .trueBranch (by rw [hsize]; omega) (by rw [hsize]; omega)
    (Draft.uphill_of_lt EdgeKind.noConfusion (by rw [rank_cur, rank_yes]; omega))
  have hp₄ := toYes.placed hp₃ toYes.start_lt
  have toNo := addEdge hp₄ cur (d.size + 1) .falseBranch (by simp; omega) (by simp)
    (Draft.uphill_of_lt EdgeKind.noConfusion (by rw [rank_cur, insertRank_new]; omega))
  have blocks := (item.trans yes item.start_lt).trans no (item.trans yes item.start_lt).start_lt
  have edges := toYes.trans toNo toYes.start_lt
  exact ⟨_, _, blocks.trans edges blocks.start_lt⟩

/-- A join gets a rank above the ends of the arms. -/
theorem joinArms (hp : Placed d loop r rank) (ends : List Nat)
    (hends : ∀ b ∈ ends, b < d.size ∧ rank b ≤ r) :
    ∃ rank₁ f, Reranks d (d.joinArms ends) r rank rank₁ f := by
  have join := addBlock hp .join
  have edges := foldl_addEdge (join.placed hp join.start_lt) ends d.size .sequential
    (fun b hb => by have := hends b hb; simp; omega) (by simp)
    (fun b hb => Draft.uphill_of_lt EdgeKind.noConfusion (by
      have := hends b hb
      rw [insertRank_old this.1 this.2, insertRank_new]
      omega))
  exact ⟨_, _, join.trans edges join.start_lt⟩

/-- The header of a loop gets a rank above the block in front of it. -/
theorem openHeader (hp : Placed d loop r rank) {cur : Nat} (hcur : cur < d.size)
    (hr : rank cur = r) (head : LoopHead) :
    ∃ rank₁ f, Reranks d (d.openHeader cur head) r rank rank₁ f := by
  have items := addItems hp cur head.before
  have hp₁ := items.placed hp items.start_lt
  have header := addBlock hp₁ .loopHeader
  rw [Draft.size_addItems] at header
  have hp₂ := header.placed hp₁ header.start_lt
  have toHeader := addEdge hp₂ cur d.size .sequential (by simp; omega) (by simp)
    (Draft.uphill_of_lt EdgeKind.noConfusion
      (by rw [insertRank_old hcur (by omega), insertRank_new]; omega))
  have last := addItems (toHeader.placed hp₂ toHeader.start_lt) d.size head.header
  have front := items.trans header items.start_lt
  have back := toHeader.trans last toHeader.start_lt
  exact ⟨_, _, front.trans back front.start_lt⟩

/-- The body of a loop gets a rank above the header, and what comes after it one above both. -/
theorem openLoop (hp : Placed d loop r rank) (frame : LoopFrame) (hheader : frame.header < d.size)
    (hr : rank frame.header = r) (hafter : frame.after = d.size + 1) (items : List BlockItem) :
    ∃ rank₁ f, Reranks d (d.openLoop frame items) r rank rank₁ f ∧
      rank₁ d.size < rank₁ frame.after := by
  have body := addBlock hp .statement
  have body_lt : r + 1 < spread r (r + 1) := by rw [spread_succ]; omega
  have hp₁ := body.placed hp body_lt
  have after := addBlock hp₁ .statement
  rw [Draft.size_addBlock, ← hafter] at after
  have hp₂ := after.placed hp₁ after.start_lt
  have rank_header : insertRank (r + 1) frame.after (insertRank r d.size rank) frame.header = r := by
    rw [insertRank, if_neg (by omega), insertRank_old hheader (by omega), hr,
      spread_of_le (by omega)]
  have rank_body : insertRank (r + 1) frame.after (insertRank r d.size rank) d.size = r + 1 := by
    rw [insertRank, if_neg (by omega), insertRank_new, spread_of_le (by omega)]
  have toBody := addEdge hp₂ frame.header d.size .trueBranch
    (by simp only [Draft.size_addBlock]; omega) (by simp only [Draft.size_addBlock]; omega)
    (Draft.uphill_of_lt EdgeKind.noConfusion (by rw [rank_header, rank_body]; omega))
  have hp₃ := toBody.placed hp₂ toBody.start_lt
  have toAfter := addEdge hp₃ frame.header frame.after .falseBranch (by simp; omega)
    (by simp; omega)
    (Draft.uphill_of_lt EdgeKind.noConfusion (by rw [rank_header, insertRank_new]; omega))
  have last := addItems (toAfter.placed hp₃ toAfter.start_lt) d.size items
  have blocks := body.trans after body_lt
  have edges := (toBody.trans toAfter toBody.start_lt).trans last
    (toBody.trans toAfter toBody.start_lt).start_lt
  refine ⟨_, _, blocks.trans edges ?_, ?_⟩
  · exact Nat.lt_of_lt_of_le body_lt (spread_mono (r + 1)).le_apply
  · rw [rank_body, insertRank_new]
    omega

/-- A loop gets ranks for its header, its body and what comes after it, in this order. -/
theorem openBody (hp : Placed d loop r rank) {cur : Nat} (hcur : cur < d.size)
    (hr : rank cur = r) (head : LoopHead) :
    ∃ rank₁ f, Reranks d (d.openBody cur head) r rank rank₁ f ∧
      rank₁ (d.size + 1) < rank₁ (d.size + 2) := by
  obtain ⟨rank₁, f, header⟩ := openHeader hp hcur hr head
  have header_lt : rank₁ d.size < f (r + 1) := header.new d.size (Nat.le_refl _) (by simp)
  obtain ⟨rank₂, f₁, opened, hlt⟩ := openLoop (header.placed hp header_lt) d.nextFrame
    (by simp [Draft.nextFrame]) rfl (by simp [Draft.nextFrame]) head.first
  rw [Draft.size_openHeader] at hlt
  exact ⟨rank₂, f₁ ∘ f, header.trans opened header_lt, hlt⟩

theorem andThen (h : Reranks d d₁ r rank rank₁ f) (hr : r₁ < f (r + 1))
    (k : ∃ rank₂ f₁, Reranks d₁ d₂ r₁ rank₁ rank₂ f₁) :
    ∃ rank₂ f₂, Reranks d d₂ r rank rank₂ f₂ := by
  obtain ⟨rank₂, f₁, k⟩ := k
  exact ⟨rank₂, f₁ ∘ f, h.trans k hr⟩

end Reranks

theorem Draft.kindOf_openBody_header (d : Draft) (cur : Nat) (head : LoopHead) :
    (d.openBody cur head).kindOf d.size = .loopHeader := by
  have hheader : (d.openHeader cur head).kindOf d.size = .loopHeader := by
    simp [openHeader, kindOf_addBlock]
  rw [openBody, (openLoop_extends _ (fun _ => False) _ _).kind_eq d.size (by simp), hheader]

/-- Lowering keeps the ranks of old blocks in order and finds ranks for new ones. -/
theorem Lowers.reranks {u : Owner} {loop : Option LoopFrame} {body : List Stmt}
    {cur next : Option Nat} {d d' : Draft} (h : Lowers u loop body cur d d' next) {r : Nat}
    {rank : Nat → Nat} (hp : Placed d loop r rank)
    (hcur : ∀ c, cur = some c → c < d.size ∧ rank c = r) :
    ∃ rank' f, Reranks d d' r rank rank' f := by
  induction h generalizing r rank with
  | done => exact ⟨rank, id, .refl hp⟩
  | @dead loop s rest d d' next h ih =>
      have block := Reranks.addBlock hp .statement
      have new_lt := block.new d.size (Nat.le_refl _) (by simp)
      refine block.andThen new_lt (ih (block.placed hp new_lt) fun c hc => ?_)
      cases hc
      exact ⟨by simp, rfl⟩
  | @plain loop s rest cur d d' next hs h ih =>
      have item := Reranks.addItem hp cur (.statement s)
      refine item.andThen item.start_lt (ih (item.placed hp item.start_lt) fun c hc => ?_)
      cases hc
      simpa using hcur cur rfl
  | @ret loop id value rest cur d d' next hu h ih =>
      obtain ⟨hlt, hrank⟩ := hcur cur rfl
      have item := Reranks.addItem hp cur (.statement (.ret id value))
      have hp₁ := item.placed hp item.start_lt
      have edge := Reranks.addEdge hp₁ cur exitId .returnOut (by simpa using hlt) hp₁.exit_lt
        (Draft.uphill_of_lt EdgeKind.noConfusion (hrank.symm ▸ hp.below_exit))
      have both := item.trans edge item.start_lt
      exact both.andThen both.start_lt (ih (both.placed hp both.start_lt) fun c hc => by cases hc)
  | @brk frame id rest cur d d' next h ih =>
      obtain ⟨hlt, hrank⟩ := hcur cur rfl
      have edge := Reranks.addEdge hp cur frame.after .breakOut hlt (hp.frame_lt frame rfl).2
        (Draft.uphill_of_lt EdgeKind.noConfusion (hrank.symm ▸ hp.below_after frame rfl))
      exact edge.andThen edge.start_lt (ih (edge.placed hp edge.start_lt) fun c hc => by cases hc)
  | @cont frame id rest cur d d' next h ih =>
      have edge := Reranks.addEdge hp cur frame.header .loopBack (hcur cur rfl).1
        (hp.frame_lt frame rfl).1 (hp.frame_header frame rfl)
      exact edge.andThen edge.start_lt (ih (edge.placed hp edge.start_lt) fun c hc => by cases hc)
  | @ifElse loop id test body orelse rest cur d d₁ d₂ d' thenEnd elseEnd next h₁ h₂ h₃ i₁ i₂ i₃ =>
      obtain ⟨hlt, hrank⟩ := hcur cur rfl
      obtain ⟨rank₁, f, arms⟩ := Reranks.openArms hp hlt hrank test
      have yes_lt := arms.new d.size (Nat.le_refl _) (by simp)
      obtain ⟨rank₂, f₁, yes⟩ := i₁ (arms.placed hp yes_lt) (by intro c hc; cases hc; simp)
      have hsize₁ := yes.size_le
      rw [Draft.size_openArms] at hsize₁
      have one := arms.trans yes yes_lt
      have no_lt := one.new (d.size + 1) (Nat.le_succ _) (by omega)
      obtain ⟨rank₃, f₂, no⟩ := i₂ (one.placed hp no_lt)
        (by intro c hc; cases hc; exact ⟨by omega, rfl⟩)
      have hsize₂ := no.size_le
      have both := one.trans no no_lt
      -- the ends of the arms are new, and the join goes right above everything new
      have ends_new := h₁.ends_new h₂
      have top := both.start_lt
      obtain ⟨rank₄, f₃, join⟩ := Reranks.joinArms
        (both.placed hp (Nat.sub_lt (Nat.lt_of_le_of_lt (Nat.zero_le r) top) Nat.one_pos))
        (thenEnd.toList ++ elseEnd.toList) (fun b hb => by
          have hb := ends_new b hb
          have := both.new b hb.1 hb.2
          omega)
      have all := both.trans join (by omega)
      have join_lt := all.new d₂.size (by omega) (by simp)
      exact all.andThen join_lt (i₃ (all.placed hp join_lt) (by intro c hc; cases hc; simp))
  | @loop outer s head body rest cur d d₁ d' last next hs h₁ h₂ i₁ i₂ =>
      obtain ⟨hlt, hrank⟩ := hcur cur rfl
      obtain ⟨rank₁, f, opened, hafter⟩ := Reranks.openBody hp hlt hrank head
      have body_lt := opened.new (d.size + 1) (by omega) (by simp)
      have hp₁ := opened.placed hp body_lt
      have inner : Placed (d.openBody cur head) (some d.nextFrame) (rank₁ (d.size + 1)) rank₁ :=
        { hp₁ with
          frame_lt := by rintro _ ⟨⟩; simp [Draft.nextFrame]
          frame_header := by rintro _ ⟨⟩; exact d.kindOf_openBody_header cur head
          below_after := by rintro _ ⟨⟩; exact hafter }
      obtain ⟨rank₂, f₁, lowered⟩ := i₁ inner (by intro c hc; cases hc; simp)
      have hsize₁ := lowered.size_le
      rw [Draft.size_openBody] at hsize₁
      have done := opened.trans lowered body_lt
      have hp₂ := done.placed hp done.start_lt
      have hheader : d₁.kindOf d.nextFrame.header = .loopHeader := by
        rw [lowered.kind_eq _ (by simp [Draft.nextFrame])]
        exact d.kindOf_openBody_header cur head
      have closed := Reranks.foldl_addEdge hp₂ last.toList d.nextFrame.header .loopBack
        (fun b hb => ((h₁.outgrows (by intro c hc; cases hc; simp)).next_new b
          (Option.mem_toList.1 hb)).1) (by simp [Draft.nextFrame]; omega)
        (fun _ _ => hheader)
      have all := done.trans closed done.start_lt
      have after_lt := all.new (d.size + 2) (by omega) (by
        rw [Draft.size_foldl_addEdge]
        omega)
      refine all.andThen after_lt (i₂ (all.placed hp after_lt) ?_)
      intro c hc
      cases hc
      exact ⟨by simp; omega, rfl⟩

/-- Ranks of a graph that every edge climbs, unless it leads back to a loop header. -/
def Ascends (g : FlowGraph) (rank : Nat → Nat) : Prop :=
  ∀ e ∈ g.edges, if e.kind = .loopBack then g.isLoopHeader e.target = true
    else rank e.source < rank e.target

/-- On every graph that is built, only edges back to loop headers do not climb. -/
theorem build_ascends {u : Owner} {body : List Stmt} {g : FlowGraph} (h : build u body = .ok g) :
    ∃ rank, g.Ascends rank := by
  obtain ⟨d, last, lowers, -, rfl⟩ := build_ok h
  have start : Placed Draft.initial none 0 id := by
    refine ⟨fun e he => ?_, fun e he => ?_, by decide, by decide, ?_, ?_, ?_⟩
    · simp [Draft.initial] at he
    · simp [Draft.initial] at he
    all_goals exact fun f hf => by cases hf
  obtain ⟨rank, f, lowered⟩ := lowers.reranks start (by rintro _ ⟨⟩; exact ⟨by decide, rfl⟩)
  have hlast : ∀ b ∈ last.toList, b < d.size ∧ (b = entryId ∨ Draft.initial.size ≤ b) := by
    intro b hb
    obtain ⟨hlt, heq | hle⟩ := (lowers.outgrows (by rintro _ ⟨⟩; decide)).next_new b
      (Option.mem_toList.1 hb)
    · exact ⟨hlt, .inl (Option.some.inj heq).symm⟩
    · exact ⟨hlt, .inr hle⟩
  have hexit := lowered.above start.exit_lt start.below_exit
  have finished := Reranks.foldl_addEdge (lowered.placed start lowered.start_lt) last.toList exitId
    .sequential (fun b hb => (hlast b hb).1)
    (Nat.lt_of_lt_of_le start.exit_lt lowered.size_le) (fun b hb => by
      refine Draft.uphill_of_lt EdgeKind.noConfusion (Nat.lt_of_lt_of_le ?_ hexit)
      rcases (hlast b hb).2 with rfl | hle
      · rw [lowered.old entryId (by decide)]
        exact lowered.mono Nat.one_pos
      · exact lowered.new b hle (hlast b hb).1)
  generalize last.toList.foldl (fun d b => d.addEdge b exitId .sequential) d = D at finished ⊢
  refine ⟨fun i => rank (D.kept.getD i 0), fun e he => ?_⟩
  obtain ⟨e', he', hsource, htarget, rfl⟩ := (Draft.mem_finish_edges u.function).1 he
  have back : ∀ b ∈ D.kept, D.kept.getD (D.number b) 0 = b := fun b hb => by
    rw [List.getD_eq_getElem?_getD, Draft.InRange.kept_getElem hb]
    rfl
  simp only [Draft.renumber, back _ hsource, back _ htarget, FlowGraph.isLoopHeader,
    decide_eq_true_eq, (Draft.finish_block u.function htarget).2]
  exact finished.climbs e' he'

/-- Ranks of a graph that every edge climbs, unless it leads to a loop header. -/
def Climbs (g : FlowGraph) (rank : Nat → Nat) : Prop :=
  ∀ e ∈ g.edges, g.isLoopHeader e.target = false → rank e.source < rank e.target

/-- On every graph that is built, only loop headers close cycles. -/
theorem build_climbs {u : Owner} {body : List Stmt} {g : FlowGraph} (h : build u body = .ok g) :
    ∃ rank, g.Climbs rank := by
  obtain ⟨rank, hrank⟩ := build_ascends h
  refine ⟨rank, fun e he hk => ?_⟩
  have hedge := hrank e he
  by_cases hback : e.kind = .loopBack
  · rw [if_pos hback, hk] at hedge
    exact absurd hedge Bool.false_ne_true
  · rwa [if_neg hback] at hedge

end FlowGraph

end ValueFlow
