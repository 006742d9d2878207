import ValueFlow.Proofs.FlowGraph.Drafts
/-!
A loop is entered through its header only.

The blocks of a loop are numbered from its header on, up to the block that is new when its body is
lowered; the block after the loop is not one of them. Lowering adds edges out of new blocks and the
block it starts in only, and none into old blocks except the exit and the two ends of the loop
around, so nothing that is lowered later leads into a loop. Main statement: `Lowers.encloses`.
-/

namespace ValueFlow

namespace FlowGraph

theorem Draft.mem_edges_foldl_addEdge {d : Draft} {ends : List Nat} {target : Nat}
    {kind : EdgeKind} {e : Edge} :
    e ∈ (ends.foldl (fun d' b => d'.addEdge b target kind) d).edges ↔
      e ∈ d.edges ∨ ∃ b ∈ ends, e = ⟨b, target, kind⟩ := by
  induction ends generalizing d with
  | nil => simp
  | cons b ends ih =>
      rw [List.foldl_cons, ih, Draft.edges_addEdge, Array.mem_push, or_assoc]
      simp only [List.mem_cons, exists_eq_or_imp]

/-- The blocks of a loop behind its header. -/
def InLoop (header bound b : Nat) : Prop := header < b ∧ b < bound ∧ b ≠ header + 2

/-- An edge leads back to the header of a loop that its source is in, and all edges into the loop
come out of the loop or its header. -/
structure Draft.Closes (d : Draft) (bound : Nat) (e : Edge) : Prop where
  source_in : InLoop e.target bound e.source
  entered : ∀ e' ∈ d.edges, InLoop e.target bound e'.target →
    InLoop e.target bound e'.source ∨ e'.source = e.target

/-- A loop stays closed if no new edge leads into it. -/
theorem Draft.Closes.grow {d d₁ : Draft} {bound : Nat} {e : Edge} (h : d.Closes bound e)
    (hnew : ∀ e' ∈ d₁.edges, e' ∈ d.edges ∨ ¬ InLoop e.target bound e'.target) :
    d₁.Closes bound e where
  source_in := h.source_in
  entered e' he' hin := by
    rcases hnew e' he' with hold | hout
    · exact h.entered e' hold hin
    · exact absurd hin hout

/-- An edge that lowering a body adds, which starts in some own blocks. It leads back to the header
of the loop around the body or to that of a loop in the body, if it leads back at all. -/
structure Adds (loop : Option LoopFrame) (own : Nat → Prop) (d d' : Draft) (e : Edge) : Prop where
  source_lt : e.source < d'.size
  target_lt : e.target < d'.size
  source : own e.source ∨ d.size ≤ e.source
  target : d.size ≤ e.target ∨ e.target = exitId ∨
    ∃ f, loop = some f ∧ (e.target = f.header ∨ e.target = f.after)
  back : e.kind = .loopBack → (∃ f, loop = some f ∧ e.target = f.header) ∨
    d.size ≤ e.target ∧ ∃ bound ≤ d'.size, d'.Closes bound e

/-- A draft grown from another by edges that lowering a body adds. -/
structure Encloses (loop : Option LoopFrame) (own : Nat → Prop) (d d' : Draft) : Prop where
  size_le : d.size ≤ d'.size
  added : ∀ e ∈ d'.edges, e ∈ d.edges ∨ Adds loop own d d' e

/-- A draft in which a body can be lowered: the targets of edges, the exit and the ends of the loop
around are blocks. -/
structure Ready (loop : Option LoopFrame) (d : Draft) : Prop where
  target_lt : ∀ e ∈ d.edges, e.target < d.size
  exit_lt : exitId < d.size
  frame_lt : ∀ f, loop = some f → f.header < d.size ∧ f.after < d.size

/-- No edge that is added leads into a loop that is already lowered. -/
theorem Adds.not_inLoop {loop : Option LoopFrame} {own : Nat → Prop} {d d₁ d₂ : Draft} {e : Edge}
    {header bound : Nat} (h : Adds loop own d₁ d₂ e) (hd : Ready loop d)
    (hheader : d.size ≤ header) (hbound : bound ≤ d₁.size) : ¬ InLoop header bound e.target := by
  rintro ⟨hlow, hhigh, -⟩
  have hexit := hd.exit_lt
  rcases h.target with hnew | heq | ⟨f, hf, heq | heq⟩
  · omega
  · omega
  · have := (hd.frame_lt f hf).1
    omega
  · have := (hd.frame_lt f hf).2
    omega

namespace Encloses

variable {loop : Option LoopFrame} {own own' : Nat → Prop} {d d₁ d₂ : Draft}

theorem ready (h : Encloses loop own d d₁) (hd : Ready loop d) : Ready loop d₁ where
  target_lt e he := by
    rcases h.added e he with he | hadds
    · exact Nat.lt_of_lt_of_le (hd.target_lt e he) h.size_le
    · exact hadds.target_lt
  exit_lt := Nat.lt_of_lt_of_le hd.exit_lt h.size_le
  frame_lt f hf := ⟨Nat.lt_of_lt_of_le (hd.frame_lt f hf).1 h.size_le,
    Nat.lt_of_lt_of_le (hd.frame_lt f hf).2 h.size_le⟩

/-- A second step may start in the blocks that the first may start in, and in new ones. -/
theorem trans (h : Encloses loop own d d₁) (k : Encloses loop own' d₁ d₂) (hd : Ready loop d)
    (hown : ∀ b, own' b → own b ∨ d.size ≤ b) : Encloses loop own d d₂ where
  size_le := Nat.le_trans h.size_le k.size_le
  added e he := by
    rcases k.added e he with he | hadds
    · refine (h.added e he).imp_right fun hadds => ?_
      refine ⟨Nat.lt_of_lt_of_le hadds.source_lt k.size_le,
        Nat.lt_of_lt_of_le hadds.target_lt k.size_le, hadds.source, hadds.target, fun hk => ?_⟩
      refine (hadds.back hk).imp_right fun ⟨hnew, bound, hbound, hcloses⟩ => ?_
      refine ⟨hnew, bound, Nat.le_trans hbound k.size_le, hcloses.grow fun e' he' => ?_⟩
      exact (k.added e' he').imp_right fun hadds' => hadds'.not_inLoop hd hnew hbound
    · refine .inr ⟨hadds.source_lt, hadds.target_lt, ?_, ?_, fun hk => ?_⟩
      · rcases hadds.source with hsource | hnew
        · exact hown _ hsource
        · exact .inr (Nat.le_trans h.size_le hnew)
      · exact hadds.target.imp_left (Nat.le_trans h.size_le)
      · exact (hadds.back hk).imp_right (And.imp_left (Nat.le_trans h.size_le))

/-- New items and blocks add no edges. -/
theorem of_edges_eq (hsize : d.size ≤ d₁.size) (hedges : d₁.edges = d.edges) :
    Encloses loop own d d₁ where
  size_le := hsize
  added _ he := .inl (hedges ▸ he)

theorem refl (loop : Option LoopFrame) (own : Nat → Prop) (d : Draft) : Encloses loop own d d :=
  of_edges_eq (Nat.le_refl _) rfl

/-- A jump to the exit or to an end of the loop around. -/
theorem addEdge (hd : Ready loop d) {cur target : Nat} {kind : EdgeKind} (hcur : cur < d.size)
    (htarget : target = exitId ∨ ∃ f, loop = some f ∧ (target = f.header ∨ target = f.after))
    (hback : kind = .loopBack → ∃ f, loop = some f ∧ target = f.header) :
    Encloses loop (some cur = some ·) d (d.addEdge cur target kind) where
  size_le := Nat.le_refl _
  added e he := by
    refine (Array.mem_push.1 he).imp_right ?_
    rintro rfl
    refine ⟨hcur, ?_, .inl rfl, .inr htarget, fun hk => .inl (hback hk)⟩
    rcases htarget with rfl | ⟨f, hf, rfl | rfl⟩
    · exact hd.exit_lt
    · exact (hd.frame_lt f hf).1
    · exact (hd.frame_lt f hf).2

theorem openArms {cur : Nat} (hcur : cur < d.size) (test : Expr) :
    Encloses loop (some cur = some ·) d (d.openArms cur test) where
  size_le := by simp
  added e he := by
    rcases Array.mem_push.1 he with he | rfl
    · refine (Array.mem_push.1 he).imp_right ?_
      rintro rfl
      exact ⟨by simp; omega, by simp, .inl rfl, .inl (Nat.le_refl _), EdgeKind.noConfusion⟩
    · exact .inr ⟨by simp; omega, by simp, .inl rfl, .inl (Nat.le_succ _), EdgeKind.noConfusion⟩

theorem joinArms {ends : List Nat} (hends : ∀ b ∈ ends, b < d.size) :
    Encloses loop (· ∈ ends) d (d.joinArms ends) where
  size_le := by simp
  added e he := by
    refine (Draft.mem_edges_foldl_addEdge.1 he).imp_right ?_
    rintro ⟨b, hb, rfl⟩
    have := hends b hb
    exact ⟨by simp; omega, by simp, .inl hb, .inl (Nat.le_refl _), EdgeKind.noConfusion⟩

/-- The edges that a new loop starts with are not edges back. -/
theorem mem_edges_openBody {cur : Nat} {head : LoopHead} {e : Edge}
    (he : e ∈ (d.openBody cur head).edges) : e ∈ d.edges ∨ e.kind ≠ .loopBack ∧
      (e.source = cur ∧ e.target = d.size ∨
        e.source = d.size ∧ (e.target = d.size + 1 ∨ e.target = d.size + 2)) := by
  rw [Draft.edges_openBody] at he
  rcases Array.mem_push.1 he with he | rfl
  · rcases Array.mem_push.1 he with he | rfl
    · refine (Array.mem_push.1 he).imp_right ?_
      rintro rfl
      exact ⟨EdgeKind.noConfusion, .inl ⟨rfl, rfl⟩⟩
    · exact .inr ⟨EdgeKind.noConfusion, .inr ⟨rfl, .inl rfl⟩⟩
  · exact .inr ⟨EdgeKind.noConfusion, .inr ⟨rfl, .inr rfl⟩⟩

section Loop

variable {cur : Nat} {head : LoopHead} {last : Option Nat}
  (h : Encloses (some d.nextFrame) (some (d.size + 1) = some ·) (d.openBody cur head) d₁)
  (hlast : ∀ b, last = some b → b < d₁.size ∧ (some (d.size + 1) = some b ∨ d.size + 3 ≤ b))
include h hlast

/-- An edge of a loop that is lowered is one that the loop starts with, or it comes out of the loop.
Then it leads to a block from the header on or to the exit, and back to the header of the loop or of
one inside. -/
theorem loop_cases {e : Edge} (he : e ∈ (d₁.closeLoop d.nextFrame last).edges) :
    e ∈ (d.openBody cur head).edges ∨ InLoop d.size d₁.size e.source ∧ e.target < d₁.size ∧
      (d.size ≤ e.target ∨ e.target = exitId) ∧ (e.kind = .loopBack → e.target = d.size ∨
        d.size < e.target ∧ ∃ bound ≤ d₁.size, d₁.Closes bound e) := by
  have in_loop : ∀ b, b < d₁.size → some (d.size + 1) = some b ∨ d.size + 3 ≤ b →
      InLoop d.size d₁.size b := by
    rintro b hlt (heq | hle)
    · cases heq
      exact ⟨by omega, hlt, by omega⟩
    · exact ⟨by omega, hlt, by omega⟩
  have hsize := h.size_le
  rw [Draft.size_openBody] at hsize
  rcases Draft.mem_edges_foldl_addEdge.1 he with he | ⟨b, hb, rfl⟩
  · refine (h.added e he).imp_right fun ⟨hsource_lt, htarget_lt, hsource, htarget, hback⟩ => ?_
    rw [Draft.size_openBody] at hsource htarget hback
    refine ⟨in_loop e.source hsource_lt hsource, htarget_lt, ?_, fun hk => ?_⟩
    · rcases htarget with hnew | hexit | ⟨f, hf, heq | heq⟩
      · exact .inl (by omega)
      · exact .inr hexit
      · cases hf
        exact .inl (Nat.le_of_eq heq.symm)
      · cases hf
        exact .inl (heq ▸ Nat.le_add_right _ _)
    · rcases hback hk with ⟨f, hf, heq⟩ | ⟨hnew, hcloses⟩
      · cases hf
        exact .inl heq
      · exact .inr ⟨by omega, hcloses⟩
  · obtain ⟨hlt, hb⟩ := hlast b (Option.mem_toList.1 hb)
    refine .inr ⟨in_loop b hlt hb, ?_, .inl (Nat.le_refl _), fun _ => .inl rfl⟩
    show d.size < d₁.size
    omega

/-- An edge back to the header of a loop that is lowered closes it. -/
theorem closes_loop (hd : Ready loop d) {e : Edge} (hsource : InLoop d.size d₁.size e.source)
    (htarget : e.target = d.size) : (d₁.closeLoop d.nextFrame last).Closes d₁.size e where
  source_in := htarget ▸ hsource
  entered e' he' hin := by
    rw [htarget] at hin ⊢
    rcases h.loop_cases hlast he' with he' | ⟨hsource', -⟩
    · rcases mem_edges_openBody he' with he' | ⟨-, ⟨-, heq⟩ | ⟨heq, -⟩⟩
      · exact absurd (hd.target_lt e' he') (Nat.not_lt.2 (Nat.le_of_lt hin.1))
      · exact absurd hin.1 (heq ▸ Nat.lt_irrefl _)
      · exact .inr heq
    · exact .inl hsource'

omit h hlast in
/-- Closing a loop leads into none inside. -/
theorem closes_inner {bound : Nat} {e : Edge} (hcloses : d₁.Closes bound e)
    (hheader : d.size < e.target) : (d₁.closeLoop d.nextFrame last).Closes bound e := by
  refine hcloses.grow fun e' he' => (Draft.mem_edges_foldl_addEdge.1 he').imp_right ?_
  rintro ⟨b, -, rfl⟩ hin
  exact Nat.lt_asymm hheader hin.1

theorem closeLoop (hd : Ready loop d) (hcur : cur < d.size) :
    Encloses loop (some cur = some ·) d (d₁.closeLoop d.nextFrame last) where
  size_le := by
    have hsize := h.size_le
    rw [Draft.size_openBody] at hsize
    rw [Draft.size_closeLoop]
    omega
  added e he := by
    have hsize := h.size_le
    rw [Draft.size_openBody] at hsize
    rcases h.loop_cases hlast he with he | ⟨hsource, htarget_lt, htarget, hback⟩
    · refine (mem_edges_openBody he).imp_right fun ⟨hk, hends⟩ => ?_
      refine ⟨?_, ?_, ?_, .inl (by omega), fun hk' => absurd hk' hk⟩
      · rw [Draft.size_closeLoop]
        omega
      · rw [Draft.size_closeLoop]
        omega
      · rcases hends with ⟨heq, -⟩ | ⟨heq, -⟩
        · exact .inl (heq ▸ rfl)
        · exact .inr (Nat.le_of_eq heq.symm)
    · refine .inr ⟨?_, ?_, .inr (Nat.le_of_lt hsource.1), ?_, fun hk => .inr ?_⟩
      · rw [Draft.size_closeLoop]
        exact hsource.2.1
      · rw [Draft.size_closeLoop]
        exact htarget_lt
      · exact htarget.imp_right .inl
      · rw [Draft.size_closeLoop]
        rcases hback hk with heq | ⟨hheader, bound, hbound, hcloses⟩
        · exact ⟨Nat.le_of_eq heq.symm, d₁.size, Nat.le_refl _,
            h.closes_loop hlast hd hsource heq⟩
        · exact ⟨Nat.le_of_lt hheader, bound, hbound, closes_inner hcloses hheader⟩

end Loop

end Encloses

theorem Ready.openBody {loop : Option LoopFrame} {d : Draft} (hd : Ready loop d) {cur : Nat}
    {head : LoopHead} : Ready (some d.nextFrame) (d.openBody cur head) where
  target_lt e he := by
    rw [Draft.size_openBody]
    rcases Encloses.mem_edges_openBody he with he | ⟨-, ⟨-, heq⟩ | ⟨-, heq | heq⟩⟩
    · exact Nat.lt_add_right 3 (hd.target_lt e he)
    all_goals omega
  exit_lt := by
    rw [Draft.size_openBody]
    exact Nat.lt_add_right 3 hd.exit_lt
  frame_lt := by
    rintro _ ⟨⟩
    simp [Draft.nextFrame]

/-- While a body is lowered, every edge back closes a loop, except those back to the header of the
loop around the body. -/
theorem Lowers.encloses {u : Owner} {loop : Option LoopFrame} {body : List Stmt}
    {cur next : Option Nat} {d d' : Draft} (h : Lowers u loop body cur d d' next)
    (hd : Ready loop d) (hcur : ∀ c, cur = some c → c < d.size) :
    Encloses loop (cur = some ·) d d' := by
  induction h with
  | done => exact .refl _ _ _
  | @dead loop s rest d d' next h ih =>
      have step : Encloses loop (none = some ·) d (d.addBlock .statement) :=
        .of_edges_eq (by simp) rfl
      refine step.trans (ih (step.ready hd) fun c hc => ?_) hd fun b hb => .inr ?_
      · cases hc
        simp
      · cases hb
        exact Nat.le_refl _
  | @plain loop s rest cur d d' next hs h ih =>
      have step : Encloses loop (some cur = some ·) d (d.addItem cur (.statement s)) :=
        .of_edges_eq (by simp) rfl
      refine step.trans (ih (step.ready hd) fun c hc => ?_) hd fun _ hb => .inl hb
      simpa using hcur c hc
  | @ret loop id value rest cur d d' next hu h ih =>
      have item : Encloses loop (some cur = some ·) d
          (d.addItem cur (.statement (.ret id value))) := .of_edges_eq (by simp) rfl
      have jump := Encloses.addEdge (item.ready hd) (by simpa using hcur cur rfl) (.inl rfl)
        (EdgeKind.noConfusion : EdgeKind.returnOut = .loopBack → _)
      have step := item.trans jump hd fun _ hb => .inl hb
      exact step.trans (ih (step.ready hd) fun c hc => by cases hc) hd fun b hb => by cases hb
  | @brk frame id rest cur d d' next h ih =>
      have step := Encloses.addEdge hd (hcur cur rfl) (.inr ⟨frame, rfl, .inr rfl⟩)
        (EdgeKind.noConfusion : EdgeKind.breakOut = .loopBack → _)
      exact step.trans (ih (step.ready hd) fun c hc => by cases hc) hd fun b hb => by cases hb
  | @cont frame id rest cur d d' next h ih =>
      have step := Encloses.addEdge hd (hcur cur rfl) (.inr ⟨frame, rfl, .inl rfl⟩)
        fun (_ : EdgeKind.loopBack = .loopBack) => ⟨frame, rfl, rfl⟩
      exact step.trans (ih (step.ready hd) fun c hc => by cases hc) hd fun b hb => by cases hb
  | @ifElse loop id test body orelse rest cur d d₁ d₂ d' thenEnd elseEnd next h₁ h₂ h₃ i₁ i₂ i₃ =>
      have arms : Encloses loop (some cur = some ·) d (d.openArms cur test) :=
        .openArms (hcur cur rfl) test
      have yes := i₁ (arms.ready hd) (by intro c hc; cases hc; simp)
      have one := arms.trans yes hd fun b hb => by cases hb; exact .inr (Nat.le_refl _)
      have hsize := yes.size_le
      rw [Draft.size_openArms] at hsize
      have no := i₂ (one.ready hd) (by intro c hc; cases hc; omega)
      have both := one.trans no hd fun b hb => by cases hb; exact .inr (Nat.le_succ _)
      have ends_new := h₁.ends_new h₂
      have join : Encloses loop _ d₂ _ := .joinArms fun b hb => (ends_new b hb).2
      have step := both.trans join hd fun b hb => .inr (ends_new b hb).1
      refine step.trans (i₃ (step.ready hd) (by intro c hc; cases hc; simp)) hd fun b hb => ?_
      cases hb
      exact .inr both.size_le
  | @loop outer s head body rest cur d d₁ d' last next hs h₁ h₂ i₁ i₂ =>
      have body := i₁ hd.openBody (by intro c hc; cases hc; simp)
      have hsize := body.size_le
      rw [Draft.size_openBody] at hsize
      have step : Encloses outer (some cur = some ·) d (d₁.closeLoop d.nextFrame last) := by
        refine body.closeLoop (fun b hb => ?_) hd (hcur cur rfl)
        rw [← Draft.size_openBody d cur head]
        exact (h₁.outgrows (by intro c hc; cases hc; simp)).next_new b hb
      refine step.trans (i₂ (step.ready hd) fun c hc => ?_) hd fun b hb => .inr ?_
      · cases hc
        rw [Draft.size_closeLoop]
        omega
      · cases hb
        omega

end FlowGraph

end ValueFlow
