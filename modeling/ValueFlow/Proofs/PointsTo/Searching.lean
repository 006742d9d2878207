import ValueFlow.Proofs.PointsTo.Closure
import ValueFlow.Proofs.PointsTo.Generation
/-!
A search for references keeps to what can be derived, from its start to its end.

Main statements: `Tracks.step`, a step keeps all that is known of a search, and `Tracks.closed`, a
step that adds no fact and reaches no new function has found all that can be derived.
-/

namespace ValueFlow

open Numbering (Says)
open PointerPass (Advances Coasts advances_apply)

/-- Whether a step adds no fact and reaches no new function. -/
def PointerSearch.Ends (ix : ProgramIndex) (classes : ClassTable) (calls : CallGraph)
    (s : PointerSearch) : Prop :=
  (s.step ix classes calls).facts = s.facts ∧ (s.step ix classes calls).pending = []

namespace FlowProgram

variable {P : FlowProgram} {origins : Origins} {s t : PointerSearch}

/-- Whether a pair of a function and a context can be reached. -/
def Reachable (P : FlowProgram) (t : ContextTable) (q : Nat × Nat) : Prop :=
  ∃ κ, t.paths[q.2]? = some κ ∧ P.Derives (.reached q.1 κ)

theorem Reachable.mono {t u : ContextTable} {q : Nat × Nat} (h : P.Reachable t q)
    (htu : t.Extends u) : P.Reachable u q := by
  obtain ⟨κ, hκ, hd⟩ := h
  exact ⟨κ, htu hκ, hd⟩

/-- A flow of a function that can be reached. -/
def Occurs (P : FlowProgram) (flow : Flow) : Prop :=
  ∃ f κ, P.Derives (.reached f κ) ∧ flow ∈ P.flows f κ

/-- Whether origins know what all expressions of a program create. -/
def Located (P : FlowProgram) (origins : Origins) : Prop :=
  ∀ f info, P.index.function? f = some info → ∀ stmt ∈ Stmt.walkAll info.body,
    ∀ e ∈ stmt.ownExprs, e.ArisesIn P.calls origins f

/-- Whether all that a search has found can be derived, and all that it has reached has its
constraints. -/
structure Tracks (P : FlowProgram) (origins : Origins) (s : PointerSearch) : Prop where
  contexts : s.contexts.Proper P.depth
  moduleContext : s.contexts.paths[0]? = some (P.root moduleId)
  reachable : ∀ q, q ∈ s.reached ∨ q ∈ s.pending → P.Reachable s.contexts q
  roots : ∀ f < P.index.functions.size, ∃ c, s.contexts.paths[c]? = some (P.root f) ∧
    ((f, c) ∈ s.reached ∨ (f, c) ∈ s.pending)
  orderly : s.generated.Orderly origins
  made : ∀ q ∈ s.reached, ∀ κ, s.contexts.paths[q.2]? = some κ → ∀ flow ∈ P.flows q.1 κ,
    ∃ con ∈ s.generated.constraints, Says ⟨s.contexts, s.generated.objects⟩ con flow
  only : ∀ con ∈ s.generated.constraints, ∃ flow, P.Occurs flow ∧
    Says ⟨s.contexts, s.generated.objects⟩ con flow
  created : ∀ ⦃i : Nat⦄ ⦃o : HeapObject⦄, s.generated.objects[i]? = some o → ∃ flow made,
    P.Occurs flow ∧ flow.creation? = some made ∧
      Numbering.creation? ⟨s.contexts, s.generated.objects⟩ i = some made
  facts : P.Allows ⟨s.contexts, s.generated.objects⟩ s.facts

/-- The numbers that a search gives. -/
theorem Tracks.proper (h : P.Tracks origins s) :
    Numbering.Proper P.depth ⟨s.contexts, s.generated.objects⟩ :=
  ⟨h.contexts, h.orderly.id, h.orderly.apart⟩

section Start

/-- What is known while the functions get their root contexts. -/
structure Rooted (P : FlowProgram) (n : Nat) (acc : List (Nat × Nat) × ContextTable) : Prop where
  contexts : acc.2.Proper P.depth
  moduleContext : 0 < n → acc.2.paths[0]? = some (P.root moduleId)
  pending : ∀ q ∈ acc.1, q.1 < n ∧ acc.2.paths[q.2]? = some (P.root q.1)
  roots : ∀ f < n, ∃ c, (f, c) ∈ acc.1

theorem Rooted.next {n : Nat} {acc : List (Nat × Nat) × ContextTable} (h : P.Rooted n acc)
    (hempty : n = 0 → acc.2.paths = #[]) :
    P.Rooted (n + 1) (acc.1 ++ [(n, (acc.2.root n).1)], (acc.2.root n).2) := by
  obtain ⟨hproper, hpath⟩ := h.contexts.intern [n]
  have hextends : acc.2.Extends (acc.2.root n).2 := ContextTable.extends_intern _ _
  refine ⟨hproper, fun _ => ?_, ?_, ?_⟩
  · rcases Nat.eq_zero_or_pos n with rfl | hn
    · have hzero : (acc.2.root 0).1 = 0 := by
        simp [ContextTable.root, ContextTable.intern, hempty rfl]
      rw [ContextTable.root] at hzero
      rw [hzero] at hpath
      exact hpath
    · exact hextends (h.moduleContext hn)
  · intro q hq
    rcases List.mem_append.1 hq with hq | hq
    · obtain ⟨hlt, hroot⟩ := h.pending q hq
      exact ⟨Nat.lt_succ_of_lt hlt, hextends hroot⟩
    · rw [List.mem_singleton.1 hq]
      exact ⟨Nat.lt_succ_self n, hpath⟩
  · intro f hf
    rcases Nat.lt_succ_iff_lt_or_eq.1 hf with hf | rfl
    · obtain ⟨c, hc⟩ := h.roots f hf
      exact ⟨c, List.mem_append_left _ hc⟩
    · exact ⟨_, List.mem_append_right _ List.mem_cons_self⟩

theorem rooted_start (n : Nat) : P.Rooted n ((List.range n).foldl
    (fun (acc : List (Nat × Nat) × ContextTable) function =>
      (acc.1 ++ [(function, (acc.2.root function).1)], (acc.2.root function).2))
    ([], .ofDepth P.depth)) := by
  induction n with
  | zero =>
      exact ⟨ContextTable.proper_ofDepth _, fun h => absurd h (Nat.lt_irrefl 0),
        fun _ hq => (List.not_mem_nil hq).elim, fun _ hf => absurd hf (Nat.not_lt_zero _)⟩
  | succ n ih =>
      rw [List.range_succ, List.foldl_append]
      refine ih.next ?_
      rintro rfl
      rfl

/-- At its start a search has found nothing, and every function waits in its root context. -/
theorem tracks_start (origins : Origins) (hsize : 0 < P.index.functions.size) :
    P.Tracks origins (.start P.index P.depth) := by
  have hrooted : P.Rooted P.index.functions.size
      ((PointerSearch.start P.index P.depth).pending,
        (PointerSearch.start P.index P.depth).contexts) := rooted_start _
  refine ⟨hrooted.contexts, hrooted.moduleContext hsize, ?_, ?_, Generated.orderly_empty,
    fun _ hq => (List.not_mem_nil hq).elim, fun _ hcon => (List.not_mem_nil hcon).elim,
    fun _ _ ho => ?_, allows_empty⟩
  · rintro q (hq | hq)
    · cases hq
    · obtain ⟨hlt, hroot⟩ := hrooted.pending q hq
      exact ⟨_, hroot, .root hlt⟩
  · intro f hf
    obtain ⟨c, hc⟩ := hrooted.roots f hf
    exact ⟨c, (hrooted.pending _ hc).2, .inr hc⟩
  · simp [PointerSearch.start, Generated.empty] at ho

end Start

section Visit

variable (hlocated : P.Located origins)
include hlocated

/-- The constraints of a function that can be reached are those of its flows. -/
theorem adds_visit (h : P.Tracks origins s) {q : Nat × Nat} {κ : List Nat}
    (hκ : s.contexts.paths[q.2]? = some κ) :
    Generated.Adds s.contexts origins s.generated
      (s.generated.ofBody P.calls (PointerSearch.scopeOf P.index q.1 q.2)
        (((P.index.function? q.1).map FunctionInfo.body).getD [])) (P.flows q.1 κ) := by
  have hmeans : (PointerSearch.scopeOf P.index q.1 q.2).Means s.contexts (P.frame q.1 κ) :=
    ⟨rfl, hκ, h.moduleContext, rfl⟩
  refine Generated.adds_ofBody hmeans ?_ h.orderly
  cases hinfo : P.index.function? q.1 with
  | none => exact fun _ hstmt => nomatch hstmt
  | some info => exact hlocated q.1 info hinfo

theorem Tracks.visit (h : P.Tracks origins s) {q : Nat × Nat} (hq : P.Reachable s.contexts q) :
    P.Tracks origins (s.visit P.index P.calls q) := by
  unfold PointerSearch.visit
  split
  · exact h
  · obtain ⟨κ, hκ, hd⟩ := hq
    have hadds := adds_visit hlocated h hκ
    have hextends := hadds.extends
    refine ⟨h.contexts, h.moduleContext, ?_, ?_, hadds.orderly, ?_, ?_, ?_, h.facts.mono hextends⟩
    · rintro r (hr | hr)
      · rcases List.mem_cons.1 hr with rfl | hr
        · exact ⟨κ, hκ, hd⟩
        · exact h.reachable r (.inl hr)
      · exact h.reachable r (.inr hr)
    · intro f hf
      obtain ⟨c, hc, hmem⟩ := h.roots f hf
      exact ⟨c, hc, hmem.imp_left (List.mem_cons_of_mem _)⟩
    · intro r hr κ' hκ' flow hflow
      rcases List.mem_cons.1 hr with rfl | hr
      · cases hκ.symm.trans hκ'
        exact hadds.made flow hflow
      · obtain ⟨con, hcon, hmeans⟩ := h.made r hr κ' hκ' flow hflow
        exact ⟨con, hadds.kept hcon, hextends.saysFlow hmeans⟩
    · intro con hcon
      rcases hadds.only con hcon with hcon | ⟨flow, hflow, hmeans⟩
      · obtain ⟨flow, hoccurs, hmeans⟩ := h.only con hcon
        exact ⟨flow, hoccurs, hextends.saysFlow hmeans⟩
      · exact ⟨flow, ⟨q.1, κ, hd, hflow⟩, hmeans⟩
    · intro i o ho
      rcases hadds.created ho with ho | ⟨flow, hflow, made, hmade, hi⟩
      · obtain ⟨flow, made, hoccurs, hmade, hi⟩ := h.created ho
        exact ⟨flow, made, hoccurs, hmade, hextends.creation? hi⟩
      · exact ⟨flow, made, ⟨q.1, κ, hd, hflow⟩, hmade, hi⟩

end Visit

/-- What visits leave as it is, and what they add. -/
structure Visited (l : List (Nat × Nat)) (s t : PointerSearch) : Prop where
  facts : t.facts = s.facts
  contexts : t.contexts = s.contexts
  pending : t.pending = s.pending
  reached : ∀ q, q ∈ t.reached ↔ q ∈ s.reached ∨ q ∈ l

theorem visited_visit (P : FlowProgram) (s : PointerSearch) (q : Nat × Nat) :
    Visited [q] s (s.visit P.index P.calls q) := by
  unfold PointerSearch.visit
  split
  · next hq =>
      refine ⟨rfl, rfl, rfl, fun r => ⟨.inl, ?_⟩⟩
      rintro (hr | hr)
      · exact hr
      · rw [List.mem_singleton.1 hr]
        exact List.contains_iff_mem.1 hq
  · refine ⟨rfl, rfl, rfl, fun r => ?_⟩
    rw [List.mem_cons, List.mem_singleton, or_comm]

theorem visited_foldl (P : FlowProgram) (l : List (Nat × Nat)) (s : PointerSearch) :
    Visited l s (l.foldl (PointerSearch.visit P.index P.calls) s) := by
  induction l generalizing s with
  | nil => exact ⟨rfl, rfl, rfl, fun q => by simp⟩
  | cons q rest ih =>
      have hfirst := visited_visit P s q
      have hrest := ih (s.visit P.index P.calls q)
      refine ⟨hrest.facts.trans hfirst.facts, hrest.contexts.trans hfirst.contexts,
        hrest.pending.trans hfirst.pending, fun r => ?_⟩
      rw [List.foldl_cons, hrest.reached, hfirst.reached, List.mem_singleton, or_assoc,
        List.mem_cons]

/-- A pass over the constraints of a search finds only what can be derived. -/
theorem Tracks.sound_pass (h : P.Tracks origins s) :
    P.Sound ⟨s.contexts, s.generated.objects⟩ (s.pass P.index P.classes) := by
  refine sound_run h.contexts h.facts fun con hcon => ?_
  obtain ⟨flow, ⟨f, κ, hd, hflow⟩, hmeans⟩ := h.only con (List.mem_reverse.1 hcon)
  exact ⟨f, κ, flow, hd, hflow, hmeans⟩

/-- A constraint that was met in a pass that added no fact holds. -/
theorem Tracks.settled (h : P.Tracks origins s)
    (hsame : (s.pass P.index P.classes).facts = s.facts) {con : Constraint}
    (hcon : con ∈ s.generated.constraints) : con.Holds (s.pass P.index P.classes).facts ∧
      ∀ c, con = .call c → P.Ran s.generated.objects (s.pass P.index P.classes) c := by
  have hstep := advances_apply P.depth (P.scene s.generated.objects)
  have hcoasts : Coasts P.depth ⟨s.facts, s.contexts, []⟩ (s.pass P.index P.classes) :=
    ⟨.foldl hstep _ _, hsame⟩
  obtain ⟨q, hpq, hqr, hq, hcr⟩ := hcoasts.exists_between hstep (List.mem_reverse.2 hcon) (.refl _)
  constructor
  · rw [hqr.same]
    exact PointerPass.holds_of_apply_eq hq.same
  · rintro c rfl
    obtain ⟨flow, -, hmeans⟩ := h.only _ hcon
    cases hmeans with
    | call hcall => exact ran_of_call (hpq.proper h.contexts) (hpq.contexts hcall.context) hq hcr

section Step

variable (hlocated : P.Located origins)
include hlocated

theorem Tracks.foldl_visit {l : List (Nat × Nat)} (h : P.Tracks origins s)
    (hl : ∀ q ∈ l, P.Reachable s.contexts q) :
    P.Tracks origins (l.foldl (PointerSearch.visit P.index P.calls) s) := by
  induction l generalizing s with
  | nil => exact h
  | cons q rest ih =>
      refine ih (h.visit hlocated (hl q List.mem_cons_self)) fun r hr => ?_
      rw [(visited_visit P s q).contexts]
      exact hl r (List.mem_cons_of_mem _ hr)

theorem Tracks.discover (h : P.Tracks origins s) :
    P.Tracks origins (s.discover P.index P.calls) := by
  have htracks := h.foldl_visit hlocated fun q hq => h.reachable q (.inr hq)
  have hvisited := visited_foldl P s.pending s
  refine ⟨htracks.contexts, htracks.moduleContext, ?_, ?_, htracks.orderly, htracks.made,
    htracks.only, htracks.created, htracks.facts⟩
  · rintro q (hq | hq)
    · exact htracks.reachable q (.inl hq)
    · cases hq
  · intro f hf
    obtain ⟨c, hc, hmem⟩ := htracks.roots f hf
    refine ⟨c, hc, .inl (hmem.elim id fun hpending => ?_)⟩
    rw [hvisited.pending] at hpending
    exact (hvisited.reached _).2 (.inr hpending)

/-- A step keeps all that is known of a search. -/
theorem Tracks.step (h : P.Tracks origins s) :
    P.Tracks origins (s.step P.index P.classes P.calls) := by
  have hd := h.discover hlocated
  have hsound := hd.sound_pass
  have hextends := hsound.extends
  refine ⟨hsound.contexts, hsound.keeps hd.moduleContext, ?_, ?_, hd.orderly, ?_, ?_, ?_,
    hsound.facts⟩
  · rintro q (hq | hq)
    · exact (hd.reachable q (.inl hq)).mono hsound.keeps
    · exact hsound.reached q (List.mem_reverse.1 (List.mem_filter.1 hq).1)
  · intro f hf
    obtain ⟨c, hc, hmem⟩ := hd.roots f hf
    exact ⟨c, hsound.keeps hc, .inl (hmem.elim id fun hpending => nomatch hpending)⟩
  · intro q hq κ hκ flow hflow
    obtain ⟨κ', hκ', -⟩ := hd.reachable q (.inl hq)
    cases hκ.symm.trans (hsound.keeps hκ')
    obtain ⟨con, hcon, hmeans⟩ := hd.made q hq κ hκ' flow hflow
    exact ⟨con, hcon, hextends.saysFlow hmeans⟩
  · intro con hcon
    obtain ⟨flow, hoccurs, hmeans⟩ := hd.only con hcon
    exact ⟨flow, hoccurs, hextends.saysFlow hmeans⟩
  · intro i o ho
    obtain ⟨flow, made, hoccurs, hmade, hi⟩ := hd.created ho
    exact ⟨flow, made, hoccurs, hmade, hextends.creation? hi⟩

theorem Tracks.iterate_step (h : P.Tracks origins s) (n : Nat) :
    P.Tracks origins ((PointerSearch.step P.index P.classes P.calls)^[n] s) := by
  induction n with
  | zero => exact h
  | succ n ih =>
      rw [Function.iterate_succ_apply']
      exact ih.step hlocated

/-- Where a search ends, every constraint holds, every call has entered all that it can, and all
that was entered has its constraints. -/
theorem Tracks.closed (h : P.Tracks origins s) (hend : s.Ends P.index P.classes P.calls) :
    P.Closed (s.discover P.index P.calls).generated.constraints
      (s.discover P.index P.calls).generated.objects (s.discover P.index P.calls).reached
      ((s.discover P.index P.calls).pass P.index P.classes) := by
  have hd := h.discover hlocated
  have hsound := hd.sound_pass
  have hstep := h.step hlocated
  obtain ⟨hfacts, hpending⟩ := hend
  have hsame : ((s.discover P.index P.calls).pass P.index P.classes).facts =
      (s.discover P.index P.calls).facts :=
    hfacts.trans (visited_foldl P s.pending s).facts.symm
  refine ⟨hstep.proper, ?_, hstep.made, fun con hcon => (hd.settled hsame hcon).1,
    fun c hcon => (hd.settled hsame hcon).2 c rfl, ?_⟩
  · intro f hf
    obtain ⟨c, hc, hmem⟩ := hstep.roots f hf
    refine ⟨c, hc, hmem.resolve_right fun hp => ?_⟩
    rw [hpending] at hp
    cases hp
  · intro q hq
    by_contra hnew
    have hmem : q ∈ (s.step P.index P.classes P.calls).pending := by
      refine List.mem_filter.2 ⟨List.mem_reverse.2 hq, ?_⟩
      rwa [Bool.not_eq_true', ← Bool.not_eq_true, List.contains_iff_mem]
    rw [hpending] at hmem
    cases hmem

end Step

end FlowProgram

end ValueFlow
