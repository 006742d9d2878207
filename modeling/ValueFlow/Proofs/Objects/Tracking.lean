import ValueFlow.Proofs.Analysis.Findings
import ValueFlow.Proofs.Objects.Admission
/-!
Steps of an evaluation and of a run, side by side.

A step of the run may fail, and then nothing is asked of the state after it. But what the run did up
to there stays on record, and whatever the evaluation finds must agree with that record: where an
access is reported to be always one on `None`, it was. Accesses that called functions make are none
of the evaluation's own, and are fine for reasons of their own. `Follows.bind` puts steps together
that are about different nodes.
-/

namespace ValueFlow

namespace Diagnostic

/-- Whether a finding of an access on `None` is about one of some nodes. -/
def Within (ids : List Nat) (d : Diagnostic) : Prop := d.kind = .definiteNullDeref → d.location ∈ ids

/-- Whether a finding of an access on `None` is about one of some nodes, and every access at the
node on record was one. -/
def Agrees (ids : List Nat) (log : List (Nat × Datum)) (d : Diagnostic) : Prop :=
  d.kind = .definiteNullDeref → d.location ∈ ids ∧ ∀ u, (d.location, u) ∈ log → u = .null

end Diagnostic

/-- Whether a state covers a point of a run, with the labels that references give to objects. -/
def FunctionScope.Covers (scope : FunctionScope) (precise : Prop) (t : ProgramState) (σ : World) :
    Prop :=
  t.Covers scope.domains scope.pointsTo.label precise σ

namespace FunctionScope

variable (scope : FunctionScope) (precise : Prop) (fine : Nat × Datum → Prop)

/-- Whether an evaluation from a state keeps up with a step of a run. -/
def Follows {α β : Type} (ids : List Nat) (m : Eval α) (x : Exec β) (right : α → β → World → Prop)
    (t : ProgramState) (σ : World) : Prop :=
  ∃ own : List (Nat × Datum), (∀ q ∈ own, q.1 ∈ ids) ∧
    (∀ q ∈ (x σ).2.accesses, q ∈ σ.accesses ∨ q ∈ own ∨ fine q) ∧
    FindsAt (Diagnostic.Agrees ids own) m t ∧
    ∀ b, (x σ).1 = some b → scope.Covers precise (m ⟨t, none⟩).2.state (x σ).2 ∧
      right (m ⟨t, none⟩).1 b (x σ).2

variable {scope precise fine} {α β γ δ : Type} {ids ids' : List Nat} {m : Eval α} {x : Exec β}
  {right : α → β → World → Prop} {t : ProgramState} {σ : World}

namespace Follows

theorem mono (h : scope.Follows precise fine ids m x right t σ) (hsub : ids ⊆ ids') :
    scope.Follows precise fine ids' m x right t σ := by
  obtain ⟨own, hids, haccesses, hfinds, hright⟩ := h
  refine ⟨own, fun q hq => hsub (hids q hq), haccesses, hfinds.imp fun d hd hkind => ?_, hright⟩
  exact ⟨hsub (hd hkind).1, (hd hkind).2⟩

theorem imp {right' : α → β → World → Prop} (h : scope.Follows precise fine ids m x right t σ)
    (himp : ∀ {a b τ}, x σ = (some b, τ) → right a b τ → right' a b τ) :
    scope.Follows precise fine ids m x right' t σ := by
  obtain ⟨own, hids, haccesses, hfinds, hright⟩ := h
  refine ⟨own, hids, haccesses, hfinds, fun b hb => ⟨(hright b hb).1, ?_⟩⟩
  exact himp (Prod.ext hb rfl) (hright b hb).2

/-- Only what an evaluation does from the state matters. -/
theorem congr {m' : Eval α} (h : scope.Follows precise fine ids m' x right t σ)
    (heq : ∀ seen, m ⟨t, seen⟩ = m' ⟨t, seen⟩) : scope.Follows precise fine ids m x right t σ := by
  obtain ⟨own, hids, haccesses, hfinds, hright⟩ := h
  refine ⟨own, hids, haccesses, fun o => ?_, ?_⟩
  · rw [heq, heq]
    exact hfinds o
  · rw [heq]
    exact hright

/-- Steps that change nothing. -/
theorem steady {a : α} {r : Option β} (hcovers : scope.Covers precise t σ)
    (hm : ∀ seen, m ⟨t, seen⟩ = (a, ⟨t, seen⟩)) (hx : x σ = (r, σ))
    (hright : ∀ b, r = some b → right a b σ) : scope.Follows precise fine ids m x right t σ := by
  refine ⟨[], nofun, fun q hq => ?_, fun o => ?_, fun b hb => ?_⟩
  · rw [hx] at hq
    exact .inl hq
  · rw [hm, hm]
    exact ⟨rfl, o, rfl, fun _ hd => .inl hd⟩
  · rw [hx] at hb ⊢
    rw [hm]
    exact ⟨hcovers, hright b hb⟩

/-- One step after another, where what the second finds is about other nodes. -/
theorem bind {g : α → Eval γ} {y : β → Exec δ} {right' : γ → δ → World → Prop}
    (hm : scope.Follows precise fine ids m x right t σ) (hdisjoint : ids.Disjoint ids')
    (hfinds : ∀ a, Finds (Diagnostic.Within ids') (g a))
    (hg : ∀ {b σ'}, x σ = (some b, σ') → scope.Covers precise (m ⟨t, none⟩).2.state σ' →
      right (m ⟨t, none⟩).1 b σ' → scope.Follows precise fine ids' (g (m ⟨t, none⟩).1) (y b) right'
        (m ⟨t, none⟩).2.state σ') :
    scope.Follows precise fine (ids ++ ids') (m >>= g) (x >>= y) right' t σ := by
  obtain ⟨own, hids, haccesses, hfound, hright⟩ := hm
  rcases hx : x σ with ⟨_ | b, σ'⟩
  · rw [hx] at haccesses
    refine ⟨own, fun q hq => List.mem_append_left _ (hids q hq), ?_, FindsAt.bind ?_ ?_, ?_⟩
    · rw [Exec.bind_of_none hx]
      exact haccesses
    · refine hfound.imp fun d hd hkind => ?_
      exact ⟨List.mem_append_left _ (hd hkind).1, (hd hkind).2⟩
    · refine (hfinds _ _).imp fun d hd hkind => ?_
      refine ⟨List.mem_append_right _ (hd hkind), fun u hu => ?_⟩
      exact absurd (hd hkind) (hdisjoint (hids _ hu))
    · rw [Exec.bind_of_none hx]
      exact fun _ hb => nomatch hb
  · obtain ⟨hcovers, hra⟩ := hright b (by rw [hx])
    rw [hx] at haccesses hcovers hra
    obtain ⟨own', hids', haccesses', hfound', hright'⟩ := hg hx hcovers hra
    rw [Follows, Exec.bind_of_some hx]
    refine ⟨own' ++ own, fun q hq => ?_, fun q hq => ?_, FindsAt.bind ?_ ?_, ?_⟩
    · rcases List.mem_append.1 hq with hq | hq
      · exact List.mem_append_right _ (hids' q hq)
      · exact List.mem_append_left _ (hids q hq)
    · rcases haccesses' q hq with hq | hq | hq
      · exact (haccesses q hq).imp_right (.imp_left (List.mem_append_right _))
      · exact .inr (.inl (List.mem_append_left _ hq))
      · exact .inr (.inr hq)
    · refine hfound.imp fun d hd hkind => ?_
      refine ⟨List.mem_append_left _ (hd hkind).1, fun u hu => ?_⟩
      rcases List.mem_append.1 hu with hu | hu
      · exact absurd (hids' _ hu) (hdisjoint (hd hkind).1)
      · exact (hd hkind).2 u hu
    · refine hfound'.imp fun d hd hkind => ?_
      refine ⟨List.mem_append_right _ (hd hkind).1, fun u hu => ?_⟩
      rcases List.mem_append.1 hu with hu | hu
      · exact (hd hkind).2 u hu
      · exact absurd (hd hkind).1 (hdisjoint (hids _ hu))
    · rw [hfound.bind_run]
      exact hright'

end Follows

end FunctionScope

end ValueFlow
