import ValueFlow.Proofs.Fixpoint.Visits
/-!
Properties that all states of a fixpoint iteration share.

What holds of the state at the entry and passes on through joins, widening, items and edges holds
of every state of the solution. At the end of a block stands what its items make of the state on
entry, unless an older state that is above it was kept (`ends_solve`).
-/

namespace ValueFlow

namespace Fixpoint

open AbstractDomain

variable {σ : Type} [AbstractDomain σ] {g : FlowGraph} {t : Transfer σ} {limits : Limits}
  {start : σ} {s : Solution σ} {P : σ → Prop}

/-- Whether a property of states passes on through all that is done with them in a graph. -/
structure Lasting (g : FlowGraph) (t : Transfer σ) (P : σ → Prop) : Prop where
  bottom : P bottom
  join : ∀ {a b}, P a → P b → P (join a b)
  widen : ∀ {a b}, P a → P b → ∀ n, P (widen a b n)
  item : ∀ b, ∀ i ∈ (g.block b).items, ∀ {a}, P a → P (t.item i a)
  edge : ∀ e, ∀ {a}, P a → P (t.edge e (g.block e.source) a)

/-- Whether all states of a solution have a property. -/
structure Solution.Forall (P : σ → Prop) (s : Solution σ) : Prop where
  entry : ∀ b, P (s.entryOf b)
  exit : ∀ b, P (s.exitOf b)

omit [AbstractDomain σ] in
theorem getD_of_setIfInBounds {a : Array σ} {fallback v : σ} (ha : ∀ c, P (a.getD c fallback))
    (hv : P v) (b c : Nat) : P ((a.setIfInBounds b v).getD c fallback) := by
  by_cases hc : c = b
  · subst hc
    by_cases hlt : c < a.size
    · rw [getD_setIfInBounds_self hlt]
      exact hv
    · rw [Array.setIfInBounds, dif_neg hlt]
      exact ha c
  · rw [getD_setIfInBounds_ne hc]
    exact ha c

/-- What every visit of a block preserves, whether or not the iteration is stopped, holds at the
end. -/
theorem iterate_induct {Q : Solution σ → Prop}
    (hvisit : ∀ s b, Q s → Q (visit g t limits start (count s b) b).1)
    (hstop : ∀ s, Q s → ∀ b, Q { count s b with converged := false })
    (n : Nat) (work : Worklist) (hs : Q s) : Q (iterate g t limits start n work s) := by
  induction n generalizing work s with
  | zero => exact hs
  | succ n ih =>
      rw [Fixpoint.iterate]
      split
      · exact hs
      · dsimp only
        split
        · exact hstop s hs _
        · exact ih _ (hvisit s _ hs)

section Lasting

variable (h : Lasting g t P) (hstart : P start)
include h

theorem Lasting.runItems (b : Nat) {a : σ} (ha : P a) : P (runItems t (g.block b).items a) := by
  unfold Fixpoint.runItems
  split
  · exact ha
  · exact List.foldlRecOn (g.block b).items _ ha fun a ha i hi => h.item b i hi ha

include hstart

theorem Lasting.inflow (hs : s.Forall P) (b : Nat) : P (inflow g t start s b) := by
  unfold Fixpoint.inflow
  refine List.foldlRecOn (g.incoming b) _ ?_ fun a ha e _ => ?_
  · split
    · exact hstart
    · exact h.bottom
  · dsimp only
    split
    · exact ha
    · exact h.join ha (h.edge e (hs.exit _))

theorem Lasting.freshEntry (hs : s.Forall P) (b : Nat) : P (freshEntry g t limits start s b) := by
  unfold Fixpoint.freshEntry
  split
  · exact h.widen (hs.entry b) (h.inflow hstart hs b) _
  · exact h.inflow hstart hs b

theorem Lasting.visit (hs : s.Forall P) (b : Nat) :
    (visit g t limits start s b).1.Forall P := by
  have hfresh : P (Fixpoint.freshEntry g t limits start s b) := h.freshEntry hstart hs b
  have hentry := getD_of_setIfInBounds hs.entry hfresh b
  rw [visit_eq]
  split
  · exact ⟨hentry, getD_of_setIfInBounds hs.exit (h.runItems b hfresh) b⟩
  · exact ⟨hentry, hs.exit⟩

theorem Lasting.iterate (n : Nat) (work : Worklist) (hs : s.Forall P) :
    (iterate g t limits start n work s).Forall P := by
  refine iterate_induct (fun s b hs => ?_) (fun s hs _ => ⟨hs.entry, hs.exit⟩) n work hs
  have hcount : (count s b).Forall P := ⟨hs.entry, hs.exit⟩
  exact h.visit hstart hcount b

/-- All states of a solution have a property that lasts. -/
theorem Lasting.solve : (solve g t limits start).Forall P := by
  refine h.iterate hstart _ _ ⟨fun b => ?_, fun b => ?_⟩
  · rw [entryOf_initial]
    exact h.bottom
  · rw [exitOf_initial]
    exact h.bottom

end Lasting

section Ends

/-- Whether the state at the end of every block is what its items make of the state on entry, or
one that is above that. -/
structure Solution.Ends (g : FlowGraph) (t : Transfer σ) (s : Solution σ) : Prop where
  size_eq : s.entry.size = s.exit.size
  end_eq : ∀ b, s.exitOf b = runItems t (g.block b).items (s.entryOf b) ∨
    leq (runItems t (g.block b).items (s.entryOf b)) (s.exitOf b) = true

theorem entryOf_visit {b : Nat} (hb : b < s.entry.size) (c : Nat) :
    (visit g t limits start s b).1.entryOf c =
      if c = b then freshEntry g t limits start s b else s.entryOf c := by
  have hentry : (visit g t limits start s b).1.entryOf c =
      (s.entry.setIfInBounds b (freshEntry g t limits start s b)).getD c bottom := by
    rw [visit_eq]
    split <;> rfl
  rw [hentry]
  split
  · next hc => rw [hc, getD_setIfInBounds_self hb]
  · next hc => exact getD_setIfInBounds_ne hc _

theorem exitOf_visit {b : Nat} (hb : b < s.exit.size) (c : Nat) :
    (visit g t limits start s b).1.exitOf c =
      if c = b ∧ isLoud g t limits start s b = true then freshExit g t limits start s b
      else s.exitOf c := by
  rw [visit_eq]
  cases isLoud g t limits start s b with
  | false => rw [if_neg Bool.false_ne_true, if_neg (fun h => Bool.false_ne_true h.2)]; rfl
  | true =>
      rw [if_pos rfl]
      show (s.exit.setIfInBounds b (freshExit g t limits start s b)).getD c bottom = _
      split
      · next hc => rw [hc.1, getD_setIfInBounds_self hb]
      · next hc => exact getD_setIfInBounds_ne (fun h => hc ⟨h, rfl⟩) _

/-- A block that the graph does not have has no states that a visit could replace. -/
theorem states_visit_of_size_le {b : Nat} (hentry : s.entry.size ≤ b) (hexit : s.exit.size ≤ b) :
    (visit g t limits start s b).1.entry = s.entry ∧
      (visit g t limits start s b).1.exit = s.exit := by
  have hkept {a : Array σ} (ha : a.size ≤ b) (v : σ) : a.setIfInBounds b v = a := by
    rw [Array.setIfInBounds, dif_neg (Nat.not_lt.2 ha)]
  rw [visit_eq]
  split
  · exact ⟨hkept hentry _, hkept hexit _⟩
  · exact ⟨hkept hentry _, rfl⟩

/-- A visit puts the new state at the end unless it found no more than the old one. -/
theorem Solution.Ends.visit (h : s.Ends g t) (b : Nat) :
    (visit g t limits start s b).1.Ends g t := by
  constructor
  · rw [visit_eq]
    split
    · rw [Array.size_setIfInBounds, Array.size_setIfInBounds]
      exact h.size_eq
    · rw [Array.size_setIfInBounds]
      exact h.size_eq
  · intro c
    rcases Nat.lt_or_ge b s.entry.size with hb | hb
    · rw [entryOf_visit hb, exitOf_visit (h.size_eq ▸ hb)]
      by_cases hc : c = b
      · subst hc
        rw [if_pos rfl]
        cases hloud : isLoud g t limits start s c with
        | true => exact .inl (if_pos ⟨rfl, rfl⟩)
        | false =>
            right
            rw [if_neg (fun h => Bool.false_ne_true h.2)]
            rw [isLoud, Bool.or_eq_false_iff, Bool.not_eq_false'] at hloud
            exact hloud.2
      · rw [if_neg hc, if_neg (fun h => hc h.1)]
        exact h.end_eq c
    · obtain ⟨hentry, hexit⟩ : (Fixpoint.visit g t limits start s b).1.entry = s.entry ∧
          (Fixpoint.visit g t limits start s b).1.exit = s.exit :=
        states_visit_of_size_le hb (h.size_eq ▸ hb)
      unfold Solution.exitOf Solution.entryOf
      rw [hentry, hexit]
      exact h.end_eq c

theorem ends_solve (hbottom : isBottom (bottom : σ) = true) :
    (solve g t limits start).Ends g t := by
  refine iterate_induct (Q := Solution.Ends g t) (fun s b hs => ?_)
    (fun s hs b => ⟨hs.size_eq, hs.end_eq⟩) _ _ ⟨?_, fun b => .inl ?_⟩
  · have hcount : (count s b).Ends g t := ⟨hs.size_eq, hs.end_eq⟩
    exact hcount.visit b
  · exact Array.size_replicate.trans Array.size_replicate.symm
  · rw [exitOf_initial, entryOf_initial, runItems, if_pos hbottom]

end Ends

end Fixpoint

end ValueFlow
