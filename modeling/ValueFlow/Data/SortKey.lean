/-!
Keys with a strict total order.

Sorted containers are written once over this class; its laws are what makes a sorted list the only
list with given contents.
-/

namespace ValueFlow

/-- A strict total order with a Boolean test. -/
class SortKey (α : Type) where
  /-- Whether the first key comes strictly before the second. -/
  before : α → α → Bool
  before_irrefl : ∀ a, before a a = false
  before_trans : ∀ a b c, before a b = true → before b c = true → before a c = true
  before_connected : ∀ a b, before a b = false → before b a = false → a = b

namespace SortKey

variable {α β : Type}

theorem asymm [SortKey α] {a b : α} (h : before a b = true) : before b a = false := by
  cases hb : before b a with
  | false => rfl
  | true =>
      have := before_trans a b a h hb
      rw [before_irrefl] at this
      exact this.symm

theorem ne_of_before [SortKey α] {a b : α} (h : before a b = true) : a ≠ b := by
  intro hab
  rw [hab, before_irrefl] at h
  exact Bool.false_ne_true h

/-- What does not come before the second key comes after all that comes before that. -/
theorem before_of_before_of_not [SortKey α] {a b c : α} (hab : before a b = true)
    (hcb : before c b = false) : before a c = true := by
  cases hbc : before b c with
  | true => exact before_trans a b c hab hbc
  | false => exact before_connected b c hbc hcb ▸ hab

instance : SortKey Nat where
  before a b := decide (a < b)
  before_irrefl a := decide_eq_false (Nat.lt_irrefl a)
  before_trans _ _ _ hab hbc :=
    decide_eq_true (Nat.lt_trans (of_decide_eq_true hab) (of_decide_eq_true hbc))
  before_connected _ _ hab hba :=
    Nat.le_antisymm (Nat.le_of_not_lt (of_decide_eq_false hba))
      (Nat.le_of_not_lt (of_decide_eq_false hab))

/-- Texts are ordered by their code points. -/
instance : SortKey String where
  before a b := (String.decidableLT a b).decide
  before_irrefl a := decide_eq_false (String.lt_irrefl a)
  before_trans _ _ _ hab hbc :=
    decide_eq_true (String.lt_trans (of_decide_eq_true hab) (of_decide_eq_true hbc))
  before_connected _ _ hab hba :=
    String.le_antisymm (String.not_lt.1 (of_decide_eq_false hba))
      (String.not_lt.1 (of_decide_eq_false hab))

/-- Pairs are ordered by their first part, then by their second. -/
def pairBefore [SortKey α] [SortKey β] (p q : α × β) : Bool :=
  before p.1 q.1 || (!before q.1 p.1 && before p.2 q.2)

theorem pairBefore_iff [SortKey α] [SortKey β] {p q : α × β} :
    pairBefore p q = true ↔
      before p.1 q.1 = true ∨ p.1 = q.1 ∧ before p.2 q.2 = true := by
  unfold pairBefore
  cases hpq : before p.1 q.1 with
  | true => simp
  | false =>
      cases hqp : before q.1 p.1 with
      | true => simpa using fun h => absurd h.symm (ne_of_before hqp)
      | false => simp [before_connected _ _ hpq hqp]

instance [SortKey α] [SortKey β] : SortKey (α × β) where
  before := pairBefore
  before_irrefl p := by simp [pairBefore, before_irrefl]
  before_trans p q r hpq hqr := by
    rw [pairBefore_iff] at hpq hqr ⊢
    rcases hpq with h | ⟨h, h'⟩ <;> rcases hqr with k | ⟨k, k'⟩
    · exact .inl (before_trans _ _ _ h k)
    · exact .inl (k ▸ h)
    · exact .inl (h ▸ k)
    · exact .inr ⟨h.trans k, before_trans _ _ _ h' k'⟩
  before_connected p q hpq hqp := by
    rw [← Bool.not_eq_true, pairBefore_iff, not_or] at hpq hqp
    have h := before_connected p.1 q.1 (Bool.eq_false_iff.2 hpq.1) (Bool.eq_false_iff.2 hqp.1)
    have h' := before_connected p.2 q.2
      (Bool.eq_false_iff.2 fun k => hpq.2 ⟨h, k⟩) (Bool.eq_false_iff.2 fun k => hqp.2 ⟨h.symm, k⟩)
    exact Prod.ext h h'

end SortKey

/-- Two lists strictly sorted by one order are equal when they have the same members. -/
theorem eq_of_sorted {γ : Type} (r : γ → γ → Prop) (irrefl : ∀ a, ¬ r a a)
    (trans : ∀ a b c, r a b → r b c → r a c) {l l' : List γ} (h : l.Pairwise r)
    (h' : l'.Pairwise r) (mem : ∀ a, a ∈ l ↔ a ∈ l') : l = l' := by
  induction l generalizing l' with
  | nil =>
      cases l' with
      | nil => rfl
      | cons b l' => exact absurd ((mem b).2 List.mem_cons_self) List.not_mem_nil
  | cons a l ih =>
      cases l' with
      | nil => exact absurd ((mem a).1 List.mem_cons_self) List.not_mem_nil
      | cons b l' =>
          have ha := List.pairwise_cons.1 h
          have hb := List.pairwise_cons.1 h'
          have hab : a = b := by
            rcases List.mem_cons.1 ((mem a).1 List.mem_cons_self) with hab | hab
            · exact hab
            · rcases List.mem_cons.1 ((mem b).2 List.mem_cons_self) with hba | hba
              · exact hba.symm
              · exact absurd (trans _ _ _ (ha.1 b hba) (hb.1 a hab)) (irrefl a)
          subst hab
          refine congrArg (a :: ·) (ih ha.2 hb.2 fun c => ?_)
          constructor
          · intro hc
            rcases List.mem_cons.1 ((mem c).1 (List.mem_cons_of_mem _ hc)) with hca | hc'
            · exact absurd (hca ▸ ha.1 c hc) (irrefl a)
            · exact hc'
          · intro hc
            rcases List.mem_cons.1 ((mem c).2 (List.mem_cons_of_mem _ hc)) with hca | hc'
            · exact absurd (hca ▸ hb.1 c hc) (irrefl a)
            · exact hc'

end ValueFlow
