import Mathlib.Data.Set.Card
import Mathlib.Data.Set.Finite.Lattice
import Mathlib.Order.Interval.Set.Nat
/-!
Sequences that change only so often.

A sequence whose changes all raise a bounded number changes at most that often, and one that is
made of parts changes at most as often as the parts do together. What changes only finitely often
is constant from some point on.
-/

namespace ValueFlow

variable {α β γ ι κ : Type} {x : Nat → α}

def changes (x : Nat → α) : Set Nat := {k | x (k + 1) ≠ x k}

/-- Whether a sequence is constant from some point on. -/
def Stabilizes (x : Nat → α) : Prop := ∃ last, ∀ k, last ≤ k → x k = x last

theorem stabilizes_of_finite (h : (changes x).Finite) : Stabilizes x := by
  obtain ⟨bound, hbound⟩ := h.bddAbove
  refine ⟨bound + 1, fun k hk => ?_⟩
  induction hk with
  | refl => rfl
  | @step k hk ih =>
      rw [← ih]
      by_contra hne
      exact absurd (hbound hne) (Nat.not_le.2 hk)

theorem stabilizes_of_encard_le {n : Nat} (h : (changes x).encard ≤ n) : Stabilizes x :=
  stabilizes_of_finite (Set.finite_of_encard_le_coe h)

/-- A sequence settles if it does so from some point on. -/
theorem Stabilizes.of_tail {first : Nat} (h : Stabilizes fun k => x (first + k)) :
    Stabilizes x := by
  obtain ⟨last, hlast⟩ := h
  refine ⟨first + last, fun k hk => ?_⟩
  have hk' : x (first + (k - first)) = x (first + last) := hlast (k - first) (by omega)
  rwa [Nat.add_sub_cancel' (by omega)] at hk'

/-- A sequence settles if it does so from where something holds that every step keeps, and if it is
constant as long as that never holds. -/
theorem stabilizes_of_reached (reached : α → Bool) (unreached : α)
    (hkeep : ∀ k, reached (x k) = true → reached (x (k + 1)) = true)
    (hreached : ∀ first, (∀ k, reached (x (first + k)) = true) → Stabilizes fun k => x (first + k))
    (hunreached : ∀ k, reached (x k) = false → reached (x (k + 1)) = false →
      x (k + 1) = unreached) : Stabilizes x := by
  by_cases hreach : ∃ first, reached (x first) = true
  · obtain ⟨first, hfirst⟩ := hreach
    refine .of_tail (hreached first fun k => ?_)
    induction k with
    | zero => exact hfirst
    | succ k ih => exact hkeep (first + k) ih
  · have hnever (k : Nat) : reached (x k) = false := Bool.eq_false_iff.2 fun hk => hreach ⟨k, hk⟩
    have hconst (k : Nat) : x (k + 1) = unreached := hunreached k (hnever k) (hnever (k + 1))
    refine ⟨1, fun k hk => ?_⟩
    obtain ⟨j, rfl⟩ := Nat.exists_eq_add_of_le' hk
    rw [hconst j, hconst 0]

theorem encard_changes_tail_le (x : Nat → α) :
    (changes fun k => x (k + 1)).encard ≤ (changes x).encard :=
  Set.encard_le_encard_of_injOn (f := Nat.succ) (fun _ hk => hk) Nat.succ_injective.injOn

/-- The first step adds at most one change. -/
theorem encard_changes_le_succ {n : Nat} (h : (changes fun k => x (k + 1)).encard ≤ n) :
    (changes x).encard ≤ (n + 1 : Nat) := by
  have hsub : changes x ⊆ Nat.succ '' (changes fun k => x (k + 1)) ∪ {0} := by
    intro k hk
    cases k with
    | zero => exact .inr rfl
    | succ k => exact .inl ⟨k, hk, rfl⟩
  calc (changes x).encard
      ≤ (Nat.succ '' (changes fun k => x (k + 1)) ∪ {0}).encard := Set.encard_le_encard hsub
    _ ≤ (Nat.succ '' (changes fun k => x (k + 1))).encard + ({0} : Set Nat).encard :=
        Set.encard_union_le _ _
    _ ≤ (n + 1 : Nat) := by
        rw [Set.encard_singleton, Nat.succ_injective.encard_image, Nat.cast_add, Nat.cast_one]
        exact add_le_add h le_rfl

/-- A sequence settles if it is made of two that do. -/
theorem Stabilizes.of_parts {y : Nat → β} {z : Nat → γ} (hy : Stabilizes y) (hz : Stabilizes z)
    (hext : ∀ j k, y j = y k → z j = z k → x j = x k) : Stabilizes x := by
  obtain ⟨last, hlast⟩ := hy
  obtain ⟨last', hlast'⟩ := hz
  refine ⟨max last last', fun k hk => hext _ _ ?_ ?_⟩
  · rw [hlast k (by omega), hlast (max last last') (by omega)]
  · rw [hlast' k (by omega), hlast' (max last last') (by omega)]

section Rank

variable (rank : α → Nat) (hup : ∀ k, x (k + 1) = x k ∨ rank (x k) < rank (x (k + 1)))
include hup

theorem rank_mono {j k : Nat} (h : j ≤ k) : rank (x j) ≤ rank (x k) := by
  induction h with
  | refl => exact Nat.le_refl _
  | @step k _ ih =>
      rcases hup k with heq | hlt
      · rwa [heq]
      · exact Nat.le_trans ih (Nat.le_of_lt hlt)

/-- If every change raises a bounded number, there are no more changes than the bound says. -/
theorem encard_changes_le_of_rank {bound : Nat} (hbound : ∀ k, rank (x k) ≤ bound) :
    (changes x).encard ≤ bound := by
  have hinj : Set.InjOn (fun k => rank (x k)) (changes x) := by
    have hlt : ∀ {j k}, j ∈ changes x → j < k → rank (x j) < rank (x k) := fun {j k} hj hjk =>
      Nat.lt_of_lt_of_le ((hup j).resolve_left hj) (rank_mono rank hup hjk)
    intro j hj k hk heq
    rcases Nat.lt_trichotomy j k with h | h | h
    · exact absurd heq (Nat.ne_of_lt (hlt hj h))
    · exact h
    · exact absurd heq.symm (Nat.ne_of_lt (hlt hk h))
  have hmaps : Set.MapsTo (fun k => rank (x k)) (changes x) (Set.Iio bound) := fun k hk =>
    Nat.lt_of_lt_of_le ((hup k).resolve_left hk) (hbound (k + 1))
  calc (changes x).encard
      ≤ (Set.Iio bound).encard := Set.encard_le_encard_of_injOn hmaps hinj
    _ = bound := by rw [Set.encard_eq_coe_toFinset_card]; simp

end Rank

/-- A truth value that stays once it is reached changes at most once. -/
theorem encard_changes_le_one {b : Nat → Bool} (final : Bool)
    (hstay : ∀ k, b k = final → b (k + 1) = final) : (changes b).encard ≤ (1 : Nat) := by
  refine encard_changes_le_of_rank (fun c => if c = final then 1 else 0) (fun k => ?_) fun k => ?_
  · by_cases hk : b k = final
    · exact .inl ((hstay k hk).trans hk.symm)
    · by_cases hk' : b (k + 1) = final
      · simp [hk, hk']
      · left
        revert hk hk'
        cases b k <;> cases b (k + 1) <;> cases final <;> simp
  · split <;> omega

section Parts

theorem encard_changes_le_add {y : Nat → β} {z : Nat → γ} {m n : Nat}
    (hext : ∀ k, y (k + 1) = y k → z (k + 1) = z k → x (k + 1) = x k)
    (hy : (changes y).encard ≤ m) (hz : (changes z).encard ≤ n) :
    (changes x).encard ≤ (m + n : Nat) := by
  have hsub : changes x ⊆ changes y ∪ changes z := by
    intro k hk
    by_contra hno
    rw [Set.mem_union, not_or] at hno
    exact hk (hext k (Classical.not_not.1 hno.1) (Classical.not_not.1 hno.2))
  calc (changes x).encard
      ≤ (changes y ∪ changes z).encard := Set.encard_le_encard hsub
    _ ≤ (changes y).encard + (changes z).encard := Set.encard_union_le _ _
    _ ≤ (m + n : Nat) := by
        rw [Nat.cast_add]
        exact add_le_add hy hz

theorem encard_changes_pair_le {y : Nat → β} {z : Nat → γ} {m n : Nat}
    (hy : (changes y).encard ≤ m) (hz : (changes z).encard ≤ n) :
    (changes fun k => (y k, z k)).encard ≤ (m + n : Nat) :=
  encard_changes_le_add (fun _ hy hz => Prod.ext hy hz) hy hz

/-- A sequence with as many parts as a list has members, each of which changes so often. -/
theorem encard_changes_le_mul (parts : List ι) (part : ι → Nat → β) {n : Nat}
    (hpart : ∀ i ∈ parts, (changes (part i)).encard ≤ n)
    (hext : ∀ k, (∀ i ∈ parts, part i (k + 1) = part i k) → x (k + 1) = x k) :
    (changes x).encard ≤ (parts.length * n : Nat) := by
  induction parts generalizing α with
  | nil =>
      have hnone : changes x = ∅ :=
        Set.eq_empty_of_forall_notMem fun k hk => hk (hext k fun _ hi => absurd hi List.not_mem_nil)
      simp [hnone]
  | cons i rest ih =>
      have hrest := ih (x := fun k => fun j : {j // j ∈ rest} => part j.1 k)
        (fun j hj => hpart j (List.mem_cons_of_mem _ hj))
        fun k hk => funext fun j => hk j.1 j.2
      have hsum := encard_changes_le_add (x := x) (fun k hi hrest => hext k fun j hj => by
        rcases List.mem_cons.1 hj with rfl | hj
        · exact hi
        · exact congrFun hrest ⟨j, hj⟩) (hpart i List.mem_cons_self) hrest
      rwa [List.length_cons, Nat.succ_mul, Nat.add_comm]

/-- A sequence with two finite families of parts. -/
theorem encard_changes_le_families (s : Finset ι) (t : Finset κ) (part : ι → Nat → β)
    (part' : κ → Nat → γ) {m n : Nat} (hpart : ∀ i ∈ s, (changes (part i)).encard ≤ m)
    (hpart' : ∀ j ∈ t, (changes (part' j)).encard ≤ n)
    (hext : ∀ k, (∀ i ∈ s, part i (k + 1) = part i k) → (∀ j ∈ t, part' j (k + 1) = part' j k) →
      x (k + 1) = x k) : (changes x).encard ≤ (s.card * m + t.card * n : Nat) := by
  have hs := encard_changes_le_mul (x := fun k => fun i : {i // i ∈ s} => part i.1 k) s.toList part
    (fun i hi => hpart i (Finset.mem_toList.1 hi))
    fun k hk => funext fun i => hk i.1 (Finset.mem_toList.2 i.2)
  have ht := encard_changes_le_mul (x := fun k => fun j : {j // j ∈ t} => part' j.1 k) t.toList
    part' (fun j hj => hpart' j (Finset.mem_toList.1 hj))
    fun k hk => funext fun j => hk j.1 (Finset.mem_toList.2 j.2)
  rw [Finset.length_toList] at hs ht
  refine encard_changes_le_add (fun k hi hj => ?_) hs ht
  exact hext k (fun i hi' => congrFun hi ⟨i, hi'⟩) fun j hj' => congrFun hj ⟨j, hj'⟩

end Parts

end ValueFlow
