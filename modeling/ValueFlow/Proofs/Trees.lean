import Mathlib.Data.List.Basic
import ValueFlow.Program.Walk
/-!
What walks over expressions and statements meet.
-/

namespace ValueFlow

namespace Expr

theorem height_pos (e : Expr) : 0 < e.height := by
  cases e <;> rw [height] <;> omega

theorem height_le_heightAll {e : Expr} {l : List Expr} (h : e ∈ l) : e.height ≤ heightAll l := by
  induction l with
  | nil => cases h
  | cons a rest ih =>
      rw [heightAll]
      rcases List.mem_cons.1 h with rfl | h
      · exact Nat.le_max_left _ _
      · exact Nat.le_trans (ih h) (Nat.le_max_right _ _)

theorem mem_walkAll {part : Expr} {l : List Expr} :
    part ∈ walkAll l ↔ ∃ c ∈ l, part ∈ c.walk := by
  rw [walkAll_eq, List.mem_flatMap]

theorem walk_sublist_walkAll {e : Expr} {l : List Expr} (h : e ∈ l) :
    e.walk.Sublist (walkAll l) := by
  induction l with
  | nil => cases h
  | cons c rest ih =>
      rw [walkAll]
      rcases List.mem_cons.1 h with rfl | h
      · exact List.sublist_append_left _ _
      · exact (ih h).trans (List.sublist_append_right _ _)

theorem walk_subset_walkAll {e : Expr} {l : List Expr} (h : e ∈ l) : e.walk ⊆ walkAll l :=
  (walk_sublist_walkAll h).subset

theorem mem_walk_self (e : Expr) : e ∈ e.walk := by
  cases e <;> rw [walk] <;> exact List.mem_cons_self

/-- Parts have fewer levels than what they are parts of. -/
theorem height_lt_of_mem_children {e c : Expr} (h : c ∈ e.children) : c.height < e.height := by
  cases e with
  | literal | name | unsupported => cases h
  | binOp | boolOp | compare | subscript =>
      rw [height]
      rcases List.mem_pair.1 h with rfl | rfl <;> omega
  | unaryOp | attr =>
      rw [height, List.mem_singleton.1 h]
      exact Nat.lt_succ_self _
  | call =>
      rw [height]
      rcases List.mem_cons.1 h with rfl | h
      · omega
      · have := height_le_heightAll h
        omega
  | collection =>
      rw [height]
      exact Nat.lt_succ_of_le (height_le_heightAll h)

theorem walk_subset_of_mem_children {e c : Expr} (h : c ∈ e.children) : c.walk ⊆ e.walk := by
  rw [walk_eq e]
  exact List.subset_cons_of_subset _ (walk_subset_walkAll h)

/-- The walk over a part is a part of the walk. -/
theorem walk_sublist_of_mem_walk {e part : Expr} (h : part ∈ e.walk) :
    part.walk.Sublist e.walk := by
  generalize hn : e.height = n
  induction n using Nat.strongRecOn generalizing e with
  | ind n ih =>
      rw [walk_eq e] at h ⊢
      rcases List.mem_cons.1 h with rfl | h
      · rw [walk_eq part]
      · obtain ⟨c, hc, hpart⟩ := mem_walkAll.1 h
        have hle := ih c.height (hn ▸ height_lt_of_mem_children hc) hpart rfl
        exact (hle.trans (walk_sublist_walkAll hc)).cons _

/-- Where parts have different identifiers, two of some expressions share none. -/
theorem eq_of_mem_walk {l : List Expr} (hids : ((walkAll l).map Expr.id).Nodup) {c d part : Expr}
    (hc : c ∈ l) (hd : d ∈ l) (hpart : part ∈ c.walk) (hpart' : part ∈ d.walk) : c = d := by
  induction l with
  | nil => cases hc
  | cons a rest ih =>
      rw [walkAll, List.map_append, List.nodup_append] at hids
      obtain ⟨-, hrest, happart⟩ := hids
      have hnot {e : Expr} (he : e ∈ rest) (hin : part ∈ a.walk) (hin' : part ∈ e.walk) : False :=
        happart _ (List.mem_map_of_mem hin) _
          (List.mem_map_of_mem (walk_subset_walkAll he hin')) rfl
      rcases List.mem_cons.1 hc with rfl | hc'
      · rcases List.mem_cons.1 hd with rfl | hd'
        · rfl
        · exact (hnot hd' hpart hpart').elim
      · rcases List.mem_cons.1 hd with rfl | hd'
        · exact (hnot hc' hpart' hpart).elim
        · exact ih hrest hc' hd'

end Expr

namespace Stmt

theorem mem_walk_self (s : Stmt) : s ∈ s.walk := by
  cases s <;> rw [walk] <;> exact List.mem_cons_self

theorem mem_walkAll {s : Stmt} {body : List Stmt} :
    s ∈ walkAll body ↔ ∃ t ∈ body, s ∈ t.walk := by
  rw [walkAll_eq, List.mem_flatMap]

end Stmt

theorem mem_walkExprs {s : Stmt} {e : Expr} {body : List Stmt} :
    (s, e) ∈ walkExprs body ↔ s ∈ Stmt.walkAll body ∧ e ∈ Expr.walkAll s.ownExprs := by
  simp [walkExprs]

end ValueFlow
