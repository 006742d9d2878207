import Mathlib.Data.List.Induction
import Mathlib.Order.Bounds.Defs
import ValueFlow.Config.Error
/-!
What the edit distance measures, and which name is suggested for an unknown one.

A cell of the table is the distance of two beginnings, computed from their last characters. Read
backwards, beginnings are lists that grow at the front, and the distance of two lists by their first
characters is at most one more or less after a single edit. Main statement:
`editDistance_least_and_closest_suggested`.
-/

namespace ValueFlow

namespace EditDistance

/-- A single edit of a text inserts, deletes or substitutes one character. -/
inductive Edit : List Char → List Char → Prop
  | insert (before after : List Char) (c : Char) : Edit (before ++ after) (before ++ c :: after)
  | delete (before after : List Char) (c : Char) : Edit (before ++ c :: after) (before ++ after)
  | substitute (before after : List Char) (c d : Char) :
      Edit (before ++ c :: after) (before ++ d :: after)

/-- One text is turned into another by a number of edits. -/
inductive Edits : Nat → List Char → List Char → Prop
  | nil (s : List Char) : Edits 0 s s
  | cons {n : Nat} {s t u : List Char} : Edit s t → Edits n t u → Edits (n + 1) s u

variable {s t u : List Char} {n : Nat}

theorem Edit.reverse (h : Edit s t) : Edit s.reverse t.reverse := by
  cases h with
  | insert before after c => simpa using Edit.insert after.reverse before.reverse c
  | delete before after c => simpa using Edit.delete after.reverse before.reverse c
  | substitute before after c d => simpa using Edit.substitute after.reverse before.reverse c d

theorem Edits.reverse (h : Edits n s t) : Edits n s.reverse t.reverse := by
  induction h with
  | nil s => exact .nil _
  | cons hst _ ih => exact .cons hst.reverse ih

theorem edits_reverse_iff : Edits n s.reverse t.reverse ↔ Edits n s t :=
  ⟨fun h => by simpa using h.reverse, Edits.reverse⟩

theorem Edit.behind (h : Edit s t) (c : Char) : Edit (c :: s) (c :: t) := by
  cases h with
  | insert before after d => exact .insert (c :: before) after d
  | delete before after d => exact .delete (c :: before) after d
  | substitute before after d e => exact .substitute (c :: before) after d e

theorem Edits.behind (h : Edits n s t) (c : Char) : Edits n (c :: s) (c :: t) := by
  induction h with
  | nil s => exact .nil _
  | cons hst _ ih => exact .cons (hst.behind c) ih

/-- The distance of two texts, by their first characters. -/
def distance : List Char → List Char → Nat
  | [], t => t.length
  | s, [] => s.length
  | c :: s, d :: t => min (min (distance s (d :: t) + 1) (distance (c :: s) t + 1))
      (distance s t + if c = d then 0 else 1)

theorem distance_nil_left (t : List Char) : distance [] t = t.length := by
  cases t <;> rw [distance]

theorem distance_nil_right (s : List Char) : distance s [] = s.length := by
  cases s with
  | nil => exact distance_nil_left []
  | cons c s =>
      rw [distance]
      exact nofun

/-- An alignment of two texts leaves out the first character of one of them, or pairs both. -/
theorem distance_cases (c : Char) (s : List Char) (d : Char) (t : List Char) :
    distance (c :: s) (d :: t) = distance s (d :: t) + 1 ∨
      distance (c :: s) (d :: t) = distance (c :: s) t + 1 ∨
      distance (c :: s) (d :: t) = distance s t + if c = d then 0 else 1 := by
  rw [distance]
  generalize (if c = d then 0 else 1) = cost
  omega

theorem distance_delete (c : Char) (s t : List Char) :
    distance (c :: s) t ≤ distance s t + 1 := by
  cases t with
  | nil =>
      refine Nat.le_of_eq ?_
      rw [distance_nil_right, distance_nil_right, List.length_cons]
  | cons d t =>
      rw [distance]
      omega

theorem distance_insert (s : List Char) (d : Char) (t : List Char) :
    distance s (d :: t) ≤ distance s t + 1 := by
  cases s with
  | nil =>
      refine Nat.le_of_eq ?_
      rw [distance_nil_left, distance_nil_left, List.length_cons]
  | cons c s =>
      rw [distance]
      omega

theorem distance_pair (c : Char) (s : List Char) (d : Char) (t : List Char) :
    distance (c :: s) (d :: t) ≤ distance s t + if c = d then 0 else 1 := by
  rw [distance]
  exact Nat.min_le_right _ _

theorem distance_self (s : List Char) : distance s s = 0 := by
  induction s with
  | nil => exact distance_nil_left []
  | cons c s ih =>
      have h := distance_pair c s c s
      rw [if_pos rfl, ih] at h
      exact Nat.le_zero.1 h

theorem edits_nil_left (t : List Char) : Edits t.length [] t := by
  induction t with
  | nil => exact .nil []
  | cons d t ih => exact .cons (.insert [] [] d) (ih.behind d)

theorem edits_nil_right (s : List Char) : Edits s.length s [] := by
  induction s with
  | nil => exact .nil []
  | cons c s ih => exact .cons (.delete [] s c) ih

/-- Two texts are at most as many edits apart as their distance says. -/
theorem edits_distance (s t : List Char) : Edits (distance s t) s t := by
  induction s, t using distance.induct with
  | case1 t => exact distance_nil_left t ▸ edits_nil_left t
  | case2 s => exact distance_nil_right s ▸ edits_nil_right s
  | case3 c s d t hdelete hinsert hpair =>
      rcases distance_cases c s d t with h | h | h
      · rw [h]
        exact .cons (.delete [] s c) hdelete
      · rw [h]
        exact .cons (.insert [] (c :: s) d) (hinsert.behind d)
      · rw [h]
        by_cases hcd : c = d
        · rw [if_pos hcd, hcd]
          exact hpair.behind d
        · rw [if_neg hcd]
          exact .cons (.substitute [] s c d) (hpair.behind d)

/-- Deleting the first character takes away at most one. -/
theorem distance_le_delete (c : Char) (s t : List Char) :
    distance s t ≤ distance (c :: s) t + 1 := by
  induction t with
  | nil =>
      rw [distance_nil_right, distance_nil_right, List.length_cons]
      omega
  | cons d t ih =>
      have hinsert := distance_insert s d t
      rcases distance_cases c s d t with h | h | h <;> omega

theorem distance_le_substitute (c d : Char) (s t : List Char) :
    distance (c :: s) t ≤ distance (d :: s) t + 1 := by
  induction t with
  | nil =>
      rw [distance_nil_right, distance_nil_right, List.length_cons, List.length_cons]
      omega
  | cons e t ih =>
      have hdelete := distance_delete c s (e :: t)
      have hinsert := distance_insert (c :: s) e t
      have hpair := distance_pair c s e t
      have hcost : (if c = e then 0 else 1) ≤ 1 := by split <;> omega
      rcases distance_cases d s e t with h | h | h <;> omega

theorem distance_le_behind {s s' : List Char} (c : Char)
    (h : ∀ t, distance s t ≤ distance s' t + 1) (t : List Char) :
    distance (c :: s) t ≤ distance (c :: s') t + 1 := by
  induction t with
  | nil =>
      have hnil := h []
      rw [distance_nil_right, distance_nil_right] at hnil ⊢
      exact Nat.succ_le_succ hnil
  | cons d t ih =>
      have hdelete := distance_delete c s (d :: t)
      have hinsert := distance_insert (c :: s) d t
      have hpair := distance_pair c s d t
      have hbelow := h t
      have hbelow' := h (d :: t)
      rcases distance_cases c s' d t with hcase | hcase | hcase <;> omega

theorem distance_le_append {s s' : List Char} (before : List Char)
    (h : ∀ t, distance s t ≤ distance s' t + 1) (t : List Char) :
    distance (before ++ s) t ≤ distance (before ++ s') t + 1 := by
  induction before generalizing t with
  | nil => exact h t
  | cons c before ih => exact distance_le_behind c ih t

/-- An edit takes at most one away from the distance to any text. -/
theorem Edit.distance_le (h : Edit s t) (u : List Char) :
    distance s u ≤ distance t u + 1 := by
  cases h with
  | insert before after c => exact distance_le_append before (distance_le_delete c after) u
  | delete before after c => exact distance_le_append before (distance_delete c after) u
  | substitute before after c d =>
      exact distance_le_append before (distance_le_substitute c d after) u

theorem Edits.distance_le (h : Edits n s t) : distance s t ≤ n := by
  induction h with
  | nil s => exact Nat.le_of_eq (distance_self s)
  | cons hedit _ ih => exact Nat.le_trans (hedit.distance_le _) (Nat.succ_le_succ ih)

theorem isLeast_distance (s t : List Char) : IsLeast {n | Edits n s t} (distance s t) :=
  ⟨edits_distance s t, fun _ h => Edits.distance_le h⟩

/-- The cells of a row behind the one of `t`, for beginnings `s` and `t` that are read backwards. -/
def cells (s t : List Char) : List Char → List Nat
  | [] => []
  | d :: rest => distance s (d :: t) :: cells s (d :: t) rest

theorem extendRow_cells (c : Char) (s t rest : List Char) :
    extendRow c (distance s t) (distance (c :: s) t) rest (cells s t rest) =
      cells (c :: s) t rest := by
  induction rest generalizing t with
  | nil => rfl
  | cons d rest ih =>
      rw [cells, cells, ← ih (d :: t), distance]
      rfl

theorem nextRow_cells (c : Char) (s t : List Char) :
    nextRow t (distance s [] :: cells s [] t) c =
      distance (c :: s) [] :: cells (c :: s) [] t := by
  have hfirst : distance s [] + 1 = distance (c :: s) [] := by
    rw [distance_nil_right, distance_nil_right, List.length_cons]
  rw [nextRow, hfirst, extendRow_cells]

theorem cells_nil_left (t rest : List Char) :
    cells [] t rest = List.range' (t.length + 1) rest.length := by
  induction rest generalizing t with
  | nil => rfl
  | cons d rest ih => rw [cells, ih, distance_nil_left, List.length_cons, List.length_cons,
      List.range'_succ]

theorem foldl_nextRow (s t u : List Char) :
    s.foldl (nextRow t) (distance u [] :: cells u [] t) =
      distance (s.reverse ++ u) [] :: cells (s.reverse ++ u) [] t := by
  induction s generalizing u with
  | nil => rfl
  | cons c s ih => rw [List.foldl_cons, nextRow_cells, ih, List.reverse_cons, List.append_assoc,
      List.singleton_append]

theorem lastRow_eq (s t : List Char) :
    lastRow s t = distance s.reverse [] :: cells s.reverse [] t := by
  have hfirst : List.range (t.length + 1) = distance [] [] :: cells [] [] t := by
    rw [cells_nil_left, distance_nil_left, List.range_eq_range', List.range'_succ]
    rfl
  rw [lastRow, hfirst, foldl_nextRow, List.append_nil]

theorem getLastD_cells (s t rest : List Char) :
    (cells s t rest).getLastD (distance s t) = distance s (rest.reverse ++ t) := by
  induction rest generalizing t with
  | nil => rfl
  | cons d rest ih => rw [cells, List.getLastD_cons, ih, List.reverse_cons, List.append_assoc,
      List.singleton_append]

end EditDistance

open EditDistance

theorem editDistance_eq (s t : String) :
    editDistance s t = distance s.toList.reverse t.toList.reverse := by
  rw [editDistance, lastRow_eq, List.getLastD_cons, getLastD_cells, List.append_nil]

/-- The table ends with the least number of edits. -/
theorem isLeast_editDistance (s t : String) :
    IsLeast {n | Edits n s.toList t.toList} (editDistance s t) := by
  have h := isLeast_distance s.toList.reverse t.toList.reverse
  rw [← editDistance_eq] at h
  exact ⟨edits_reverse_iff.1 h.1, fun n hn => h.2 (edits_reverse_iff.2 hn)⟩

example : editDistance "kitten" "sitting" = 3 := by decide

/-- Of some candidates one is closest to a text: those before it are farther away, and those after
it not closer. -/
def FirstClosest (s : String) (candidates : List String) (c : String) : Prop :=
  ∃ before after, candidates = before ++ c :: after ∧
    (∀ b ∈ before, editDistance s c < editDistance s b) ∧
    ∀ a ∈ after, editDistance s c ≤ editDistance s a

theorem FirstClosest.le {s c : String} {candidates : List String}
    (h : FirstClosest s candidates c) {d : String} (hd : d ∈ candidates) :
    editDistance s c ≤ editDistance s d := by
  obtain ⟨before, after, rfl, hbefore, hafter⟩ := h
  rcases List.mem_append.1 hd with hd | hd
  · exact Nat.le_of_lt (hbefore d hd)
  · rcases List.mem_cons.1 hd with rfl | hd
    · exact Nat.le_refl _
    · exact hafter d hd

theorem FirstClosest.unique {s c d : String} {candidates : List String}
    (hc : FirstClosest s candidates c) (hd : FirstClosest s candidates d) : c = d := by
  obtain ⟨before, after, heq, hbefore, -⟩ := id hc
  obtain ⟨before', after', heq', hbefore', -⟩ := id hd
  have hmem : d ∈ candidates := heq' ▸ List.mem_append_right _ List.mem_cons_self
  have hmem' : c ∈ candidates := heq ▸ List.mem_append_right _ List.mem_cons_self
  have hle := hc.le hmem
  have hle' := hd.le hmem'
  rcases List.append_eq_append_iff.1 (heq.symm.trans heq') with ⟨l, rfl, h⟩ | ⟨l, rfl, h⟩
  · cases l with
    | nil => exact (List.cons.inj h).1
    | cons e l =>
        cases (List.cons.inj h).1
        exact absurd (hbefore' c (List.mem_append_right _ List.mem_cons_self)) (by omega)
  · cases l with
    | nil => exact (List.cons.inj h).1.symm
    | cons e l =>
        cases (List.cons.inj h).1
        exact absurd (hbefore d (List.mem_append_right _ List.mem_cons_self)) (by omega)

theorem closest?_append (s : String) (candidates : List String) (c : String) :
    closest? s (candidates ++ [c]) =
      match closest? s candidates with
      | none => some c
      | some b => if editDistance s c < editDistance s b then some c else some b := by
  rw [closest?, List.foldl_append]
  rfl

theorem closest?_spec (s : String) (candidates : List String) :
    closest? s candidates = none ∧ candidates = [] ∨
      ∃ c, closest? s candidates = some c ∧ FirstClosest s candidates c := by
  induction candidates using List.reverseRecOn with
  | nil => exact .inl ⟨rfl, rfl⟩
  | append_singleton candidates x ih =>
      rw [closest?_append]
      rcases ih with ⟨h, rfl⟩ | ⟨b, h, hb⟩
      · rw [h]
        exact .inr ⟨x, rfl, [], [], rfl, nofun, nofun⟩
      · rw [h]
        by_cases hx : editDistance s x < editDistance s b
        · exact .inr ⟨x, if_pos hx, candidates, [], rfl,
            fun a ha => Nat.lt_of_lt_of_le hx (hb.le ha), nofun⟩
        · obtain ⟨before, after, rfl, hbefore, hafter⟩ := hb
          refine .inr ⟨b, if_neg hx, before, after ++ [x], List.append_assoc _ _ _, hbefore,
            fun a ha => ?_⟩
          rcases List.mem_append.1 ha with ha | ha
          · exact hafter a ha
          · exact List.mem_singleton.1 ha ▸ Nat.le_of_not_lt hx

theorem closest?_eq_none_iff {s : String} {candidates : List String} :
    closest? s candidates = none ↔ candidates = [] := by
  constructor
  · intro h
    rcases closest?_spec s candidates with ⟨-, hnil⟩ | ⟨c, hc, -⟩
    · exact hnil
    · cases h.symm.trans hc
  · rintro rfl
    rfl

theorem closest?_eq_some_iff {s c : String} {candidates : List String} :
    closest? s candidates = some c ↔ FirstClosest s candidates c := by
  constructor
  · intro h
    rcases closest?_spec s candidates with ⟨hnone, -⟩ | ⟨d, hd, hfirst⟩
    · cases h.symm.trans hnone
    · cases h.symm.trans hd
      exact hfirst
  · intro hc
    rcases closest?_spec s candidates with ⟨-, rfl⟩ | ⟨d, hd, hfirst⟩
    · obtain ⟨before, after, h, -⟩ := hc
      exact absurd h.symm (List.append_ne_nil_of_right_ne_nil _ nofun)
    · rw [hd, hfirst.unique hc]

/-- The edit distance of two texts is the least number of insertions, deletions and substitutions of
characters that turn one into the other. An unknown name is answered with the first of the valid
names at the least distance from it, if there is a valid name. -/
theorem editDistance_least_and_closest_suggested :
    (∀ s t : String, IsLeast {n | Edits n s.toList t.toList} (editDistance s t)) ∧
    ∀ (name : String) (valid : List String),
      (∀ c, ConfigError.ofUnknownDomain name valid = .unknownDomain name (some c) ↔
        FirstClosest name valid c) ∧
      (ConfigError.ofUnknownDomain name valid = .unknownDomain name none ↔ valid = []) ∧
      (∀ c, FirstClosest name valid c → (ConfigError.ofUnknownDomain name valid).message =
        s!"Unknown domain '{name}'. Did you mean '{c}'?") ∧
      (ConfigError.ofUnknownDomain name []).message =
        s!"Unknown domain '{name}'. No valid domains available" := by
  refine ⟨isLeast_editDistance, fun name valid => ⟨fun c => ?_, ?_, fun c hc => ?_, rfl⟩⟩
  · rw [ConfigError.ofUnknownDomain, ConfigError.unknownDomain.injEq, closest?_eq_some_iff]
    exact and_iff_right rfl
  · rw [ConfigError.ofUnknownDomain, ConfigError.unknownDomain.injEq, closest?_eq_none_iff]
    exact and_iff_right rfl
  · rw [ConfigError.ofUnknownDomain, closest?_eq_some_iff.2 hc]
    rfl

end ValueFlow
