import ValueFlow.Data.SortKey
/-!
Finite maps as strictly sorted association lists.

Sortedness is part of the type, so two maps with the same entries are equal.
Main statements: `get?_alter` and `ext_get?`.
-/

namespace ValueFlow

open SortKey

/-- A finite map, kept as its entries in ascending key order. -/
structure SortedMap (κ ν : Type) [SortKey κ] where
  entries : List (κ × ν)
  sorted : entries.Pairwise fun p q => before p.1 q.1 = true := by exact List.Pairwise.nil
deriving DecidableEq

namespace SortedMap

variable {κ ν μ : Type}

section Entries

variable [SortKey κ]

/-- The value stored at a key of an entry list. -/
def lookup (k : κ) : List (κ × ν) → Option ν
  | [] => none
  | (k', v) :: rest =>
      if before k k' then none else if before k' k then lookup k rest else some v

/-- Replaces what an entry list stores at one key. -/
def alterEntries (k : κ) (f : Option ν → Option ν) : List (κ × ν) → List (κ × ν)
  | [] =>
      match f none with
      | none => []
      | some v => [(k, v)]
  | (k', v') :: rest =>
      if before k k' then
        match f none with
        | none => (k', v') :: rest
        | some v => (k, v) :: (k', v') :: rest
      else if before k' k then
        (k', v') :: alterEntries k f rest
      else
        match f (some v') with
        | none => rest
        | some v => (k, v) :: rest

theorem mem_alterEntries {k : κ} {f : Option ν → Option ν} {p : κ × ν} {l : List (κ × ν)}
    (h : p ∈ alterEntries k f l) : p.1 = k ∨ p ∈ l := by
  induction l with
  | nil =>
      unfold alterEntries at h
      split at h <;> simp_all
  | cons q rest ih =>
      unfold alterEntries at h
      split at h
      · split at h <;> simp_all
        rcases h with rfl | h | h <;> simp_all
      · split at h
        · rcases List.mem_cons.1 h with rfl | h
          · exact .inr List.mem_cons_self
          · exact (ih h).imp_right (List.mem_cons_of_mem _)
        · split at h
          · exact .inr (List.mem_cons_of_mem _ h)
          · rcases List.mem_cons.1 h with rfl | h
            · exact .inl rfl
            · exact .inr (List.mem_cons_of_mem _ h)

theorem sorted_alterEntries {k : κ} {f : Option ν → Option ν} {l : List (κ × ν)}
    (h : l.Pairwise fun p q => before p.1 q.1 = true) :
    (alterEntries k f l).Pairwise fun p q => before p.1 q.1 = true := by
  induction l with
  | nil =>
      unfold alterEntries
      split <;> simp
  | cons q rest ih =>
      have hq := List.pairwise_cons.1 h
      unfold alterEntries
      split
      · rename_i hk
        split
        · exact h
        · refine List.pairwise_cons.2 ⟨fun r hr => ?_, h⟩
          rcases List.mem_cons.1 hr with rfl | hr
          · exact hk
          · exact before_trans _ _ _ hk (hq.1 r hr)
      · rename_i hk
        split
        · rename_i hk'
          refine List.pairwise_cons.2 ⟨fun r hr => ?_, ih hq.2⟩
          rcases mem_alterEntries hr with hr | hr
          · rw [hr]; exact hk'
          · exact hq.1 r hr
        · rename_i hk'
          split
          · exact hq.2
          · have := before_connected _ _ (Bool.eq_false_iff.2 hk) (Bool.eq_false_iff.2 hk')
            exact List.pairwise_cons.2 ⟨this ▸ hq.1, hq.2⟩

end Entries

section Basic

variable [SortKey κ]

def empty : SortedMap κ ν := ⟨[], List.Pairwise.nil⟩

instance : EmptyCollection (SortedMap κ ν) := ⟨empty⟩

instance : Inhabited (SortedMap κ ν) := ⟨empty⟩

def get? (m : SortedMap κ ν) (k : κ) : Option ν := lookup k m.entries

/-- The value at a key, or a default. -/
def getD (m : SortedMap κ ν) (k : κ) (default : ν) : ν := (m.get? k).getD default

def contains (m : SortedMap κ ν) (k : κ) : Bool := (m.get? k).isSome

/-- Replaces the value at one key by a function of the old one. -/
def alter (m : SortedMap κ ν) (k : κ) (f : Option ν → Option ν) : SortedMap κ ν :=
  ⟨alterEntries k f m.entries, sorted_alterEntries m.sorted⟩

def insert (m : SortedMap κ ν) (k : κ) (v : ν) : SortedMap κ ν := m.alter k fun _ => some v

/-- Stores a value at a key, combined with the value already there. -/
def insertWith (combine : ν → ν → ν) (m : SortedMap κ ν) (k : κ) (v : ν) : SortedMap κ ν :=
  m.alter k fun old => some (old.elim v (combine · v))

def erase (m : SortedMap κ ν) (k : κ) : SortedMap κ ν := m.alter k fun _ => none

def keys (m : SortedMap κ ν) : List κ := m.entries.map Prod.fst

/-- The values in the order of their keys. -/
def values (m : SortedMap κ ν) : List ν := m.entries.map Prod.snd

def entriesFrom (m : SortedMap κ ν) (k : κ) : List (κ × ν) :=
  m.entries.dropWhile fun p => before p.1 k

def size (m : SortedMap κ ν) : Nat := m.entries.length

def isEmpty (m : SortedMap κ ν) : Bool := m.entries.isEmpty

/-- The map of a list of pairs; of two values for one key the later counts. -/
def ofList (l : List (κ × ν)) : SortedMap κ ν :=
  l.foldl (fun m p => m.insert p.1 p.2) empty

def all (m : SortedMap κ ν) (test : κ → ν → Bool) : Bool := m.entries.all fun p => test p.1 p.2

def any (m : SortedMap κ ν) (test : κ → ν → Bool) : Bool := m.entries.any fun p => test p.1 p.2

def filter (m : SortedMap κ ν) (keep : κ → ν → Bool) : SortedMap κ ν :=
  ⟨m.entries.filter fun p => keep p.1 p.2, m.sorted.filter _⟩

/-- Applies a function to every value, dropping the keys it gives no value. -/
def filterMap (m : SortedMap κ ν) (f : κ → ν → Option μ) : SortedMap κ μ :=
  ⟨m.entries.filterMap fun p => (f p.1 p.2).map (p.1, ·), by
    refine m.sorted.filterMap _ fun p q hpq p' hp' q' hq' => ?_
    obtain ⟨_, _, rfl⟩ := Option.map_eq_some_iff.1 hp'
    obtain ⟨_, _, rfl⟩ := Option.map_eq_some_iff.1 hq'
    exact hpq⟩

/-- Adds the entries of a second map, combining the values of shared keys. -/
def unionWith (combine : ν → ν → ν) (m n : SortedMap κ ν) : SortedMap κ ν :=
  n.entries.foldl (fun acc p => acc.insertWith combine p.1 p.2) m

end Basic

section Lemmas

variable [SortKey κ]

theorem lookup_eq_none_of_forall_before {k : κ} {l : List (κ × ν)}
    (h : ∀ p ∈ l, before k p.1 = true) : lookup k l = none := by
  cases l with
  | nil => rfl
  | cons p rest => simp [lookup, h p List.mem_cons_self]

theorem lookup_alterEntries {k k' : κ} {f : Option ν → Option ν} {l : List (κ × ν)}
    (h : l.Pairwise fun p q => before p.1 q.1 = true) [Decidable (k' = k)] :
    lookup k' (alterEntries k f l) = if k' = k then f (lookup k l) else lookup k' l := by
  induction l with
  | nil =>
      unfold alterEntries
      by_cases hk : k' = k
      · subst hk
        cases hf : f none <;> simp [lookup, hf, before_irrefl]
      · cases hf : f none <;> simp only [lookup, hk, if_false]
        split
        · rfl
        · split
          · rfl
          · rename_i h₁ h₂
            exact absurd (before_connected _ _ (Bool.eq_false_iff.2 h₁) (Bool.eq_false_iff.2 h₂)) hk
  | cons q rest ih =>
      have hq := List.pairwise_cons.1 h
      have ih := ih hq.2
      unfold alterEntries
      cases hkq : before k q.1 with
      | true =>
          by_cases hk : k' = k
          · subst hk
            cases hf : f none <;> simp [lookup, hf, hkq, before_irrefl]
          · cases hf : f none <;> simp only [if_true, hk, if_false]
            rw [lookup]
            cases h₁ : before k' k with
            | true => simp [lookup, before_trans _ _ _ h₁ hkq]
            | false =>
                cases h₂ : before k k' with
                | true => simp
                | false => exact absurd (before_connected _ _ h₁ h₂) hk
      | false =>
          cases hqk : before q.1 k with
          | true =>
              by_cases hk : k' = k
              · subst hk
                simp only [if_true, if_false, Bool.false_eq_true, lookup, hkq, hqk] at ih ⊢
                exact ih
              · simp only [if_true, if_false, Bool.false_eq_true, hk, lookup] at ih ⊢
                split
                · rfl
                · split
                  · exact ih
                  · rfl
          | false =>
              have hkq' := before_connected _ _ hkq hqk
              by_cases hk : k' = k
              · subst hk
                cases hf : f (some q.2) with
                | none =>
                    simp only [Bool.false_eq_true, if_false, if_true, lookup, hkq, hqk, hf]
                    exact lookup_eq_none_of_forall_before fun p hp => hkq' ▸ hq.1 p hp
                | some v => simp [lookup, hkq, hqk, hf, before_irrefl]
              · cases hf : f (some q.2) with
                | none =>
                    simp only [Bool.false_eq_true, if_false, hk, lookup, ← hkq']
                    cases h₁ : before k' k with
                    | true =>
                        simp only [if_true]
                        exact lookup_eq_none_of_forall_before fun p hp =>
                          before_trans _ _ _ h₁ (hkq' ▸ hq.1 p hp)
                    | false =>
                        cases h₂ : before k k' with
                        | true => simp
                        | false => exact absurd (before_connected _ _ h₁ h₂) hk
                | some v =>
                    simp only [Bool.false_eq_true, if_false, hk, lookup, ← hkq']
                    cases h₁ : before k' k with
                    | true => simp
                    | false =>
                        cases h₂ : before k k' with
                        | true => simp
                        | false => exact absurd (before_connected _ _ h₁ h₂) hk

@[simp] theorem get?_empty (k : κ) : (empty : SortedMap κ ν).get? k = none := rfl

/-- Altering one key changes the value there and nowhere else. -/
theorem get?_alter (m : SortedMap κ ν) (k k' : κ) (f : Option ν → Option ν)
    [Decidable (k' = k)] :
    (m.alter k f).get? k' = if k' = k then f (m.get? k) else m.get? k' :=
  lookup_alterEntries m.sorted

theorem get?_insert (m : SortedMap κ ν) (k k' : κ) (v : ν) [Decidable (k' = k)] :
    (m.insert k v).get? k' = if k' = k then some v else m.get? k' := get?_alter ..

theorem get?_erase (m : SortedMap κ ν) (k k' : κ) [Decidable (k' = k)] :
    (m.erase k).get? k' = if k' = k then none else m.get? k' := get?_alter ..

theorem lookup_eq_some_iff {k : κ} {v : ν} {l : List (κ × ν)}
    (h : l.Pairwise fun p q => before p.1 q.1 = true) :
    lookup k l = some v ↔ (k, v) ∈ l := by
  induction l with
  | nil => simp [lookup]
  | cons q rest ih =>
      have hq := List.pairwise_cons.1 h
      rw [lookup, List.mem_cons]
      cases hkq : before k q.1 with
      | true =>
          simp only [if_true]
          refine Iff.intro (fun h => nomatch h) fun h => ?_
          rcases h with h | h
          · rw [← h, before_irrefl] at hkq; exact nomatch hkq
          · have := before_trans _ _ _ hkq (hq.1 _ h)
            rw [before_irrefl] at this; exact nomatch this
      | false =>
          cases hqk : before q.1 k with
          | true =>
              simp only [Bool.false_eq_true, if_false, if_true]
              rw [ih hq.2]
              refine ⟨.inr, fun h => h.resolve_left fun h => ?_⟩
              rw [← h, before_irrefl] at hqk; exact nomatch hqk
          | false =>
              simp only [Bool.false_eq_true, if_false]
              have hk := before_connected _ _ hkq hqk
              constructor
              · intro h; left; rw [hk, ← Option.some.inj h]
              · rintro (h | h)
                · rw [← h]
                · have := hq.1 _ h
                  rw [hk, before_irrefl] at this; exact nomatch this

/-- A key has a value exactly when the two stand among the entries. -/
theorem get?_eq_some_iff {m : SortedMap κ ν} {k : κ} {v : ν} :
    m.get? k = some v ↔ (k, v) ∈ m.entries := lookup_eq_some_iff m.sorted

/-- Maps that answer every key alike are equal. -/
theorem ext_get? {m n : SortedMap κ ν} (h : ∀ k, m.get? k = n.get? k) : m = n := by
  obtain ⟨l, hl⟩ := m
  obtain ⟨l', hl'⟩ := n
  have : l = l' := eq_of_sorted (fun p q => before p.1 q.1 = true)
    (fun p h => by rw [before_irrefl] at h; exact nomatch h)
    (fun _ _ _ => before_trans _ _ _) hl hl' fun p => by
      have := h p.1
      have hm : (⟨l, hl⟩ : SortedMap κ ν).get? p.1 = some p.2 ↔ p ∈ l := get?_eq_some_iff
      have hn : (⟨l', hl'⟩ : SortedMap κ ν).get? p.1 = some p.2 ↔ p ∈ l' := get?_eq_some_iff
      rw [← hm, ← hn, this]
  subst this
  rfl

end Lemmas

end SortedMap

end ValueFlow
