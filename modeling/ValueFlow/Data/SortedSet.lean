import ValueFlow.Data.SortKey
/-!
Finite sets as strictly sorted lists.

Sortedness is part of the type, so two sets with the same members are equal.
-/

namespace ValueFlow

open SortKey

/-- A finite set, kept as its members in ascending order. -/
structure SortedSet (α : Type) [SortKey α] where
  toList : List α
  sorted : toList.Pairwise fun a b => before a b = true := by exact List.Pairwise.nil
deriving DecidableEq

namespace SortedSet

variable {α : Type}

section Members

variable [SortKey α]

/-- Adds a member to a sorted list. -/
def insertMember (a : α) : List α → List α
  | [] => [a]
  | b :: rest =>
      if before a b then a :: b :: rest
      else if before b a then b :: insertMember a rest
      else b :: rest

theorem mem_insertMember {a c : α} {l : List α} : c ∈ insertMember a l ↔ c = a ∨ c ∈ l := by
  induction l with
  | nil => simp [insertMember]
  | cons b rest ih =>
      unfold insertMember
      split
      · simp
      · split
        · rw [List.mem_cons, ih, List.mem_cons]
          constructor
          · rintro (h | h | h) <;> simp [h]
          · rintro (h | h | h) <;> simp [h]
        · rename_i h₁ h₂
          have := before_connected _ _ (Bool.eq_false_iff.2 h₁) (Bool.eq_false_iff.2 h₂)
          simp [this]

theorem sorted_insertMember {a : α} {l : List α} (h : l.Pairwise fun a b => before a b = true) :
    (insertMember a l).Pairwise fun a b => before a b = true := by
  induction l with
  | nil => simp [insertMember]
  | cons b rest ih =>
      have hb := List.pairwise_cons.1 h
      unfold insertMember
      split
      · rename_i hab
        refine List.pairwise_cons.2 ⟨fun c hc => ?_, h⟩
        rcases List.mem_cons.1 hc with rfl | hc
        · exact hab
        · exact before_trans _ _ _ hab (hb.1 c hc)
      · split
        · rename_i hba
          refine List.pairwise_cons.2 ⟨fun c hc => ?_, ih hb.2⟩
          rcases mem_insertMember.1 hc with rfl | hc
          · exact hba
          · exact hb.1 c hc
        · exact h

end Members

section Basic

variable [SortKey α]

def empty : SortedSet α := ⟨[], List.Pairwise.nil⟩

instance : EmptyCollection (SortedSet α) := ⟨empty⟩

instance : Inhabited (SortedSet α) := ⟨empty⟩

instance : Membership α (SortedSet α) := ⟨fun s a => a ∈ s.toList⟩

def contains (s : SortedSet α) (a : α) : Bool :=
  s.toList.any fun b => !before a b && !before b a

def insert (s : SortedSet α) (a : α) : SortedSet α :=
  ⟨insertMember a s.toList, sorted_insertMember s.sorted⟩

def singleton (a : α) : SortedSet α := ⟨[a], List.pairwise_singleton _ _⟩

def ofList (l : List α) : SortedSet α := l.foldl insert empty

def size (s : SortedSet α) : Nat := s.toList.length

def isEmpty (s : SortedSet α) : Bool := s.toList.isEmpty

def filter (s : SortedSet α) (keep : α → Bool) : SortedSet α :=
  ⟨s.toList.filter keep, s.sorted.filter _⟩

def erase (s : SortedSet α) (a : α) : SortedSet α :=
  s.filter fun b => before a b || before b a

def union (s t : SortedSet α) : SortedSet α := t.toList.foldl insert s

def inter (s t : SortedSet α) : SortedSet α := s.filter t.contains

/-- Whether every member of the first set is one of the second. -/
def subset (s t : SortedSet α) : Bool := s.toList.all t.contains

/-- The member of a set that has exactly one. -/
def single? (s : SortedSet α) : Option α :=
  match s.toList with
  | [a] => some a
  | _ => none

end Basic

section Lemmas

variable [SortKey α] {s t : SortedSet α} {a b : α}

theorem mem_def : a ∈ s ↔ a ∈ s.toList := Iff.rfl

@[simp] theorem not_mem_empty : ¬ a ∈ (empty : SortedSet α) := List.not_mem_nil

@[simp] theorem mem_insert : b ∈ s.insert a ↔ b = a ∨ b ∈ s := mem_insertMember

theorem contains_iff : s.contains a = true ↔ a ∈ s := by
  rw [contains, mem_def, List.any_eq_true]
  constructor
  · rintro ⟨b, hb, h⟩
    rw [Bool.and_eq_true, Bool.not_eq_true', Bool.not_eq_true'] at h
    exact before_connected a b h.1 h.2 ▸ hb
  · exact fun h => ⟨a, h, by simp [before_irrefl]⟩

@[simp] theorem mem_filter {keep : α → Bool} : a ∈ s.filter keep ↔ a ∈ s ∧ keep a = true :=
  List.mem_filter

theorem mem_foldl_insert {l : List α} : a ∈ l.foldl insert s ↔ a ∈ s ∨ a ∈ l := by
  induction l generalizing s with
  | nil => simp
  | cons b rest ih =>
      rw [List.foldl_cons, ih, mem_insert, List.mem_cons]
      constructor
      · rintro ((h | h) | h) <;> simp [h]
      · rintro (h | h | h) <;> simp [h]

@[simp] theorem mem_ofList {l : List α} : a ∈ ofList l ↔ a ∈ l := by
  simp [ofList, mem_foldl_insert]

@[simp] theorem mem_union : a ∈ s.union t ↔ a ∈ s ∨ a ∈ t := mem_foldl_insert

@[simp] theorem mem_inter : a ∈ s.inter t ↔ a ∈ s ∧ a ∈ t := by simp [inter, contains_iff]

/-- Sets with the same members are equal. -/
theorem ext_mem (h : ∀ a, a ∈ s ↔ a ∈ t) : s = t := by
  obtain ⟨l, hl⟩ := s
  obtain ⟨l', hl'⟩ := t
  have : l = l' := eq_of_sorted (fun a b => before a b = true)
    (fun a h => by rw [before_irrefl] at h; exact nomatch h) (fun _ _ _ => before_trans _ _ _)
    hl hl' h
  subst this
  rfl

theorem subset_iff : s.subset t = true ↔ ∀ a ∈ s, a ∈ t := by
  simp [subset, mem_def, contains_iff]

end Lemmas

end SortedSet

end ValueFlow
