import ValueFlow.Proofs.Heap.CallSites
import ValueFlow.Proofs.PointsTo.Growth
import Mathlib.Logic.Function.Iterate
import Mathlib.Logic.Relation
/-!
What is forgotten when values are passed to code that cannot be seen.

That code can follow any field of an object that it is given, so the objects that the values lead to
lose what was known about them, and no others do (`escaping_exact`). They are found with a stack.
The fields of an object are read off a section of the sorted entries. It has all of them, because no
field comes before the one it starts at and no other object's fields stand between them
(`mem_entriesOf`). The rounds over the stack come to an end (`iterate_meetTop`), and the objects
that were met then are those that the roots lead to through any number of fields
(`mem_reachableFrom`).
-/

namespace ValueFlow

open Relation (ReflTransGen)

section Start

variable {α : Type} {p : α → Bool} {l : List α}

/-- A test that no element passes after one that fails it is passed at the start of the list. -/
theorem takeWhile_eq_filter (h : l.Pairwise fun a b => p b = true → p a = true) :
    l.takeWhile p = l.filter p := by
  induction l with
  | nil => rfl
  | cons a rest ih =>
      obtain ⟨ha, hrest⟩ := List.pairwise_cons.1 h
      by_cases hp : p a = true
      · rw [List.takeWhile_cons_of_pos hp, List.filter_cons_of_pos hp, ih hrest]
      · have hnone : rest.filter p = [] := List.filter_eq_nil_iff.2 fun b hb hpb => hp (ha b hb hpb)
        rw [List.takeWhile_cons_of_neg hp, List.filter_cons_of_neg hp, hnone]

theorem dropWhile_eq_filter (h : l.Pairwise fun a b => p b = true → p a = true) :
    l.dropWhile p = l.filter fun a => !p a := by
  induction l with
  | nil => rfl
  | cons a rest ih =>
      obtain ⟨ha, hrest⟩ := List.pairwise_cons.1 h
      by_cases hp : p a = true
      · rw [List.dropWhile_cons_of_pos hp, List.filter_cons_of_neg (by simp [hp]), ih hrest]
      · have hall : ∀ b ∈ a :: rest, (!p b) = true := by
          intro b hb
          rcases List.mem_cons.1 hb with rfl | hb
          · rw [Bool.eq_false_iff.2 hp, Bool.not_false]
          · rw [Bool.eq_false_iff.2 (mt (ha b hb) hp), Bool.not_false]
        rw [List.dropWhile_cons_of_neg hp, List.filter_eq_self.2 hall]

end Start

theorem PointerField.before_first (f : PointerField) : SortKey.before f .first = false := by
  refine Bool.eq_false_iff.2 fun h => ?_
  rcases SortKey.pairBefore_iff.1 h with hkind | ⟨-, hname⟩
  · exact absurd (of_decide_eq_true hkind) (Nat.not_lt_zero _)
  · have hlt : f.rank.2.toList < [] := of_decide_eq_true hname
    exact absurd hlt (List.not_lt_nil _)

namespace PointsTo

variable {g : PointsTo} {o t : Nat} {roots : List Nat} {s : List Nat × SortedSet Nat}

/-- Whether some field of an object may hold another. -/
def Holds (g : PointsTo) (o t : Nat) : Prop := ∃ f, t ∈ g.ofField o f

/-- The entries of an object's fields are all entries that it owns. -/
theorem mem_entriesOf {p : (Nat × PointerField) × SortedSet Nat} :
    p ∈ g.entriesOf o ↔ p ∈ g.fields.entries ∧ p.1.1 = o := by
  have hfrom : g.fields.entriesFrom (o, .first) =
      g.fields.entries.filter fun p => !SortKey.before p.1 (o, .first) :=
    dropWhile_eq_filter (g.fields.sorted.imp fun hpq hq => SortKey.before_trans _ _ _ hpq hq)
  rw [entriesOf, hfrom, takeWhile_eq_filter]
  · simp only [List.mem_filter, Bool.not_eq_true', decide_eq_true_eq]
    refine and_congr_left fun hown => and_iff_left_of_imp fun _ => ?_
    refine Bool.eq_false_iff.2 fun hbefore => ?_
    rcases SortKey.pairBefore_iff.1 hbefore with hlt | ⟨-, hlt⟩
    · exact SortKey.ne_of_before hlt hown
    · rw [PointerField.before_first] at hlt
      cases hlt
  · -- an object before the owner of a later entry has no entry in the section
    refine List.Pairwise.imp_of_mem (fun {p q} hp _ hpq hown => ?_) (g.fields.sorted.filter _)
    have hp := (List.mem_filter.1 hp).2
    rw [decide_eq_true_eq] at hown ⊢
    rcases SortKey.pairBefore_iff.1 hpq with hlt | ⟨heq, -⟩
    · have hbefore : SortKey.before p.1 (o, PointerField.first) = true :=
        SortKey.pairBefore_iff.2 (.inl (hown ▸ hlt))
      rw [hbefore] at hp
      cases hp
    · exact heq.trans hown

theorem mem_heldBy : t ∈ g.heldBy o ↔ g.Holds o t := by
  rw [heldBy, List.mem_flatMap]
  constructor
  · rintro ⟨⟨⟨owner, f⟩, members⟩, hentry, ht⟩
    obtain ⟨hmem, rfl⟩ := mem_entriesOf.1 hentry
    exact ⟨f, PointerFacts.mem_getD.2 ⟨members, SortedMap.get?_eq_some_iff.2 hmem, ht⟩⟩
  · rintro ⟨f, hf⟩
    obtain ⟨members, hget, ht⟩ := PointerFacts.mem_getD.1 hf
    exact ⟨((o, f), members), mem_entriesOf.2 ⟨SortedMap.get?_eq_some_iff.1 hget, rfl⟩, ht⟩

/-- What holds of the stack and the met objects after every round. -/
structure Meeting (g : PointsTo) (roots : List Nat) (s : List Nat × SortedSet Nat) : Prop where
  led : ∀ o, o ∈ s.1 ∨ o ∈ s.2 → ∃ r ∈ roots, ReflTransGen g.Holds r o
  root : ∀ r ∈ roots, r ∈ s.1 ∨ r ∈ s.2
  held : ∀ o ∈ s.2, ∀ t, g.Holds o t → t ∈ s.1 ∨ t ∈ s.2

namespace Meeting

theorem start (g : PointsTo) (roots : List Nat) : g.Meeting roots (roots.reverse, ∅) where
  led o ho := by
    rcases ho with ho | ho
    · exact ⟨o, List.mem_reverse.1 ho, .refl⟩
    · exact absurd ho SortedSet.not_mem_empty
  root r hr := .inl (List.mem_reverse.2 hr)
  held o ho := absurd ho SortedSet.not_mem_empty

variable {rest stack : List Nat} {met now : SortedSet Nat}

/-- What is on the stack or met stays so when the top is met. -/
theorem kept (ho : o ∈ now) (hstack : rest ⊆ stack) (hmet : ∀ t ∈ met, t ∈ now)
    (ht : t ∈ o :: rest ∨ t ∈ met) : t ∈ stack ∨ t ∈ now := by
  rcases ht with ht | ht
  · rcases List.mem_cons.1 ht with rfl | ht
    · exact .inr ho
    · exact .inl (hstack ht)
  · exact .inr (hmet t ht)

/-- An object that was met before leaves the stack. -/
theorem skip (h : g.Meeting roots (o :: rest, met)) (hmet : o ∈ met) :
    g.Meeting roots (rest, met) where
  led t ht := h.led t (ht.imp_left (List.mem_cons_of_mem o))
  root r hr := kept hmet (List.Subset.refl _) (fun _ => id) (h.root r hr)
  held a ha t ht := kept hmet (List.Subset.refl _) (fun _ => id) (h.held a ha t ht)

/-- An object is met, and what it holds goes onto the stack unless it was met. -/
theorem meet (h : g.Meeting roots (o :: rest, met)) :
    g.Meeting roots
      (((g.heldBy o).filter fun t => !(met.insert o).contains t).reverse ++ rest,
        met.insert o) := by
  have hkeep {t : Nat} (ht : t ∈ o :: rest ∨ t ∈ met) :
      t ∈ ((g.heldBy o).filter fun t => !(met.insert o).contains t).reverse ++ rest ∨
        t ∈ met.insert o :=
    kept (SortedSet.mem_insert.2 (.inl rfl)) (List.subset_append_right _ _)
      (fun _ ht => SortedSet.mem_insert.2 (.inr ht)) ht
  refine ⟨fun t ht => ?_, fun r hr => hkeep (h.root r hr), fun a ha t hat => ?_⟩
  · rw [List.mem_append, List.mem_reverse, List.mem_filter, SortedSet.mem_insert] at ht
    rcases ht with (⟨ht, -⟩ | ht) | rfl | ht
    · obtain ⟨r, hr, hro⟩ := h.led o (.inl List.mem_cons_self)
      exact ⟨r, hr, hro.tail (mem_heldBy.1 ht)⟩
    · exact h.led t (.inl (List.mem_cons_of_mem o ht))
    · exact h.led t (.inl List.mem_cons_self)
    · exact h.led t (.inr ht)
  · rcases SortedSet.mem_insert.1 ha with rfl | ha
    · cases hnow : (met.insert a).contains t with
      | true => exact .inr (SortedSet.contains_iff.1 hnow)
      | false =>
          refine .inl (List.mem_append_left _ (List.mem_reverse.2 (List.mem_filter.2 ⟨?_, ?_⟩)))
          · exact mem_heldBy.2 hat
          · rw [hnow, Bool.not_false]
    · exact hkeep (h.held a ha t hat)

theorem meetTop (h : g.Meeting roots s) : g.Meeting roots (g.meetTop s) := by
  obtain ⟨_ | ⟨o, rest⟩, met⟩ := s
  · exact h
  · rw [PointsTo.meetTop]
    split
    · next hmet => exact h.skip (SortedSet.contains_iff.1 hmet)
    · exact h.meet

theorem iterate (h : g.Meeting roots s) (n : Nat) : g.Meeting roots (g.meetTop^[n] s) := by
  induction n with
  | zero => exact h
  | succ n ih =>
      rw [Function.iterate_succ_apply']
      exact ih.meetTop

/-- When the stack is empty, the objects that were met are those that the roots lead to. -/
theorem mem_iff (h : g.Meeting roots ([], met)) :
    o ∈ met ↔ ∃ r ∈ roots, ReflTransGen g.Holds r o := by
  refine ⟨fun ho => h.led o (.inr ho), ?_⟩
  rintro ⟨r, hr, hro⟩
  induction hro with
  | refl => exact (h.root r hr).resolve_left List.not_mem_nil
  | tail _ ht ih => exact (h.held _ ih _ ht).resolve_left List.not_mem_nil

end Meeting

/-- The stack is empty after as many rounds as are left at most. -/
theorem iterate_meetTop (g : PointsTo) (s : List Nat × SortedSet Nat) :
    ∃ n ≤ g.roundsLeft s, g.meetTop^[n] s = ([], g.closure s) := by
  induction s using closure.induct g with
  | case1 s hs =>
      rw [closure, if_pos hs]
      exact ⟨0, Nat.zero_le _, Prod.ext hs rfl⟩
  | case2 s hs ih =>
      obtain ⟨n, hn, hrun⟩ := ih
      rw [closure, if_neg hs, ← hrun]
      exact ⟨n + 1, Nat.lt_of_le_of_lt hn (g.roundsLeft_meetTop hs), Function.iterate_succ_apply ..⟩

theorem mem_reachableFrom :
    o ∈ g.reachableFrom roots ↔ ∃ r ∈ roots, ReflTransGen g.Holds r o := by
  obtain ⟨n, -, hrun⟩ := g.iterate_meetTop (roots.reverse, ∅)
  have hend := (Meeting.start g roots).iterate n
  rw [hrun] at hend
  exact hend.mem_iff

/-- There are at most as many rounds as there are roots and objects that all fields may hold. -/
theorem roundsLeft_start (g : PointsTo) (roots : List Nat) :
    g.roundsLeft (roots.reverse, ∅) =
      roots.length + (g.fields.values.map SortedSet.size).sum := by
  have hunmet (entries : List ((Nat × PointerField) × SortedSet Nat)) :
      unmetOf ∅ entries = ((entries.map Prod.snd).map SortedSet.size).sum := by
    induction entries with
    | nil => rfl
    | cons p rest ih =>
        have hnot : (∅ : SortedSet Nat).contains p.1.1 = false :=
          SortedSet.contains_eq_false_iff.2 SortedSet.not_mem_empty
        rw [unmetOf, ih, hnot]
        rfl
  rw [roundsLeft, hunmet, List.length_reverse]
  rfl

/-- Whether an object is led to by a value of some expressions. -/
def Escapes (g : PointsTo) (nodes : List Nat) (o : Nat) : Prop :=
  ∃ node ∈ nodes, ∃ r ∈ g.ofNode node, ReflTransGen g.Holds r o

theorem mem_escaping {g : PointsTo} {nodes : List Nat} {o : Nat} :
    o ∈ g.escaping nodes ↔ g.Escapes nodes o := by
  rw [escaping, mem_reachableFrom]
  constructor
  · rintro ⟨r, hr, hro⟩
    obtain ⟨node, hnode, hr⟩ := List.mem_flatMap.1 hr
    exact ⟨node, hnode, r, hr, hro⟩
  · rintro ⟨node, hnode, r, hr, hro⟩
    exact ⟨r, List.mem_flatMap.2 ⟨node, hnode, hr⟩, hro⟩

end PointsTo

namespace Heap

variable {g : PointsTo} {nodes : List Nat}

/-- Of an object that escapes only the mutation marker is known after, and it is logged as
invalidated. Nothing changes about a field of another object. -/
theorem track_invalidateEscaping (g : PointsTo) (nodes : List Nat) {h : Heap}
    (hr : h.reachable = true) (key : FieldKey) :
    (h.invalidateEscaping g nodes).track key =
      if (g.escaping nodes).contains key.1 then (h.track key).lose key.2 else h.track key := by
  have happly : h.invalidateEscaping g nodes =
      (g.escaping nodes).toList.foldl Heap.invalidate h := by
    rw [invalidateEscaping, HeapEffects.apply, hr]
    rfl
  rw [happly, HeapEffects.track_foldl_invalidate]

theorem slot_of_escapes {h : Heap} (hr : h.reachable = true) {o : Nat}
    (ho : g.Escapes nodes o) (field : HeapField) :
    (h.invalidateEscaping g nodes).slot (o, field) =
      if field = .mutationMarker then .holds marker else .unknown := by
  have htrack := track_invalidateEscaping g nodes hr (o, field)
  rw [if_pos (SortedSet.contains_iff.2 (PointsTo.mem_escaping.2 ho))] at htrack
  exact congrArg Track.slot htrack

theorem slot_of_not_escapes {h : Heap} (hr : h.reachable = true) {o : Nat}
    (ho : ¬ g.Escapes nodes o) (field : HeapField) :
    (h.invalidateEscaping g nodes).slot (o, field) = h.slot (o, field) := by
  have htrack := track_invalidateEscaping g nodes hr (o, field)
  rw [if_neg (mt SortedSet.contains_iff.1 (mt PointsTo.mem_escaping.1 ho))] at htrack
  exact congrArg Track.slot htrack

/-- The loop over a stack of objects ends, and finds exactly what the roots lead to through any
number of fields of any kind. In a reachable heap exactly the objects that the values lead to lose
all but the mutation marker. -/
theorem escaping_exact (g : PointsTo) :
    (∀ roots : List Nat,
      (∃ n ≤ roots.length + (g.fields.values.map SortedSet.size).sum,
        g.meetTop^[n] (roots.reverse, ∅) = ([], g.reachableFrom roots)) ∧
      ∀ o, o ∈ g.reachableFrom roots ↔
        ∃ r ∈ roots, ReflTransGen (fun a b => ∃ field, b ∈ g.ofField a field) r o) ∧
    ∀ (h : Heap) (nodes : List Nat), h.reachable = true → ∀ (o : Nat) (field : HeapField),
      (g.Escapes nodes o → (h.invalidateEscaping g nodes).slot (o, field) =
        if field = .mutationMarker then .holds marker else .unknown) ∧
      (¬ g.Escapes nodes o →
        (h.invalidateEscaping g nodes).slot (o, field) = h.slot (o, field)) := by
  constructor
  · intro roots
    refine ⟨?_, fun o => PointsTo.mem_reachableFrom⟩
    rw [← g.roundsLeft_start roots]
    exact g.iterate_meetTop (roots.reverse, ∅)
  · intro h nodes hr o field
    exact ⟨fun ho => slot_of_escapes hr ho field, fun ho => slot_of_not_escapes hr ho field⟩

/-- The first object and the second refer to each other, and the fourth refers to both of them. -/
def cyclicFields : PointsTo where
  objects := #[]
  locals := ∅
  nodes := .ofList [(7, .singleton 0)]
  returns := ∅
  fields := .ofList [((0, .attr "next"), .singleton 1), ((1, .attr "next"), .singleton 0),
    ((1, .elements), .singleton 2), ((3, .attr "next"), .singleton 0)]
  targets := ∅
  stats := ⟨4, 1, 0, 1⟩

/-- The lengths of the third object and of the fourth are known. -/
def knownLengths : Heap :=
  { top with fields := .ofList [((2, .length), marker), ((3, .length), marker)] }

/-- What the elements of an object on a cycle refer to escapes, and what refers to the cycle does
not. -/
theorem escaping_exact_cycle :
    (knownLengths.invalidateEscaping cyclicFields [7]).slot (2, .length) = .unknown ∧
      (knownLengths.invalidateEscaping cyclicFields [7]).slot (3, .length) = .holds marker ∧
      2 ∈ cyclicFields.reachableFrom [0] := by
  obtain ⟨hreach, hheap⟩ := escaping_exact cyclicFields
  have hnext : ReflTransGen cyclicFields.Holds 0 1 :=
    .single ⟨.attr "next", SortedSet.contains_iff.1 (by decide)⟩
  have helements : ReflTransGen cyclicFields.Holds 0 2 :=
    hnext.tail ⟨.elements, SortedSet.contains_iff.1 (by decide)⟩
  have hroot : ∀ r ∈ cyclicFields.ofNode 7, r = 0 := by decide
  have hnone : ∀ p ∈ cyclicFields.fields.entries, 3 ∉ p.2.toList := by decide
  refine ⟨?_, ?_, ((hreach [0]).2 2).2 ⟨0, List.mem_singleton_self 0, helements⟩⟩
  · refine (hheap knownLengths [7] rfl 2 .length).1 ?_
    exact ⟨7, List.mem_singleton_self 7, 0, SortedSet.contains_iff.1 (by decide), helements⟩
  · refine ((hheap knownLengths [7] rfl 3 .length).2 ?_).trans (by decide)
    rintro ⟨node, hnode, r, hr, hled⟩
    cases List.mem_singleton.1 hnode
    cases hroot r hr
    rcases hled.cases_tail with h | ⟨o, -, field, hfield⟩
    · cases h
    · obtain ⟨members, hget, hmem⟩ := PointerFacts.mem_getD.1 hfield
      exact hnone _ (SortedMap.get?_eq_some_iff.1 hget) hmem

end Heap

end ValueFlow
