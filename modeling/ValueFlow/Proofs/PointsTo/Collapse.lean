import ValueFlow.Proofs.PointsTo.Growth
/-!
What is left of facts when contexts are forgotten.
-/

namespace ValueFlow

namespace PointsTo

open PointerFacts (Filled filled_empty)

/-- Adds what is known of a variable in one context. -/
def absorb (g : PointsTo) (p : PointerVar × SortedSet Nat) : PointsTo :=
  match p.1 with
  | .named function _ name =>
      { g with locals := PointerFacts.grow g.locals (function, name) p.2 }
  | .value node _ => { g with nodes := PointerFacts.grow g.nodes node p.2 }
  | .result function _ => { g with returns := PointerFacts.grow g.returns function p.2 }

theorem collapse_eq (facts : PointerFacts) (objects : Array HeapObject) (stats : PointsToStats) :
    collapse facts objects stats =
      facts.vars.entries.foldl absorb ⟨objects, ∅, ∅, ∅, facts.fields, facts.targets, stats⟩ := rfl

variable {facts : PointerFacts} {objects : Array HeapObject} {stats : PointsToStats}
  {function node o : Nat} {name : String}

/-- What no variable changes stays as it was. -/
theorem collapse_of_absorb {Q : PointsTo → Prop}
    (hstart : Q ⟨objects, ∅, ∅, ∅, facts.fields, facts.targets, stats⟩)
    (habsorb : ∀ g p, Q g → Q (absorb g p)) : Q (collapse facts objects stats) := by
  rw [collapse_eq]
  exact List.foldlRecOn _ _ hstart fun g hg p _ => habsorb g p hg

theorem objects_collapse (facts : PointerFacts) (objects : Array HeapObject)
    (stats : PointsToStats) : (collapse facts objects stats).objects = objects := by
  refine collapse_of_absorb (Q := fun g => g.objects = objects) rfl ?_
  rintro g ⟨_ | _ | _, _⟩ hg <;> exact hg

theorem fields_collapse : (collapse facts objects stats).fields = facts.fields := by
  refine collapse_of_absorb (Q := fun g => g.fields = facts.fields) rfl ?_
  rintro g ⟨_ | _ | _, _⟩ hg <;> exact hg

theorem targets_collapse : (collapse facts objects stats).targets = facts.targets := by
  refine collapse_of_absorb (Q := fun g => g.targets = facts.targets) rfl ?_
  rintro g ⟨_ | _ | _, _⟩ hg <;> exact hg

theorem filled_collapse : Filled (collapse facts objects stats).locals ∧
    Filled (collapse facts objects stats).nodes ∧ Filled (collapse facts objects stats).returns := by
  refine collapse_of_absorb (Q := fun g => Filled g.locals ∧ Filled g.nodes ∧ Filled g.returns)
    ⟨filled_empty, filled_empty, filled_empty⟩ ?_
  rintro g ⟨_ | _ | _, members⟩ ⟨hlocals, hnodes, hreturns⟩
  · exact ⟨hlocals.grow _ members, hnodes, hreturns⟩
  · exact ⟨hlocals, hnodes.grow _ members, hreturns⟩
  · exact ⟨hlocals, hnodes, hreturns.grow _ members⟩

section View

variable (view : PointsTo → SortedSet Nat) (hits : PointerVar → Prop)
  (habsorb : ∀ g p, o ∈ view (absorb g p) ↔ o ∈ view g ∨ hits p.1 ∧ o ∈ p.2)
include habsorb

theorem mem_foldl_absorb (l : List (PointerVar × SortedSet Nat)) (g : PointsTo) :
    o ∈ view (l.foldl absorb g) ↔ o ∈ view g ∨ ∃ p ∈ l, hits p.1 ∧ o ∈ p.2 := by
  induction l generalizing g with
  | nil => simp
  | cons p rest ih =>
      rw [List.foldl_cons, ih, habsorb, or_assoc, List.exists_mem_cons_iff]

/-- A set that gathers what some variables may be holds what any of them may be. -/
theorem mem_collapse
    (hstart : o ∉ view ⟨objects, ∅, ∅, ∅, facts.fields, facts.targets, stats⟩) :
    o ∈ view (collapse facts objects stats) ↔ ∃ v, hits v ∧ o ∈ facts.objects v := by
  rw [collapse_eq, mem_foldl_absorb view hits habsorb]
  constructor
  · rintro (h | ⟨⟨v, members⟩, hmem, hhits, ho⟩)
    · exact absurd h hstart
    · exact ⟨v, hhits, PointerFacts.mem_getD.2 ⟨members, SortedMap.get?_eq_some_iff.2 hmem, ho⟩⟩
  · rintro ⟨v, hhits, ho⟩
    obtain ⟨members, hget, ho⟩ := PointerFacts.mem_getD.1 ho
    exact .inr ⟨(v, members), SortedMap.get?_eq_some_iff.1 hget, hhits, ho⟩

end View

theorem mem_ofVar_collapse : o ∈ (collapse facts objects stats).ofVar function name ↔
    ∃ context, o ∈ facts.objects (.named function context name) := by
  rw [mem_collapse (·.ofVar function name) fun v => ∃ context, v = .named function context name]
  · simp
  · rintro g ⟨v, members⟩
    cases v with
    | named i c x =>
        refine PointerFacts.mem_grow.trans (or_congr_right (and_congr_left' ?_))
        simp [Prod.ext_iff, eq_comm]
    | value | result => simp [absorb, ofVar]
  · exact SortedSet.not_mem_empty

/-- What an expression may be is what it may be in some context. -/
theorem mem_ofNode_collapse : o ∈ (collapse facts objects stats).ofNode node ↔
    ∃ context, o ∈ facts.objects (.value node context) := by
  rw [mem_collapse (·.ofNode node) fun v => ∃ context, v = .value node context]
  · simp
  · rintro g ⟨v, members⟩
    cases v with
    | value n c =>
        refine PointerFacts.mem_grow.trans (or_congr_right (and_congr_left' ?_))
        simp [eq_comm]
    | named | result => simp [absorb, ofNode]
  · exact SortedSet.not_mem_empty

theorem mem_ofReturn_collapse : o ∈ (collapse facts objects stats).ofReturn function ↔
    ∃ context, o ∈ facts.objects (.result function context) := by
  rw [mem_collapse (·.ofReturn function) fun v => ∃ context, v = .result function context]
  · simp
  · rintro g ⟨v, members⟩
    cases v with
    | result i c =>
        refine PointerFacts.mem_grow.trans (or_congr_right (and_congr_left' ?_))
        simp [eq_comm]
    | named | value => simp [absorb, ofReturn]
  · exact SortedSet.not_mem_empty

end PointsTo

end ValueFlow
