import Mathlib.Data.Finset.Card
import Mathlib.Data.Finset.Prod
import ValueFlow.PointsTo.Graph
import ValueFlow.Proofs.Maps
/-!
Passes over constraints only add facts.

Every change of facts leaves them as they are or adds to their number. So a pass that ends with the
facts it started from changed nothing on the way (`settled_of_foldl`), and a constraint that changes
nothing holds (`holds_of_apply_eq`).
-/

namespace ValueFlow

namespace PointerFacts

section Grow

variable {κ : Type} [SortKey κ] {m : SortedMap κ (SortedSet Nat)} {key k : κ}
  {members : SortedSet Nat} {o : Nat}

theorem getD_of_get? {s : SortedSet Nat} (h : m.get? k = some s) : m.getD k ∅ = s := by
  rw [SortedMap.getD, h, Option.getD_some]

theorem mem_getD : o ∈ m.getD k ∅ ↔ ∃ s, m.get? k = some s ∧ o ∈ s := by
  rw [SortedMap.getD]
  cases m.get? k with
  | none =>
      refine ⟨fun h => absurd h SortedSet.not_mem_empty, ?_⟩
      rintro ⟨_, h, _⟩
      cases h
  | some s => simp

theorem exists_mem_of_not_isEmpty (h : ¬members.isEmpty = true) : ∃ o, o ∈ members := by
  apply List.exists_mem_of_ne_nil
  rwa [SortedSet.isEmpty, List.isEmpty_iff] at h

variable [DecidableEq κ]

theorem mem_grow : o ∈ (grow m key members).getD k ∅ ↔ o ∈ m.getD k ∅ ∨ k = key ∧ o ∈ members := by
  unfold grow
  split
  · next hempty =>
      refine ⟨.inl, fun h => h.resolve_right fun h => ?_⟩
      have hmem : o ∈ members.toList := h.2
      rw [List.isEmpty_iff.1 hempty] at hmem
      cases hmem
  · rw [SortedMap.getD, SortedMap.getD, SortedMap.get?_insertWith]
    by_cases hk : k = key
    · subst hk
      cases m.get? k with
      | none =>
          refine ⟨fun h => .inr ⟨rfl, by simpa using h⟩, fun h => ?_⟩
          rcases h with h | h
          · exact absurd h SortedSet.not_mem_empty
          · simpa using h.2
      | some s => simp
    · simp [hk]

/-- Members that are there already change nothing. -/
theorem grow_eq_self (h : ∀ o ∈ members, o ∈ m.getD key ∅) : grow m key members = m := by
  unfold grow
  split
  · rfl
  · next hne =>
      obtain ⟨o, ho⟩ := exists_mem_of_not_isEmpty hne
      obtain ⟨s, hs, -⟩ := mem_getD.1 (h o ho)
      apply SortedMap.ext_get?
      intro k
      rw [SortedMap.get?_insertWith]
      by_cases hk : k = key
      · subst hk
        rw [if_pos rfl, hs, Option.elim_some]
        refine congrArg some (SortedSet.ext_mem fun a => ?_)
        rw [SortedSet.mem_union]
        refine ⟨fun ha => ha.elim id fun ha => ?_, .inl⟩
        simpa [getD_of_get? hs] using h a ha
      · rw [if_neg hk]

/-- Whether no key has an empty set. -/
def Filled (m : SortedMap κ (SortedSet Nat)) : Prop := ∀ k s, m.get? k = some s → ∃ o, o ∈ s

omit [DecidableEq κ] in
theorem filled_empty : Filled (∅ : SortedMap κ (SortedSet Nat)) := fun _ _ hs => nomatch hs

theorem Filled.grow (h : Filled m) (key : κ) (members : SortedSet Nat) :
    Filled (PointerFacts.grow m key members) := by
  intro k s hs
  by_cases hnew : ∃ o ∈ members, k = key
  · obtain ⟨o, ho, hk⟩ := hnew
    refine ⟨o, ?_⟩
    rw [← getD_of_get? hs]
    exact mem_grow.2 (.inr ⟨hk, ho⟩)
  · apply h k s
    unfold PointerFacts.grow at hs
    split at hs
    · exact hs
    · next hne =>
        obtain ⟨o, ho⟩ := exists_mem_of_not_isEmpty hne
        rwa [SortedMap.get?_insertWith, if_neg fun hk => hnew ⟨o, ho, hk⟩] at hs

/-- The keys of a map of sets, each with the members of its set. -/
def pairs (m : SortedMap κ (SortedSet Nat)) : Finset (κ × Nat) :=
  (m.entries.flatMap fun p => p.2.toList.map (p.1, ·)).toFinset

theorem mem_pairs : (k, o) ∈ pairs m ↔ o ∈ m.getD k ∅ := by
  simp only [pairs, List.mem_toFinset, List.mem_flatMap, List.mem_map, Prod.mk.injEq, mem_getD]
  constructor
  · rintro ⟨⟨k', s⟩, hmem, a, ha, rfl, rfl⟩
    exact ⟨s, SortedMap.get?_eq_some_iff.2 hmem, ha⟩
  · rintro ⟨s, hs, ho⟩
    exact ⟨(k, s), SortedMap.get?_eq_some_iff.1 hs, o, ho, rfl, rfl⟩

/-- Growing changes nothing or adds a pair. -/
theorem grow_eq_or_card_lt (m : SortedMap κ (SortedSet Nat)) (key : κ) (members : SortedSet Nat) :
    grow m key members = m ∨ (pairs m).card < (pairs (grow m key members)).card := by
  by_cases h : ∀ o ∈ members, o ∈ m.getD key ∅
  · exact .inl (grow_eq_self h)
  · push Not at h
    obtain ⟨o, ho, hnew⟩ := h
    refine .inr (Finset.card_lt_card ⟨?_, fun hsub => hnew ?_⟩)
    · rintro ⟨k, a⟩ ha
      exact mem_pairs.2 (mem_grow.2 (.inl (mem_pairs.1 ha)))
    · exact mem_pairs.1 (hsub (mem_pairs.2 (mem_grow.2 (.inr ⟨rfl, ho⟩))))

end Grow

def count (f : PointerFacts) : Nat :=
  (pairs f.vars).card + (pairs f.fields).card + (pairs f.targets).card

/-- Whether facts stayed as they were or became more. -/
def Grows (f g : PointerFacts) : Prop := g = f ∨ f.count < g.count

variable {f g h : PointerFacts}

theorem Grows.refl (f : PointerFacts) : Grows f f := .inl rfl

theorem Grows.count_le (hfg : Grows f g) : f.count ≤ g.count := by
  rcases hfg with rfl | hlt
  · exact Nat.le_refl _
  · exact Nat.le_of_lt hlt

theorem Grows.trans (hfg : Grows f g) (hgh : Grows g h) : Grows f h := by
  rcases hfg with rfl | hlt
  · exact hgh
  · exact .inr (Nat.lt_of_lt_of_le hlt hgh.count_le)

/-- Facts that grew back to where they were did not change. -/
theorem Grows.eq_of_back (hfg : Grows f g) (hgf : Grows g f) : g = f := by
  rcases hfg with rfl | hlt
  · rfl
  · exact absurd hgf.count_le (Nat.not_le_of_lt hlt)

theorem grows_addVar (f : PointerFacts) (var : PointerVar) (objects : SortedSet Nat) :
    Grows f (f.addVar var objects) := by
  rcases grow_eq_or_card_lt f.vars var objects with heq | hlt
  · left
    rw [addVar, heq]
  · right
    simp only [count, addVar]
    omega

theorem grows_addField (f : PointerFacts) (object : Nat) (field : PointerField)
    (objects : SortedSet Nat) : Grows f (f.addField object field objects) := by
  rcases grow_eq_or_card_lt f.fields (object, field) objects with heq | hlt
  · left
    rw [addField, heq]
  · right
    simp only [count, addField]
    omega

theorem grows_addTarget (f : PointerFacts) (site function : Nat) :
    Grows f (f.addTarget site function) := by
  rcases grow_eq_or_card_lt f.targets site (.singleton function) with heq | hlt
  · left
    rw [addTarget, heq]
  · right
    simp only [count, addTarget]
    omega

section Folds

variable {σ β : Type} (view : σ → PointerFacts) {step : σ → β → σ}
  (hstep : ∀ s b, Grows (view s) (view (step s b)))
include hstep

theorem Grows.foldl (l : List β) (s : σ) : Grows (view s) (view (l.foldl step s)) := by
  induction l generalizing s with
  | nil => exact .refl _
  | cons b rest ih => exact (hstep s b).trans (ih _)

/-- If the facts in the end are those of the beginning, then no step changed them. -/
theorem settled_of_foldl {l : List β} {s : σ} (h : view (l.foldl step s) = view s) :
    ∀ b ∈ l, ∃ t, view t = view s ∧ view (step t b) = view s := by
  induction l generalizing s with
  | nil => exact fun _ hb => nomatch hb
  | cons b rest ih =>
      have hfirst : view (step s b) = view s := by
        apply (hstep s b).eq_of_back
        rw [← h]
        exact Grows.foldl view hstep rest _
      intro c hc
      rcases List.mem_cons.1 hc with rfl | hc
      · exact ⟨s, rfl, hfirst⟩
      · have hrest := ih (h.trans hfirst.symm) c hc
        rwa [hfirst] at hrest

end Folds

theorem grows_load (f : PointerFacts) (base : PointerVar) (field : PointerField)
    (dest : PointerVar) : Grows f (f.load base field dest) :=
  Grows.foldl id (fun g _ => grows_addVar g _ _) _ f

theorem grows_store (f : PointerFacts) (base : PointerVar) (field : PointerField)
    (source : PointerVar) : Grows f (f.store base field source) :=
  Grows.foldl id (fun g _ => grows_addField g _ _ _) _ f

section Settled

variable {var source dest base : PointerVar} {field : PointerField} {o a : Nat}

theorem mem_of_addVar_eq {objects : SortedSet Nat} (h : f.addVar var objects = f)
    (ho : o ∈ objects) : o ∈ f.objects var := by
  have hmem : o ∈ (f.addVar var objects).objects var := mem_grow.2 (.inr ⟨rfl, ho⟩)
  rwa [h] at hmem

theorem mem_of_addField_eq {object : Nat} {objects : SortedSet Nat}
    (h : f.addField object field objects = f) (ho : o ∈ objects) : o ∈ f.held object field := by
  have hmem : o ∈ (f.addField object field objects).held object field :=
    mem_grow.2 (.inr ⟨rfl, ho⟩)
  rwa [h] at hmem

theorem mem_of_load_eq (h : f.load base field dest = f) (ha : a ∈ f.objects base)
    (ho : o ∈ f.held a field) : o ∈ f.objects dest := by
  obtain ⟨g, hg, heq⟩ := settled_of_foldl id
    (fun g (a : Nat) => grows_addVar g dest (g.held a field)) h a ha
  cases hg
  exact mem_of_addVar_eq heq ho

theorem mem_of_store_eq (h : f.store base field source = f) (ha : a ∈ f.objects base)
    (ho : o ∈ f.objects source) : o ∈ f.held a field := by
  obtain ⟨g, hg, heq⟩ := settled_of_foldl id
    (fun g (a : Nat) => grows_addField g a field (f.objects source)) h a ha
  cases hg
  exact mem_of_addField_eq heq ho

end Settled

end PointerFacts

namespace PointerPass

open PointerFacts (Grows)

variable (scene : PointerScene)

theorem grows_enter (call : PointerCall) (receiver : Option Nat) (skip : Nat) (p : PointerPass)
    (function : Nat) : Grows p.facts (enter scene call receiver skip p function).facts := by
  unfold enter
  dsimp only
  refine Grows.trans ?_ (PointerFacts.grows_addVar _ _ _)
  refine Grows.trans ?_ (Grows.foldl id (fun f _ => PointerFacts.grows_addVar f _ _) _ _)
  split
  · exact PointerFacts.grows_addVar _ _ _
  · exact .refl _

theorem grows_dispatch (call : PointerCall) (method : String) (p : PointerPass) (object : Nat) :
    Grows p.facts (dispatch scene call method p object).facts := by
  unfold dispatch
  split
  · exact (PointerFacts.grows_addTarget _ _ _).trans (grows_enter scene _ _ _ _ _)
  · exact .refl _

theorem grows_call (p : PointerPass) (c : PointerCall) : Grows p.facts (call scene p c).facts := by
  unfold call
  split
  · exact Grows.foldl facts (fun p _ => grows_enter scene _ _ _ p _) _ p
  · exact (PointerFacts.grows_addVar _ _ _).trans
      (Grows.foldl facts (fun p _ => grows_enter scene _ _ _ p _) _ _)
  · exact Grows.foldl facts (fun p _ => grows_dispatch scene _ _ p _) _ p

theorem grows_apply (p : PointerPass) (c : Constraint) : Grows p.facts (apply scene p c).facts := by
  cases c with
  | alloc | copy => exact PointerFacts.grows_addVar _ _ _
  | load => exact PointerFacts.grows_load _ _ _ _
  | store => exact PointerFacts.grows_store _ _ _ _
  | call c => exact grows_call scene p c

end PointerPass

namespace Constraint

/-- What a constraint asks of facts, apart from what the functions do that it enters. -/
def Holds (f : PointerFacts) : Constraint → Prop
  | alloc object dest => object ∈ f.objects dest
  | copy source dest => ∀ o ∈ f.objects source, o ∈ f.objects dest
  | load base field dest => ∀ a ∈ f.objects base, ∀ o ∈ f.held a field, o ∈ f.objects dest
  | store base field source => ∀ a ∈ f.objects base, ∀ o ∈ f.objects source, o ∈ f.held a field
  | call c => ∀ object constructor, c.target = .construct object constructor →
      object ∈ f.objects c.result

end Constraint

namespace PointerPass

open PointerFacts (Grows)

variable {scene : PointerScene}

theorem holds_of_apply_eq {p : PointerPass} {c : Constraint}
    (h : (apply scene p c).facts = p.facts) : c.Holds p.facts := by
  cases c with
  | alloc object dest => exact PointerFacts.mem_of_addVar_eq h (SortedSet.mem_singleton.2 rfl)
  | copy source dest => exact fun o ho => PointerFacts.mem_of_addVar_eq h ho
  | load base field dest => exact fun a ha o ho => PointerFacts.mem_of_load_eq h ha ho
  | store base field source => exact fun a ha o ho => PointerFacts.mem_of_store_eq h ha ho
  | call c =>
      intro object constructor htarget
      rw [apply, PointerPass.call, htarget] at h
      dsimp only at h
      -- the object comes before what the constructor does, and that only adds to it
      have hback := Grows.foldl facts (fun q f => grows_enter scene c (some object) 1 q f)
        constructor.toList (p.update (·.addVar c.result (.singleton object)))
      rw [h] at hback
      have heq := (PointerFacts.grows_addVar _ _ _).eq_of_back hback
      exact PointerFacts.mem_of_addVar_eq heq (SortedSet.mem_singleton.2 rfl)

end PointerPass

end ValueFlow
