import ValueFlow.Proofs.Domain.Reduction
import ValueFlow.Proofs.Heap.Slots
import ValueFlow.Proofs.State.Stores
/-!
The order of states, and how far below a state it is narrowed.

One environment is below another when each component of each variable is. Narrowing a variable, in
whatever domains are tracked, leads to a state below and keeps every store in which the variable
has a value that is described by what it is narrowed to. `Admits` says only of the values of
variables that they are described, and nothing about what the untracked domains know.
-/

namespace ValueFlow

namespace Value

variable {v w old old' : Value} {u : Scalar} {domains : DomainSet}

/-- What is finer than some tracked components and finer than a value as a whole is finer than the
value with these components. -/
theorem finer_writtenOver (hv : w.Finer (v.writtenOver domains old)) (hold : w.Finer old') :
    w.Finer (v.writtenOver domains old') := by
  obtain ⟨hsign, hnull, hrange⟩ := hv
  simp only [writtenOver] at hsign hnull hrange
  constructor
  · simp only [writtenOver]
    split
    · next h => rwa [if_pos h] at hsign
    · exact hold.sign
  · simp only [writtenOver]
    split
    · next h => rwa [if_pos h] at hnull
    · exact hold.nullability
  · simp only [writtenOver]
    split
    · next h => rwa [if_pos h] at hrange
    · exact hold.range

theorem writtenOver_finer (hv : v.Finer w) (hold : old.Finer w) :
    (v.writtenOver domains old).Finer w := by
  constructor
  · simp only [writtenOver]
    split
    · exact hv.sign
    · exact hold.sign
  · simp only [writtenOver]
    split
    · exact hv.nullability
    · exact hold.nullability
  · simp only [writtenOver]
    split
    · exact hv.range
    · exact hold.range

theorem describes_writtenOver (hv : v.describes u = true) (hold : old.describes u = true) :
    (v.writtenOver domains old).describes u = true := by
  cases u with
  | int n =>
      rw [describes_int_iff] at hv hold ⊢
      constructor
      · simp only [writtenOver]
        split
        · exact hv.nonNull
        · exact hold.nonNull
      · simp only [writtenOver]
        split
        · exact hv.sign
        · exact hold.sign
      · simp only [writtenOver]
        split
        · exact hv.range
        · exact hold.range
  | none =>
      rw [describes_none_iff] at hv hold ⊢
      simp only [writtenOver, hv.2.1, hv.2.2, hold.2.1, hold.2.2, ite_self, and_true]
      split
      · exact hv.1
      · exact hold.1

end Value

namespace Environment

variable {e f g : Environment} {σ : Store} {x y : String} {v : Value} {u : Scalar}
  {domains : DomainSet}

theorem get_eq (h : e.reachable = true) (x : String) : e.get x = (e.components x).reduce :=
  if_pos h

theorem isReduced_get (e : Environment) (x : String) : (e.get x).IsReduced :=
  (Value.isReduced_make _ _ _).ite Value.isReduced_bottom

theorem leq_refl (e : Environment) : e.leq e = true :=
  leq_iff.2 fun he => ⟨he, fun _ => .refl _⟩

theorem leq_trans (hef : e.leq f = true) (hfg : f.leq g = true) : e.leq g = true := by
  refine leq_iff.2 fun he => ?_
  obtain ⟨hf, hef⟩ := leq_iff.1 hef he
  obtain ⟨hg, hfg⟩ := leq_iff.1 hfg hf
  exact ⟨hg, fun x => (hef x).trans (hfg x)⟩

theorem bottom_leq (e : Environment) : bottom.leq e = true := rfl

section Binding

theorem reachable_set (h : e.reachable = true) (hv : v.isBottom = false) (x : String) :
    (e.set x v domains).reachable = true := by
  rw [set_eq h hv]
  exact h

theorem refine_of_unreachable (h : e.reachable = false) (x : String) (v : Value) :
    e.refine x v domains = e := by
  rw [refine, set, h]
  rfl

/-- A variable that is narrowed to nothing makes the state unreachable. -/
theorem refine_of_isBottom (h : e.reachable = true) (hv : ((e.get x).meet v).isBottom = true) :
    e.refine x v domains = bottom := by
  rw [refine, set, h, hv]
  rfl

theorem reachable_refine (h : e.reachable = true) (hv : ((e.get x).meet v).isBottom = false) :
    (e.refine x v domains).reachable = true := reachable_set h hv x

theorem components_refine (h : e.reachable = true) (hv : ((e.get x).meet v).isBottom = false)
    (y : String) : (e.refine x v domains).components y =
      if y = x then ((e.get x).meet v).writtenOver domains (e.components y) else e.components y :=
  components_set h hv x y

/-- Narrowing leads to a state below. -/
theorem refine_leq (e : Environment) (x : String) (v : Value) (domains : DomainSet) :
    (e.refine x v domains).leq e = true := by
  cases he : e.reachable with
  | false =>
      rw [refine_of_unreachable he]
      exact leq_refl e
  | true =>
      cases hv : ((e.get x).meet v).isBottom with
      | true =>
          rw [refine_of_isBottom he hv]
          exact bottom_leq e
      | false =>
          refine leq_iff.2 fun _ => ⟨he, fun y => ?_⟩
          rw [components_refine he hv]
          split
          · next hy =>
              rw [get_eq he, hy]
              exact Value.writtenOver_finer ((Value.meet_finer_left _ _).trans (Value.reduce_finer _))
                (.refl _)
          · exact .refl _

end Binding

/-- Whether a state describes the value of every variable that has one. -/
structure Admits (e : Environment) (σ : Store) : Prop where
  reachable : e.reachable = true
  get : ∀ {x u}, σ.scalar? x = some u → (e.get x).describes u = true

/-- Narrowing a variable by a description of its value. -/
theorem Admits.refine (h : e.Admits σ) (hx : σ.scalar? x = some u) (hv : v.describes u = true) :
    (e.refine x v domains).Admits σ := by
  have hmeet := Value.describes_meet (h.get hx) hv
  have hbottom := Value.not_isBottom_of_describes hmeet
  refine ⟨reachable_refine h.reachable hbottom, fun {y u'} hy => ?_⟩
  have hold := h.get hy
  rw [get_eq h.reachable, Value.describes_reduce_iff] at hold
  rw [get_eq (reachable_refine h.reachable hbottom), Value.describes_reduce_iff,
    components_refine h.reachable hbottom]
  split
  · next hyx =>
      rw [hyx, hx] at hy
      cases hy
      exact Value.describes_writtenOver hmeet hold
  · exact hold

end Environment

namespace Heap

theorem leq_refl (h : Heap) : h.leq h = true := by
  have hwritten : (h.mayWritten.all fun key v => (h.mayWritten.get? key).any v.leq) = true := by
    refine SortedMap.all_iff.2 fun key v hv => ?_
    rw [hv]
    exact HeapValue.leq_refl v
  have hslots : ((h.fields.keys ++ h.fields.keys).all fun key =>
      (h.slot key).leq (h.slot key)) = true :=
    List.all_eq_true.2 fun key _ => Slot.leq_refl _
  have hsubset {α : Type} [SortKey α] (s : SortedSet α) : s.subset s = true :=
    SortedSet.subset_iff.2 fun _ ha => ha
  rw [leq, hwritten, hslots, hsubset, hsubset, hsubset, hsubset, hsubset]
  cases h.reachable <;> rfl

end Heap

namespace ProgramState

variable {s t : ProgramState}

theorem isReachable_iff : s.isReachable = true ↔ s.env.reachable = true ∧ s.heap.reachable = true :=
  Bool.and_eq_true_iff

theorem bottom_leq (s : ProgramState) : bottom.leq s = true := rfl

/-- States with the same heap are compared by what they know of the variables. -/
theorem leq_of_env (henv : s.env.leq t.env = true) (hheap : s.heap = t.heap) : s.leq t = true := by
  cases hs : s.isReachable with
  | false =>
      rw [leq, hs]
      rfl
  | true =>
      obtain ⟨hreach, hheap'⟩ := isReachable_iff.1 hs
      have ht : t.isReachable = true :=
        isReachable_iff.2 ⟨(Environment.leq_iff.1 henv hreach).1, hheap ▸ hheap'⟩
      rw [leq, hs, ht, henv, hheap, Heap.leq_refl]
      rfl

theorem env_leq_of_leq (h : s.leq t = true) (hs : s.isReachable = true) :
    s.env.leq t.env = true := by
  rw [leq, hs, Bool.not_true, Bool.false_or, Bool.and_eq_true, Bool.and_eq_true] at h
  exact h.1.2

theorem leq_refl (s : ProgramState) : s.leq s = true := leq_of_env (Environment.leq_refl _) rfl

end ProgramState

end ValueFlow
