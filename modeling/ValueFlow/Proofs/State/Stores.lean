import ValueFlow.Proofs.Domain.Reduction
import ValueFlow.Proofs.Fixpoint.PostFixpoint
import ValueFlow.Proofs.Maps
import ValueFlow.State.ProgramState
/-!
States of the analysis over-approximate the stores of runs.

A state describes a store when it is reachable and describes the value of every variable that has
one; domains that are not tracked know nothing. Main statement: every operation that combines
states describes what the combined states describe (`ascending_below`).
-/

namespace ValueFlow

/-- What a name stands for in a run. -/
inductive Binding where
  | scalar (v : Scalar)
  | function
deriving DecidableEq, Repr

/-- The bindings of names at a point of a run. -/
abbrev Store := String → Option Binding

namespace Store

def set (σ : Store) (x : String) (b : Binding) : Store := fun y => if y = x then some b else σ y

def scalar? (σ : Store) (x : String) : Option Scalar :=
  match σ x with
  | some (.scalar v) => some v
  | _ => none

theorem scalar?_set_self (σ : Store) (x : String) (v : Scalar) :
    (σ.set x (.scalar v)).scalar? x = some v := by
  rw [scalar?, set, if_pos rfl]

theorem scalar?_set_of_ne {x y : String} (h : y ≠ x) (σ : Store) (b : Binding) :
    (σ.set x b).scalar? y = σ.scalar? y := by
  rw [scalar?, set, if_neg h, scalar?]

theorem scalar?_set_function (σ : Store) (x : String) :
    (σ.set x .function).scalar? x = none := by
  rw [scalar?, set, if_pos rfl]

end Store

namespace Value

/-- Whether the components know nothing that is not tracked. -/
structure Tracked (domains : DomainSet) (v : Value) : Prop where
  sign : domains.sign = false → v.sign = .top
  nullability : domains.nullability = false → v.nullability = .top
  range : domains.range = false → v.range = .top

variable {a b v old : Value} {domains : DomainSet}

theorem Under.tracked (h : a.Under b) (ha : a.Tracked domains) : b.Tracked domains where
  sign hd := h.sign_top (ha.sign hd)
  nullability hd := h.null_top (ha.nullability hd)
  range hd := h.range_top (ha.range hd)

/-- Forgets what is not tracked. -/
def mask (domains : DomainSet) (v : Value) : Value where
  sign := if domains.sign then v.sign else .top
  nullability := if domains.nullability then v.nullability else .top
  range := if domains.range then v.range else .top

/-- Replaces the components that are tracked. -/
def writtenOver (domains : DomainSet) (v old : Value) : Value where
  sign := if domains.sign then v.sign else old.sign
  nullability := if domains.nullability then v.nullability else old.nullability
  range := if domains.range then v.range else old.range

theorem Tracked.writtenOver_eq_mask (h : old.Tracked domains) (v : Value) :
    v.writtenOver domains old = v.mask domains := by
  rw [writtenOver, mask, Value.mk.injEq]
  refine ⟨?_, ?_, ?_⟩
  · exact ite_congr rfl (fun _ => rfl) fun hd => h.sign (Bool.eq_false_iff.2 hd)
  · exact ite_congr rfl (fun _ => rfl) fun hd => h.nullability (Bool.eq_false_iff.2 hd)
  · exact ite_congr rfl (fun _ => rfl) fun hd => h.range (Bool.eq_false_iff.2 hd)

theorem tracked_mask (domains : DomainSet) (v : Value) : (v.mask domains).Tracked domains where
  sign h := if_neg (Bool.eq_false_iff.1 h)
  nullability h := if_neg (Bool.eq_false_iff.1 h)
  range h := if_neg (Bool.eq_false_iff.1 h)

theorem under_mask (domains : DomainSet) (v : Value) : v.Under (v.mask domains) where
  sign h := by
    show Sign.Admits (if _ then _ else _) _
    split
    · exact h
    · exact Sign.admits_top _
  sign_top h := ite_eq_right_iff.2 fun _ => h
  nonNull h := by
    show Nullability.mayBeNonNull (if _ then _ else _) = true
    split
    · exact h
    · rfl
  null h := by
    show Nullability.mayBeNull (if _ then _ else _) = true
    split
    · exact h
    · rfl
  null_top h := ite_eq_right_iff.2 fun _ => h
  range h := by
    show Interval.Holds (if _ then _ else _) _
    split
    · exact h
    · exact Interval.holds_top _
  range_top h := ite_eq_right_iff.2 fun _ => h

end Value

namespace DomainMap

open AbstractDomain

variable {δ : Type} [AbstractDomain δ] [DecidableEq δ]

theorem read_write (m : DomainMap δ) (x y : String) (d : δ) :
    (m.write x d).read y = if y = x then d else m.read y := by
  rw [write]
  split
  · next htop =>
      rw [read, SortedMap.getD, SortedMap.get?_erase]
      split
      · exact (of_decide_eq_true htop).symm
      · rfl
  · rw [read, SortedMap.getD, SortedMap.get?_insert]
    split
    · rfl
    · rfl

/-- A map that is written if its domain is tracked. -/
theorem read_ite_write (m : DomainMap δ) (tracked : Bool) (x y : String) (d : δ) :
    (if tracked then m.write x d else m).read y =
      if y = x then if tracked then d else m.read y else m.read y := by
  cases tracked with
  | true => exact read_write m x y d
  | false => exact (ite_self _).symm

/-- Combining maps combines what they know, if nothing known to one is nothing known. -/
theorem read_combine {op : δ → δ → δ} (hl : ∀ b, op top b = top) (hr : ∀ a, op a top = top)
    (m n : DomainMap δ) (x : String) : (combine op m n).read x = op (m.read x) (n.read x) := by
  rw [read, read, read, SortedMap.getD, SortedMap.getD, SortedMap.getD, combine,
    SortedMap.get?_filterMap]
  cases m.get? x with
  | none => exact (hl _).symm
  | some a =>
      cases n.get? x with
      | none => exact (hr _).symm
      | some b =>
          show (if isTop (op a b) then none else some (op a b)).getD top = op a b
          split
          · next htop => exact (of_decide_eq_true htop).symm
          · rfl

section Order

omit [DecidableEq δ]

/-- One map is below another when it knows as much of each variable. -/
theorem leq_iff (htop : ∀ a : δ, AbstractDomain.leq a top = true) {m n : DomainMap δ} :
    m.leq n = true ↔ ∀ x, AbstractDomain.leq (m.read x) (n.read x) = true := by
  constructor
  · intro h x
    show AbstractDomain.leq (m.read x) ((n.get? x).getD top) = true
    cases hx : n.get? x with
    | none => exact htop _
    | some b => exact SortedMap.of_all h hx
  · intro h
    refine SortedMap.all_iff.2 fun x b hx => ?_
    have hread : n.read x = b := by rw [read, SortedMap.getD, hx, Option.getD_some]
    rw [← hread]
    exact h x

end Order

end DomainMap

namespace Environment

variable {e f : Environment} {σ : Store} {x y : String} {v : Value} {u : Scalar}
  {domains : DomainSet}

/-- What the domains know about a variable, as it is stored. -/
def components (e : Environment) (x : String) : Value :=
  ⟨DomainMap.read e.sign x, DomainMap.read e.nullability x, DomainMap.read e.range x⟩

theorem leq_iff : e.leq f = true ↔ (e.reachable = true → f.reachable = true ∧
    ∀ x, (e.components x).Finer (f.components x)) := by
  rw [leq, Bool.or_eq_true, Bool.not_eq_true', Bool.and_eq_true, Bool.and_eq_true,
    Bool.and_eq_true, DomainMap.leq_iff Sign.leq_top, DomainMap.leq_iff Nullability.leq_top,
    DomainMap.leq_iff Interval.leq_top]
  constructor
  · rintro (h | ⟨⟨⟨hf, hsign⟩, hnull⟩, hrange⟩) he
    · rw [h] at he
      cases he
    · exact ⟨hf, fun x => ⟨hsign x, hnull x, hrange x⟩⟩
  · intro h
    cases he : e.reachable with
    | false => exact .inl rfl
    | true =>
        obtain ⟨hf, hfiner⟩ := h he
        exact .inr ⟨⟨⟨hf, fun x => (hfiner x).sign⟩, fun x => (hfiner x).nullability⟩,
          fun x => (hfiner x).range⟩

/-- Whether a state describes a store. -/
structure Describes (domains : DomainSet) (e : Environment) (σ : Store) : Prop where
  reachable : e.reachable = true
  tracked : ∀ x, (e.components x).Tracked domains
  value : ∀ {x u}, σ.scalar? x = some u → (e.components x).describes u = true

theorem describes_top (domains : DomainSet) (σ : Store) : top.Describes domains σ where
  reachable := rfl
  tracked _ := ⟨fun _ => rfl, fun _ => rfl, fun _ => rfl⟩
  value _ := Value.describes_top _

theorem Describes.get (h : e.Describes domains σ) (hx : σ.scalar? x = some u) :
    (e.get x).describes u = true := by
  rw [Environment.get, if_pos h.reachable]
  exact Value.describes_reduce (h.value hx)

/-- A state with components above those of another describes what the other does. -/
theorem Describes.under (h : e.Describes domains σ) (hf : f.reachable = true)
    (hu : ∀ x, (e.components x).Under (f.components x)) : f.Describes domains σ where
  reachable := hf
  tracked x := (hu x).tracked (h.tracked x)
  value hx := (hu _).describes (h.value hx)

theorem set_eq (h : e.reachable = true) (hv : v.isBottom = false) :
    e.set x v domains =
      { e with
        sign := if domains.sign then DomainMap.write e.sign x v.sign else e.sign
        nullability :=
          if domains.nullability then DomainMap.write e.nullability x v.nullability
          else e.nullability
        range := if domains.range then DomainMap.write e.range x v.range else e.range } := by
  rw [set, h, hv]
  rfl

/-- Binding a variable replaces the tracked components, of this variable only. -/
theorem components_set (h : e.reachable = true) (hv : v.isBottom = false)
    (x y : String) :
    (e.set x v domains).components y =
      if y = x then v.writtenOver domains (e.components y) else e.components y := by
  rw [set_eq h hv, components, DomainMap.read_ite_write, DomainMap.read_ite_write,
    DomainMap.read_ite_write]
  split
  · rfl
  · rfl

theorem Describes.components_set (h : e.Describes domains σ) (hv : v.isBottom = false)
    (x y : String) :
    (e.set x v domains).components y = if y = x then v.mask domains else e.components y := by
  rw [Environment.components_set h.reachable hv, (h.tracked y).writtenOver_eq_mask]

/-- Binding a variable to a description of what it holds in another store. -/
theorem Describes.write {σ' : Store} (h : e.Describes domains σ) (hv : v.isBottom = false)
    (hx : ∀ {u}, σ'.scalar? x = some u → v.describes u = true)
    (hother : ∀ {y}, y ≠ x → σ'.scalar? y = σ.scalar? y) :
    (e.set x v domains).Describes domains σ' where
  reachable := by
    rw [set_eq h.reachable hv]
    exact h.reachable
  tracked y := by
    rw [h.components_set hv]
    split
    · exact Value.tracked_mask domains v
    · exact h.tracked y
  value := by
    intro y u hy
    rw [h.components_set hv]
    split
    · next hyx =>
        subst hyx
        exact (Value.under_mask domains v).describes (hx hy)
    · next hyx => exact h.value (hother hyx ▸ hy)

theorem Describes.set (h : e.Describes domains σ) (hv : v.describes u = true) :
    (e.set x v domains).Describes domains (σ.set x (.scalar u)) := by
  refine h.write (Value.not_isBottom_of_describes hv) (fun hu => ?_) fun hy =>
    Store.scalar?_set_of_ne hy σ _
  rw [Store.scalar?_set_self] at hu
  cases hu
  exact hv

/-- Defining a function binds a name that has no value. -/
theorem Describes.define (h : e.Describes domains σ) (hv : v.isBottom = false) :
    (e.set x v domains).Describes domains (σ.set x .function) := by
  refine h.write hv (fun hu => ?_) fun hy => Store.scalar?_set_of_ne hy σ _
  rw [Store.scalar?_set_function] at hu
  cases hu

/-- Narrowing a variable by a description of its value. -/
theorem Describes.refine (h : e.Describes domains σ) (hx : σ.scalar? x = some u)
    (hv : v.describes u = true) : (e.refine x v domains).Describes domains σ := by
  have hmeet := Value.describes_meet (h.get hx) hv
  refine h.write (Value.not_isBottom_of_describes hmeet) (fun hu => ?_) fun _ => rfl
  rw [hx] at hu
  cases hu
  exact hmeet

section Combining

theorem join_eq (he : e.reachable = true) (hf : f.reachable = true) :
    e.join f = ⟨true, DomainMap.join e.sign f.sign, DomainMap.join e.nullability f.nullability,
      DomainMap.join e.range f.range⟩ := by
  rw [join, he, hf]
  rfl

theorem widen_eq (he : e.reachable = true) (hf : f.reachable = true) (n : Nat) :
    e.widen f n = ⟨true, DomainMap.widen e.sign f.sign n,
      DomainMap.widen e.nullability f.nullability n, DomainMap.widen e.range f.range n⟩ := by
  rw [widen, he, hf]
  rfl

theorem components_join (he : e.reachable = true) (hf : f.reachable = true) (x : String) :
    (e.join f).components x =
      ⟨(e.components x).sign.join (f.components x).sign,
        (e.components x).nullability.join (f.components x).nullability,
        (e.components x).range.join (f.components x).range⟩ := by
  rw [join_eq he hf, components, Value.mk.injEq]
  exact ⟨DomainMap.read_combine Sign.top_join Sign.join_top _ _ _,
    DomainMap.read_combine Nullability.top_join Nullability.join_top _ _ _,
    DomainMap.read_combine Interval.top_join Interval.join_top _ _ _⟩

theorem components_widen (he : e.reachable = true) (hf : f.reachable = true) (n : Nat)
    (x : String) : (e.widen f n).components x =
      ⟨(e.components x).sign.join (f.components x).sign,
        (e.components x).nullability.join (f.components x).nullability,
        (e.components x).range.widen (f.components x).range⟩ := by
  rw [widen_eq he hf, components, Value.mk.injEq]
  exact ⟨DomainMap.read_combine Sign.top_join Sign.join_top _ _ _,
    DomainMap.read_combine Nullability.top_join Nullability.join_top _ _ _,
    DomainMap.read_combine Interval.top_widen Interval.widen_top _ _ _⟩

theorem Describes.join_left (h : e.Describes domains σ) (hf : f.reachable = true) :
    (e.join f).Describes domains σ := by
  refine h.under (by rw [join_eq h.reachable hf]) fun x => ?_
  rw [components_join h.reachable hf]
  exact Value.under_join_left _ _

theorem Describes.join_right (h : f.Describes domains σ) (he : e.reachable = true) :
    (e.join f).Describes domains σ := by
  refine h.under (by rw [join_eq he h.reachable]) fun x => ?_
  rw [components_join he h.reachable]
  exact Value.under_join_right _ _

theorem Describes.widen_right (h : f.Describes domains σ) (he : e.reachable = true) (n : Nat) :
    (e.widen f n).Describes domains σ := by
  refine h.under (by rw [widen_eq he h.reachable]) fun x => ?_
  rw [components_widen he h.reachable]
  exact Value.under_widen_right _ _

theorem Describes.mono (h : e.Describes domains σ) (hle : e.leq f = true) :
    f.Describes domains σ := by
  obtain ⟨hf, hfiner⟩ := leq_iff.1 hle h.reachable
  exact h.under hf fun x => (hfiner x).under

end Combining

end Environment

namespace Heap

section Reachability

variable {h k : Heap}

theorem reachable_mergeBy (op : HeapValue → HeapValue → HeapValue) (hh : h.reachable = true)
    (hk : k.reachable = true) : (h.mergeBy op k).reachable = true := by
  rw [mergeBy, hh, hk]
  rfl

theorem reachable_foldl {α : Type} {f : Heap → α → Heap}
    (hf : ∀ h a, (f h a).reachable = h.reachable) (l : List α) (h : Heap) :
    (l.foldl f h).reachable = h.reachable := by
  induction l generalizing h with
  | nil => rfl
  | cons a rest ih => exact (ih _).trans (hf h a)

theorem reachable_allocate (h : Heap) (object : Nat) :
    (h.allocate object).reachable = h.reachable := by
  rw [allocate]
  split
  · rfl
  · dsimp only
    split
    · rfl
    · rfl

theorem reachable_weakUpdate (h : Heap) (object : Nat) (field : HeapField) (value : HeapValue) :
    (h.weakUpdate object field value).reachable = h.reachable := rfl

theorem reachable_strongUpdate (h : Heap) (key : FieldKey) (value : HeapValue) :
    (h.strongUpdate key value).reachable = h.reachable := rfl

theorem reachable_invalidate (h : Heap) (object : Nat) :
    (h.invalidate object).reachable = h.reachable := rfl

theorem reachable_setField (h : Heap) (targets : SortedSet Nat) (field : HeapField)
    (value : HeapValue) : (h.setField targets field value).reachable = h.reachable := by
  rw [setField]
  split
  · rfl
  · split
    · exact reachable_foldl (fun h o => reachable_strongUpdate h (o, field) value) _ _
    · exact reachable_foldl (fun h o => reachable_weakUpdate h o field value) _ _

theorem reachable_applyAllocation (h : Heap) (a : Allocation) :
    (HeapEffects.applyAllocation h a).reachable = h.reachable := by
  rw [HeapEffects.applyAllocation]
  split
  · exact reachable_allocate h a.object
  · exact reachable_allocate h a.object

/-- Effects of calls do not make a heap unreachable. -/
theorem reachable_apply (e : HeapEffects) (h : Heap) : (e.apply h).reachable = h.reachable := by
  rw [HeapEffects.apply]
  split
  · rfl
  · dsimp only
    rw [reachable_foldl reachable_invalidate,
      reachable_foldl fun h (w : HeapWrite) => reachable_weakUpdate h w.object w.field w.value,
      reachable_foldl fun h (w : HeapWrite) => reachable_setField h _ w.field w.value,
      reachable_foldl reachable_applyAllocation]

theorem reachable_invalidateEscaping (h : Heap) (p : PointsTo) (nodes : List Nat) :
    (h.invalidateEscaping p nodes).reachable = h.reachable := reachable_apply _ h

end Reachability

end Heap

namespace ProgramState

variable {s t : ProgramState} {σ : Store} {x : String} {v : Value} {u : Scalar}
  {domains : DomainSet}

/-- Whether a state describes a store. Runs of scalars leave no trace on the heap. -/
structure Describes (domains : DomainSet) (s : ProgramState) (σ : Store) : Prop where
  env : s.env.Describes domains σ
  heap : s.heap.reachable = true

theorem Describes.isReachable (h : s.Describes domains σ) : s.isReachable = true := by
  rw [ProgramState.isReachable, h.env.reachable, h.heap]
  rfl

theorem describes_top (domains : DomainSet) (σ : Store) : top.Describes domains σ :=
  ⟨Environment.describes_top domains σ, rfl⟩

theorem Describes.normalize (h : s.Describes domains σ) : s.normalize = s :=
  if_pos h.isReachable

theorem Describes.refine (h : s.Describes domains σ) (hx : σ.scalar? x = some u)
    (hv : v.describes u = true) : (s.refine x v domains).Describes domains σ :=
  ⟨h.env.refine hx hv, h.heap⟩

def below (domains : DomainSet) (s t : ProgramState) : Prop :=
  ∀ σ, s.Describes domains σ → t.Describes domains σ

theorem Describes.join_left (h : s.Describes domains σ) (t : ProgramState) :
    (s.join t).Describes domains σ := by
  rw [ProgramState.join, h.isReachable]
  show Describes domains (if _ then _ else _) σ
  cases ht : t.isReachable with
  | false => exact h
  | true =>
      rw [ProgramState.isReachable, Bool.and_eq_true] at ht
      exact ⟨h.env.join_left ht.1, Heap.reachable_mergeBy _ h.heap ht.2⟩

theorem Describes.join_right (h : t.Describes domains σ) (s : ProgramState) :
    (s.join t).Describes domains σ := by
  rw [ProgramState.join, h.isReachable, h.normalize]
  cases hs : s.isReachable with
  | false => exact h
  | true =>
      rw [ProgramState.isReachable, Bool.and_eq_true] at hs
      exact ⟨h.env.join_right hs.1, Heap.reachable_mergeBy _ hs.2 h.heap⟩

theorem Describes.widen_right (h : t.Describes domains σ) (s : ProgramState) (n : Nat) :
    (s.widen t n).Describes domains σ := by
  rw [ProgramState.widen, h.isReachable, h.normalize]
  cases hs : s.isReachable with
  | false => exact h
  | true =>
      rw [ProgramState.isReachable, Bool.and_eq_true] at hs
      exact ⟨h.env.widen_right hs.1 n, Heap.reachable_mergeBy _ hs.2 h.heap⟩

theorem Describes.mono (h : s.Describes domains σ) (hle : s.leq t = true) :
    t.Describes domains σ := by
  rw [leq, h.isReachable, Bool.not_true, Bool.false_or, Bool.and_eq_true, Bool.and_eq_true,
    ProgramState.isReachable, Bool.and_eq_true] at hle
  exact ⟨h.env.mono hle.1.2, hle.1.1.2⟩

theorem ascending_below (domains : DomainSet) : Fixpoint.Ascending (below domains) where
  refl _ _ h := h
  trans hst htu σ h := htu σ (hst σ h)
  of_leq hle _ h := h.mono hle
  join_left _ t _ h := h.join_left t
  join_right s _ _ h := h.join_right s
  widen_right s _ n _ h := h.widen_right s n

end ProgramState

end ValueFlow
