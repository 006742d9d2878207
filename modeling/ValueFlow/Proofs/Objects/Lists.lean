import Mathlib.Data.List.Infix
import Mathlib.Data.List.InsertIdx
import ValueFlow.Proofs.Objects.ClosedRuns
/-!
Methods that change a list in place.

A heap describes a list of a run through two slots of one object: the length is one of those the
slot for lengths allows, and the slot for elements covers each element. A method that succeeds gives
a list that is described again, except that `extend` says nothing about the elements it copies: they
are described only where they were covered before.
-/

namespace ValueFlow

/-- An argument of a call. -/
inductive ListArg where
  | scalar (u : Scalar)
  | list (us : List Scalar)

/-- A call of a method that changes a list in place. -/
inductive ListCall where
  | append (u : Scalar)
  | insert (place : Int64) (u : Scalar)
  | extend (more : List Scalar)
  | pop
  | remove (u : Scalar)
  | clear
  | sort
  | reverse

namespace ListCall

variable {call : ListCall} {us us' : List Scalar} {u : Scalar}

def name : ListCall → String
  | append _ => "append"
  | insert _ _ => "insert"
  | extend _ => "extend"
  | pop => "pop"
  | remove _ => "remove"
  | clear => "clear"
  | sort => "sort"
  | reverse => "reverse"

def method : ListCall → ContainerMethod
  | append _ => .append
  | insert _ _ => .insert
  | extend _ => .extend
  | pop => .pop
  | remove _ => .remove
  | clear => .clear
  | sort => .sort
  | reverse => .reverse

theorem ofName?_name (call : ListCall) : ContainerMethod.ofName? call.name = some call.method := by
  cases call <;> rfl

def args : ListCall → List ListArg
  | append u => [.scalar u]
  | insert place u => [.scalar (.int place), .scalar u]
  | extend more => [.list more]
  | remove u => [.scalar u]
  | pop | clear | sort | reverse => []

/-- Where an element is inserted: places below zero count from the end, and a place beyond an end
is that end. -/
def position (place : Int) (size : Nat) : Nat :=
  min size (if place < 0 then place + size else place).toNat

def inOrder : Scalar → Scalar → Bool
  | .int m, .int n => decide (m ≤ n)
  | _, _ => true

/-- The list after a call, unless the call raises an error. Nothing is popped from an empty list,
what is removed has to be there, and `None` cannot be compared with anything. -/
def run? : ListCall → List Scalar → Option (List Scalar)
  | append u, us => some (us ++ [u])
  | insert place u, us => some (us.insertIdx (position place.toInt us.length) u)
  | extend more, us => some (us ++ more)
  | pop, us => if us = [] then none else some us.dropLast
  | remove u, us => if u ∈ us then some (us.erase u) else none
  | clear, _ => some []
  | sort, us => if us.length < 2 ∨ Scalar.none ∉ us then some (us.mergeSort inOrder) else none
  | reverse, us => some us.reverse

def added : ListCall → List Scalar
  | append u | insert _ u => [u]
  | extend more => more
  | pop | remove _ | clear | sort | reverse => []

theorem mem_of_run? (hrun : call.run? us = some us') (hu : u ∈ us') : u ∈ us ∨ u ∈ call.added := by
  cases call with
  | append v =>
      cases hrun
      exact List.mem_append.1 hu
  | insert place v =>
      cases hrun
      rcases List.eq_or_mem_of_mem_insertIdx hu with rfl | hu
      · exact .inr List.mem_cons_self
      · exact .inl hu
  | extend more =>
      cases hrun
      exact List.mem_append.1 hu
  | pop =>
      obtain ⟨-, hrun⟩ := Option.ite_none_left_eq_some.1 hrun
      cases hrun
      exact .inl (List.mem_of_mem_dropLast hu)
  | remove v =>
      obtain ⟨-, hrun⟩ := Option.ite_none_right_eq_some.1 hrun
      cases hrun
      exact .inl (List.mem_of_mem_erase hu)
  | clear =>
      cases hrun
      cases hu
  | sort =>
      obtain ⟨-, hrun⟩ := Option.ite_none_right_eq_some.1 hrun
      cases hrun
      exact .inl (List.mem_mergeSort.1 hu)
  | reverse =>
      cases hrun
      exact .inl (List.mem_reverse.1 hu)

end ListCall

namespace Value

variable {a b v : Value} {m n : Int}

def DescribesArg (a : Value) : ListArg → Prop
  | .scalar u => a.describes u = true
  | .list _ => notNull.leq a = true

theorem Fits.meet (ha : a.Fits n) (hb : b.Fits n) : (a.meet b).Fits n :=
  Fits.reduce ⟨Nullability.mayBeNonNull_meet ha.nonNull hb.nonNull, ha.sign.meet hb.sign,
    ha.range.meet hb.range⟩

theorem fits_nonNegative (h : 0 ≤ n) : nonNegative.Fits n := by
  have hholds : (Interval.atLeast 0).Holds n := Interval.holds_atLeast h
  rw [nonNegative, intIn]
  exact fits_make rfl hholds.sign hholds

theorem fits_constant (k : Int64) : (constant k).Fits k.toInt :=
  describes_int_iff.1 (describes_constant k)

theorem Fits.add (ha : a.Fits m) (hb : b.Fits n) : (binary .add a b).Fits (m + n) :=
  fits_result (show BinOp.add.result? m n = some (m + n) from rfl) ha hb

theorem Fits.sub (ha : a.Fits m) (hb : b.Fits n) : (binary .sub a b).Fits (m - n) :=
  fits_result (show BinOp.sub.result? m n = some (m - n) from rfl) ha hb

/-- Keeping a length to the numbers a length can be loses no length. -/
theorem Fits.asLength (hv : v.Fits n) (hn : 0 ≤ n) : (ContainerMethod.asLength v).Fits n := by
  unfold ContainerMethod.asLength
  dsimp only
  split
  · exact hv.meet (fits_nonNegative hn)
  · exact fits_nonNegative hn

end Value

namespace ListCall

variable {call : ListCall} {us us' : List Scalar} {old : Value} {args : List Value}

/-- The length a method computes is that of the list it leaves. -/
theorem fits_newLength (hrun : call.run? us = some us') (hold : old.Fits us.length) :
    (call.method.newLength old).elim (us'.length = us.length) (·.Fits us'.length) := by
  have hone : (Value.constant 1).Fits 1 := Value.fits_constant 1
  cases call with
  | append u =>
      cases hrun
      show Value.Fits _ _
      rw [List.length_append, Int.natCast_add]
      exact hold.add hone
  | insert place u =>
      cases hrun
      show Value.Fits _ _
      have hplace : position place.toInt us.length ≤ us.length := Nat.min_le_left _ _
      rw [List.length_insertIdx_of_le_length hplace, Int.natCast_add]
      exact hold.add hone
  | extend more =>
      cases hrun
      show Value.Fits _ _
      rw [List.length_append, Int.natCast_add]
      exact hold.add (Value.fits_nonNegative (Int.natCast_nonneg _))
  | pop =>
      obtain ⟨hne, hrun⟩ := Option.ite_none_left_eq_some.1 hrun
      cases hrun
      show Value.Fits _ _
      rw [List.length_dropLast, Int.natCast_sub (List.length_pos_of_ne_nil hne)]
      exact hold.sub hone
  | remove u =>
      obtain ⟨hmem, hrun⟩ := Option.ite_none_right_eq_some.1 hrun
      cases hrun
      show Value.Fits _ _
      rw [List.length_erase_of_mem hmem, Int.natCast_sub (List.length_pos_of_mem hmem)]
      exact hold.sub hone
  | clear =>
      cases hrun
      exact Value.fits_constant 0
  | sort =>
      obtain ⟨-, hrun⟩ := Option.ite_none_right_eq_some.1 hrun
      cases hrun
      exact List.length_mergeSort us
  | reverse =>
      cases hrun
      exact List.length_reverse

/-- What a method stores describes the elements that the call adds, if these are not copied from
another list. -/
theorem describes_stored (hargs : List.Forall₂ Value.DescribesArg args call.args)
    (hextend : ∀ more, call ≠ .extend more) {u : Scalar} (hu : u ∈ call.added) :
    ∃ v, call.method.stored? args = some v ∧ v.describes u = true := by
  cases call with
  | append w =>
      obtain rfl := List.mem_singleton.1 hu
      cases hargs with
      | cons hv _ => exact ⟨_, rfl, hv⟩
  | insert place w =>
      obtain rfl := List.mem_singleton.1 hu
      cases hargs with
      | cons _ hargs =>
          cases hargs with
          | cons hv _ => exact ⟨_, rfl, hv⟩
  | extend more => exact absurd rfl (hextend more)
  | pop | remove | clear | sort | reverse => cases hu

end ListCall

namespace Slot

def Counts : Slot → Int → Prop
  | unset, _ => False
  | unknown, _ => True
  | holds v, n => v.abstraction.Fits n

end Slot

namespace Heap

variable {h : Heap} {p : PointsTo} {o receiver : Nat} {us us' : List Scalar}

/-- Whether a heap describes a list that one object stands for. -/
structure HoldsList (h : Heap) (o : Nat) (us : List Scalar) : Prop where
  reachable : h.reachable = true
  length : (h.slot (o, .length)).Counts us.length
  elements : ∀ u ∈ us, (h.slot (o, .elements)).Covers (.scalar u)

section Mutating

variable {targets : SortedSet Nat}

theorem slot_setField_single (hr : h.reachable = true) (ho : targets.single? = some o)
    (hsummary : h.summary.contains o = false) (field : HeapField) (v : HeapValue) (key : FieldKey) :
    (h.setField targets field v).slot key = if key = (o, field) then .holds v else h.slot key := by
  have hmem : key.1 ∈ targets.toList ↔ key.1 = o := by
    rw [SortedSet.single?_eq_some_iff.1 ho, List.mem_singleton]
  rw [slot_setField h hr, ho]
  by_cases hkey : key = (o, field)
  · rw [if_pos hkey, hkey, if_pos ⟨rfl, hkey ▸ hmem.2 (congrArg Prod.fst hkey)⟩, hsummary]
    rfl
  · rw [if_neg hkey, if_neg fun h => hkey (Prod.ext (hmem.1 h.2) h.1)]

theorem getFieldOf_single (h : Heap) (ho : targets.single? = some o) (field : HeapField) :
    h.getFieldOf targets field = h.getField o field := by
  rw [getFieldOf, SortedSet.isEmpty, SortedSet.single?_eq_some_iff.1 ho]
  rfl

theorem fits_getField {n : Int} {field : HeapField} (hn : (h.slot (o, field)).Counts n) :
    (h.getField o field).Fits n := by
  rw [slot_eq] at hn
  rw [getField]
  cases hv : h.fields.get? (o, field) with
  | none => exact Value.fits_top n
  | some v =>
      rw [hv] at hn
      exact hn

theorem getField_eq (h : Heap) (o : Nat) (field : HeapField) :
    h.getField o field = ((h.slot (o, field)).value?.map HeapValue.abstraction).getD .top := by
  rw [value?_slot]
  rfl

variable (hr : h.reachable = true) (ho : (p.ofNode receiver).single? = some o)
  (hsummary : h.summary.contains o = false) (m : ContainerMethod) (args : List Value)
include hr ho

/-- The heap after a known method was called on one object. Marking the object changes nothing that
is read afterwards. -/
theorem mutate_eq : h.mutate p receiver (some m) args =
      let marked := h.setField (p.ofNode receiver) .mutationMarker marker
      let sized := (m.newLength (h.getField o .length)).elim marked fun n =>
        marked.setField (p.ofNode receiver) .length (.primitive (ContainerMethod.asLength n))
      (m.stored? args).elim sized fun v => sized.weakUpdate o .elements (.primitive v) := by
  have hlist := SortedSet.single?_eq_some_iff.1 ho
  have hlength : (h.setField (p.ofNode receiver) .mutationMarker marker).getField o .length =
      h.getField o .length := by
    rw [getField_eq, slot_setField h hr, if_neg (by simp), ← getField_eq]
  unfold mutate
  dsimp only
  rw [SortedSet.isEmpty, hlist, hr, getFieldOf_single _ ho, hlength]
  cases m.newLength _ <;> cases m.stored? args <;> simp [weakUpdateAll, hlist]

theorem reachable_mutate : (h.mutate p receiver (some m) args).reachable = true := by
  rw [mutate_eq hr ho]
  cases m.newLength _ <;> cases m.stored? args <;>
    simp [reachable_weakUpdate, reachable_setField, hr]

theorem summary_mutate (l : Nat) :
    (h.mutate p receiver (some m) args).summary.contains l = h.summary.contains l := by
  rw [mutate_eq hr ho]
  cases m.newLength _ <;> cases m.stored? args <;>
    simp [weakUpdate, recordWrite, summary_setField]

include hsummary

/-- A method sets the mutation marker, replaces the length and adds what it stores to the elements;
all other slots stay. -/
theorem slot_mutate (key : FieldKey) : (h.mutate p receiver (some m) args).slot key =
    if key = (o, .mutationMarker) then .holds marker
    else if key = (o, .length) then
      (m.newLength (h.getField o .length)).elim (h.slot key) fun n =>
        .holds (.primitive (ContainerMethod.asLength n))
    else if key = (o, .elements) then
      (m.stored? args).elim (h.slot key) fun v => (h.slot key).join (.holds (.primitive v))
    else h.slot key := by
  have hmark := slot_setField_single hr ho hsummary .mutationMarker marker
  have hmarked : (h.setField (p.ofNode receiver) .mutationMarker marker).reachable = true := by
    rw [reachable_setField, hr]
  have hsingle :
      (h.setField (p.ofNode receiver) .mutationMarker marker).summary.contains o = false := by
    rw [summary_setField, hsummary]
  have hsize := slot_setField_single hmarked ho hsingle .length
  rw [mutate_eq hr ho]
  by_cases hmarker : key = (o, .mutationMarker)
  · subst hmarker
    cases m.newLength _ <;> cases m.stored? args <;> simp [slot_weakUpdate, hsize, hmark]
  · by_cases hlength : key = (o, .length)
    · subst hlength
      cases m.newLength _ <;> cases m.stored? args <;> simp [slot_weakUpdate, hsize, hmark]
    · cases m.newLength _ <;> cases m.stored? args <;>
        simp [slot_weakUpdate, hsize, hmark, hmarker, hlength]

end Mutating

section Calls

variable {call : ListCall} {args : List Value}

theorem leq_slot_elements_mutate (hr : h.reachable = true)
    (ho : (p.ofNode receiver).single? = some o) (hsummary : h.summary.contains o = false)
    (m : ContainerMethod) (args : List Value) :
    (h.slot (o, .elements)).leq ((h.mutate p receiver (some m) args).slot (o, .elements)) =
      true := by
  rw [slot_mutate hr ho hsummary, if_neg (by simp), if_neg (by simp), if_pos rfl]
  cases m.stored? args with
  | none => exact Slot.leq_refl _
  | some v => exact Slot.leq_join_left _ _

/-- A call that succeeds leaves a list that is described, if what it copies from another list is
covered before. -/
theorem HoldsList.mutate (hlist : h.HoldsList o us) (ho : (p.ofNode receiver).single? = some o)
    (hsummary : h.summary.contains o = false) (hrun : call.run? us = some us')
    (hargs : List.Forall₂ Value.DescribesArg args call.args)
    (hextend : ∀ more, call = .extend more →
      ∀ u ∈ more, (h.slot (o, .elements)).Covers (.scalar u)) :
    (h.mutate p receiver (ContainerMethod.ofName? call.name) args).HoldsList o us' := by
  rw [ListCall.ofName?_name]
  constructor
  · exact reachable_mutate hlist.reachable ho _ _
  · rw [slot_mutate hlist.reachable ho hsummary, if_neg (by simp), if_pos rfl]
    have hfits := ListCall.fits_newLength hrun (fits_getField hlist.length)
    cases hlength : call.method.newLength (h.getField o .length) with
    | none =>
        rw [hlength] at hfits
        have hsame : us'.length = us.length := hfits
        rw [hsame]
        exact hlist.length
    | some n =>
        rw [hlength] at hfits
        exact Value.Fits.asLength hfits (Int.natCast_nonneg _)
  · intro u hu
    have hgrow := leq_slot_elements_mutate hlist.reachable ho hsummary call.method args
    rcases ListCall.mem_of_run? hrun hu with hold | hadded
    · exact (hlist.elements u hold).mono hgrow
    · by_cases hcopy : ∃ more, call = .extend more
      · obtain ⟨more, rfl⟩ := hcopy
        exact (hextend more rfl u hadded).mono hgrow
      · obtain ⟨v, hstored, hv⟩ :=
          ListCall.describes_stored hargs (fun more h => hcopy ⟨more, h⟩) hadded
        have hcover : (Slot.holds (.primitive v)).Covers (.scalar u) := hv
        rw [slot_mutate hlist.reachable ho hsummary, if_neg (by simp), if_neg (by simp), if_pos rfl,
          hstored]
        exact hcover.mono (Slot.leq_join_right _ _)

end Calls

end Heap

/-- A call in a run, and how the analysis sees it. -/
structure ListStep where
  receiver : Nat
  call : ListCall
  args : List Value

namespace ListStep

def run? (us : List Scalar) (step : ListStep) : Option (List Scalar) := step.call.run? us

def mutate (p : PointsTo) (h : Heap) (step : ListStep) : Heap :=
  h.mutate p step.receiver (ContainerMethod.ofName? step.call.name) step.args

/-- Whether a call is made on nothing but one object, with described arguments, and copies only
elements that a slot covers. -/
structure Known (p : PointsTo) (o : Nat) (elements : Slot) (step : ListStep) : Prop where
  single : (p.ofNode step.receiver).single? = some o
  args : List.Forall₂ Value.DescribesArg step.args step.call.args
  copied : ∀ more, step.call = .extend more → ∀ u ∈ more, elements.Covers (.scalar u)

end ListStep

namespace Heap

variable {h : Heap} {p : PointsTo} {o : Nat} {us us' : List Scalar} {steps : List ListStep}

/-- Calls that succeed one after another leave a list that is described. -/
theorem holdsList_mutations (hlist : h.HoldsList o us) (hsummary : h.summary.contains o = false)
    (hsteps : ∀ step ∈ steps, step.Known p o (h.slot (o, .elements)))
    (hrun : steps.foldlM ListStep.run? us = some us') :
    (steps.foldl (ListStep.mutate p) h).HoldsList o us' := by
  induction steps generalizing h us with
  | nil =>
      cases hrun
      exact hlist
  | cons step rest ih =>
      obtain ⟨next, hstep, hrest⟩ := Option.bind_eq_some_iff.1 hrun
      have hknown := hsteps step List.mem_cons_self
      refine ih ?_ ?_ (fun later hlater => ?_) hrest
      · exact hlist.mutate hknown.single hsummary hstep hknown.args hknown.copied
      · rw [ListStep.mutate, ListCall.ofName?_name,
          summary_mutate hlist.reachable hknown.single, hsummary]
      · obtain ⟨hsingle, hargs, hcopied⟩ := hsteps later (List.mem_cons_of_mem _ hlater)
        refine ⟨hsingle, hargs, fun more hmore u hu => (hcopied more hmore u hu).mono ?_⟩
        rw [ListStep.mutate, ListCall.ofName?_name]
        exact leq_slot_elements_mutate hlist.reachable hknown.single hsummary _ _

end Heap

/-- The only expression, with number one, is the only object. -/
def PointsTo.oneReceiver : PointsTo where
  objects := #[]
  locals := ∅
  nodes := SortedMap.insert ∅ 1 (.ofList [0])
  returns := ∅
  fields := ∅
  targets := ∅
  stats := ⟨1, 1, 1, 1⟩

namespace Heap

/-- The object is the list `[1]`. -/
def withOne : Heap :=
  let created := (top.allocate 0).setField (.ofList [0]) .length (.primitive (.constant 1))
  created.setField (.ofList [0]) .elements (.primitive (.constant 1))

theorem holdsList_withOne : withOne.HoldsList 0 [.int 1] where
  reachable := rfl
  length := by
    have hslot : withOne.slot (0, .length) = .holds (.primitive (.constant 1)) := by decide
    rw [hslot]
    exact Value.fits_constant 1
  elements u hu := by
    have hslot : withOne.slot (0, .elements) = .holds (.primitive (.constant 1)) := by decide
    rw [hslot, List.mem_singleton.1 hu]
    exact Value.describes_constant 1

/-- The list `[1]` is doubled and grows by `None` and `5`, of which the first `1` is removed. -/
theorem holdsList_mutations_withOne :
    let steps : List ListStep := [⟨1, .extend [.int 1], [.notNull]⟩, ⟨1, .append .none, [.none]⟩,
      ⟨1, .insert (-1) (.int 5), [.constant (-1), .anyInt]⟩, ⟨1, .remove (.int 1), [.constant 1]⟩,
      ⟨1, .reverse, []⟩]
    (steps.foldl (ListStep.mutate .oneReceiver) withOne).HoldsList 0 [.none, .int 5, .int 1] := by
  refine holdsList_mutations holdsList_withOne (by decide) (fun step hstep => ?_) (by decide)
  simp only [List.mem_cons, List.not_mem_nil, or_false] at hstep
  rcases hstep with rfl | rfl | rfl | rfl | rfl
  · refine ⟨by decide, .cons rfl .nil, fun more hmore u hu => ?_⟩
    cases hmore
    exact holdsList_withOne.elements u hu
  · exact ⟨by decide, .cons rfl .nil, fun _ => nofun⟩
  · exact ⟨by decide, .cons rfl (.cons rfl .nil), fun _ => nofun⟩
  · exact ⟨by decide, .cons rfl .nil, fun _ => nofun⟩
  · exact ⟨by decide, .nil, fun _ => nofun⟩

/-- What `extend` copies need not be covered afterwards, although the heap describes the list
before and the argument, another list, is described as some value other than `None`. -/
theorem exists_extend_uncovered : ∃ (h : Heap) (p : PointsTo) (o : Nat) (us us' : List Scalar)
    (step : ListStep), h.HoldsList o us ∧ h.summary.contains o = false ∧
      (p.ofNode step.receiver).single? = some o ∧
      List.Forall₂ Value.DescribesArg step.args step.call.args ∧ step.run? us = some us' ∧
      ¬ (step.mutate p h).HoldsList o us' := by
  refine ⟨withOne, .oneReceiver, 0, [.int 1], [.int 1, .none], ⟨1, .extend [.none], [.notNull]⟩,
    holdsList_withOne, by decide, by decide, .cons ?_ .nil, by decide, fun hlist => ?_⟩
  · exact Value.leq_refl _
  · have hnone := hlist.elements .none (by decide)
    have hslot : (ListStep.mutate .oneReceiver withOne
        ⟨1, .extend [.none], [.notNull]⟩).slot (0, .elements) =
          .holds (.primitive (.constant 1)) := by decide
    rw [hslot] at hnone
    have hdescribes : (Value.constant 1).describes .none = true := hnone
    revert hdescribes
    decide

end Heap

end ValueFlow
