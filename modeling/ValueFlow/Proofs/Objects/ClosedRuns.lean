import ValueFlow.Proofs.Heap.Lattice
import ValueFlow.Proofs.Objects.States
/-!
Closed runs: everything that happens to objects happens to the heap, too.

A step pairs what happens to the objects of a run with the operation on the heap that stands for it:
creating, storing, changes by code that cannot be seen, and the operations that only give up
knowledge. Every such step keeps the heap above the objects, so it is above them along every run
that starts with nothing.
-/

namespace ValueFlow

namespace Heap

variable {label : Nat → Nat} {h k : Heap} {σ σ' : World} {l site : Nat} {x : String} {d : Datum}
  {v : HeapValue}

/-- Nothing is said of a run without objects. -/
theorem covers_of_no_objects (label : Nat → Nat) (hσ : σ.sites = []) : top.Covers label σ where
  reachable := rfl
  allocated hl := by
    rw [hσ] at hl
    cases hl
  single hl := by
    rw [hσ] at hl
    cases hl
  field hl := by
    rw [hσ] at hl
    cases hl

/-- A heap with more objects that stand for several and with larger slots covers as much. -/
theorem Covers.raise (hc : Covers label h σ) (hr : k.reachable = true)
    (hallocated : ∀ o ∈ h.allocated, o ∈ k.allocated) (hsummary : ∀ o ∈ h.summary, o ∈ k.summary)
    (hslot : ∀ key, (h.slot key).leq (k.slot key) = true) : Covers label k σ where
  reachable := hr
  allocated hl :=
    SortedSet.contains_iff.2 (hallocated _ (SortedSet.contains_iff.1 (hc.allocated hl)))
  single hl hm hlabel hsingle := by
    refine hc.single hl hm hlabel (SortedSet.contains_eq_false_iff.2 fun hmem => ?_)
    exact SortedSet.contains_eq_false_iff.1 hsingle (hsummary _ hmem)
  field hl hd := (hc.field hl hd).mono (hslot _)

theorem Covers.markSummary (hc : Covers label h σ) (o : Nat) :
    Covers label (h.markSummary o) σ :=
  hc.raise hc.reachable (fun _ ho => ho) (fun _ ho => SortedSet.mem_insert.2 (.inr ho))
    fun _ => Slot.leq_refl _

theorem Covers.entryView (hc : Covers label h σ) : Covers label h.entryView σ :=
  hc.raise hc.reachable (fun _ ho => ho) (fun _ ho => ho) fun _ => Slot.leq_refl _

section Stores

theorem slot_weakUpdate (h : Heap) (o : Nat) (field : HeapField) (v : HeapValue) (key : FieldKey) :
    (h.weakUpdate o field v).slot key =
      if key = (o, field) then (h.slot key).join (.holds v) else h.slot key := by
  have htrack := congrArg Track.slot (h.track_weakUpdate key o field v)
  rw [apply_ite Track.slot] at htrack
  exact htrack

theorem slot_leq_weakUpdate (h : Heap) (o : Nat) (field : HeapField) (v : HeapValue)
    (key : FieldKey) : (h.slot key).leq ((h.weakUpdate o field v).slot key) = true := by
  rw [slot_weakUpdate]
  split
  · exact Slot.leq_join_left _ _
  · exact Slot.leq_refl _

/-- Adding to the contents of any field. -/
theorem Covers.weakUpdate (hc : Covers label h σ) (o : Nat) (field : HeapField) (v : HeapValue) :
    Covers label (h.weakUpdate o field v) σ :=
  hc.raise hc.reachable (fun _ ho => ho) (fun _ ho => ho) (slot_leq_weakUpdate h o field v)

theorem Covers.foldl_weakUpdate (hc : Covers label h σ) (targets : List Nat) (field : HeapField)
    (v : HeapValue) : Covers label (targets.foldl (fun h o => h.weakUpdate o field v) h) σ :=
  List.foldlRecOn (motive := fun k => Covers label k σ) targets _ hc
    fun _ hk o _ => hk.weakUpdate o field v

/-- Writing a field of an object, as an addition to what its label may hold. -/
theorem Covers.storeWeakly (hc : Covers label h σ) (hl : σ.sites[l]? = some site)
    (hv : v.abstraction.Covers d) (x : String) :
    Covers label (h.weakUpdate (label site) (.attr x) v) (σ.setField l x d) where
  reachable := hc.reachable
  allocated hm := hc.allocated hm
  single hm hm' := hc.single hm hm'
  field := by
    intro m t y e hm he
    have hm : σ.sites[m]? = some t := hm
    rw [World.fields_setField] at he
    split at he
    · next hml =>
        obtain ⟨rfl, rfl⟩ := hml
        cases he
        cases hm.symm.trans hl
        rw [slot_weakUpdate, if_pos rfl]
        have hholds : (Slot.holds v).Covers d := hv
        exact hholds.mono (Slot.leq_join_right _ _)
    · exact (hc.field hm he).mono (slot_leq_weakUpdate _ _ _ _ _)

/-- Writing a field of one of several objects, as an addition to what each of them may hold. -/
theorem Covers.storeWeaklyAll (hc : Covers label h σ) {targets : List Nat}
    (hl : σ.sites[l]? = some site) (htarget : label site ∈ targets)
    (hv : v.abstraction.Covers d) (x : String) :
    Covers label (targets.foldl (fun h o => h.weakUpdate o (.attr x) v) h) (σ.setField l x d) := by
  obtain ⟨before, after, rfl⟩ := List.append_of_mem htarget
  rw [List.foldl_append, List.foldl_cons]
  exact ((hc.foldl_weakUpdate before (.attr x) v).storeWeakly hl hv x).foldl_weakUpdate after _ _

end Stores

section Merging

variable {op : HeapValue → HeapValue → HeapValue}

theorem Covers.mergeBy (hc : Covers label h σ) (hleft : ∀ a b : HeapValue, a.leq (op a b) = true)
    (hright : ∀ a b : HeapValue, b.leq (op a b) = true) (k : Heap) :
    Covers label (h.mergeBy op k) σ ∧ Covers label (k.mergeBy op h) σ := by
  cases hk : k.reachable with
  | false =>
      rw [mergeBy_of_unreachable_right hc.reachable hk, mergeBy_of_unreachable_left hk]
      exact ⟨hc, hc⟩
  | true => exact ⟨hc.mergeBy_left hk hleft, hc.mergeBy_right hk hright⟩

theorem Covers.join (hc : Covers label h σ) (k : Heap) :
    Covers label (h.join k) σ ∧ Covers label (k.join h) σ :=
  hc.mergeBy HeapValue.leq_join_left HeapValue.leq_join_right k

theorem Covers.widen (hc : Covers label h σ) (k : Heap) (n : Nat) :
    Covers label (h.widen k n) σ ∧ Covers label (k.widen h n) σ :=
  hc.mergeBy (HeapValue.leq_mergeBy_left Value.leq_widen_left)
    (HeapValue.leq_mergeBy_right Value.leq_widen_right) k

end Merging

/-- What happens to the objects of a run, with the operation on the heap that stands for it. -/
inductive ClosedStep (label : Nat → Nat) : World → Heap → World → Heap → Prop
  | create {σ : World} {h : Heap} (site : Nat) :
      ClosedStep label σ h (σ.create site) (h.allocate (label site))
  | store {σ : World} {h : Heap} {l site : Nat} {targets : SortedSet Nat} {v : HeapValue} {d : Datum}
      (x : String) (hl : σ.sites[l]? = some site) (htarget : label site ∈ targets)
      (hv : v.abstraction.Covers d) :
      ClosedStep label σ h (σ.setField l x d) (h.setField targets (.attr x) v)
  | storeWeakly {σ : World} {h : Heap} {l site : Nat} {targets : List Nat} {v : HeapValue} {d : Datum}
      (x : String) (hl : σ.sites[l]? = some site) (htarget : label site ∈ targets)
      (hv : v.abstraction.Covers d) :
      ClosedStep label σ h (σ.setField l x d)
        (targets.foldl (fun h o => h.weakUpdate o (.attr x) v) h)
  /-- Code that cannot be seen changes the fields of the objects with a label. -/
  | change {σ σ' : World} {h : Heap} (o : Nat) (hsites : σ'.sites = σ.sites)
      (hfields : ∀ l site, σ.sites[l]? = some site → label site ≠ o → σ'.fields l = σ.fields l) :
      ClosedStep label σ h σ' (h.invalidate o)
  | markSummary {σ : World} {h : Heap} (o : Nat) : ClosedStep label σ h σ (h.markSummary o)
  | entryView {σ : World} {h : Heap} : ClosedStep label σ h σ h.entryView
  | join_left {σ : World} {h : Heap} (k : Heap) : ClosedStep label σ h σ (h.join k)
  | join_right {σ : World} {h : Heap} (k : Heap) : ClosedStep label σ h σ (k.join h)
  | widen_left {σ : World} {h : Heap} (k : Heap) (n : Nat) : ClosedStep label σ h σ (h.widen k n)
  | widen_right {σ : World} {h : Heap} (k : Heap) (n : Nat) : ClosedStep label σ h σ (k.widen h n)

/-- The points that are reached from a run without objects and the heap that knows nothing. -/
inductive ClosedRun (label : Nat → Nat) : World → Heap → Prop
  | start {σ : World} (hσ : σ.sites = []) : ClosedRun label σ top
  | step {σ σ' : World} {h h' : Heap} (hrun : ClosedRun label σ h)
      (hstep : ClosedStep label σ h σ' h') : ClosedRun label σ' h'

theorem Covers.closedStep {h' : Heap} (hc : Covers label h σ)
    (hstep : ClosedStep label σ h σ' h') : Covers label h' σ' := by
  cases hstep with
  | create site => exact hc.create site
  | store x hl htarget hv => exact hc.setField hl htarget hv x
  | storeWeakly x hl htarget hv => exact hc.storeWeaklyAll hl htarget hv x
  | change o hsites hfields => exact hc.invalidate hsites hfields
  | markSummary o => exact hc.markSummary o
  | entryView => exact hc.entryView
  | join_left k => exact (hc.join k).1
  | join_right k => exact (hc.join k).2
  | widen_left k n => exact (hc.widen k n).1
  | widen_right k n => exact (hc.widen k n).2

/-- The heap that knows nothing covers a run without objects, each step keeps a heap above the
objects, and so it is above them at every point of every closed run. -/
theorem covers_closedRun (label : Nat → Nat) :
    (∀ {σ : World}, σ.sites = [] → top.Covers label σ) ∧
      (∀ {σ σ' : World} {h h' : Heap}, h.Covers label σ → ClosedStep label σ h σ' h' →
        h'.Covers label σ') ∧
      ∀ {σ : World} {h : Heap}, ClosedRun label σ h → h.Covers label σ := by
  refine ⟨covers_of_no_objects label, Covers.closedStep, fun hrun => ?_⟩
  induction hrun with
  | start hσ => exact covers_of_no_objects label hσ
  | step _ hstep ih => exact ih.closedStep hstep

/-- Two objects with one label, one of which holds a number. -/
def twoObjects : World := ((World.start.create 7).create 7).setField 1 "x" (.scalar (.int 5))

/-- The heap after their creation and the store. -/
def twoObjectsHeap : Heap :=
  ((top.allocate 7).allocate 7).setField (.singleton 7) (.attr "x") (.primitive (.constant 5))

theorem covers_twoObjects : twoObjectsHeap.Covers id twoObjects ∧
    twoObjectsHeap.summary.contains 7 = true ∧
    twoObjectsHeap.slot (7, .attr "x") = .holds (.primitive (.constant 5)) := by
  have hcreated : ClosedRun id ((World.start.create 7).create 7) ((top.allocate 7).allocate 7) :=
    ((ClosedRun.start rfl).step (.create 7)).step (.create 7)
  have hstored : ClosedRun id twoObjects twoObjectsHeap :=
    hcreated.step (.store "x" (show _ = some 7 from rfl) (List.mem_singleton.2 rfl)
      (show (Value.constant 5).describes (.int 5) = true by decide))
  exact ⟨(covers_closedRun id).2.2 hstored, by decide, by decide⟩

end Heap

end ValueFlow
