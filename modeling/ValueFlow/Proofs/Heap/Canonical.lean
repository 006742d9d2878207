import ValueFlow.Heap.Access
import ValueFlow.Proofs.Domain.Canonical
import ValueFlow.Proofs.Heap.Merging
import ValueFlow.Proofs.Heap.Tracks
import ValueFlow.Proofs.Objects.States
/-!
Heaps that hold canonical values.

Every operation on heaps keeps them, and they can be joined in any order.
-/

namespace ValueFlow

section Merging

variable {ν : Type} {P : ν → Prop} {op : ν → ν → ν} {a b c : Option ν}

theorem merge_comm_of (hop : ∀ v w, P v → P w → op v w = op w v) (ha : ∀ v ∈ a, P v)
    (hb : ∀ v ∈ b, P v) : Option.merge op a b = Option.merge op b a := by
  cases a with
  | none => cases b <;> rfl
  | some v =>
      cases b with
      | none => rfl
      | some w => exact congrArg some (hop v w (ha v rfl) (hb w rfl))

theorem merge_assoc_of (hop : ∀ u v w, P u → P v → P w → op (op u v) w = op u (op v w))
    (ha : ∀ v ∈ a, P v) (hb : ∀ v ∈ b, P v) (hc : ∀ v ∈ c, P v) :
    Option.merge op (Option.merge op a b) c = Option.merge op a (Option.merge op b c) := by
  cases a with
  | none => cases b <;> cases c <;> rfl
  | some u =>
      cases b with
      | none => cases c <;> rfl
      | some v =>
          cases c with
          | none => rfl
          | some w => exact congrArg some (hop u v w (ha u rfl) (hb v rfl) (hc w rfl))

end Merging

namespace SortedMap

variable {κ ν : Type} [SortKey κ] {P : ν → Prop} {m n : SortedMap κ ν}

/-- Whether all values of a map have a property. -/
def Forall (P : ν → Prop) (m : SortedMap κ ν) : Prop := ∀ k v, m.get? k = some v → P v

theorem forall_empty : Forall P (∅ : SortedMap κ ν) := fun _ _ h => nomatch h

variable [DecidableEq κ]

theorem Forall.insertWith {op : ν → ν → ν} (hm : m.Forall P) (hop : ∀ a b, P a → P b → P (op a b))
    (k : κ) {v : ν} (hv : P v) : (m.insertWith op k v).Forall P := by
  intro k' v' h
  rw [get?_insertWith] at h
  split at h
  · cases hk : m.get? k with
    | none =>
        rw [hk] at h
        cases h
        exact hv
    | some a =>
        rw [hk] at h
        cases h
        exact hop a v (hm k a hk) hv
  · exact hm k' v' h

theorem Forall.unionWith {op : ν → ν → ν} (hm : m.Forall P) (hn : n.Forall P)
    (hop : ∀ a b, P a → P b → P (op a b)) : (m.unionWith op n).Forall P := by
  have fold : ∀ (l : List (κ × ν)) {m : SortedMap κ ν}, m.Forall P → (∀ q ∈ l, P q.2) →
      Forall P (l.foldl (fun acc q => acc.insertWith op q.1 q.2) m) := by
    intro l
    induction l with
    | nil => exact fun hm _ => hm
    | cons q rest ih =>
        intro m hm hl
        exact ih (hm.insertWith hop q.1 (hl q List.mem_cons_self))
          fun r hr => hl r (List.mem_cons_of_mem _ hr)
  exact fold n.entries hm fun q hq => hn q.1 q.2 (get?_eq_some_iff.2 hq)

/-- A key of a union has what the two maps have there, combined. -/
theorem get?_unionWith (op : ν → ν → ν) (m n : SortedMap κ ν) (k : κ) :
    (m.unionWith op n).get? k = Option.merge op (m.get? k) (n.get? k) := by
  have fold : ∀ (l : List (κ × ν)) (m : SortedMap κ ν), (l.map Prod.fst).Nodup →
      (l.foldl (fun acc q => acc.insertWith op q.1 q.2) m).get? k =
        Option.merge op (m.get? k) ((l.find? fun q => decide (q.1 = k)).map Prod.snd) := by
    intro l
    induction l with
    | nil =>
        intro m _
        exact (Option.merge_none_right).symm
    | cons q rest ih =>
        intro m hl
        rw [List.map_cons, List.nodup_cons] at hl
        rw [List.foldl_cons, ih _ hl.2, get?_insertWith]
        by_cases hk : k = q.1
        · have hrest : rest.find? (fun r => decide (r.1 = k)) = none := by
            refine List.find?_eq_none.2 fun r hr h => hl.1 ?_
            rw [← hk, ← of_decide_eq_true h]
            exact List.mem_map_of_mem hr
          subst hk
          rw [if_pos rfl, hrest, List.find?_cons, decide_eq_true rfl]
          cases m.get? q.1 <;> rfl
        · rw [if_neg hk, List.find?_cons, decide_eq_false (Ne.symm hk)]
  rw [unionWith, fold _ _ n.nodup_keys]
  refine congrArg (Option.merge op _) (Option.ext fun v => ?_)
  rw [get?_eq_some_iff]
  constructor
  · intro h
    obtain ⟨q, hq, rfl⟩ := Option.map_eq_some_iff.1 h
    have hk : q.1 = k := by simpa using List.find?_some hq
    exact hk ▸ List.mem_of_find?_eq_some hq
  · intro h
    have hsome : (n.entries.find? fun q => decide (q.1 = k)).isSome = true :=
      List.find?_isSome.2 ⟨_, h, decide_eq_true rfl⟩
    obtain ⟨q, hq⟩ := Option.isSome_iff_exists.1 hsome
    have hk : q.1 = k := by simpa using List.find?_some hq
    have hsame : n.get? k = some q.2 :=
      get?_eq_some_iff.2 (hk ▸ List.mem_of_find?_eq_some hq)
    rw [get?_eq_some_iff.2 h] at hsame
    rw [hq, Option.map_some, ← Option.some.inj hsame]

end SortedMap

namespace HeapValue

variable {a b c : HeapValue}

/-- Whether contents describe a canonical value. -/
def Canonical (v : HeapValue) : Prop := v.abstraction.Canonical

theorem Canonical.mergeBy {op : Value → Value → Value}
    (hop : ∀ v w : Value, v.Canonical → w.Canonical → (op v w).Canonical) (ha : a.Canonical)
    (hb : b.Canonical) : (mergeBy op a b).Canonical := by
  unfold HeapValue.mergeBy
  split
  · exact ha
  · exact hop _ _ ha hb

theorem Canonical.join (ha : a.Canonical) (hb : b.Canonical) : (a.join b).Canonical :=
  ha.mergeBy (fun _ _ => Value.Canonical.join) hb

theorem canonical_ofValue {v : Value} (hv : v.Canonical) (referent : Option Nat) :
    (ofValue v referent).Canonical := by
  unfold ofValue
  split
  · exact Value.canonical_none
  · split
    · exact hv
    · exact Value.canonical_notNull
  · exact hv

theorem join_of_ne (h : a ≠ b) : a.join b = .merged (a.abstraction.join b.abstraction) := if_neg h

theorem join_self (a : HeapValue) : a.join a = a := if_pos rfl

theorem join_merged (a : HeapValue) (v : Value) :
    a.join (.merged v) = .merged (a.abstraction.join v) := by
  by_cases h : a = .merged v
  · subst h
    rw [join_self, abstraction, Value.join_self]
  · exact join_of_ne h

theorem merged_join (v : Value) (a : HeapValue) :
    HeapValue.join (.merged v) a = .merged (v.join a.abstraction) := by
  by_cases h : .merged v = a
  · subst h
    rw [join_self, abstraction, Value.join_self]
  · exact join_of_ne h

theorem join_comm (ha : a.Canonical) (hb : b.Canonical) : a.join b = b.join a := by
  by_cases h : a = b
  · rw [h]
  · rw [join_of_ne h, join_of_ne (Ne.symm h), Value.join_comm ha hb]

theorem join_assoc (ha : a.Canonical) (hb : b.Canonical) (hc : c.Canonical) :
    (a.join b).join c = a.join (b.join c) := by
  by_cases h : a = b
  · subst h
    by_cases h' : a = c
    · subst h'
      rw [join_self]
    · rw [join_self, join_of_ne h', join_merged, ← Value.join_assoc ha ha hc, Value.join_self]
  · rw [join_of_ne h, merged_join]
    by_cases h' : b = c
    · subst h'
      rw [join_self, join_of_ne h, Value.join_assoc ha hb hb, Value.join_self]
    · rw [join_of_ne h', join_merged, Value.join_assoc ha hb hc]

end HeapValue

namespace Slot

variable {s t u : Slot}

/-- Whether what a slot holds is canonical. -/
def Canonical (s : Slot) : Prop := ∀ v ∈ s.value?, v.Canonical

theorem Canonical.mergeBy {op : HeapValue → HeapValue → HeapValue}
    (hop : ∀ a b : HeapValue, a.Canonical → b.Canonical → (op a b).Canonical) (hs : s.Canonical)
    (ht : t.Canonical) : (s.mergeBy op t).Canonical := by
  cases s with
  | unset => exact ht
  | unknown => cases t <;> exact fun v hv => nomatch hv
  | holds a =>
      cases t with
      | unset => exact hs
      | unknown => exact fun v hv => nomatch hv
      | holds b =>
          intro v hv
          cases hv
          exact hop a b (hs a rfl) (ht b rfl)

theorem join_comm (hs : s.Canonical) (ht : t.Canonical) : s.join t = t.join s := by
  cases s with
  | unset => rw [join_unset]; rfl
  | unknown => cases t <;> rfl
  | holds a =>
      cases t with
      | unset | unknown => rfl
      | holds b => exact congrArg holds (HeapValue.join_comm (hs a rfl) (ht b rfl))

theorem join_assoc (hs : s.Canonical) (ht : t.Canonical) (hu : u.Canonical) :
    (s.join t).join u = s.join (t.join u) := by
  cases s with
  | unset => rfl
  | unknown => cases t <;> cases u <;> rfl
  | holds a =>
      cases t with
      | unset => rfl
      | unknown => cases u <;> rfl
      | holds b =>
          cases u with
          | unset | unknown => rfl
          | holds c => exact congrArg holds (HeapValue.join_assoc (hs a rfl) (ht b rfl) (hu c rfl))

end Slot

/-- Whether all that is said about a field is canonical. -/
structure Track.Canonical (t : Track) : Prop where
  slot : t.slot.Canonical
  log : ∀ v ∈ t.log, v.Canonical

namespace Track

variable {t : Track}

theorem Canonical.create (h : t.Canonical) : t.create.Canonical := by
  unfold Track.create
  split
  · exact ⟨h.slot, h.log⟩
  · refine ⟨?_, h.log⟩
    show Slot.Canonical (if t.summary then t.slot else .unset)
    split
    · exact h.slot
    · exact fun v hv => nomatch hv

theorem Canonical.share (h : t.Canonical) : t.share.Canonical := ⟨h.slot, h.log⟩

theorem Canonical.write (h : t.Canonical) (weakly : Bool) {v : HeapValue} (hv : v.Canonical) :
    (t.write weakly v).Canonical := by
  have holds : (Slot.holds v).Canonical := fun w hw => Option.some.inj hw ▸ hv
  constructor
  · show Slot.Canonical (if weakly then t.slot.join (.holds v) else .holds v)
    split
    · exact h.slot.mergeBy (fun _ _ => HeapValue.Canonical.join) holds
    · exact holds
  · intro w hw
    cases Option.some.inj hw
    cases hlog : t.log with
    | none => exact hv
    | some a => exact (h.log a hlog).join hv

theorem Canonical.lose (h : t.Canonical) (field : HeapField) : (t.lose field).Canonical := by
  refine ⟨?_, h.log⟩
  show Slot.Canonical (if field = .mutationMarker then .holds Heap.marker else .unknown)
  split
  · exact fun v hv => Option.some.inj hv ▸ Value.canonical_ofBool true
  · exact fun v hv => nomatch hv

end Track

namespace Heap

variable {h k l : Heap} {v : HeapValue}

/-- Whether all contents of a heap and of its log are canonical. -/
def Canonical (h : Heap) : Prop := ∀ key, (h.track key).Canonical

theorem canonical_of (hfields : h.fields.Forall HeapValue.Canonical)
    (hlog : h.mayWritten.Forall HeapValue.Canonical) : h.Canonical := by
  intro key
  refine ⟨fun v hv => ?_, fun v hv => hlog key v hv⟩
  refine hfields key v ?_
  rw [← value?_slot]
  exact hv

theorem Canonical.fields (hh : h.Canonical) : h.fields.Forall HeapValue.Canonical := by
  intro key v hv
  rw [← value?_slot] at hv
  exact (hh key).slot v hv

theorem Canonical.mayWritten (hh : h.Canonical) : h.mayWritten.Forall HeapValue.Canonical :=
  fun key v hv => (hh key).log v hv

theorem canonical_top : top.Canonical :=
  canonical_of SortedMap.forall_empty SortedMap.forall_empty

theorem canonical_bottom : bottom.Canonical :=
  canonical_of SortedMap.forall_empty SortedMap.forall_empty

theorem Canonical.entryView (hh : h.Canonical) : h.entryView.Canonical :=
  canonical_of hh.fields SortedMap.forall_empty

theorem Canonical.allocate (hh : h.Canonical) (object : Nat) : (h.allocate object).Canonical := by
  intro key
  rw [track_allocate]
  split
  · exact (hh key).create
  · exact hh key

theorem Canonical.markSummary (hh : h.Canonical) (object : Nat) :
    (h.markSummary object).Canonical := by
  intro key
  rw [track_markSummary]
  split
  · exact (hh key).share
  · exact hh key

theorem Canonical.weakUpdate (hh : h.Canonical) (object : Nat) (field : HeapField)
    (hv : v.Canonical) : (h.weakUpdate object field v).Canonical := by
  intro key
  rw [track_weakUpdate]
  split
  · exact (hh key).write true hv
  · exact hh key

theorem Canonical.invalidate (hh : h.Canonical) (object : Nat) : (h.invalidate object).Canonical := by
  intro key
  rw [track_invalidate]
  split
  · exact (hh key).lose key.2
  · exact hh key

theorem Canonical.setField (hh : h.Canonical) (targets : SortedSet Nat) (field : HeapField)
    (hv : v.Canonical) : (h.setField targets field v).Canonical := by
  intro key
  rw [track_setField, Track.perform]
  split
  · exact (hh key).write _ hv
  · exact hh key

theorem Canonical.foldl {α : Type} {step : Heap → α → Heap} {l : List α} (hh : h.Canonical)
    (hstep : ∀ k, k.Canonical → ∀ a ∈ l, (step k a).Canonical) : (l.foldl step h).Canonical :=
  List.foldlRecOn l step hh fun k hk a ha => hstep k hk a ha

theorem mergeBy_of_reachable {op : HeapValue → HeapValue → HeapValue} (hh : h.reachable = true)
    (hk : k.reachable = true) :
    (h.mergeBy op k).initialized = h.initialized.inter k.initialized ∧
      (h.mergeBy op k).mustWritten = h.mustWritten.inter k.mustWritten ∧
      (h.mergeBy op k).mayWritten = h.mayWritten.unionWith op k.mayWritten ∧
      (h.mergeBy op k).invalidated = h.invalidated.union k.invalidated := by
  rw [mergeBy, hh, hk]
  exact ⟨rfl, rfl, rfl, rfl⟩

theorem Canonical.mergeBy {op : HeapValue → HeapValue → HeapValue}
    (hop : ∀ a b : HeapValue, a.Canonical → b.Canonical → (op a b).Canonical) (hh : h.Canonical)
    (hk : k.Canonical) : (h.mergeBy op k).Canonical := by
  cases hreach : h.reachable with
  | false =>
      rw [Heap.mergeBy, hreach]
      exact hk
  | true =>
      cases hreach' : k.reachable with
      | false =>
          rw [Heap.mergeBy, hreach, hreach']
          exact hh
      | true =>
          intro key
          constructor
          · show ((h.mergeBy op k).slot key).Canonical
            rw [slot_mergeBy hreach hreach']
            exact (hh key).slot.mergeBy hop (hk key).slot
          · intro v hv
            have hlog : (h.mergeBy op k).mayWritten = h.mayWritten.unionWith op k.mayWritten :=
              (mergeBy_of_reachable hreach hreach').2.2.1
            have hv : (h.mergeBy op k).mayWritten.get? key = some v := hv
            rw [hlog] at hv
            exact hh.mayWritten.unionWith hk.mayWritten hop key v hv

theorem Canonical.join (hh : h.Canonical) (hk : k.Canonical) : (h.join k).Canonical :=
  hh.mergeBy (fun _ _ => HeapValue.Canonical.join) hk

theorem Canonical.widen (hh : h.Canonical) (hk : k.Canonical) (n : Nat) :
    (h.widen k n).Canonical :=
  hh.mergeBy (fun _ _ ha hb => ha.mergeBy (fun _ _ => Value.Canonical.widen) hb) hk

theorem canonical_joinAll {hs : List Heap} (h : ∀ k ∈ hs, k.Canonical) :
    (AbstractDomain.joinAll hs).Canonical :=
  canonical_bottom.foldl fun _ hk l hl => hk.join (h l hl)

section Values

theorem canonical_getField (hh : h.Canonical) (object : Nat) (field : HeapField) :
    (h.getField object field).Canonical := by
  unfold getField
  cases hv : h.fields.get? (object, field) with
  | none => exact Value.canonical_top
  | some v => exact hh.fields _ v hv

theorem canonical_getFieldOf (hh : h.Canonical) (targets : SortedSet Nat) (field : HeapField) :
    (h.getFieldOf targets field).Canonical := by
  refine .ite Value.canonical_top (Value.canonical_joinAll fun v hv => ?_)
  obtain ⟨o, -, rfl⟩ := List.mem_map.1 hv
  exact canonical_getField hh o field

variable (p : PointsTo)

theorem canonical_load (hh : h.Canonical) (base : Nat) (field : HeapField) :
    (h.load p base field).Canonical := canonical_getFieldOf hh _ _

theorem canonical_lengthOf (h : Heap) (base : Nat) : (h.lengthOf p base).Canonical :=
  .ite (Value.canonical_intIn _) (Value.canonical_meet _ _)

theorem Canonical.allocateAt (hh : h.Canonical) (site : Nat) : (h.allocateAt p site).Canonical :=
  hh.foldl fun _ hk o _ => hk.allocate o

theorem Canonical.initCollection (hh : h.Canonical) (site : Nat) {elements : List Value}
    (helements : ∀ v ∈ elements, v.Canonical) : (h.initCollection p site elements).Canonical := by
  unfold Heap.initCollection
  have hlength := (hh.allocateAt p site).setField (SortedSet.ofList (p.allocatedAt site)) .length
    (v := .primitive (.constant (Int64.ofNat elements.length))) (Value.canonical_constant _)
  dsimp only
  split
  · exact hh
  · split
    · exact hlength
    · exact hlength.setField _ _ (Value.canonical_joinAll helements)

theorem Canonical.store (hh : h.Canonical) (base : Nat) (field : HeapField) {value : Value}
    (hv : value.Canonical) (node : Option Nat) : (h.store p base field value node).Canonical :=
  hh.setField _ _ (HeapValue.canonical_ofValue hv _)

theorem Canonical.weakUpdateAll (hh : h.Canonical) (objects : SortedSet Nat) (field : HeapField)
    (hv : v.Canonical) : (h.weakUpdateAll objects field v).Canonical :=
  hh.foldl fun _ hk o _ => hk.weakUpdate o field hv

theorem Canonical.storeElement (hh : h.Canonical) (base : Nat) {value : Value}
    (hv : value.Canonical) (node : Option Nat) : (h.storeElement p base value node).Canonical :=
  hh.weakUpdateAll _ _ (HeapValue.canonical_ofValue hv _)

theorem canonical_asLength (v : Value) : (ContainerMethod.asLength v).Canonical :=
  .ite (Value.canonical_meet _ _) (Value.canonical_intIn _)

theorem canonical_of_stored? {m : ContainerMethod} {args : List Value} {value : Value}
    (hargs : ∀ v ∈ args, v.Canonical) (h : m.stored? args = some value) : value.Canonical := by
  unfold ContainerMethod.stored? at h
  split at h
  · exact hargs _ (List.mem_of_getElem? h)
  · exact hargs _ (List.mem_of_getElem? h)
  · exact hargs _ (List.mem_of_getElem? h)
  · exact hargs _ (List.mem_of_getElem? h)
  · cases h
    exact Value.canonical_top
  · cases h

theorem Canonical.mutate (hh : h.Canonical) (receiver : Nat) (method : Option ContainerMethod)
    {args : List Value} (hargs : ∀ v ∈ args, v.Canonical) :
    (h.mutate p receiver method args).Canonical := by
  have hmarked := hh.setField (p.ofNode receiver) .mutationMarker
    (show marker.Canonical from Value.canonical_ofBool true)
  unfold Heap.mutate
  dsimp only
  split
  · exact hh
  · cases method with
    | none => exact hmarked
    | some m =>
        dsimp only
        split
        · next hstored =>
            refine Canonical.weakUpdateAll ?_ _ _ (canonical_of_stored? hargs hstored)
            split
            · exact hmarked.setField _ _ (canonical_asLength _)
            · exact hmarked
        · split
          · exact hmarked.setField _ _ (canonical_asLength _)
          · exact hmarked

end Values

section Order

theorem eq_of_parts (hreach : h.reachable = k.reachable)
    (hfields : ∀ key, h.fields.get? key = k.fields.get? key)
    (hinit : ∀ o, o ∈ h.initialized ↔ o ∈ k.initialized)
    (halloc : ∀ o, o ∈ h.allocated ↔ o ∈ k.allocated)
    (hsum : ∀ o, o ∈ h.summary ↔ o ∈ k.summary)
    (hmust : ∀ key, key ∈ h.mustWritten ↔ key ∈ k.mustWritten)
    (hmay : ∀ key, h.mayWritten.get? key = k.mayWritten.get? key)
    (hinv : ∀ o, o ∈ h.invalidated ↔ o ∈ k.invalidated) : h = k := by
  obtain ⟨r, f, i, a, s, m, w, n⟩ := h
  obtain ⟨r', f', i', a', s', m', w', n'⟩ := k
  cases hreach
  cases SortedMap.ext_get? hfields
  cases SortedSet.ext_mem hinit
  cases SortedSet.ext_mem halloc
  cases SortedSet.ext_mem hsum
  cases SortedSet.ext_mem hmust
  cases SortedMap.ext_get? hmay
  cases SortedSet.ext_mem hinv
  rfl

/-- What a heap that joins two others says. -/
structure Joins (j h k : Heap) : Prop where
  reachable : j.reachable = true
  slot : ∀ key, j.slot key = (h.slot key).join (k.slot key)
  initialized : ∀ o, o ∈ j.initialized ↔ o ∈ h.initialized ∧ o ∈ k.initialized
  allocated : ∀ o, o ∈ j.allocated ↔ o ∈ h.allocated ∨ o ∈ k.allocated
  summary : ∀ o, o ∈ j.summary ↔ o ∈ h.summary ∨ o ∈ k.summary
  mustWritten : ∀ key, key ∈ j.mustWritten ↔ key ∈ h.mustWritten ∧ key ∈ k.mustWritten
  mayWritten : ∀ key, j.mayWritten.get? key =
    Option.merge HeapValue.join (h.mayWritten.get? key) (k.mayWritten.get? key)
  invalidated : ∀ o, o ∈ j.invalidated ↔ o ∈ h.invalidated ∨ o ∈ k.invalidated

theorem joins_join (hh : h.reachable = true) (hk : k.reachable = true) : Joins (h.join k) h k := by
  obtain ⟨hallocated, hsummary⟩ : (h.join k).allocated = _ ∧ (h.join k).summary = _ :=
    mergeBy_eq hh hk
  obtain ⟨hinit, hmust, hmay, hinv⟩ : (h.join k).initialized = _ ∧ (h.join k).mustWritten = _ ∧
    (h.join k).mayWritten = _ ∧ (h.join k).invalidated = _ := mergeBy_of_reachable hh hk
  constructor
  · exact reachable_mergeBy _ hh hk
  · exact fun key => slot_mergeBy hh hk key
  · exact fun o => hinit ▸ SortedSet.mem_inter
  · exact fun o => hallocated ▸ SortedSet.mem_union
  · exact fun o => hsummary ▸ SortedSet.mem_union
  · exact fun key => hmust ▸ SortedSet.mem_inter
  · exact fun key => hmay ▸ SortedMap.get?_unionWith _ _ _ key
  · exact fun o => hinv ▸ SortedSet.mem_union

theorem Joins.eq {j j' h k h' k' : Heap} (hj : Joins j h k) (hj' : Joins j' h' k')
    (hslot : ∀ key, (h.slot key).join (k.slot key) = (h'.slot key).join (k'.slot key))
    (hinit : ∀ o, (o ∈ h.initialized ∧ o ∈ k.initialized) ↔ (o ∈ h'.initialized ∧ o ∈ k'.initialized))
    (halloc : ∀ o, (o ∈ h.allocated ∨ o ∈ k.allocated) ↔ (o ∈ h'.allocated ∨ o ∈ k'.allocated))
    (hsum : ∀ o, (o ∈ h.summary ∨ o ∈ k.summary) ↔ (o ∈ h'.summary ∨ o ∈ k'.summary))
    (hmust : ∀ key, (key ∈ h.mustWritten ∧ key ∈ k.mustWritten) ↔
      (key ∈ h'.mustWritten ∧ key ∈ k'.mustWritten))
    (hmay : ∀ key, Option.merge HeapValue.join (h.mayWritten.get? key) (k.mayWritten.get? key) =
      Option.merge HeapValue.join (h'.mayWritten.get? key) (k'.mayWritten.get? key))
    (hinv : ∀ o, (o ∈ h.invalidated ∨ o ∈ k.invalidated) ↔ (o ∈ h'.invalidated ∨ o ∈ k'.invalidated)) :
    j = j' := by
  refine eq_of_parts ?_ ?_ ?_ ?_ ?_ ?_ ?_ ?_
  · rw [hj.reachable, hj'.reachable]
  · intro key
    rw [← value?_slot, ← value?_slot, hj.slot, hj'.slot, hslot]
  · exact fun o => (hj.initialized o).trans ((hinit o).trans (hj'.initialized o).symm)
  · exact fun o => (hj.allocated o).trans ((halloc o).trans (hj'.allocated o).symm)
  · exact fun o => (hj.summary o).trans ((hsum o).trans (hj'.summary o).symm)
  · exact fun key => (hj.mustWritten key).trans ((hmust key).trans (hj'.mustWritten key).symm)
  · exact fun key => (hj.mayWritten key).trans ((hmay key).trans (hj'.mayWritten key).symm)
  · exact fun o => (hj.invalidated o).trans ((hinv o).trans (hj'.invalidated o).symm)

/-- The order of two heaps in a join does not matter. -/
theorem join_comm (hh : h.reachable = true) (hk : k.reachable = true) (ch : h.Canonical)
    (ck : k.Canonical) : h.join k = k.join h :=
  (joins_join hh hk).eq (joins_join hk hh) (fun key => Slot.join_comm (ch key).slot (ck key).slot)
    (fun _ => and_comm) (fun _ => or_comm) (fun _ => or_comm) (fun _ => and_comm)
    (fun key => merge_comm_of (fun _ _ => HeapValue.join_comm) (ch key).log (ck key).log)
    fun _ => or_comm

/-- Heaps can be joined in any grouping. -/
theorem join_assoc (hh : h.reachable = true) (hk : k.reachable = true) (hl : l.reachable = true)
    (ch : h.Canonical) (ck : k.Canonical) (cl : l.Canonical) :
    (h.join k).join l = h.join (k.join l) := by
  have hhk := joins_join hh hk
  have hkl := joins_join hk hl
  refine (joins_join hhk.reachable hl).eq (joins_join hh hkl.reachable) ?_ ?_ ?_ ?_ ?_ ?_ ?_
  · intro key
    rw [hhk.slot, hkl.slot]
    exact Slot.join_assoc (ch key).slot (ck key).slot (cl key).slot
  · intro o
    rw [hhk.initialized, hkl.initialized, and_assoc]
  · intro o
    rw [hhk.allocated, hkl.allocated, or_assoc]
  · intro o
    rw [hhk.summary, hkl.summary, or_assoc]
  · intro key
    rw [hhk.mustWritten, hkl.mustWritten, and_assoc]
  · intro key
    rw [hhk.mayWritten, hkl.mayWritten]
    exact merge_assoc_of (fun _ _ _ => HeapValue.join_assoc) (ch key).log (ck key).log (cl key).log
  · intro o
    rw [hhk.invalidated, hkl.invalidated, or_assoc]

end Order

end Heap

namespace HeapEffects

/-- Whether all that a call writes is canonical. -/
structure Canonical (e : HeapEffects) : Prop where
  must : ∀ w ∈ e.mustWrites, w.value.Canonical
  may : ∀ w ∈ e.mayWrites, w.value.Canonical

variable {e f : HeapEffects} {h exit : Heap}

theorem canonical_none : none.Canonical :=
  ⟨fun _ hw => absurd hw List.not_mem_nil, fun _ hw => absurd hw List.not_mem_nil⟩

theorem canonical_unknown (objects : SortedSet Nat) : (unknown objects).Canonical :=
  ⟨canonical_none.must, canonical_none.may⟩

theorem forall_ofEntry {m : SortedMap FieldKey HeapValue} (hm : m.Forall HeapValue.Canonical) :
    ∀ w ∈ m.entries.map HeapWrite.ofEntry, w.value.Canonical :=
  fun w hw => hm w.key w.value (HeapWrite.mem_map_ofEntry.1 hw)

theorem canonical_ofExit (hexit : exit.Canonical) (entry : Heap) : (ofExit entry exit).Canonical := by
  unfold ofExit
  split
  · exact canonical_none
  · constructor
    · intro w hw
      obtain ⟨key, -, hkey⟩ := List.mem_filterMap.1 hw
      obtain ⟨v, hv, rfl⟩ := Option.map_eq_some_iff.1 hkey
      rcases Option.or_eq_some_iff.1 hv with hv | ⟨-, hv⟩
      · exact hexit.fields key v hv
      · exact hexit.mayWritten key v hv
    · refine forall_ofEntry fun key v hv => hexit.mayWritten key v ?_
      rw [SortedMap.get?_filter] at hv
      exact (Option.filter_eq_some_iff.1 hv).1

/-- A call that writes canonical values keeps a heap canonical. -/
theorem Canonical.apply (he : e.Canonical) (hh : h.Canonical) : (e.apply h).Canonical := by
  unfold HeapEffects.apply
  split
  · exact hh
  · have hallocated : (e.allocations.foldl applyAllocation h).Canonical := by
      refine hh.foldl fun k hk a _ => ?_
      unfold applyAllocation
      split
      · exact (hk.allocate a.object).markSummary a.object
      · exact hk.allocate a.object
    have hmust := hallocated.foldl (fun k hk w hw =>
      hk.setField (.singleton w.object) w.field (he.must w hw))
    have hmay := hmust.foldl fun k hk w hw => hk.weakUpdate w.object w.field (he.may w hw)
    exact hmay.foldl fun k hk o _ => hk.invalidate o

theorem forall_byField {writes : List HeapWrite} (h : ∀ w ∈ writes, w.value.Canonical) :
    (byField writes).Forall HeapValue.Canonical := by
  intro key v hv
  obtain ⟨w, hw, -, rfl⟩ := exists_of_get?_byField hv
  exact h w hw

theorem Canonical.mergeBy {op : HeapValue → HeapValue → HeapValue}
    (hop : ∀ a b : HeapValue, a.Canonical → b.Canonical → (op a b).Canonical) (he : e.Canonical)
    (hf : f.Canonical) : (mergeBy op e f).Canonical := by
  have ours := forall_byField he.must
  have theirs := forall_byField hf.must
  have hfilter {m : SortedMap FieldKey HeapValue} (hm : m.Forall HeapValue.Canonical)
      (keep : FieldKey → HeapValue → Bool) : (m.filter keep).Forall HeapValue.Canonical := by
    intro key v hv
    rw [SortedMap.get?_filter] at hv
    exact hm key v (Option.filter_eq_some_iff.1 hv).1
  constructor
  · refine forall_ofEntry fun key v hv => ?_
    rw [SortedMap.get?_filterMap] at hv
    obtain ⟨a, ha, hv⟩ := Option.bind_eq_some_iff.1 hv
    obtain ⟨b, hb, rfl⟩ := Option.map_eq_some_iff.1 hv
    exact hop a b (ours key a ha) (theirs key b hb)
  · refine forall_ofEntry (hfilter ?_ _)
    have hsometimes : ∀ m ∈ sometimes e f, m.Forall HeapValue.Canonical := by
      intro m hm
      simp only [sometimes, List.mem_cons, List.not_mem_nil, or_false] at hm
      rcases hm with rfl | rfl | rfl | rfl
      · exact hfilter ours _
      · exact hfilter theirs _
      · exact forall_byField he.may
      · exact forall_byField hf.may
    exact List.foldlRecOn (sometimes e f) _ SortedMap.forall_empty
      fun m hm n hn => hm.unionWith (hsometimes n hn) hop

theorem Canonical.widen (he : e.Canonical) (hf : f.Canonical) (n : Nat) : (e.widen f n).Canonical :=
  he.mergeBy (fun _ _ ha hb => ha.mergeBy (fun _ _ => Value.Canonical.widen) hb) hf

end HeapEffects

namespace Heap

theorem Canonical.invalidateEscaping {h : Heap} (hh : h.Canonical) (p : PointsTo) (nodes : List Nat) :
    (h.invalidateEscaping p nodes).Canonical := (HeapEffects.canonical_unknown _).apply hh

end Heap

end ValueFlow
