import ValueFlow.Proofs.Heap.Tracks
import ValueFlow.Proofs.Objects.Runs
/-!
States of the analysis cover points of runs.

Every object of a run has a label, the abstract object that stands for it. A heap covers a point of
a run if all labels were created, a label that stands for one object only is carried by one object
only, and the slots of a label cover the fields of all objects that carry it. So a write may replace
what a slot holds exactly where one object is meant. A heap in which functions start to run need not
know which labels were created: it shows the fields of objects, and that is enough to read them.
-/

namespace ValueFlow

namespace World

/-- Whether one point of a run follows from another by nothing but making objects. -/
structure Extends (σ σ' : World) : Prop where
  vars : σ'.vars = σ.vars
  sites : σ.sites <+: σ'.sites
  fields : ∀ l < σ.sites.length, σ'.fields l = σ.fields l

variable {σ σ' τ : World} {l site : Nat} {x y : String} {d : Datum}

theorem Extends.refl (σ : World) : σ.Extends σ := ⟨rfl, List.prefix_rfl, fun _ _ => rfl⟩

theorem Extends.trans (h : σ.Extends σ') (h' : σ'.Extends τ) : σ.Extends τ where
  vars := h'.vars.trans h.vars
  sites := h.sites.trans h'.sites
  fields _ hl := (h'.fields _ (Nat.lt_of_lt_of_le hl h.sites.length_le)).trans (h.fields _ hl)

theorem Extends.getElem? (h : σ.Extends σ') (hl : σ.sites[l]? = some site) :
    σ'.sites[l]? = some site := by
  obtain ⟨more, hmore⟩ := h.sites
  obtain ⟨hlt, -⟩ := List.getElem?_eq_some_iff.1 hl
  rw [← hmore, List.getElem?_append_left hlt, hl]

theorem Extends.field (h : σ.Extends σ') (hl : σ.sites[l]? = some site) :
    σ'.fields l = σ.fields l :=
  h.fields l (List.getElem?_eq_some_iff.1 hl).1

theorem Extends.datum? (h : σ.Extends σ') (x : String) : σ'.datum? x = σ.datum? x := by
  rw [World.datum?, World.datum?, h.vars]

theorem extends_create (σ : World) (site : Nat) : σ.Extends (σ.create site) where
  vars := rfl
  sites := List.prefix_append _ _
  fields _ hl := if_neg (Nat.ne_of_lt hl)

theorem getElem?_create {t : Nat} (h : (σ.create site).sites[l]? = some t) :
    σ.sites[l]? = some t ∨ l = σ.sites.length ∧ t = site := by
  rw [create, List.getElem?_append] at h
  split at h
  · exact .inl h
  · next hl =>
      obtain ⟨hlt, rfl⟩ := List.getElem?_eq_some_iff.1 h
      rw [List.length_singleton] at hlt
      refine .inr ⟨by omega, ?_⟩
      simp

theorem datum?_set (σ : World) (x y : String) (b : Named) : (σ.set x b).datum? y =
    if y = x then (match b with | .datum d => some d | .callable => none) else σ.datum? y := by
  unfold datum? set
  by_cases hy : y = x
  · subst hy
    cases b <;> simp
  · simp [hy]

theorem fields_setField (σ : World) (l m : Nat) (x y : String) (d : Datum) :
    (σ.setField l x d).fields m y = if m = l ∧ y = x then some d else σ.fields m y := rfl

end World

namespace Slot

variable {s t : Slot} {d : Datum}

/-- Whether a slot covers the value of a field that is set. -/
def Covers : Slot → Datum → Prop
  | unset, _ => False
  | unknown, _ => True
  | holds v, d => v.abstraction.Covers d

theorem Covers.mono (h : s.Covers d) (hle : s.leq t = true) : t.Covers d := by
  cases s with
  | unset => cases h
  | unknown =>
      cases t with
      | unknown => trivial
      | unset | holds => cases hle
  | holds v =>
      cases t with
      | unset => cases hle
      | unknown => trivial
      | holds w => exact Value.Covers.mono h (HeapValue.leq_iff.1 hle)

end Slot

namespace Heap

variable {label : Nat → Nat} {h k : Heap} {σ σ' : World} {l site : Nat} {x : String} {d : Datum}
  {targets : SortedSet Nat} {op : HeapValue → HeapValue → HeapValue}

/-- Whether a heap covers a point of a run, in which the objects of a constructor call carry the
label of the call. -/
structure Covers (label : Nat → Nat) (h : Heap) (σ : World) : Prop where
  reachable : h.reachable = true
  allocated : ∀ {l site : Nat}, σ.sites[l]? = some site → h.allocated.contains (label site) = true
  single : ∀ {l m s t : Nat}, σ.sites[l]? = some s → σ.sites[m]? = some t → label s = label t →
    h.summary.contains (label s) = false → l = m
  field : ∀ {l site : Nat} {x d}, σ.sites[l]? = some site → σ.fields l x = some d →
    (h.slot (label site, .attr x)).Covers d

/-- Whether a heap shows the fields of all objects in a point of a run. -/
structure Shows (label : Nat → Nat) (h : Heap) (σ : World) : Prop where
  reachable : h.reachable = true
  field : ∀ {l site : Nat} {x d}, σ.sites[l]? = some site → σ.fields l x = some d →
    (h.slot (label site, .attr x)).Covers d

theorem Covers.shows (h : Covers label k σ) : Shows label k σ := ⟨h.reachable, h.field⟩

theorem covers_start (label : Nat → Nat) : top.Covers label .start where
  reachable := rfl
  allocated h := by cases h
  single h := by cases h
  field h := by cases h

/-- A heap of which nothing is known shows whatever there is. -/
theorem shows_top (label : Nat → Nat) (σ : World) : top.Shows label σ :=
  ⟨rfl, fun _ _ => trivial⟩

/-- What shows a point of a run also shows it without the latest objects. -/
theorem Shows.shrink (h : Shows label k σ') (hext : σ.Extends σ') : Shows label k σ where
  reachable := h.reachable
  field hl hd := h.field (hext.getElem? hl) (by rw [hext.field hl]; exact hd)

theorem Shows.congr (h : Shows label k σ) (hsites : σ'.sites = σ.sites)
    (hfields : σ'.fields = σ.fields) : Shows label k σ' where
  reachable := h.reachable
  field hl hd := h.field (hsites ▸ hl) (hfields ▸ hd)

/-- Changes to the fields of the objects that carry one label. -/
theorem Shows.invalidate (h : Shows label k σ) {o : Nat} (hsites : σ'.sites = σ.sites)
    (hfields : ∀ l site, σ.sites[l]? = some site → label site ≠ o → σ'.fields l = σ.fields l) :
    Shows label (k.invalidate o) σ' where
  reachable := h.reachable
  field := by
    intro l site x d hl hd
    rw [hsites] at hl
    have htrack := congrArg Track.slot (k.track_invalidate (label site, .attr x) o)
    rw [apply_ite Track.slot] at htrack
    have hslot : (k.invalidate o).slot (label site, .attr x) = _ := htrack
    rw [hslot]
    by_cases ho : label site = o
    · rw [if_pos ho]
      exact trivial
    · rw [if_neg ho]
      exact h.field hl (hfields l site hl ho ▸ hd)

/-- What covers a point of a run also covers it without the latest objects. -/
theorem Covers.shrink (h : Covers label k σ') (hext : σ.Extends σ') : Covers label k σ where
  reachable := h.reachable
  allocated hl := h.allocated (hext.getElem? hl)
  single hl hm := h.single (hext.getElem? hl) (hext.getElem? hm)
  field := (h.shows.shrink hext).field

theorem Covers.congr (h : Covers label k σ) (hsites : σ'.sites = σ.sites)
    (hfields : σ'.fields = σ.fields) : Covers label k σ' where
  reachable := h.reachable
  allocated hl := h.allocated (hsites ▸ hl)
  single hl hm := h.single (hsites ▸ hl) (hsites ▸ hm)
  field := (h.shows.congr hsites hfields).field

/-- Changes to the fields of the objects that carry one label. -/
theorem Covers.invalidate (h : Covers label k σ) {o : Nat} (hsites : σ'.sites = σ.sites)
    (hfields : ∀ l site, σ.sites[l]? = some site → label site ≠ o → σ'.fields l = σ.fields l) :
    Covers label (k.invalidate o) σ' where
  reachable := h.reachable
  allocated hl := h.allocated (hsites ▸ hl)
  single hl hm := h.single (hsites ▸ hl) (hsites ▸ hm)
  field := (h.shows.invalidate hsites hfields).field

section Allocation

theorem slot_allocate (h : Heap) (object : Nat) (key : FieldKey) : (h.allocate object).slot key =
    if key.1 = object ∧ h.allocated.contains object = false ∧ h.summary.contains object = false
    then .unset else h.slot key := by
  have htrack := congrArg Track.slot (h.track_allocate key object)
  rw [show ((h.allocate object).track key).slot = (h.allocate object).slot key from rfl] at htrack
  rw [htrack]
  by_cases ho : key.1 = object
  · subst ho
    rw [if_pos rfl, Track.create]
    cases ha : h.allocated.contains key.1 <;> cases hs : h.summary.contains key.1 <;>
      simp [track, ha, hs]
  · simp [ho, track]

theorem contains_allocated_allocate (h : Heap) (object o : Nat) :
    (h.allocate object).allocated.contains o = (decide (o = object) || h.allocated.contains o) := by
  have htrack := congrArg Track.allocated (h.track_allocate (o, .elements) object)
  by_cases ho : o = object
  · subst ho
    rw [if_pos rfl, Track.create] at htrack
    cases ha : h.allocated.contains o <;> simp_all [track]
  · simp_all [track]

theorem contains_summary_allocate (h : Heap) (object o : Nat) :
    (h.allocate object).summary.contains o =
      (decide (o = object) && h.allocated.contains o || h.summary.contains o) := by
  have htrack := congrArg Track.summary (h.track_allocate (o, .elements) object)
  by_cases ho : o = object
  · subst ho
    rw [if_pos rfl, Track.create] at htrack
    cases ha : h.allocated.contains o <;> simp_all [track]
  · simp_all [track]

/-- Making an object. A label that is already carried stands for several from now on. -/
theorem Covers.create (h : Covers label k σ) (site : Nat) :
    Covers label (k.allocate (label site)) (σ.create site) where
  reachable := by rw [reachable_allocate, h.reachable]
  allocated := by
    intro l t hl
    rw [contains_allocated_allocate, Bool.or_eq_true, decide_eq_true_eq]
    rcases World.getElem?_create hl with hl | ⟨-, rfl⟩
    · exact .inr (h.allocated hl)
    · exact .inl rfl
  single := by
    intro l m s t hl hm hlabel hsingle
    rw [contains_summary_allocate, Bool.or_eq_false_iff, Bool.and_eq_false_iff] at hsingle
    obtain ⟨hnew, hsingle⟩ := hsingle
    -- an old object with the label of the new one would make the label stand for several
    have hold : ∀ {l' s' : Nat}, σ.sites[l']? = some s' → label s' = label s →
        label s ≠ label site := by
      intro l' s' hl' hs' hne
      rw [← hs', h.allocated hl', hs', hne] at hnew
      simp at hnew
    rcases World.getElem?_create hl with hl' | ⟨rfl, rfl⟩
    · rcases World.getElem?_create hm with hm' | ⟨rfl, rfl⟩
      · exact h.single hl' hm' hlabel hsingle
      · exact absurd hlabel (hold hl' rfl)
    · rcases World.getElem?_create hm with hm' | ⟨rfl, rfl⟩
      · exact absurd rfl (hold hm' hlabel.symm)
      · rfl
  field := by
    intro l t x d hl hd
    rcases World.getElem?_create hl with hl | ⟨rfl, rfl⟩
    · rw [(World.extends_create σ site).field hl] at hd
      rw [slot_allocate, if_neg]
      · exact h.field hl hd
      · rintro ⟨hlabel, hnone, -⟩
        dsimp only at hlabel
        rw [← hlabel, h.allocated hl] at hnone
        cases hnone
    · simp [World.create] at hd

end Allocation

section Fields

theorem Shows.getField (h : Shows label k σ) (hl : σ.sites[l]? = some site)
    (hd : σ.fields l x = some d) : (k.getField (label site) (.attr x)).Covers d := by
  have hslot := h.field hl hd
  rw [slot_eq] at hslot
  rw [Heap.getField]
  cases hv : k.fields.get? (label site, .attr x) with
  | none => exact Value.covers_top d
  | some v =>
      rw [hv] at hslot
      exact hslot

theorem covers_joinAll {v : Value} {vs : List Value} (hv : v ∈ vs) (h : v.Covers d) :
    (AbstractDomain.joinAll vs).Covers d := by
  have hfold : ∀ (vs : List Value) (acc : Value), acc.Covers d ∨ v ∈ vs →
      (vs.foldl Value.join acc).Covers d := by
    intro vs
    induction vs with
    | nil =>
        intro acc hacc
        exact hacc.resolve_right List.not_mem_nil
    | cons w rest ih =>
        intro acc hacc
        apply ih
        rcases hacc with hacc | hmem
        · exact .inl (hacc.join_left w)
        · rcases List.mem_cons.1 hmem with rfl | hmem
          · exact .inl (h.join_right acc)
          · exact .inr hmem
  exact hfold vs _ (.inr hv)

/-- Reading a field of one of several objects. -/
theorem Shows.getFieldOf (h : Shows label k σ) (hl : σ.sites[l]? = some site)
    (htarget : label site ∈ targets) (hd : σ.fields l x = some d) :
    (k.getFieldOf targets (.attr x)).Covers d := by
  rw [Heap.getFieldOf]
  split
  · exact Value.covers_top d
  · exact covers_joinAll (List.mem_map_of_mem htarget) (h.getField hl hd)

theorem slot_setField (h : Heap) (hr : h.reachable = true) (targets : SortedSet Nat)
    (field : HeapField) (v : HeapValue) (key : FieldKey) :
    (h.setField targets field v).slot key =
      if key.2 = field ∧ key.1 ∈ targets.toList then
        if targets.single?.isNone || h.summary.contains key.1 then (h.slot key).join (.holds v)
        else .holds v
      else h.slot key := by
  have htrack := congrArg Track.slot (h.track_setField key field v targets)
  rw [show ((h.setField targets field v).track key).slot = (h.setField targets field v).slot key
    from rfl, Track.perform] at htrack
  rw [htrack]
  by_cases hk : key.2 = field ∧ key.1 ∈ targets.toList
  · rw [if_pos hk, if_pos ⟨hr, hk⟩]
    rfl
  · rw [if_neg hk, if_neg fun h => hk h.2]
    rfl

theorem allocated_setField (h : Heap) (targets : SortedSet Nat) (field : HeapField) (v : HeapValue)
    (o : Nat) : (h.setField targets field v).allocated.contains o = h.allocated.contains o := by
  have htrack := congrArg Track.allocated (h.track_setField (o, field) field v targets)
  rw [Track.perform] at htrack
  split at htrack <;> exact htrack

theorem summary_setField (h : Heap) (targets : SortedSet Nat) (field : HeapField) (v : HeapValue)
    (o : Nat) : (h.setField targets field v).summary.contains o = h.summary.contains o := by
  have htrack := congrArg Track.summary (h.track_setField (o, field) field v targets)
  rw [Track.perform] at htrack
  split at htrack <;> exact htrack

/-- Writing a field of one of several objects. What is replaced belongs to the object written. -/
theorem Covers.setField (h : Covers label k σ) {v : HeapValue} (hl : σ.sites[l]? = some site)
    (htarget : label site ∈ targets) (hv : v.abstraction.Covers d) (x : String) :
    Covers label (k.setField targets (.attr x) v) (σ.setField l x d) where
  reachable := by rw [reachable_setField, h.reachable]
  allocated hm := by
    rw [allocated_setField]
    exact h.allocated hm
  single hm hm' hlabel hsingle := by
    rw [summary_setField] at hsingle
    exact h.single hm hm' hlabel hsingle
  field := by
    intro m t y e hm he
    have hm : σ.sites[m]? = some t := hm
    rw [World.fields_setField] at he
    rw [slot_setField _ h.reachable]
    by_cases hml : m = l ∧ y = x
    · obtain ⟨rfl, rfl⟩ := hml
      rw [if_pos ⟨rfl, rfl⟩] at he
      cases he
      cases hm.symm.trans hl
      have hholds : (Slot.holds v).Covers d := hv
      rw [if_pos ⟨rfl, htarget⟩]
      split
      · exact hholds.mono (Slot.leq_join_right _ _)
      · exact hholds
    · rw [if_neg hml] at he
      have hold := h.field hm he
      split
      · next hkey =>
          split
          · exact hold.mono (Slot.leq_join_left _ _)
          · next hstrong =>
              -- a single target that one object carries is the object written
              exfalso
              simp only [Bool.or_eq_true, not_or, Bool.not_eq_true, Option.isNone_eq_false_iff]
                at hstrong
              obtain ⟨o, ho⟩ := Option.isSome_iff_exists.1 hstrong.1
              have hlist := SortedSet.single?_eq_some_iff.1 ho
              rw [hlist, List.mem_singleton] at hkey
              rw [SortedSet.mem_def, hlist, List.mem_singleton] at htarget
              have hlabel : label t = label site := hkey.2.trans htarget.symm
              refine hml ⟨h.single hm hl hlabel hstrong.2, ?_⟩
              exact HeapField.attr.inj hkey.1
      · exact hold

end Fields

section Merging

theorem get?_merged (value : FieldKey → Option HeapValue) (keys : List FieldKey) (key : FieldKey) :
    (keys.foldl (fun (fields : SortedMap FieldKey HeapValue) key =>
      match value key with
      | some v => fields.insert key v
      | none => fields) ∅).get? key = if key ∈ keys then value key else none := by
  have hfold : ∀ (keys : List FieldKey) (fields : SortedMap FieldKey HeapValue),
      (keys.foldl (fun fields key =>
        match value key with
        | some v => fields.insert key v
        | none => fields) fields).get? key =
      if key ∈ keys then (value key).or (fields.get? key) else fields.get? key := by
    intro keys
    induction keys with
    | nil => intro fields; rfl
    | cons k rest ih =>
        intro fields
        rw [List.foldl_cons, ih]
        by_cases hk : key = k
        · subst hk
          cases value key <;> simp [SortedMap.get?_insert]
        · cases value k <;> simp [SortedMap.get?_insert, hk]
  rw [hfold]
  simp [show (∅ : SortedMap FieldKey HeapValue).get? key = none from rfl]

theorem slot_mergeBy (hh : h.reachable = true) (hk : k.reachable = true) (key : FieldKey) :
    (h.mergeBy op k).slot key = (h.slot key).mergeBy op (k.slot key) := by
  have hfields : (h.mergeBy op k).fields.get? key =
      ((h.slot key).mergeBy op (k.slot key)).value? := by
    rw [Heap.mergeBy, hh, hk]
    dsimp only
    rw [if_neg (by decide), if_neg (by decide)]
    refine (get?_merged _ _ key).trans ?_
    split
    · rfl
    · next hmem =>
        have hnone : h.fields.get? key = none ∧ k.fields.get? key = none := by
          simp only [← SortedSet.mem_def, SortedSet.mem_ofList, List.mem_append, not_or] at hmem
          refine ⟨?_, ?_⟩ <;> refine Option.eq_none_iff_forall_not_mem.2 fun v hv => ?_
          · exact hmem.1 (List.mem_map_of_mem (SortedMap.get?_eq_some_iff.1 hv))
          · exact hmem.2 (List.mem_map_of_mem (SortedMap.get?_eq_some_iff.1 hv))
        rw [slot_eq, slot_eq, hnone.1, hnone.2]
        cases h.initialized.contains key.1 <;> cases k.initialized.contains key.1 <;> rfl
  have hinit : (h.mergeBy op k).initialized.contains key.1 =
      (h.initialized.contains key.1 && k.initialized.contains key.1) := by
    rw [Heap.mergeBy, hh, hk]
    dsimp only
    rw [if_neg (by decide), if_neg (by decide), Bool.eq_iff_iff, SortedSet.contains_iff,
      SortedSet.mem_inter, Bool.and_eq_true, SortedSet.contains_iff, SortedSet.contains_iff]
  rw [slot_eq, hfields, hinit, slot_eq, slot_eq]
  cases h.fields.get? key <;> cases k.fields.get? key <;>
    cases h.initialized.contains key.1 <;> cases k.initialized.contains key.1 <;> rfl

theorem mergeBy_eq (hh : h.reachable = true) (hk : k.reachable = true) :
    (h.mergeBy op k).allocated = h.allocated.union k.allocated ∧
      (h.mergeBy op k).summary = h.summary.union k.summary := by
  rw [Heap.mergeBy, hh, hk]
  exact ⟨rfl, rfl⟩

theorem contains_union (s t : SortedSet Nat) (o : Nat) :
    (s.union t).contains o = (s.contains o || t.contains o) := by
  rw [Bool.eq_iff_iff, SortedSet.contains_iff, SortedSet.mem_union, Bool.or_eq_true,
    SortedSet.contains_iff, SortedSet.contains_iff]

theorem Shows.mergeBy_left (h' : Shows label h σ) (hk : k.reachable = true)
    (hop : ∀ a b : HeapValue, a.leq (op a b) = true) : Shows label (h.mergeBy op k) σ where
  reachable := reachable_mergeBy op h'.reachable hk
  field hl hd := by
    rw [slot_mergeBy h'.reachable hk]
    exact (h'.field hl hd).mono (Slot.leq_mergeBy_left hop _ _)

theorem Shows.mergeBy_right (h' : Shows label k σ) (hh : h.reachable = true)
    (hop : ∀ a b : HeapValue, b.leq (op a b) = true) : Shows label (h.mergeBy op k) σ where
  reachable := reachable_mergeBy op hh h'.reachable
  field hl hd := by
    rw [slot_mergeBy hh h'.reachable]
    exact (h'.field hl hd).mono (Slot.leq_mergeBy_right hop _ _)

theorem Covers.mergeBy_left (h' : Covers label h σ) (hk : k.reachable = true)
    (hop : ∀ a b : HeapValue, a.leq (op a b) = true) : Covers label (h.mergeBy op k) σ := by
  obtain ⟨hallocated, hsummary⟩ : (h.mergeBy op k).allocated = h.allocated.union k.allocated ∧
    (h.mergeBy op k).summary = h.summary.union k.summary := mergeBy_eq h'.reachable hk
  have hshows := h'.shows.mergeBy_left hk hop
  refine ⟨hshows.reachable, ?_, ?_, hshows.field⟩
  · intro l site hl
    rw [hallocated, contains_union, h'.allocated hl, Bool.true_or]
  · intro l m s t hl hm hlabel hsingle
    rw [hsummary, contains_union, Bool.or_eq_false_iff] at hsingle
    exact h'.single hl hm hlabel hsingle.1

theorem Covers.mergeBy_right (h' : Covers label k σ) (hh : h.reachable = true)
    (hop : ∀ a b : HeapValue, b.leq (op a b) = true) : Covers label (h.mergeBy op k) σ := by
  obtain ⟨hallocated, hsummary⟩ : (h.mergeBy op k).allocated = h.allocated.union k.allocated ∧
    (h.mergeBy op k).summary = h.summary.union k.summary := mergeBy_eq hh h'.reachable
  have hshows := h'.shows.mergeBy_right hh hop
  refine ⟨hshows.reachable, ?_, ?_, hshows.field⟩
  · intro l site hl
    rw [hallocated, contains_union, h'.allocated hl, Bool.or_true]
  · intro l m s t hl hm hlabel hsingle
    rw [hsummary, contains_union, Bool.or_eq_false_iff] at hsingle
    exact h'.single hl hm hlabel hsingle.2

theorem Shows.mono (h' : Shows label h σ) (hle : h.leq k = true) : Shows label k σ := by
  rw [leq, h'.reachable] at hle
  simp only [Bool.not_true, Bool.false_or, Bool.and_eq_true, SortedSet.subset_iff,
    List.all_eq_true] at hle
  obtain ⟨⟨⟨⟨⟨⟨⟨hreach, -⟩, -⟩, -⟩, hinit⟩, -⟩, -⟩, hslots⟩ := hle
  refine ⟨hreach, ?_⟩
  intro l site x d hl hd
  have hslot := h'.field hl hd
  by_cases hkey : (label site, HeapField.attr x) ∈ h.fields.keys ++ k.fields.keys
  · exact hslot.mono (hslots _ hkey)
  · have hnone : ∀ m : Heap, (label site, HeapField.attr x) ∉ m.fields.keys →
        m.fields.get? (label site, .attr x) = none := by
      intro m hm
      refine Option.eq_none_iff_forall_not_mem.2 fun v hv => hm ?_
      exact List.mem_map_of_mem (SortedMap.get?_eq_some_iff.1 hv)
    rw [List.mem_append, not_or] at hkey
    rw [slot_eq, hnone h hkey.1] at hslot
    rw [slot_eq, hnone k hkey.2]
    cases hk : k.initialized.contains (label site) with
    | false => exact trivial
    | true =>
        rw [SortedSet.contains_iff.2 (hinit _ (SortedSet.contains_iff.1 hk))] at hslot
        exact hslot

theorem Covers.mono (h' : Covers label h σ) (hle : h.leq k = true) : Covers label k σ := by
  have hshows := h'.shows.mono hle
  rw [leq, h'.reachable] at hle
  simp only [Bool.not_true, Bool.false_or, Bool.and_eq_true, SortedSet.subset_iff] at hle
  obtain ⟨⟨⟨⟨⟨⟨⟨-, hallocated⟩, hsummary⟩, -⟩, -⟩, -⟩, -⟩, -⟩ := hle
  refine ⟨hshows.reachable, ?_, ?_, hshows.field⟩
  · intro l site hl
    exact SortedSet.contains_iff.2 (hallocated _ (SortedSet.contains_iff.1 (h'.allocated hl)))
  · intro l m s t hl hm hlabel hsingle
    refine h'.single hl hm hlabel (SortedSet.contains_eq_false_iff.2 fun hmem => ?_)
    exact SortedSet.contains_eq_false_iff.1 hsingle (hsummary _ hmem)

end Merging

end Heap

namespace Environment

variable {e f : Environment} {σ σ' : World} {x : String} {v : Value} {d : Datum}
  {domains : DomainSet}

/-- Whether an environment covers the variables of a point of a run. -/
structure Covers (domains : DomainSet) (e : Environment) (σ : World) : Prop where
  kept : e.Describes domains fun _ => none
  value : ∀ {x d}, σ.datum? x = some d → (e.components x).Covers d

theorem covers_top (domains : DomainSet) (σ : World) : top.Covers domains σ :=
  ⟨describes_top domains _, fun _ => Value.covers_top _⟩

theorem Covers.congr (h : e.Covers domains σ) (hvars : σ'.vars = σ.vars) : e.Covers domains σ' := by
  refine ⟨h.kept, fun {x d} hx => h.value ?_⟩
  rwa [World.datum?, hvars] at hx

theorem Covers.get (h : e.Covers domains σ) (hx : σ.datum? x = some d) : (e.get x).Covers d := by
  rw [Environment.get, if_pos h.kept.reachable]
  exact (h.value hx).reduce

/-- Binding a variable to a description of what it holds afterwards. -/
theorem Covers.write (h : e.Covers domains σ) (hv : v.isBottom = false)
    (hx : ∀ {d}, σ'.datum? x = some d → v.Covers d)
    (hother : ∀ {y}, y ≠ x → σ'.datum? y = σ.datum? y) :
    (e.set x v domains).Covers domains σ' := by
  refine ⟨h.kept.write hv (fun hu => nomatch hu) fun _ => rfl, ?_⟩
  intro y d hd
  rw [h.kept.components_set hv]
  split
  · next hy =>
      subst hy
      exact (Value.under_mask domains v).covers (hx hd)
  · next hy => exact h.value (hother hy ▸ hd)

theorem Covers.set (h : e.Covers domains σ) (hv : v.Covers d) :
    (e.set x v domains).Covers domains (σ.set x (.datum d)) := by
  apply h.write hv.not_isBottom
  · intro d' hd'
    rw [World.datum?_set, if_pos rfl] at hd'
    cases hd'
    exact hv
  · intro y hy
    rw [World.datum?_set, if_neg hy]

theorem Covers.define (h : e.Covers domains σ) (hv : v.isBottom = false) :
    (e.set x v domains).Covers domains (σ.set x .callable) := by
  apply h.write hv
  · intro d' hd'
    rw [World.datum?_set, if_pos rfl] at hd'
    cases hd'
  · intro y hy
    rw [World.datum?_set, if_neg hy]

theorem Covers.refine (h : e.Covers domains σ) (hx : σ.datum? x = some d) (hv : v.Covers d) :
    (e.refine x v domains).Covers domains σ := by
  have hmeet := (h.get hx).meet hv
  apply h.write hmeet.not_isBottom
  · intro d' hd'
    cases hx.symm.trans hd'
    exact hmeet
  · intro y _
    rfl

theorem Covers.under (h : e.Covers domains σ) (hf : f.Describes domains fun _ => none)
    (hu : ∀ x, (e.components x).Under (f.components x)) : f.Covers domains σ :=
  ⟨hf, fun hx => (hu _).covers (h.value hx)⟩

theorem Covers.join_left (h : e.Covers domains σ) (hf : f.reachable = true) :
    (e.join f).Covers domains σ := by
  apply h.under (h.kept.join_left hf)
  intro x
  rw [components_join h.kept.reachable hf]
  exact Value.under_join_left _ _

theorem Covers.join_right (h : f.Covers domains σ) (he : e.reachable = true) :
    (e.join f).Covers domains σ := by
  apply h.under (h.kept.join_right he)
  intro x
  rw [components_join he h.kept.reachable]
  exact Value.under_join_right _ _

theorem Covers.widen_right (h : f.Covers domains σ) (he : e.reachable = true) (n : Nat) :
    (e.widen f n).Covers domains σ := by
  apply h.under (h.kept.widen_right he n)
  intro x
  rw [components_widen he h.kept.reachable]
  exact Value.under_widen_right _ _

theorem Covers.mono (h : e.Covers domains σ) (hle : e.leq f = true) : f.Covers domains σ := by
  obtain ⟨-, hfiner⟩ := leq_iff.1 hle h.kept.reachable
  exact h.under (h.kept.mono hle) fun x => (hfiner x).under

end Environment

namespace ProgramState

variable {s t : ProgramState} {σ σ' : World} {x : String} {v : Value} {d : Datum}
  {domains : DomainSet} {label : Nat → Nat} {precise : Prop}

/-- Whether a state covers a point of a run. Where the objects are known exactly, its heap covers
them; otherwise the heap shows their fields. -/
structure Covers (domains : DomainSet) (label : Nat → Nat) (precise : Prop) (s : ProgramState)
    (σ : World) : Prop where
  env : s.env.Covers domains σ
  shows : s.heap.Shows label σ
  heap : precise → s.heap.Covers label σ

theorem covers_start (domains : DomainSet) (label : Nat → Nat) (precise : Prop) :
    top.Covers domains label precise .start :=
  ⟨Environment.covers_top domains _, Heap.shows_top label _, fun _ => Heap.covers_start label⟩

/-- A state that knows nothing covers every point of a run, where the objects need not be known
exactly. -/
theorem covers_top (domains : DomainSet) (label : Nat → Nat) (hprecise : ¬ precise) (σ : World) :
    top.Covers domains label precise σ :=
  ⟨Environment.covers_top domains σ, Heap.shows_top label σ, fun hp => absurd hp hprecise⟩

theorem Covers.isReachable (h : s.Covers domains label precise σ) : s.isReachable = true := by
  rw [ProgramState.isReachable, h.env.kept.reachable, h.shows.reachable]
  rfl

theorem Covers.normalize (h : s.Covers domains label precise σ) : s.normalize = s :=
  if_pos h.isReachable

theorem Covers.shrink (h : s.Covers domains label precise σ') (hext : σ.Extends σ') :
    s.Covers domains label precise σ :=
  ⟨h.env.congr hext.vars.symm, h.shows.shrink hext, fun hprecise => (h.heap hprecise).shrink hext⟩

theorem Covers.congr (h : s.Covers domains label precise σ) (hvars : σ'.vars = σ.vars)
    (hsites : σ'.sites = σ.sites) (hfields : σ'.fields = σ.fields) :
    s.Covers domains label precise σ' :=
  ⟨h.env.congr hvars, h.shows.congr hsites hfields,
    fun hprecise => (h.heap hprecise).congr hsites hfields⟩

theorem Covers.refine (h : s.Covers domains label precise σ) (hx : σ.datum? x = some d)
    (hv : v.Covers d) : (s.refine x v domains).Covers domains label precise σ :=
  ⟨h.env.refine hx hv, h.shows, h.heap⟩

def under (domains : DomainSet) (label : Nat → Nat) (precise : Prop) (s t : ProgramState) : Prop :=
  ∀ σ, s.Covers domains label precise σ → t.Covers domains label precise σ

theorem Covers.join_left (h : s.Covers domains label precise σ) (t : ProgramState) :
    (s.join t).Covers domains label precise σ := by
  rw [ProgramState.join, h.isReachable]
  cases ht : t.isReachable with
  | false => exact h
  | true =>
      rw [ProgramState.isReachable, Bool.and_eq_true] at ht
      exact ⟨h.env.join_left ht.1, h.shows.mergeBy_left ht.2 HeapValue.leq_join_left,
        fun hprecise => (h.heap hprecise).mergeBy_left ht.2 HeapValue.leq_join_left⟩

theorem Covers.join_right (h : t.Covers domains label precise σ) (s : ProgramState) :
    (s.join t).Covers domains label precise σ := by
  rw [ProgramState.join, h.isReachable, h.normalize]
  cases hs : s.isReachable with
  | false => exact h
  | true =>
      rw [ProgramState.isReachable, Bool.and_eq_true] at hs
      exact ⟨h.env.join_right hs.1, h.shows.mergeBy_right hs.2 HeapValue.leq_join_right,
        fun hprecise => (h.heap hprecise).mergeBy_right hs.2 HeapValue.leq_join_right⟩

theorem Covers.widen_right (h : t.Covers domains label precise σ) (s : ProgramState) (n : Nat) :
    (s.widen t n).Covers domains label precise σ := by
  have hop (a b : HeapValue) : b.leq (a.widen b n) = true :=
    HeapValue.leq_mergeBy_right Value.leq_widen_right a b
  rw [ProgramState.widen, h.isReachable, h.normalize]
  cases hs : s.isReachable with
  | false => exact h
  | true =>
      rw [ProgramState.isReachable, Bool.and_eq_true] at hs
      exact ⟨h.env.widen_right hs.1 n, h.shows.mergeBy_right hs.2 hop,
        fun hprecise => (h.heap hprecise).mergeBy_right hs.2 hop⟩

theorem Covers.mono (h : s.Covers domains label precise σ) (hle : s.leq t = true) :
    t.Covers domains label precise σ := by
  rw [leq, h.isReachable, Bool.not_true, Bool.false_or, Bool.and_eq_true, Bool.and_eq_true] at hle
  exact ⟨h.env.mono hle.1.2, h.shows.mono hle.2, fun hprecise => (h.heap hprecise).mono hle.2⟩

theorem ascending_under (domains : DomainSet) (label : Nat → Nat) (precise : Prop) :
    Fixpoint.Ascending (under domains label precise) where
  refl _ _ h := h
  trans hst htu σ h := htu σ (hst σ h)
  of_leq hle _ h := h.mono hle
  join_left _ t _ h := h.join_left t
  join_right s _ _ h := h.join_right s
  widen_right s _ n _ h := h.widen_right s n

end ProgramState

end ValueFlow
