import ValueFlow.Proofs.Domain.Lattice
import ValueFlow.Proofs.Heap.Lattice
/-!
The heap at an entry, lower bounds of heaps, and the order as it shows in joins.

The heap at an entry knows nothing but also logs nothing, so only heaps that log nothing are below
it. The meet of two heaps takes what is known and logged from the first of them, so it is below the
second only if that says no more there; and it takes from both which objects are created, so it can
lose a field of an object that only the second has created. Joins drop what kind of contents a field
had as soon as two differ, so the order is that of the joins when contents count as what they
describe.
-/

namespace ValueFlow

namespace Value

variable {a b : Value}

/-- Joining a value with one above gives the one above, whatever form they have. -/
theorem join_eq_of_leq (h : a.leq b = true) : a.join b = b := by
  cases ha : a.isBottom with
  | true => exact join_bottom_left ha b
  | false =>
      have hfiner := finer_of_leq h ha
      have hb := hfiner.not_isBottom ha
      have hempty := not_isEmpty_of_not_isBottom ha
      have hrange : a.range.join b.range = b.range := Interval.leq_antisymm
        (Interval.not_isEmpty_of_leq hempty (Interval.leq_join_left _ _))
        (Interval.join_leq hfiner.range (Interval.leq_refl _)) (Interval.leq_join_right _ _)
      rw [join_eq ha hb, hrange,
        Sign.leq_antisymm (Sign.join_leq hfiner.sign (Sign.leq_refl _)) (Sign.leq_join_right _ _),
        Nullability.leq_antisymm (Nullability.join_leq hfiner.nullability (Nullability.leq_refl _))
          (Nullability.leq_join_right _ _)]

end Value

namespace HeapValue

variable {a b : HeapValue}

def untag (v : HeapValue) : HeapValue := .merged v.abstraction

theorem untag_eq_iff : a.untag = b.untag ↔ a.abstraction = b.abstraction := by
  rw [untag, untag, merged.injEq]

theorem leq_of_untag_eq (h : a.untag = b.untag) : a.leq b = true :=
  leq_iff.2 (untag_eq_iff.1 h ▸ Value.leq_refl _)

theorem untag_join_of_leq (h : a.leq b = true) : (a.join b).untag = b.untag := by
  by_cases heq : a = b
  · rw [heq, join_self]
  · rw [join_of_ne heq, untag_eq_iff]
    exact Value.join_eq_of_leq (leq_iff.1 h)

end HeapValue

namespace Slot

variable {s t : Slot}

/-- Joining a slot with one above gives the one above, but for the kind of contents. -/
theorem value?_join_of_leq (h : s.leq t = true) :
    (s.join t).value?.map HeapValue.untag = t.value?.map HeapValue.untag := by
  cases s with
  | unset => rfl
  | unknown =>
      cases t with
      | unknown => rfl
      | unset | holds => cases h
  | holds a =>
      cases t with
      | unset => cases h
      | unknown => rfl
      | holds b => exact congrArg some (HeapValue.untag_join_of_leq h)

end Slot

namespace Heap

variable {a b c : Heap} {key : FieldKey}

/-- A heap whose contents count as what they describe. -/
def untag (h : Heap) : Heap :=
  { h with
    fields := h.fields.filterMap fun _ v => some v.untag
    mayWritten := h.mayWritten.filterMap fun _ v => some v.untag }

theorem get?_untag (m : SortedMap FieldKey HeapValue) (key : FieldKey) :
    (m.filterMap fun _ v => some v.untag).get? key = (m.get? key).map HeapValue.untag := by
  rw [SortedMap.get?_filterMap]
  cases m.get? key with
  | none => rfl
  | some v => rfl

section Order

theorem leq_of_unreachable (h : a.reachable = false) (b : Heap) : a.leq b = true :=
  leq_iff.2 fun h' => absurd (h.symm.trans h') Bool.false_ne_true

theorem slot_leq_of_fields (hinit : a.initialized = b.initialized)
    (hfields : (a.fields.get? key).map HeapValue.untag = (b.fields.get? key).map HeapValue.untag) :
    (a.slot key).leq (b.slot key) = true := by
  rw [slot_eq, slot_eq, hinit]
  cases ha : a.fields.get? key with
  | none =>
      cases hb : b.fields.get? key with
      | none => exact Slot.leq_refl _
      | some w =>
          rw [ha, hb] at hfields
          cases hfields
  | some v =>
      cases hb : b.fields.get? key with
      | none =>
          rw [ha, hb] at hfields
          cases hfields
      | some w =>
          rw [ha, hb] at hfields
          exact HeapValue.leq_of_untag_eq (Option.some.inj hfields)

/-- Heaps that differ in the kinds of contents only are below each other. -/
theorem leq_of_untag_eq (h : a.untag = b.untag) : a.leq b = true := by
  rw [untag, untag, Heap.mk.injEq] at h
  obtain ⟨hreach, hfields, hinit, halloc, hsum, hmust, hmay, hinv⟩ := h
  refine leq_iff.2 fun hr => ⟨hreach ▸ hr, fun key => ?_, fun o ho => hinit ▸ ho,
    fun o ho => halloc ▸ ho, fun o ho => hsum ▸ ho, fun key hkey => hmust ▸ hkey,
    fun key v hv => ?_, fun o ho => hinv ▸ ho⟩
  · refine slot_leq_of_fields hinit ?_
    rw [← get?_untag, ← get?_untag, hfields]
  · have hlog := get?_untag b.mayWritten key
    rw [← hmay, get?_untag, hv] at hlog
    obtain ⟨w, hw, heq⟩ := Option.map_eq_some_iff.1 hlog.symm
    exact ⟨w, hw, HeapValue.leq_of_untag_eq heq.symm⟩

/-- The log of a join with a heap above is the log above, but for the kinds of contents. -/
theorem Below.merge_mayWritten (h : a.Below b) (key : FieldKey) :
    (Option.merge HeapValue.join (a.mayWritten.get? key) (b.mayWritten.get? key)).map
      HeapValue.untag = (b.mayWritten.get? key).map HeapValue.untag := by
  cases hv : a.mayWritten.get? key with
  | none => rw [Option.merge_none_left]
  | some v =>
      obtain ⟨w, hw, hle⟩ := h.mayWritten key v hv
      rw [hw]
      exact congrArg some (HeapValue.untag_join_of_leq hle)

theorem Below.untag_join (hr : a.reachable = true) (h : a.Below b) :
    (a.join b).untag = b.untag := by
  have hj := joins_join hr h.reachable
  refine eq_of_parts (hj.reachable.trans h.reachable.symm) (fun key => ?_) ?_ ?_ ?_ ?_
    (fun key => ?_) ?_
  · simp only [untag, get?_untag]
    rw [← value?_slot, ← value?_slot, hj.slot]
    exact Slot.value?_join_of_leq (h.slot key)
  · exact fun o => (hj.initialized o).trans (and_iff_right_of_imp (h.initialized o))
  · exact fun o => (hj.allocated o).trans (or_iff_right_of_imp (h.allocated o))
  · exact fun o => (hj.summary o).trans (or_iff_right_of_imp (h.summary o))
  · exact fun key => (hj.mustWritten key).trans (and_iff_right_of_imp (h.mustWritten key))
  · simp only [untag, get?_untag]
    rw [hj.mayWritten]
    exact h.merge_mayWritten key
  · exact fun o => (hj.invalidated o).trans (or_iff_right_of_imp (h.invalidated o))

theorem leq_iff_untag_join : a.leq b = true ↔ (a.join b).untag = b.untag := by
  constructor
  · intro h
    cases hr : a.reachable with
    | false => rw [join, mergeBy_of_unreachable_left hr]
    | true => exact (leq_iff.1 h hr).untag_join hr
  · exact fun h => leq_trans (leq_join a b).1 (leq_of_untag_eq h)

end Order

section Entry

theorem slot_top (key : FieldKey) : top.slot key = .unknown := rfl

/-- Below the heap at an entry are the heaps that log nothing. -/
theorem leq_top_iff : a.leq top = true ↔ a.reachable = false ∨ a.allocated = ∅ ∧ a.summary = ∅ ∧
    a.invalidated = ∅ ∧ a.mayWritten = ∅ := by
  have hset {α : Type} [SortKey α] {s : SortedSet α} : (∀ o ∈ s, o ∈ (∅ : SortedSet α)) ↔ s = ∅ :=
    ⟨fun h => SortedSet.ext_mem fun o => ⟨h o, fun ho => absurd ho SortedSet.not_mem_empty⟩,
      fun h => h ▸ fun _ ho => ho⟩
  constructor
  · intro h
    cases hr : a.reachable with
    | false => exact .inl rfl
    | true =>
        have hbelow := leq_iff.1 h hr
        refine .inr ⟨hset.1 hbelow.allocated, hset.1 hbelow.summary, hset.1 hbelow.invalidated,
          SortedMap.ext_get? fun key => ?_⟩
        cases hv : a.mayWritten.get? key with
        | none => rfl
        | some v =>
            obtain ⟨w, hw, -⟩ := hbelow.mayWritten key v hv
            cases hw
  · rintro (hr | ⟨hallocated, hsummary, hinv, hmay⟩)
    · exact leq_of_unreachable hr top
    · refine leq_iff.2 fun _ => ⟨rfl, fun key => slot_top key ▸ Slot.leq_unknown _, ?_,
        hset.2 hallocated, hset.2 hsummary, ?_, fun key v hv => ?_, hset.2 hinv⟩
      · exact fun _ ho => absurd ho SortedSet.not_mem_empty
      · exact fun _ hkey => absurd hkey SortedSet.not_mem_empty
      · rw [hmay] at hv
        cases hv

end Entry

section Meet

/-- A heap with what it and another agree on being created at most. -/
def meetCreated (a b : Heap) : Heap :=
  { a with
    initialized := a.initialized.union b.initialized
    allocated := a.allocated.inter b.allocated
    summary := a.summary.inter b.summary
    invalidated := a.invalidated.inter b.invalidated }

theorem meet_of_unreachable (h : a.reachable = false ∨ b.reachable = false) :
    a.meet b = bottom := by
  rw [meet, if_pos]
  rcases h with h | h
  · rw [h]
    rfl
  · rw [h, Bool.not_false, Bool.or_true]

/-- The meet of reachable heaps is the smaller one, if they are comparable. -/
theorem meet_cases (ha : a.reachable = true) (hb : b.reachable = true) :
    a.leq b = true ∧ a.meet b = a ∨ b.leq a = true ∧ a.meet b = b ∨
      ¬ a.leq b = true ∧ ¬ b.leq a = true ∧ a.meet b = meetCreated a b := by
  have hmeet : a.meet b =
      if a.leq b = true then a else if b.leq a = true then b else meetCreated a b := by
    rw [meet, if_neg (by rw [ha, hb]; decide)]
    rfl
  by_cases hab : a.leq b = true
  · exact .inl ⟨hab, hmeet.trans (if_pos hab)⟩
  · rw [if_neg hab] at hmeet
    by_cases hba : b.leq a = true
    · exact .inr (.inl ⟨hba, hmeet.trans (if_pos hba)⟩)
    · exact .inr (.inr ⟨hab, hba, hmeet.trans (if_neg hba)⟩)

theorem initialized_meetCreated (a b : Heap) (o : Nat) :
    (meetCreated a b).initialized.contains o =
      (a.initialized.contains o || b.initialized.contains o) := by
  rw [Bool.eq_iff_iff, Bool.or_eq_true, SortedSet.contains_iff, SortedSet.contains_iff,
    SortedSet.contains_iff]
  exact SortedSet.mem_union

theorem slot_meetCreated_of_mem (hkey : key ∈ a.fields.keys) :
    (meetCreated a b).slot key = a.slot key := by
  obtain ⟨v, hv⟩ := SortedMap.mem_keys.1 hkey
  have hv' : (meetCreated a b).fields.get? key = some v := hv
  rw [slot_eq, slot_eq, hv, hv', Option.elim_some, Option.elim_some]

theorem slot_meetCreated_of_not_mem (hkey : key ∉ a.fields.keys) : (meetCreated a b).slot key =
    if a.initialized.contains key.1 || b.initialized.contains key.1 then .unset else .unknown := by
  rw [← initialized_meetCreated]
  exact slot_of_not_mem_keys (h := meetCreated a b) hkey

theorem meetCreated_below_left (a b : Heap) (ha : a.reachable = true) :
    (meetCreated a b).Below a where
  reachable := ha
  slot key := by
    by_cases hkey : key ∈ a.fields.keys
    · rw [slot_meetCreated_of_mem hkey]
      exact Slot.leq_refl _
    · rw [slot_meetCreated_of_not_mem hkey, slot_of_not_mem_keys hkey]
      cases a.initialized.contains key.1 with
      | true => rfl
      | false => exact Slot.leq_unknown _
  initialized _ ho := SortedSet.mem_union.2 (.inl ho)
  allocated _ ho := (SortedSet.mem_inter.1 ho).1
  summary _ ho := (SortedSet.mem_inter.1 ho).1
  mustWritten _ hkey := hkey
  mayWritten _ v hv := ⟨v, hv, HeapValue.leq_refl v⟩
  invalidated _ ho := (SortedSet.mem_inter.1 ho).1

theorem meet_leq_left (a b : Heap) : (a.meet b).leq a = true := by
  by_cases hr : a.reachable = true ∧ b.reachable = true
  · rcases meet_cases hr.1 hr.2 with ⟨-, h⟩ | ⟨hba, h⟩ | ⟨-, -, h⟩
    · rw [h]
      exact leq_refl a
    · rw [h]
      exact hba
    · rw [h]
      exact leq_iff.2 fun _ => meetCreated_below_left a b hr.1
  · rw [not_and_or, Bool.not_eq_true, Bool.not_eq_true] at hr
    rw [meet_of_unreachable hr]
    exact leq_of_unreachable rfl a

/-- Whether a heap is below another in what the meet of incomparable heaps takes from it: the fields
that it stores and both logs. A field that it lacks must then be of an object that one of the two
has created. -/
structure Details (a b : Heap) : Prop where
  stored : ∀ key ∈ a.fields.keys, (a.slot key).leq (b.slot key) = true
  missing : ∀ key ∈ b.fields.keys, key ∉ a.fields.keys →
    key.1 ∈ a.initialized ∨ key.1 ∈ b.initialized
  mustWritten : ∀ key ∈ b.mustWritten, key ∈ a.mustWritten
  mayWritten : ∀ key v, a.mayWritten.get? key = some v →
    ∃ w, b.mayWritten.get? key = some w ∧ v.leq w = true

theorem Details.slot_leq (h : a.Details b) (key : FieldKey) :
    ((meetCreated a b).slot key).leq (b.slot key) = true := by
  by_cases hkey : key ∈ a.fields.keys
  · rw [slot_meetCreated_of_mem hkey]
    exact h.stored key hkey
  · rw [slot_meetCreated_of_not_mem hkey]
    split
    · rfl
    · next hinit =>
        rw [Bool.or_eq_true, SortedSet.contains_iff, SortedSet.contains_iff] at hinit
        have hkey' : key ∉ b.fields.keys := fun hkey' => hinit (h.missing key hkey' hkey)
        rw [slot_of_not_mem_keys hkey', if_neg fun hb => hinit (.inr (SortedSet.contains_iff.1 hb))]
        rfl

theorem meetCreated_below_right (hb : b.reachable = true) :
    (meetCreated a b).Below b ↔ a.Details b := by
  constructor
  · intro h
    refine ⟨fun key hkey => ?_, fun key hkey hkey' => ?_, h.mustWritten, h.mayWritten⟩
    · rw [← slot_meetCreated_of_mem hkey]
      exact h.slot key
    · obtain ⟨v, hv⟩ := exists_slot_eq_holds hkey
      have hslot := h.slot key
      rw [hv, slot_meetCreated_of_not_mem hkey'] at hslot
      split at hslot
      · next hinit =>
          rwa [Bool.or_eq_true, SortedSet.contains_iff, SortedSet.contains_iff] at hinit
      · cases hslot
  · intro h
    exact ⟨hb, h.slot_leq, fun _ ho => SortedSet.mem_union.2 (.inr ho),
      fun _ ho => (SortedSet.mem_inter.1 ho).2, fun _ ho => (SortedSet.mem_inter.1 ho).2,
      h.mustWritten, h.mayWritten, fun _ ho => (SortedSet.mem_inter.1 ho).2⟩

/-- Whether two heaps are comparable, or what their meet takes from the first is below the
second. -/
def MeetsWell (a b : Heap) : Prop := a.leq b = true ∨ b.leq a = true ∨ a.Details b

theorem meet_leq_right_iff : (a.meet b).leq b = true ↔ a.MeetsWell b := by
  by_cases hr : a.reachable = true ∧ b.reachable = true
  · rcases meet_cases hr.1 hr.2 with ⟨hab, h⟩ | ⟨hba, h⟩ | ⟨hab, hba, h⟩
    · rw [h]
      exact iff_of_true hab (.inl hab)
    · rw [h]
      exact iff_of_true (leq_refl b) (.inr (.inl hba))
    · rw [h, MeetsWell, or_iff_right hab, or_iff_right hba, leq_iff, ← meetCreated_below_right hr.2]
      exact forall_prop_of_true hr.1
  · rw [not_and_or, Bool.not_eq_true, Bool.not_eq_true] at hr
    rw [meet_of_unreachable hr]
    exact iff_of_true (leq_of_unreachable rfl b)
      (hr.elim (fun ha => .inl (leq_of_unreachable ha b))
        fun hb => .inr (.inl (leq_of_unreachable hb a)))

/-- Whether two heaps are comparable, or their meet keeps what a third stores: of objects that the
second has created, it stores no field that the first lacks. -/
def KeepsStored (a b c : Heap) : Prop :=
  a.leq b = true ∨ b.leq a = true ∨
    ∀ key ∈ c.fields.keys, key.1 ∈ b.initialized → key ∈ a.fields.keys

/-- A field of a created object that a smaller heap stores is stored. -/
theorem mem_keys_of_slot_leq (hle : (c.slot key).leq (a.slot key) = true)
    (hkey : key ∈ c.fields.keys) (hinit : key.1 ∈ a.initialized) : key ∈ a.fields.keys := by
  by_contra hnot
  obtain ⟨v, hv⟩ := exists_slot_eq_holds hkey
  rw [hv, slot_of_not_mem_keys hnot, if_pos (SortedSet.contains_iff.2 hinit)] at hle
  cases hle

theorem below_meetCreated_iff (hca : c.Below a) (hcb : c.Below b) : c.Below (meetCreated a b) ↔
    ∀ key ∈ c.fields.keys, key.1 ∈ b.initialized → key ∈ a.fields.keys := by
  constructor
  · intro h key hkey hinit
    exact mem_keys_of_slot_leq (a := meetCreated a b) (h.slot key) hkey
      (SortedSet.mem_union.2 (.inr hinit))
  · intro h
    have hinit (o : Nat) (ho : o ∈ (meetCreated a b).initialized) : o ∈ c.initialized :=
      (SortedSet.mem_union.1 ho).elim (hca.initialized o) (hcb.initialized o)
    refine ⟨hca.reachable, fun key => ?_, hinit,
      fun o ho => SortedSet.mem_inter.2 ⟨hca.allocated o ho, hcb.allocated o ho⟩,
      fun o ho => SortedSet.mem_inter.2 ⟨hca.summary o ho, hcb.summary o ho⟩, hca.mustWritten,
      hca.mayWritten,
      fun o ho => SortedSet.mem_inter.2 ⟨hca.invalidated o ho, hcb.invalidated o ho⟩⟩
    by_cases hkey : key ∈ a.fields.keys
    · rw [slot_meetCreated_of_mem hkey]
      exact hca.slot key
    · by_cases hkey' : key ∈ c.fields.keys
      · have hnot : ¬ (a.initialized.contains key.1 || b.initialized.contains key.1) = true := by
          rw [Bool.or_eq_true, SortedSet.contains_iff, SortedSet.contains_iff]
          rintro (ha | hb)
          · exact hkey (mem_keys_of_slot_leq (hca.slot key) hkey' ha)
          · exact hkey (h key hkey' hb)
        rw [slot_meetCreated_of_not_mem hkey, if_neg hnot]
        exact Slot.leq_unknown _
      · exact slot_leq_of_not_mem_keys hinit hkey' hkey

theorem leq_meet_iff (hca : c.leq a = true) (hcb : c.leq b = true) :
    c.leq (a.meet b) = true ↔ c.reachable = false ∨ a.KeepsStored b c := by
  cases hc : c.reachable with
  | false => exact iff_of_true (leq_of_unreachable hc _) (.inl rfl)
  | true =>
      have hca' := leq_iff.1 hca hc
      have hcb' := leq_iff.1 hcb hc
      rw [or_iff_right Bool.noConfusion, KeepsStored]
      rcases meet_cases hca'.reachable hcb'.reachable with ⟨hab, h⟩ | ⟨hba, h⟩ | ⟨hab, hba, h⟩
      · rw [h]
        exact iff_of_true hca (.inl hab)
      · rw [h]
        exact iff_of_true hcb (.inr (.inl hba))
      · rw [h, or_iff_right hab, or_iff_right hba, leq_iff, ← below_meetCreated_iff hca' hcb']
        exact forall_prop_of_true hc

/-- Whether fields that the second of two heaps stores, of objects that it has created, are stored
by the first too, or at least of objects that the first has created. -/
def CreatesAlike (a b : Heap) : Prop :=
  ∀ key ∈ b.fields.keys, key.1 ∈ b.initialized → key ∈ a.fields.keys ∨ key.1 ∈ a.initialized

theorem CreatesAlike.leq_meet (h : a.CreatesAlike b) (hca : c.leq a = true)
    (hcb : c.leq b = true) : c.leq (a.meet b) = true := by
  rw [leq_meet_iff hca hcb]
  cases hc : c.reachable with
  | false => exact .inl rfl
  | true =>
      refine .inr (.inr (.inr fun key hkey hinit => ?_))
      have hkey' := mem_keys_of_slot_leq ((leq_iff.1 hcb hc).slot key) hkey hinit
      rcases h key hkey' hinit with ha | ha
      · exact ha
      · exact mem_keys_of_slot_leq ((leq_iff.1 hca hc).slot key) hkey ha

end Meet

/-- Below the heap at an entry are the heaps that log nothing. The meet is below its first side, and
below its second exactly where heaps meet well. What is below both sides is below the meet, if these
have created alike; where they have not, exactly if the meet keeps what it stores. The order is that
of the joins when contents count as what they describe. -/
theorem leq_laws_up_to_tags (a b c : Heap) :
    (a.leq top = true ↔ a.reachable = false ∨ a.allocated = ∅ ∧ a.summary = ∅ ∧
      a.invalidated = ∅ ∧ a.mayWritten = ∅) ∧
    (a.meet b).leq a = true ∧
    ((a.meet b).leq b = true ↔ a.MeetsWell b) ∧
    (c.leq a = true → c.leq b = true → (a.CreatesAlike b → c.leq (a.meet b) = true) ∧
      (c.leq (a.meet b) = true ↔ c.reachable = false ∨ a.KeepsStored b c)) ∧
    (a.leq b = true ↔ (a.join b).untag = b.untag) :=
  ⟨leq_top_iff, meet_leq_left a b, meet_leq_right_iff,
    fun hca hcb => ⟨fun h => h.leq_meet hca hcb, leq_meet_iff hca hcb⟩, leq_iff_untag_join⟩

/-- The heap of an entry after a value was stored in a field of an object. -/
def storing (v : Value) : Heap := top.setField (.singleton 1) (.attr "v") (.primitive v)

/-- Two heaps of which neither is below the other, as different objects stand for several. -/
theorem leq_laws_up_to_tags_storing :
    ((storing (.constant 3)).markSummary 5).leq
      ((storing (.intIn (.finite 3 9))).markSummary 6) = false ∧
    ((storing (.intIn (.finite 3 9))).markSummary 6).leq
      ((storing (.constant 3)).markSummary 5) = false ∧
    (((storing (.constant 3)).markSummary 5).meet
      ((storing (.intIn (.finite 3 9))).markSummary 6)).leq
        ((storing (.intIn (.finite 3 9))).markSummary 6) = true ∧
    (storing (.constant 3)).leq ((storing (.constant 3)).markSummary 5) = true ∧
    (storing (.constant 3)).leq ((storing (.intIn (.finite 3 9))).markSummary 6) = true ∧
    (storing (.constant 3)).leq (((storing (.constant 3)).markSummary 5).meet
      ((storing (.intIn (.finite 3 9))).markSummary 6)) = true := by
  have hstored : (storing (.constant 3)).Below (storing (.intIn (.finite 3 9))) :=
    leq_iff.1 (by decide +kernel) (by decide +kernel)
  have hwell : ((storing (.constant 3)).markSummary 5).MeetsWell
      ((storing (.intIn (.finite 3 9))).markSummary 6) :=
    .inr (.inr ⟨fun key _ => hstored.slot key, fun _ hkey hnot => absurd hkey hnot,
      hstored.mustWritten, hstored.mayWritten⟩)
  have halike : ((storing (.constant 3)).markSummary 5).CreatesAlike
      ((storing (.intIn (.finite 3 9))).markSummary 6) :=
    fun _ _ hinit => absurd hinit SortedSet.not_mem_empty
  have hleft : (storing (.constant 3)).leq ((storing (.constant 3)).markSummary 5) = true := by
    decide +kernel
  have hright : (storing (.constant 3)).leq
      ((storing (.intIn (.finite 3 9))).markSummary 6) = true := by
    decide +kernel
  obtain ⟨-, -, hmeet, hgreatest, -⟩ := leq_laws_up_to_tags ((storing (.constant 3)).markSummary 5)
    ((storing (.intIn (.finite 3 9))).markSummary 6) (storing (.constant 3))
  exact ⟨by decide +kernel, by decide +kernel, hmeet.2 hwell, hleft, hright,
    (hgreatest hleft hright).1 halike⟩

/-- The heap at an entry after an object was created and a number stored in a field of it, as a
callee finds it. -/
def created : Heap :=
  ((top.allocate 1).setField (.singleton 1) (.attr "v") (.primitive (.constant 3))).entryView

/-- A heap that logs something is not below the heap at an entry; the meet of two heaps that stored
different numbers is not below the second, and that of a heap which may lack an object and one which
has it is not above what is below both; and of two heaps of which one is below the other the join
can differ from the other in the kind of contents. -/
theorem leq_laws_fail :
    (top.allocate 1).leq top = false ∧
    ((storing (.constant 9)).meet (storing (.constant 7))).leq (storing (.constant 7)) = false ∧
    (created.leq ((top.allocate 1).join top) = true ∧ created.leq (created.markSummary 5) = true ∧
      created.leq (((top.allocate 1).join top).meet (created.markSummary 5)) = false) ∧
    (storing (.constant 3)).leq (storing (.intIn (.finite 3 9))) = true ∧
    (storing (.constant 3)).join (storing (.intIn (.finite 3 9))) ≠
      storing (.intIn (.finite 3 9)) := by
  decide +kernel

end Heap

end ValueFlow
