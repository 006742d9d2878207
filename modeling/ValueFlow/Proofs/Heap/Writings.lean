import ValueFlow.Proofs.Heap.Canonical
import ValueFlow.Proofs.Heap.Lattice
/-!
What a call does to one field and to one object.

A call writes a field always, sometimes or never, and merging two calls acts on this field by
field: `Writing.mergeBy`. With the objects that are created and those that are invalidated it says
all about a merged call, and for a call that writes no field twice it says what a replay does.
-/

namespace ValueFlow

/-- How a call writes a field. -/
inductive Writing where
  | never
  | sometimes (value : HeapValue)
  | always (value : HeapValue)

namespace Writing

variable {op : HeapValue → HeapValue → HeapValue} {w w' : Writing}

/-- What one call or another writes. If only the second always writes the field, its value comes
first, before what the first sometimes writes. -/
def mergeBy (op : HeapValue → HeapValue → HeapValue) : Writing → Writing → Writing
  | never, never => never
  | never, sometimes b => sometimes b
  | never, always b => sometimes b
  | sometimes a, never => sometimes a
  | sometimes a, sometimes b => sometimes (op a b)
  | sometimes a, always b => sometimes (op b a)
  | always a, never => sometimes a
  | always a, sometimes b => sometimes (op a b)
  | always a, always b => always (op a b)

/-- The writing of what is always written and what is sometimes written. -/
def ofOptions (must may : Option HeapValue) : Writing :=
  must.elim (may.elim never sometimes) always

def must? : Writing → Option HeapValue
  | always v => some v
  | _ => none

def may? : Writing → Option HeapValue
  | sometimes v => some v
  | _ => none

/-- Whether what is written is canonical. -/
def Canonical : Writing → Prop
  | never => True
  | sometimes v | always v => v.Canonical

/-- Whether a call writes no more than another, and always what the other always writes. -/
def leq : Writing → Writing → Prop
  | never, never => True
  | never, sometimes _ => True
  | sometimes a, sometimes b => a.leq b = true
  | always a, sometimes b => a.leq b = true
  | always a, always b => a.leq b = true
  | _, _ => False

theorem leq_mergeBy_left (hleft : ∀ a b : HeapValue, a.leq (op a b) = true)
    (hright : ∀ a b : HeapValue, b.leq (op a b) = true) (w w' : Writing) :
    w.leq (w.mergeBy op w') := by
  cases w with
  | never => cases w' <;> exact trivial
  | sometimes a =>
      cases w' with
      | never => exact HeapValue.leq_refl a
      | sometimes b => exact hleft a b
      | always b => exact hright b a
  | always a =>
      cases w' with
      | never => exact HeapValue.leq_refl a
      | sometimes b | always b => exact hleft a b

theorem leq_mergeBy_right (hleft : ∀ a b : HeapValue, a.leq (op a b) = true)
    (hright : ∀ a b : HeapValue, b.leq (op a b) = true) (w w' : Writing) :
    w'.leq (w.mergeBy op w') := by
  cases w' with
  | never => cases w <;> exact trivial
  | sometimes b =>
      cases w with
      | never => exact HeapValue.leq_refl b
      | sometimes a | always a => exact hright a b
  | always b =>
      cases w with
      | never => exact HeapValue.leq_refl b
      | sometimes a => exact hleft b a
      | always a => exact hright a b

/-- What a slot holds after a write; a write to an object that stands for several adds to it. -/
def onto (w : Writing) (shared : Bool) (s : Slot) : Slot :=
  match w with
  | never => s
  | sometimes v => s.join (.holds v)
  | always v => if shared then s.join (.holds v) else .holds v

/-- A call that writes more, to an object that stands for several if it did before, leaves more. -/
theorem onto_leq (h : w.leq w') {shared shared' : Bool} (hshared : shared = true → shared' = true)
    (s : Slot) : (w.onto shared s).leq (w'.onto shared' s) = true := by
  have join_mono {a b : HeapValue} (hab : a.leq b = true) :
      (s.join (.holds a)).leq (s.join (.holds b)) = true :=
    Slot.join_mono_right s (show (Slot.holds a).leq (.holds b) = true from hab)
  have holds_leq {a b : HeapValue} (hab : a.leq b = true) :
      (Slot.holds a).leq (s.join (.holds b)) = true :=
    Slot.leq_trans (show (Slot.holds a).leq (.holds b) = true from hab) (Slot.leq_join_right s _)
  cases w with
  | never =>
      cases w' with
      | never => exact Slot.leq_refl s
      | sometimes b => exact Slot.leq_join_left s _
      | always b => exact h.elim
  | sometimes a =>
      cases w' with
      | never | always b => exact h.elim
      | sometimes b => exact join_mono h
  | always a =>
      cases w' with
      | never => exact h.elim
      | sometimes b =>
          cases shared with
          | false => exact holds_leq h
          | true => exact join_mono h
      | always b =>
          cases shared with
          | false =>
              cases shared' with
              | false => exact h
              | true => exact holds_leq h
          | true =>
              rw [hshared rfl]
              exact join_mono h

/-- What a call always writes is found after one that writes more, whatever was there before. -/
theorem holds_leq_onto {v : HeapValue} (h : (always v).leq w) (shared : Bool) (s : Slot) :
    (Slot.holds v).leq (w.onto shared s) = true := by
  have hwritten : (Slot.holds v).leq ((always v).onto false s) = true := Slot.leq_refl _
  exact Slot.leq_trans hwritten (onto_leq h (fun hs => absurd hs Bool.false_ne_true) s)

end Writing

namespace HeapEffects

variable {e f : HeapEffects} {op : HeapValue → HeapValue → HeapValue} {key : FieldKey}

/-- Whether no field is both always and sometimes written. -/
def Apart (e : HeapEffects) : Prop := ∀ w ∈ e.mustWrites, ∀ w' ∈ e.mayWrites, w.key ≠ w'.key

instance (e : HeapEffects) : Decidable e.Apart :=
  inferInstanceAs (Decidable (∀ w ∈ e.mustWrites, ∀ w' ∈ e.mayWrites, w.key ≠ w'.key))

def writing (e : HeapEffects) (key : FieldKey) : Writing :=
  .ofOptions ((byField e.mustWrites).get? key) ((byField e.mayWrites).get? key)

/-- The objects a call creates, with whether it creates them more than once. -/
def created (e : HeapEffects) : SortedMap Nat Bool :=
  e.allocations.foldl (fun m a => SortedMap.insertWith or m a.object a.summary) ∅

theorem byField_entries (m : SortedMap FieldKey HeapValue) :
    byField (m.entries.map HeapWrite.ofEntry) = m := by
  refine SortedMap.ext_get? fun key => Option.ext fun v => ⟨fun hv => ?_, fun hv => ?_⟩
  · obtain ⟨w, hw, rfl, rfl⟩ := exists_of_get?_byField hv
    exact HeapWrite.mem_map_ofEntry.1 hw
  · have hnodup : ((m.entries.map HeapWrite.ofEntry).map HeapWrite.key).Nodup := by
      rw [List.map_map]
      exact m.nodup_keys
    exact get?_byField (w := ⟨key.1, key.2, v⟩) hnodup (HeapWrite.mem_map_ofEntry.2 hv)

theorem get?_may_of_must (he : e.Apart) {v : HeapValue}
    (h : (byField e.mustWrites).get? key = some v) : (byField e.mayWrites).get? key = .none := by
  refine Option.eq_none_iff_forall_not_mem.2 fun v' hv' => ?_
  obtain ⟨w, hw, hkey, -⟩ := exists_of_get?_byField h
  obtain ⟨w', hw', hkey', -⟩ := exists_of_get?_byField hv'
  exact he w hw w' hw' (hkey.trans hkey'.symm)

theorem must?_writing (e : HeapEffects) (key : FieldKey) :
    (e.writing key).must? = (byField e.mustWrites).get? key := by
  rw [writing]
  cases (byField e.mustWrites).get? key with
  | none => cases (byField e.mayWrites).get? key <;> rfl
  | some v => rfl

theorem may?_writing (he : e.Apart) (key : FieldKey) :
    (e.writing key).may? = (byField e.mayWrites).get? key := by
  rw [writing]
  cases h : (byField e.mustWrites).get? key with
  | none => cases (byField e.mayWrites).get? key <;> rfl
  | some v =>
      rw [get?_may_of_must he h]
      rfl

/-- What is sometimes written by a merged call. -/
def mayFields (op : HeapValue → HeapValue → HeapValue) (e f : HeapEffects) :
    SortedMap FieldKey HeapValue :=
  ((sometimes e f).foldl (SortedMap.unionWith op) ∅).filter
    fun key _ => !(mustFields op e f).contains key

theorem mustWrites_mergeBy (op : HeapValue → HeapValue → HeapValue) (e f : HeapEffects) :
    (mergeBy op e f).mustWrites = (mustFields op e f).entries.map HeapWrite.ofEntry := rfl

theorem mayWrites_mergeBy (op : HeapValue → HeapValue → HeapValue) (e f : HeapEffects) :
    (mergeBy op e f).mayWrites = (mayFields op e f).entries.map HeapWrite.ofEntry := rfl

theorem get?_mustFields (op : HeapValue → HeapValue → HeapValue) (e f : HeapEffects)
    (key : FieldKey) : (mustFields op e f).get? key = ((byField e.mustWrites).get? key).bind
      fun v => ((byField f.mustWrites).get? key).map (op v) := SortedMap.get?_filterMap _ _ key

theorem get?_unions_sometimes (op : HeapValue → HeapValue → HeapValue) (e f : HeapEffects)
    (key : FieldKey) : ((sometimes e f).foldl (SortedMap.unionWith op) ∅).get? key =
      Option.merge op (Option.merge op (Option.merge op
        (((byField e.mustWrites).get? key).filter fun _ => !(byField f.mustWrites).contains key)
        (((byField f.mustWrites).get? key).filter fun _ => !(byField e.mustWrites).contains key))
        ((byField e.mayWrites).get? key)) ((byField f.mayWrites).get? key) := by
  simp only [sometimes, List.foldl_cons, List.foldl_nil, SortedMap.get?_unionWith,
    SortedMap.get?_filter]
  exact congrArg (fun o => Option.merge op (Option.merge op (Option.merge op o _) _) _)
    Option.merge_none_left

/-- A merged call writes a field as the two calls do. -/
theorem writing_mergeBy (he : e.Apart) (hf : f.Apart) (key : FieldKey) :
    (mergeBy op e f).writing key = (e.writing key).mergeBy op (f.writing key) := by
  have hmust := get?_mustFields op e f key
  rw [writing, mustWrites_mergeBy, mayWrites_mergeBy, byField_entries, byField_entries, mayFields,
    SortedMap.get?_filter, get?_unions_sometimes, SortedMap.contains, SortedMap.contains,
    SortedMap.contains, hmust, writing, writing]
  cases ha : (byField e.mustWrites).get? key with
  | none =>
      cases hb : (byField f.mustWrites).get? key with
      | none =>
          cases (byField e.mayWrites).get? key <;> cases (byField f.mayWrites).get? key <;> rfl
      | some b =>
          rw [get?_may_of_must hf hb]
          cases (byField e.mayWrites).get? key <;> rfl
  | some a =>
      rw [get?_may_of_must he ha]
      cases hb : (byField f.mustWrites).get? key with
      | none => cases (byField f.mayWrites).get? key <;> rfl
      | some b =>
          rw [get?_may_of_must hf hb]
          rfl

theorem writing_canonical (he : e.Canonical) (key : FieldKey) : (e.writing key).Canonical := by
  rw [writing]
  cases hmust : (byField e.mustWrites).get? key with
  | none =>
      cases hmay : (byField e.mayWrites).get? key with
      | none => exact trivial
      | some v => exact forall_byField he.may key v hmay
  | some v => exact forall_byField he.must key v hmust

theorem get?_foldl_created (l : List Allocation) (m : SortedMap Nat Bool) (o : Nat) :
    (l.foldl (fun m a => SortedMap.insertWith or m a.object a.summary) m).get? o =
      Option.merge or (m.get? o)
        ((l.foldl (fun m a => SortedMap.insertWith or m a.object a.summary) ∅).get? o) := by
  have hassoc {a b c : Option Bool} :
      Option.merge or (Option.merge or a b) c = Option.merge or a (Option.merge or b c) :=
    merge_assoc_of (P := fun _ => True) (fun u v w _ _ _ => Bool.or_assoc u v w)
      (fun _ _ => trivial) (fun _ _ => trivial) fun _ _ => trivial
  induction l generalizing m with
  | nil => exact Option.merge_none_right.symm
  | cons a rest ih =>
      have hinsert (m : SortedMap Nat Bool) : (m.insertWith or a.object a.summary).get? o =
          Option.merge or (m.get? o)
            (((∅ : SortedMap Nat Bool).insertWith or a.object a.summary).get? o) := by
        rw [SortedMap.get?_insertWith, SortedMap.get?_insertWith]
        split
        · next ho =>
            subst ho
            cases m.get? a.object <;> rfl
        · exact Option.merge_none_right.symm
      rw [List.foldl_cons, List.foldl_cons, ih, ih (SortedMap.insertWith or ∅ _ _), hinsert m,
        hassoc]

theorem exists_of_get?_created {o : Nat} {s : Bool} (h : e.created.get? o = some s) :
    ∃ a ∈ e.allocations, a.object = o := by
  have fold : ∀ (l : List Allocation) (m : SortedMap Nat Bool),
      (l.foldl (fun m a => SortedMap.insertWith or m a.object a.summary) m).get? o = some s →
        (∃ a ∈ l, a.object = o) ∨ ∃ t, m.get? o = some t := by
    intro l
    induction l with
    | nil => exact fun m h => .inr ⟨s, h⟩
    | cons a rest ih =>
        intro m h
        rcases ih _ h with ⟨b, hb, hbo⟩ | ⟨t, ht⟩
        · exact .inl ⟨b, List.mem_cons_of_mem _ hb, hbo⟩
        · rw [SortedMap.get?_insertWith] at ht
          split at ht
          · next ho => exact .inl ⟨a, List.mem_cons_self, ho.symm⟩
          · exact .inr ⟨t, ht⟩
  exact (fold _ _ h).resolve_right fun ⟨t, ht⟩ => nomatch ht

theorem created_entries (m : SortedMap Nat Bool) :
    (m.entries.map fun p => Allocation.mk p.1 p.2).foldl
      (fun m a => SortedMap.insertWith or m a.object a.summary) ∅ = m := by
  rw [List.foldl_map]
  refine SortedMap.ext_get? fun o => ?_
  exact (SortedMap.get?_unionWith or ∅ m o).trans Option.merge_none_left

theorem created_mergeBy (op : HeapValue → HeapValue → HeapValue) (e f : HeapEffects) :
    (mergeBy op e f).created = (e.allocations ++ f.allocations).foldl
      (fun m a => SortedMap.insertWith or m a.object a.summary) ∅ := created_entries _

theorem allocations_mergeBy (op : HeapValue → HeapValue → HeapValue) (e f : HeapEffects) :
    (mergeBy op e f).allocations =
      (mergeBy op e f).created.entries.map fun p => ⟨p.1, p.2⟩ := by
  rw [created_mergeBy]
  rfl

theorem get?_created_mergeBy (op : HeapValue → HeapValue → HeapValue) (e f : HeapEffects)
    (o : Nat) : (mergeBy op e f).created.get? o =
      Option.merge or (e.created.get? o) (f.created.get? o) := by
  rw [created_mergeBy, List.foldl_append, get?_foldl_created]
  rfl

/-- Merged effects write no field twice. -/
theorem distinct_mergeBy (op : HeapValue → HeapValue → HeapValue) (e f : HeapEffects) :
    (mergeBy op e f).Distinct := by
  refine ⟨?_, ?_, fun w hw w' hw' hkey => ?_⟩
  · rw [mustWrites_mergeBy, List.map_map]
    exact SortedMap.nodup_keys _
  · rw [mayWrites_mergeBy, List.map_map]
    exact SortedMap.nodup_keys _
  · have hmust := HeapWrite.mem_map_ofEntry.1 (mustWrites_mergeBy op e f ▸ hw)
    have hmay := HeapWrite.mem_map_ofEntry.1 (mayWrites_mergeBy op e f ▸ hw')
    rw [mayFields, SortedMap.get?_filter, Option.filter_eq_some_iff, ← hkey, SortedMap.contains,
      hmust] at hmay
    cases hmay.2

end HeapEffects

end ValueFlow
