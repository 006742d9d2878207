import Mathlib.Data.Finset.Prod
import ValueFlow.Proofs.Heap.Widening
import ValueFlow.Proofs.Heap.Writings
/-!
Widening the effects of calls again and again.

Where the newer effects always write what the older ones sometimes write, the newer value is widened
by the older one, so a bound of the older value never jumps to infinity. Widening effects over
finitely many objects and fields still settles, because there are only so many integers; it does so
after a number of changes that does not depend on the values if such a field never turns up, and
otherwise it can take as many steps as there are integers.
-/

namespace ValueFlow

namespace HeapValue

variable {a b : HeapValue}

def height : HeapValue → Nat
  | merged v => v.height + 1
  | _ => 0

/-- The height of no contents reaches this number. -/
def maxHeight : Nat := 2 ^ 65 + 10

theorem height_lt (a : HeapValue) : a.height < maxHeight := by
  cases a with
  | merged v => exact Nat.succ_lt_succ (Nat.lt_succ_of_le v.height_le)
  | _ => exact Nat.succ_pos _

/-- Contents that are merged into something above them stay or get higher. -/
theorem eq_or_height_lt (ha : a.Canonical) (hb : b.Canonical) (hle : a.leq b = true)
    (hmerged : b = a ∨ ∃ v, b = merged v) : b = a ∨ a.height < b.height := by
  rcases hmerged with h | ⟨v, rfl⟩
  · exact .inl h
  · cases a with
    | merged u =>
        rcases Value.eq_or_height_lt ha hb (leq_iff.1 hle) with h | h
        · exact .inl (congrArg merged h)
        · exact .inr (Nat.succ_lt_succ h)
    | _ => exact .inr (Nat.succ_pos _)

theorem leq_widen (a b : HeapValue) (n : Nat) :
    a.leq (a.widen b n) = true ∧ b.leq (a.widen b n) = true :=
  ⟨leq_mergeBy_left Value.leq_widen_left a b, leq_mergeBy_right Value.leq_widen_right a b⟩

theorem widen_eq_or_merged (a b : HeapValue) (n : Nat) :
    (a.widen b n = a ∧ a = b) ∨ ∃ v, a.widen b n = merged v := by
  by_cases h : a = b
  · exact .inl ⟨if_pos h, h⟩
  · exact .inr ⟨_, widen_of_ne h n⟩

theorem widen_eq_or_height_lt (ha : a.Canonical) (hb : b.Canonical) (n : Nat) :
    a.widen b n = a ∨ a.height < (a.widen b n).height :=
  eq_or_height_lt ha (ha.widen hb n) (leq_widen a b n).1
    ((widen_eq_or_merged a b n).imp_left And.left)

/-- The same with the sides exchanged. -/
theorem widen_eq_right_or_height_lt (ha : a.Canonical) (hb : b.Canonical) (n : Nat) :
    b.widen a n = a ∨ a.height < (b.widen a n).height :=
  eq_or_height_lt ha (hb.widen ha n) (leq_widen b a n).2
    ((widen_eq_or_merged b a n).imp_left fun h => h.1.trans h.2)

end HeapValue

namespace Writing

variable {w w' : Writing}

def widen (w w' : Writing) (n : Nat) : Writing := w.mergeBy (fun a b => a.widen b n) w'

def looseness : Writing → Nat
  | never => 0
  | always a => a.looseness
  | sometimes a => a.looseness + 9

theorem looseness_le (w : Writing) : w.looseness ≤ 17 := by
  cases w with
  | never => exact Nat.zero_le _
  | always a => exact Nat.le_trans a.looseness_le (by decide)
  | sometimes a => exact Nat.add_le_add_right a.looseness_le 9

def height : Writing → Nat
  | never => 0
  | always a => a.height
  | sometimes a => a.height + HeapValue.maxHeight

theorem height_le (w : Writing) : w.height ≤ HeapValue.maxHeight + HeapValue.maxHeight := by
  cases w with
  | never => exact Nat.zero_le _
  | always a => exact Nat.le_trans (Nat.le_of_lt a.height_lt) (Nat.le_add_left _ _)
  | sometimes a => exact Nat.add_le_add_right (Nat.le_of_lt a.height_lt) _

section Step

variable (measure : HeapValue → Nat) {top : Nat} (hbound : ∀ a, measure a < top)
  (hstep : ∀ a b : HeapValue, a.Canonical → b.Canonical → ∀ n,
    a.widen b n = a ∨ measure a < measure (a.widen b n))
include hbound hstep

/-- A writing that is widened stays or rises: it is not always done any more, or its value rises. -/
theorem widen_eq_or_lt (rank : Writing → Nat) (hnever : rank never = 0)
    (halways : ∀ a, rank (always a) = measure a)
    (hsometimes : ∀ a, rank (sometimes a) = measure a + top) (hw : w.Canonical)
    (hw' : w'.Canonical) (n : Nat)
    (hback : ∀ a b, w = sometimes a → w' = always b →
      b.widen a n = a ∨ measure a < measure (b.widen a n)) :
    w.widen w' n = w ∨ rank w < rank (w.widen w' n) := by
  have hpos : 0 < top := Nat.lt_of_le_of_lt (Nat.zero_le _) (hbound .null)
  have leaves (a b : HeapValue) : rank (always a) < rank (sometimes b) := by
    rw [halways, hsometimes]
    exact Nat.lt_of_lt_of_le (hbound a) (Nat.le_add_left _ _)
  have starts (b : HeapValue) : rank never < rank (sometimes b) := by
    rw [hnever, hsometimes]
    omega
  have raises {a b : HeapValue} (h : b = a ∨ measure a < measure b) :
      sometimes b = sometimes a ∨ rank (sometimes a) < rank (sometimes b) := by
    rw [hsometimes, hsometimes]
    exact h.imp (congrArg sometimes) fun h => Nat.add_lt_add_right h _
  cases w with
  | never =>
      cases w' with
      | never => exact .inl rfl
      | sometimes b | always b => exact .inr (starts b)
  | sometimes a =>
      cases w' with
      | never => exact .inl rfl
      | sometimes b => exact raises (hstep a b hw hw' n)
      | always b => exact raises (hback a b rfl rfl)
  | always a =>
      cases w' with
      | never => exact .inr (leaves a a)
      | sometimes b => exact .inr (leaves a _)
      | always b =>
          refine (hstep a b hw hw' n).imp (congrArg always) fun h => ?_
          rw [widen, mergeBy, halways, halways]
          exact h

end Step

theorem widen_eq_or_looseness_lt (hw : w.Canonical) (hw' : w'.Canonical) (n : Nat)
    (hback : ∀ a b, w = sometimes a → w' ≠ always b) :
    w.widen w' n = w ∨ w.looseness < (w.widen w' n).looseness :=
  widen_eq_or_lt HeapValue.looseness (fun a => Nat.lt_succ_of_le a.looseness_le)
    (fun _ _ ha hb => HeapValue.widen_eq_or_looseness_lt ha hb) looseness rfl (fun _ => rfl)
    (fun _ => rfl) hw hw' n fun a b h h' => absurd h' (hback a b h)

theorem widen_eq_or_height_lt (hw : w.Canonical) (hw' : w'.Canonical) (n : Nat) :
    w.widen w' n = w ∨ w.height < (w.widen w' n).height := by
  refine widen_eq_or_lt HeapValue.height HeapValue.height_lt
    (fun _ _ ha hb => HeapValue.widen_eq_or_height_lt ha hb) height rfl (fun _ => rfl)
    (fun _ => rfl) hw hw' n fun a b h h' => ?_
  subst h
  subst h'
  exact HeapValue.widen_eq_right_or_height_lt hw hw' n

end Writing

namespace HeapEffects

variable {e f : HeapEffects} {objects : Finset Nat} {fields : Finset HeapField}

/-- What a call does to an object as a whole. -/
def objectPart (e : HeapEffects) (o : Nat) : Option Bool × Bool :=
  (e.created.get? o, e.invalidated.contains o)

/-- Whether effects say something only about some objects and fields. -/
structure Within (objects : Finset Nat) (fields : Finset HeapField) (e : HeapEffects) : Prop where
  allocations : ∀ a ∈ e.allocations, a.object ∈ objects
  writes : ∀ w ∈ e.mustWrites ++ e.mayWrites, w.key ∈ objects ×ˢ fields
  invalidated : ∀ o ∈ e.invalidated, o ∈ objects

/-- Whether effects over some objects and fields are canonical and write no field both always and
sometimes. -/
structure Proper (objects : Finset Nat) (fields : Finset HeapField) (e : HeapEffects) : Prop where
  canonical : e.Canonical
  apart : e.Apart
  within : e.Within objects fields

theorem Within.writing_eq_never (he : e.Within objects fields) {key : FieldKey}
    (hkey : key ∉ objects ×ˢ fields) : e.writing key = .never := by
  have hnone {writes : List HeapWrite} (h : ∀ w ∈ writes, w ∈ e.mustWrites ++ e.mayWrites) :
      (byField writes).get? key = .none := by
    refine Option.eq_none_iff_forall_not_mem.2 fun v hv => hkey ?_
    obtain ⟨w, hw, rfl, -⟩ := exists_of_get?_byField hv
    exact he.writes w (h w hw)
  rw [writing, hnone fun w hw => List.mem_append_left _ hw,
    hnone fun w hw => List.mem_append_right _ hw]
  rfl

theorem Within.created_eq_none (he : e.Within objects fields) {o : Nat} (ho : o ∉ objects) :
    e.created.get? o = .none := by
  refine Option.eq_none_iff_forall_not_mem.2 fun s hs => ho ?_
  obtain ⟨a, ha, rfl⟩ := exists_of_get?_created hs
  exact he.allocations a ha

theorem Within.objectPart_eq (he : e.Within objects fields) {o : Nat} (ho : o ∉ objects) :
    e.objectPart o = (.none, false) := by
  rw [objectPart, he.created_eq_none ho,
    SortedSet.contains_eq_false_iff.2 fun h => ho (he.invalidated o h)]

theorem Within.mergeBy {op : HeapValue → HeapValue → HeapValue} (he : e.Within objects fields)
    (hf : f.Within objects fields) (hea : e.Apart) (hfa : f.Apart) :
    (mergeBy op e f).Within objects fields := by
  have hdistinct := distinct_mergeBy op e f
  constructor
  · intro a ha
    obtain ⟨s, hs, -⟩ := exists_allocation ha
    by_contra ho
    have hnone := get?_created_mergeBy op e f a.object
    rw [he.created_eq_none ho, hf.created_eq_none ho, created, hs] at hnone
    cases hnone
  · intro w hw
    by_contra hkey
    have hnever : (HeapEffects.mergeBy op e f).writing w.key = _ := writing_mergeBy hea hfa w.key
    rw [he.writing_eq_never hkey, hf.writing_eq_never hkey] at hnever
    rcases List.mem_append.1 hw with hw | hw
    · have hmust := must?_writing (HeapEffects.mergeBy op e f) w.key
      rw [hnever, get?_byField hdistinct.must hw] at hmust
      cases hmust
    · have hmay := may?_writing hdistinct.apart w.key
      rw [hnever, get?_byField hdistinct.may hw] at hmay
      cases hmay
  · exact fun o ho => (SortedSet.mem_union.1 ho).elim (he.invalidated o) (hf.invalidated o)

theorem Proper.widen (he : e.Proper objects fields) (hf : f.Proper objects fields) (n : Nat) :
    (e.widen f n).Proper objects fields :=
  ⟨he.canonical.widen hf.canonical n, (distinct_mergeBy _ e f).apart,
    he.within.mergeBy hf.within he.apart hf.apart⟩

/-- Merged effects are told apart by what they do to each object and each field. -/
theorem mergeBy_ext {op op' : HeapValue → HeapValue → HeapValue} {e' f' : HeapEffects}
    (hobject : ∀ o, (mergeBy op e f).objectPart o = (mergeBy op' e' f').objectPart o)
    (hwriting : ∀ key, (mergeBy op e f).writing key = (mergeBy op' e' f').writing key) :
    mergeBy op e f = mergeBy op' e' f' := by
  have hcreated : (mergeBy op e f).created = (mergeBy op' e' f').created :=
    SortedMap.ext_get? fun o => congrArg Prod.fst (hobject o)
  have hinvalidated : (mergeBy op e f).invalidated = (mergeBy op' e' f').invalidated := by
    refine SortedSet.ext_mem fun o => ?_
    have hcontains : (mergeBy op e f).invalidated.contains o =
        (mergeBy op' e' f').invalidated.contains o := congrArg Prod.snd (hobject o)
    rw [← SortedSet.contains_iff, ← SortedSet.contains_iff, hcontains]
  have hmust : mustFields op e f = mustFields op' e' f' := by
    refine SortedMap.ext_get? fun key => ?_
    have hkey := congrArg Writing.must? (hwriting key)
    rwa [must?_writing, must?_writing, mustWrites_mergeBy, mustWrites_mergeBy, byField_entries,
      byField_entries] at hkey
  have hmay : mayFields op e f = mayFields op' e' f' := by
    refine SortedMap.ext_get? fun key => ?_
    have hkey := congrArg Writing.may? (hwriting key)
    rwa [may?_writing (distinct_mergeBy op e f).apart,
      may?_writing (distinct_mergeBy op' e' f').apart, mayWrites_mergeBy, mayWrites_mergeBy,
      byField_entries, byField_entries] at hkey
  have heta (e : HeapEffects) : e = ⟨e.allocations, e.mustWrites, e.mayWrites, e.invalidated⟩ := rfl
  rw [heta (mergeBy op e f), heta (mergeBy op' e' f'), allocations_mergeBy, allocations_mergeBy,
    mustWrites_mergeBy, mustWrites_mergeBy, mayWrites_mergeBy, mayWrites_mergeBy, hcreated, hmust,
    hmay, hinvalidated]

/-- Whether an object is not created, is created, or is created again and again. -/
def creations (created : Option Bool) : Nat := created.elim 0 fun s => if s then 2 else 1

theorem creations_le (created : Option Bool) : creations created ≤ 2 := by
  cases created with
  | none => exact Nat.zero_le _
  | some s => cases s <;> decide

theorem merge_or_eq_or_creations_lt (a b : Option Bool) :
    Option.merge or a b = a ∨ creations a < creations (Option.merge or a b) := by
  cases a with
  | none =>
      cases b with
      | none => exact .inl rfl
      | some s => cases s <;> exact .inr (by decide)
  | some r =>
      cases b with
      | none => exact .inl rfl
      | some s =>
          cases r with
          | true => exact .inl rfl
          | false =>
              cases s with
              | true => exact .inr (by decide)
              | false => exact .inl rfl

section Sequence

variable {e n : Nat → HeapEffects} (hstep : ∀ k, e (k + 1) = (e k).widen (n k) k)
include hstep

theorem proper_of_widens (h0 : (e 0).Proper objects fields)
    (hn : ∀ k, (n k).Proper objects fields) (k : Nat) : (e k).Proper objects fields := by
  induction k with
  | zero => exact h0
  | succ k ih =>
      rw [hstep]
      exact ih.widen (hn k) k

theorem encard_changes_objectPart_le (o : Nat) :
    (changes fun k => (e k).objectPart o).encard ≤ (3 : Nat) := by
  have hcreated : (changes fun k => (e k).created.get? o).encard ≤ (2 : Nat) := by
    refine encard_changes_le_of_rank creations (fun k => ?_) fun k => creations_le _
    rw [hstep, widen, get?_created_mergeBy]
    exact merge_or_eq_or_creations_lt _ _
  have hinvalidated : (changes fun k => (e k).invalidated.contains o).encard ≤ (1 : Nat) := by
    refine encard_changes_le_one true fun k hk => ?_
    rw [hstep]
    exact SortedSet.contains_iff.2 (SortedSet.mem_union.2 (.inl (SortedSet.contains_iff.1 hk)))
  exact encard_changes_pair_le hcreated hinvalidated

variable (hproper : ∀ k, (e k).Proper objects fields) (hn : ∀ k, (n k).Proper objects fields)
include hproper hn

theorem writing_succ (k : Nat) (key : FieldKey) :
    (e (k + 1)).writing key = ((e k).writing key).widen ((n k).writing key) k := by
  rw [hstep]
  exact writing_mergeBy (hproper k).apart (hn k).apart key

omit hn in
/-- From the first step on the effects are merged ones, and change only as some object or some field
does. -/
theorem succ_succ_eq (k : Nat)
    (hobjects : ∀ o ∈ objects, (e (k + 2)).objectPart o = (e (k + 1)).objectPart o)
    (hfields : ∀ key ∈ objects ×ˢ fields, (e (k + 2)).writing key = (e (k + 1)).writing key) :
    e (k + 2) = e (k + 1) := by
  have hmerged (k : Nat) : e (k + 1) = mergeBy (fun a b => a.widen b k) (e k) (n k) := hstep k
  rw [hmerged, hmerged k]
  refine mergeBy_ext (fun o => ?_) fun key => ?_
  · rw [← hmerged, ← hmerged]
    by_cases ho : o ∈ objects
    · exact hobjects o ho
    · rw [(hproper _).within.objectPart_eq ho, (hproper _).within.objectPart_eq ho]
  · rw [← hmerged, ← hmerged]
    by_cases hkey : key ∈ objects ×ˢ fields
    · exact hfields key hkey
    · rw [(hproper _).within.writing_eq_never hkey, (hproper _).within.writing_eq_never hkey]

omit hn in
/-- If each field changes only so often, so do the effects. -/
theorem encard_changes_le {bound : Nat}
    (hwriting : ∀ key, (changes fun k => (e k).writing key).encard ≤ bound) :
    (changes e).encard ≤ (objects.card * 3 + (objects ×ˢ fields).card * bound + 1 : Nat) := by
  refine encard_changes_le_succ (encard_changes_le_families objects (objects ×ˢ fields)
    (fun o k => (e (k + 1)).objectPart o) (fun key k => (e (k + 1)).writing key) (fun o _ => ?_)
    (fun key _ => ?_) fun k => succ_succ_eq hstep hproper k)
  · exact (encard_changes_tail_le fun k => (e k).objectPart o).trans
      (encard_changes_objectPart_le hstep o)
  · exact (encard_changes_tail_le fun k => (e k).writing key).trans (hwriting key)

end Sequence

/-- Whether no field that older effects write sometimes is always written by newer ones. -/
def Steady (e n : HeapEffects) : Prop :=
  ∀ w ∈ e.mayWrites, ∀ w' ∈ n.mustWrites, w'.key ≠ w.key

theorem Steady.writing {e n : HeapEffects} (h : e.Steady n) {key : FieldKey} {a b : HeapValue}
    (ha : e.writing key = .sometimes a) : n.writing key ≠ .always b := by
  intro hb
  have hmust : (byField n.mustWrites).get? key = some b := by rw [← must?_writing, hb]; rfl
  have hmay : (byField e.mayWrites).get? key = some a := by
    rw [HeapEffects.writing] at ha
    cases hm : (byField e.mustWrites).get? key with
    | some v => rw [hm] at ha; cases ha
    | none =>
        cases hy : (byField e.mayWrites).get? key with
        | none => rw [hm, hy] at ha; cases ha
        | some v => rw [hm, hy] at ha; cases ha; rfl
  obtain ⟨w, hw, hkey, -⟩ := exists_of_get?_byField hmay
  obtain ⟨w', hw', hkey', -⟩ := exists_of_get?_byField hmust
  exact h w hw w' hw' (hkey'.trans hkey.symm)

/-- The numbers from zero to another, which is kept within the integers. -/
def upTo (m : Nat) : Value :=
  ⟨.nonNegative, .notNull, ⟨.finite 0, .finite (Int64.ofNat (min m (2 ^ 62 + 1)))⟩⟩

theorem toInt_upTo (m : Nat) : (Int64.ofNat (min m (2 ^ 62 + 1))).toInt = min m (2 ^ 62 + 1) :=
  Int64.toInt_ofNat_of_lt (by omega)

theorem not_isBottom_upTo (m : Nat) : (upTo m).isBottom = false := by
  have hlo : Bound.finite 0 ≤ .finite (Int64.ofNat (min m (2 ^ 62 + 1))) := by
    rw [Bound.finite_le_finite, toInt_upTo]
    exact Int.natCast_nonneg _
  have hrange : (upTo m).range.isEmpty = false := Interval.isEmpty_eq_false_iff.2 hlo
  rw [Value.isBottom, hrange]
  rfl

theorem upTo_succ_ne {m : Nat} (h : m ≤ 2 ^ 62) : upTo (m + 1) ≠ upTo m := by
  intro heq
  have hhi := congrArg (fun v : Value => v.range.hi) heq
  have hint := congrArg Int64.toInt (Bound.finite.inj hhi)
  rw [toInt_upTo, toInt_upTo] at hint
  omega

/-- Widening by a smaller interval changes nothing. -/
theorem widen_upTo (m : Nat) : (upTo (m + 1)).widen (upTo m) = upTo (m + 1) := by
  have hhi : ¬ (upTo (m + 1)).range.hi < (upTo m).range.hi := by
    rw [Bound.lt_def, Decidable.not_not]
    refine Bound.finite_le_finite.2 ?_
    rw [toInt_upTo, toInt_upTo]
    omega
  have hrange : (upTo (m + 1)).range.widen (upTo m).range = (upTo (m + 1)).range := by
    rw [Interval.widen, (Value.components_of_not_isBottom (not_isBottom_upTo (m + 1))).2.2,
      (Value.components_of_not_isBottom (not_isBottom_upTo m)).2.2, if_neg hhi]
    rfl
  rw [Value.widen, not_isBottom_upTo, not_isBottom_upTo, hrange]
  rfl

/-- A call that writes one field, always or sometimes. -/
def oneWrite (always : Bool) (v : Value) : HeapEffects :=
  let writes : List HeapWrite := [⟨1, .length, .primitive v⟩]
  if always then { none with mustWrites := writes } else { none with mayWrites := writes }

theorem proper_oneWrite (always : Bool) (m : Nat) :
    (oneWrite always (upTo m)).Proper {1} {.length} := by
  have hvalue : (upTo m).Canonical := Value.canonical_of_not_isBottom (not_isBottom_upTo m)
  have hkey : ((1, .length) : FieldKey) ∈ ({1} : Finset Nat) ×ˢ ({.length} : Finset HeapField) := by
    simp
  have hall : ∀ w ∈ (oneWrite always (upTo m)).mustWrites ++ (oneWrite always (upTo m)).mayWrites,
      w = ⟨1, .length, .primitive (upTo m)⟩ := by
    cases always <;> exact fun w hw => List.mem_singleton.1 hw
  refine ⟨⟨fun w hw => ?_, fun w hw => ?_⟩, ?_, ?_, fun w hw => ?_, ?_⟩
  · exact hall w (List.mem_append_left _ hw) ▸ hvalue
  · exact hall w (List.mem_append_right _ hw) ▸ hvalue
  · cases always with
    | true => exact fun w _ w' hw' => absurd hw' List.not_mem_nil
    | false => exact fun w hw => absurd hw List.not_mem_nil
  · cases always <;> exact fun a ha => absurd ha List.not_mem_nil
  · exact hall w hw ▸ hkey
  · cases always <;> exact fun o ho => absurd ho List.not_mem_nil

/-- Effects that sometimes write a field, widened by newer effects with one number more. -/
def widenedByMore (always : Bool) : Nat → HeapEffects
  | 0 => oneWrite false (upTo 1)
  | k + 1 => (widenedByMore always k).widen (oneWrite always (upTo (k + 2))) k

theorem writing_widenedByMore (k : Nat) (hk : k ≤ 2 ^ 62) : ∃ a,
    (widenedByMore true k).writing (1, .length) = .sometimes a ∧ a.abstraction = upTo (k + 1) := by
  have hn (k : Nat) := proper_oneWrite true (k + 2)
  have hstep (k : Nat) : widenedByMore true (k + 1) =
      (widenedByMore true k).widen (oneWrite true (upTo (k + 2))) k := rfl
  have hproper := proper_of_widens hstep (proper_oneWrite false 1) hn
  induction k with
  | zero => exact ⟨.primitive (upTo 1), rfl, rfl⟩
  | succ k ih =>
      obtain ⟨a, ha, habs⟩ := ih (by omega)
      have hne : HeapValue.primitive (upTo (k + 2)) ≠ a := fun heq =>
        upTo_succ_ne (m := k + 1) (by omega) (habs ▸ heq ▸ rfl)
      have hb : (oneWrite true (upTo (k + 2))).writing (1, .length) =
          .always (.primitive (upTo (k + 2))) := rfl
      refine ⟨.merged (upTo (k + 2)), (writing_succ hstep hproper hn k _).trans ?_, rfl⟩
      rw [ha, hb]
      refine congrArg Writing.sometimes ((HeapValue.widen_of_ne hne k).trans ?_)
      rw [habs]
      exact congrArg HeapValue.merged (widen_upTo (k + 1))

/-- Widening effects over finitely many objects and fields settles, and it does so after a number of
changes that does not depend on the values if no field is sometimes written before and always
written by the newer effects. -/
theorem stabilizes_widen (objects : Finset Nat) (fields : Finset HeapField) (e n : Nat → HeapEffects)
    (hstep : ∀ k, e (k + 1) = (e k).widen (n k) k) (h0 : (e 0).Proper objects fields)
    (hn : ∀ k, (n k).Proper objects fields) :
    Stabilizes e ∧ ((∀ k, (e k).Steady (n k)) →
      (changes e).encard ≤ (objects.card * 3 + (objects ×ˢ fields).card * 17 + 1 : Nat)) := by
  have hproper := proper_of_widens hstep h0 hn
  have hwriting := writing_succ hstep hproper hn
  have canonical (k : Nat) (key : FieldKey) := writing_canonical (hproper k).canonical key
  have canonical' (k : Nat) (key : FieldKey) := writing_canonical (hn k).canonical key
  constructor
  · have hheight (key : FieldKey) := encard_changes_le_of_rank Writing.height
      (x := fun k => (e k).writing key)
      (fun k => hwriting k key ▸
        Writing.widen_eq_or_height_lt (canonical k key) (canonical' k key) k)
      fun k => Writing.height_le _
    exact stabilizes_of_encard_le (encard_changes_le hstep hproper hheight)
  · intro hsteady
    refine encard_changes_le hstep hproper fun key => ?_
    exact encard_changes_le_of_rank Writing.looseness
      (fun k => hwriting k key ▸ Writing.widen_eq_or_looseness_lt (canonical k key)
        (canonical' k key) k fun a b ha => (hsteady k).writing ha)
      fun k => Writing.looseness_le _

/-- Newer effects that sometimes write the field. -/
theorem stabilizes_widenedByMore : Stabilizes (widenedByMore false) ∧
    (changes (widenedByMore false)).encard ≤ 21 := by
  have hsettles := stabilizes_widen {1} {.length} (widenedByMore false)
    (fun k => oneWrite false (upTo (k + 2))) (fun _ => rfl) (proper_oneWrite false 1)
    fun k => proper_oneWrite false (k + 2)
  exact ⟨hsettles.1, hsettles.2 fun k w _ w' hw' => absurd hw' List.not_mem_nil⟩

/-- If the newer effects always write what the older ones sometimes write, an interval of which one
bound moves is followed number by number. -/
theorem exists_widen_creeps : ∃ e n : Nat → HeapEffects,
    (∀ k, e (k + 1) = (e k).widen (n k) k) ∧ (e 0).Proper {1} {.length} ∧
      (∀ k, (n k).Proper {1} {.length}) ∧ ∀ k < 2 ^ 62, e (k + 1) ≠ e k := by
  refine ⟨widenedByMore true, fun k => oneWrite true (upTo (k + 2)), fun _ => rfl,
    proper_oneWrite false 1, fun k => proper_oneWrite true (k + 2), fun k hk heq => ?_⟩
  obtain ⟨a, ha, habs⟩ := writing_widenedByMore k (by omega)
  obtain ⟨b, hb, habs'⟩ := writing_widenedByMore (k + 1) (by omega)
  rw [heq, ha] at hb
  cases hb
  exact upTo_succ_ne (m := k + 1) (by omega) (habs'.symm.trans habs)

end HeapEffects

end ValueFlow
