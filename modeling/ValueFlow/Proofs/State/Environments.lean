import ValueFlow.Proofs.Domain.Widening
import ValueFlow.Proofs.Heap.Canonical
import ValueFlow.Proofs.Sequences
import ValueFlow.Proofs.State.Order
/-!
Environments that are built by the operations on environments.

Such an environment stores neither knowledge that says nothing nor knowledge that cannot be, and
there is one unreachable environment only. Two of them are equal as soon as they know the same of
each variable, so the laws of the join are those of its components. Widening forgets variables and
never learns about new ones, which is why it settles over any set of variables.
-/

namespace ValueFlow

namespace DomainMap

open AbstractDomain

variable {δ : Type} [AbstractDomain δ] {m n : DomainMap δ}

/-- Whether all that is stored says something that can be. -/
def Tidy (m : DomainMap δ) : Prop :=
  ∀ x d, m.get? x = some d → d ≠ AbstractDomain.top ∧ isBottom d = false

theorem tidy_empty : Tidy (∅ : DomainMap δ) := fun _ _ h => nomatch h

theorem Tidy.erase (hm : Tidy m) (x : String) : Tidy (m.erase x) := by
  intro y d h
  rw [SortedMap.get?_erase] at h
  split at h
  · cases h
  · exact hm y d h

theorem Tidy.write [DecidableEq δ] (hm : Tidy m) (x : String) {d : δ} (hd : isBottom d = false) :
    Tidy (m.write x d) := by
  unfold DomainMap.write
  split
  · exact hm.erase x
  · next htop =>
      intro y d' h
      rw [SortedMap.get?_insert] at h
      split at h
      · cases h
        exact ⟨fun heq => htop (decide_eq_true heq), hd⟩
      · exact hm y d' h

theorem Tidy.combine [DecidableEq δ] {op : δ → δ → δ}
    (hop : ∀ a b : δ, isBottom a = false → isBottom b = false → isBottom (op a b) = false)
    (hm : Tidy m) (hn : Tidy n) : Tidy (combine op m n) := by
  intro x d h
  rw [DomainMap.combine, SortedMap.get?_filterMap] at h
  obtain ⟨a, ha, h⟩ := Option.bind_eq_some_iff.1 h
  obtain ⟨b, hb, h⟩ := Option.bind_eq_some_iff.1 h
  split at h
  · cases h
  · next htop =>
      cases h
      exact ⟨fun heq => htop (decide_eq_true heq), hop a b (hm x a ha).2 (hn x b hb).2⟩

theorem not_isBottom_of_hasBottom (h : hasBottom m = false) {x : String} {d : δ}
    (hx : m.get? x = some d) : isBottom d = false := by
  rw [hasBottom, SortedMap.any, List.any_eq_false] at h
  exact Bool.eq_false_iff.2 (h (x, d) (SortedMap.get?_eq_some_iff.1 hx))

theorem Tidy.meet
    (htop : ∀ a b : δ, AbstractDomain.meet a b = AbstractDomain.top → a = AbstractDomain.top)
    (hm : Tidy m) (hn : Tidy n) (hbottom : hasBottom (DomainMap.meet m n) = false) :
    Tidy (DomainMap.meet m n) := by
  intro x d h
  refine ⟨fun heq => ?_, not_isBottom_of_hasBottom hbottom h⟩
  rw [DomainMap.meet, SortedMap.get?_unionWith] at h
  cases ha : m.get? x with
  | none =>
      rw [ha, Option.merge_none_left] at h
      exact (hn x d h).1 heq
  | some a =>
      cases hb : n.get? x with
      | none =>
          rw [ha, hb] at h
          cases h
          exact (hm x d ha).1 heq
      | some b =>
          rw [ha, hb] at h
          cases h
          exact (hm x a ha).1 (htop a b heq)

/-- Maps that store nothing without content are equal if they know the same. -/
theorem Tidy.ext (hm : Tidy m) (hn : Tidy n) (h : ∀ x, m.read x = n.read x) : m = n := by
  refine SortedMap.ext_get? fun x => ?_
  have hx := h x
  rw [DomainMap.read, DomainMap.read, SortedMap.getD, SortedMap.getD] at hx
  cases ha : m.get? x with
  | none =>
      cases hb : n.get? x with
      | none => rfl
      | some b =>
          rw [ha, hb] at hx
          exact absurd hx.symm (hn x b hb).1
  | some a =>
      cases hb : n.get? x with
      | none =>
          rw [ha, hb] at hx
          exact absurd hx (hm x a ha).1
      | some b =>
          rw [ha, hb] at hx
          exact congrArg some hx

theorem Tidy.not_isBottom_read (hm : Tidy m) (htop : isBottom (AbstractDomain.top : δ) = false)
    (x : String) : isBottom (m.read x) = false := by
  rw [DomainMap.read, SortedMap.getD]
  cases ha : m.get? x with
  | none => exact htop
  | some a => exact (hm x a ha).2

end DomainMap

namespace Sign

theorem eq_top_of_meet {a b : Sign} (h : a.meet b = .top) : a = .top := by
  revert h
  cases a <;> cases b <;> decide

theorem join_ne_bottom {a b : Sign} (h : a ≠ .bottom) : a.join b ≠ .bottom := fun hj =>
  h (eq_bottom_of_leq (hj ▸ leq_join_left a b))

end Sign

namespace Nullability

theorem eq_top_of_meet {a b : Nullability} (h : a.meet b = .top) : a = .top := by
  revert h
  cases a <;> cases b <;> decide

theorem join_ne_bottom {a b : Nullability} (h : a ≠ .bottom) : a.join b ≠ .bottom := fun hj =>
  h (eq_bottom_of_leq (hj ▸ leq_join_left a b))

end Nullability

namespace Interval

theorem eq_top_of_meet {r s : Interval} (h : r.meet s = top) : r = top := by
  have hle := meet_leq_left r s
  rw [h] at hle
  obtain ⟨-, hlo, hhi⟩ := leq_iff.1 hle rfl
  cases r
  cases Bound.le_negInf hlo
  cases Bound.posInf_le hhi
  rfl

end Interval

namespace Environment

variable {e f g : Environment} {x : String}

/-- Whether an environment is built by operations on environments. -/
inductive Built : Environment → Prop
  | bottom : Built .bottom
  | top : Built .top
  | set {e : Environment} (h : Built e) (x : String) (v : Value) (domains : DomainSet) :
      Built (e.set x v domains)
  | refine {e : Environment} (h : Built e) (x : String) (v : Value) (domains : DomainSet) :
      Built (e.refine x v domains)
  | forget {e : Environment} (h : Built e) (x : String) : Built (e.forget x)
  | join {e f : Environment} (he : Built e) (hf : Built f) : Built (e.join f)
  | meet {e f : Environment} (he : Built e) (hf : Built f) : Built (e.meet f)
  | widen {e f : Environment} (he : Built e) (hf : Built f) (n : Nat) : Built (e.widen f n)

/-- Whether an environment is reachable or the one unreachable environment, and all that it stores
says something that can be. -/
structure Tidy (e : Environment) : Prop where
  reached : e.reachable = true ∨ e = bottom
  sign : DomainMap.Tidy e.sign
  nullability : DomainMap.Tidy e.nullability
  range : DomainMap.Tidy e.range

theorem Tidy.eq_bottom (he : e.Tidy) (hr : e.reachable = false) : e = bottom :=
  he.reached.resolve_left fun h' => Bool.false_ne_true (hr.symm.trans h')

theorem tidy_bottom : bottom.Tidy :=
  ⟨.inr rfl, DomainMap.tidy_empty, DomainMap.tidy_empty, DomainMap.tidy_empty⟩

theorem tidy_top : top.Tidy :=
  ⟨.inl rfl, DomainMap.tidy_empty, DomainMap.tidy_empty, DomainMap.tidy_empty⟩

theorem Tidy.set (he : e.Tidy) (x : String) (v : Value) (domains : DomainSet) :
    (e.set x v domains).Tidy := by
  cases hr : e.reachable with
  | false =>
      rw [Environment.set, hr]
      exact he
  | true =>
      cases hv : v.isBottom with
      | true =>
          rw [Environment.set, hr, hv]
          exact tidy_bottom
      | false =>
          obtain ⟨hsign, hnull, hrange⟩ := Value.components_of_not_isBottom hv
          rw [set_eq hr hv]
          refine ⟨.inl hr, ?_, ?_, ?_⟩ <;> dsimp only <;> split
          · exact he.sign.write x (decide_eq_false hsign)
          · exact he.sign
          · exact he.nullability.write x (decide_eq_false hnull)
          · exact he.nullability
          · exact he.range.write x hrange
          · exact he.range

theorem Tidy.forget (he : e.Tidy) (x : String) : (e.forget x).Tidy := by
  rcases he.reached with hr | rfl
  · exact ⟨.inl hr, he.sign.erase x, he.nullability.erase x, he.range.erase x⟩
  · exact tidy_bottom

/-- Combining what two environments know, in a way that leaves something of what both know. -/
theorem Tidy.combine (he : e.Tidy) (hf : f.Tidy) {widen : Interval → Interval → Interval}
    (hwiden : ∀ r s : Interval, r.leq (widen r s) = true) :
    Tidy ⟨true, DomainMap.combine Sign.join e.sign f.sign,
      DomainMap.combine Nullability.join e.nullability f.nullability,
      DomainMap.combine widen e.range f.range⟩ where
  reached := .inl rfl
  sign := he.sign.combine
    (fun _ _ ha _ => decide_eq_false (Sign.join_ne_bottom (of_decide_eq_false ha))) hf.sign
  nullability := he.nullability.combine
    (fun _ _ ha _ => decide_eq_false (Nullability.join_ne_bottom (of_decide_eq_false ha)))
    hf.nullability
  range := he.range.combine (fun a b ha _ => Interval.not_isEmpty_of_leq ha (hwiden a b)) hf.range

theorem Tidy.join (he : e.Tidy) (hf : f.Tidy) : (e.join f).Tidy := by
  cases hr : e.reachable with
  | false =>
      rw [Environment.join, hr]
      exact hf
  | true =>
      cases hr' : f.reachable with
      | false =>
          rw [Environment.join, hr, hr']
          exact he
      | true =>
          rw [join_eq hr hr']
          exact he.combine hf Interval.leq_join_left

theorem Tidy.widen (he : e.Tidy) (hf : f.Tidy) (n : Nat) : (e.widen f n).Tidy := by
  cases hr : e.reachable with
  | false =>
      rw [Environment.widen, hr]
      exact hf
  | true =>
      cases hr' : f.reachable with
      | false =>
          rw [Environment.widen, hr, hr']
          exact he
      | true =>
          rw [widen_eq hr hr']
          exact he.combine hf Interval.leq_widen_left

theorem Tidy.meet (he : e.Tidy) (hf : f.Tidy) : (e.meet f).Tidy := by
  unfold Environment.meet
  split
  · exact tidy_bottom
  · unfold normalize
    split
    · exact tidy_bottom
    · next hbottom =>
        simp only [Bool.not_true, Bool.false_or, Bool.or_eq_true, not_or, Bool.not_eq_true]
          at hbottom
        obtain ⟨⟨hsign, hnull⟩, hrange⟩ := hbottom
        exact ⟨.inl rfl, he.sign.meet (fun _ _ => Sign.eq_top_of_meet) hf.sign hsign,
          he.nullability.meet (fun _ _ => Nullability.eq_top_of_meet) hf.nullability hnull,
          he.range.meet (fun _ _ => Interval.eq_top_of_meet) hf.range hrange⟩

theorem Built.tidy (he : e.Built) : e.Tidy := by
  induction he with
  | bottom => exact tidy_bottom
  | top => exact tidy_top
  | set _ x v domains ih => exact ih.set x v domains
  | refine _ x v domains ih => exact ih.set x _ domains
  | forget _ x ih => exact ih.forget x
  | join _ _ ihe ihf => exact ihe.join ihf
  | meet _ _ ihe ihf => exact ihe.meet ihf
  | widen _ _ n ihe ihf => exact ihe.widen ihf n

theorem Tidy.ext (he : e.Tidy) (hf : f.Tidy) (hr : e.reachable = f.reachable)
    (h : ∀ x, e.components x = f.components x) : e = f := by
  have hsign := he.sign.ext hf.sign fun x => congrArg Value.sign (h x)
  have hnull := he.nullability.ext hf.nullability fun x => congrArg Value.nullability (h x)
  have hrange := he.range.ext hf.range fun x => congrArg Value.range (h x)
  cases e
  cases f
  cases hr
  cases hsign
  cases hnull
  cases hrange
  rfl

theorem Tidy.not_isEmpty (he : e.Tidy) (x : String) : (e.components x).range.isEmpty = false :=
  he.range.not_isBottom_read rfl x

section Join

theorem join_of_unreachable_left (he : e.reachable = false) : e.join f = f := by
  rw [join, he]
  rfl

theorem join_of_unreachable_right (he : e.reachable = true) (hf : f.reachable = false) :
    e.join f = e := by
  rw [join, he, hf]
  rfl

theorem Tidy.join_comm (he : e.Tidy) (hf : f.Tidy) (hr : e.reachable = true)
    (hr' : f.reachable = true) : e.join f = f.join e := by
  refine (he.join hf).ext (hf.join he) (by rw [join_eq hr hr', join_eq hr' hr]) fun x => ?_
  rw [components_join hr hr', components_join hr' hr, Sign.join_comm, Nullability.join_comm,
    Interval.join_comm (he.not_isEmpty x) (hf.not_isEmpty x)]

theorem Tidy.join_assoc (he : e.Tidy) (hf : f.Tidy) (hg : g.Tidy) (hr : e.reachable = true)
    (hr' : f.reachable = true) (hr'' : g.reachable = true) :
    (e.join f).join g = e.join (f.join g) := by
  have hef : (e.join f).reachable = true := by rw [join_eq hr hr']
  have hfg : (f.join g).reachable = true := by rw [join_eq hr' hr'']
  refine ((he.join hf).join hg).ext (he.join (hf.join hg)) ?_ fun x => ?_
  · rw [join_eq hef hr'', join_eq hr hfg]
  · rw [components_join hef hr'', components_join hr hfg, components_join hr hr',
      components_join hr' hr'', Sign.join_assoc, Nullability.join_assoc,
      Interval.join_assoc (he.not_isEmpty x) (hf.not_isEmpty x) (hg.not_isEmpty x)]

theorem Tidy.join_self (he : e.Tidy) : e.join e = e := by
  cases hr : e.reachable with
  | false => exact join_of_unreachable_left hr
  | true =>
      refine (he.join he).ext he (by rw [join_eq hr hr, hr]) fun x => ?_
      rw [components_join hr hr, Sign.join_self, Nullability.join_self,
        Interval.join_self (he.not_isEmpty x)]

theorem leq_join (hr : e.reachable = true) (hr' : f.reachable = true) :
    e.leq (e.join f) = true ∧ f.leq (e.join f) = true := by
  have hreach : (e.join f).reachable = true := by rw [join_eq hr hr']
  constructor
  · refine leq_iff.2 fun _ => ⟨hreach, fun x => ?_⟩
    rw [components_join hr hr']
    exact ⟨Sign.leq_join_left _ _, Nullability.leq_join_left _ _, Interval.leq_join_left _ _⟩
  · refine leq_iff.2 fun _ => ⟨hreach, fun x => ?_⟩
    rw [components_join hr hr']
    exact ⟨Sign.leq_join_right _ _, Nullability.leq_join_right _ _, Interval.leq_join_right _ _⟩

theorem join_leq (hr : e.reachable = true) (hr' : f.reachable = true) (heg : e.leq g = true)
    (hfg : f.leq g = true) : (e.join f).leq g = true := by
  obtain ⟨hreach, hfiner⟩ := leq_iff.1 heg hr
  obtain ⟨-, hfiner'⟩ := leq_iff.1 hfg hr'
  refine leq_iff.2 fun _ => ⟨hreach, fun x => ?_⟩
  rw [components_join hr hr']
  exact ⟨Sign.join_leq (hfiner x).sign (hfiner' x).sign,
    Nullability.join_leq (hfiner x).nullability (hfiner' x).nullability,
    Interval.join_leq (hfiner x).range (hfiner' x).range⟩

end Join

section Widening

theorem widen_of_unreachable_right (he : e.reachable = true) (hf : f.reachable = false) (n : Nat) :
    e.widen f n = e := by
  rw [widen, he, hf]
  rfl

theorem leq_widen (hr : e.reachable = true) (hr' : f.reachable = true) (n : Nat) :
    e.leq (e.widen f n) = true ∧ f.leq (e.widen f n) = true := by
  have hreach : (e.widen f n).reachable = true := by rw [widen_eq hr hr']
  constructor
  · refine leq_iff.2 fun _ => ⟨hreach, fun x => ?_⟩
    rw [components_widen hr hr']
    exact ⟨Sign.leq_join_left _ _, Nullability.leq_join_left _ _, Interval.leq_widen_left _ _⟩
  · refine leq_iff.2 fun _ => ⟨hreach, fun x => ?_⟩
    rw [components_widen hr hr']
    exact ⟨Sign.leq_join_right _ _, Nullability.leq_join_right _ _, Interval.leq_widen_right _ _⟩

theorem reachable_widen (hr : e.reachable = true) (f : Environment) (n : Nat) :
    (e.widen f n).reachable = true := by
  cases hr' : f.reachable with
  | false => rw [widen_of_unreachable_right hr hr', hr]
  | true => rw [widen_eq hr hr']

/-- How much is left open about a variable. -/
def openness (v : Value) : Nat := v.sign.rank + v.nullability.rank + v.range.openEnds

theorem openness_le (v : Value) : openness v ≤ 8 :=
  Nat.add_le_add (Nat.add_le_add v.sign.rank_le v.nullability.rank_le) v.range.openEnds_le

theorem components_widen_eq_or_openness_lt (he : e.Tidy) (hr : e.reachable = true)
    (f : Environment) (n : Nat) (x : String) :
    (e.widen f n).components x = e.components x ∨
      openness (e.components x) < openness ((e.widen f n).components x) := by
  cases hr' : f.reachable with
  | false => exact .inl (by rw [widen_of_unreachable_right hr hr'])
  | true =>
      rw [components_widen hr hr']
      exact Value.eq_or_sum_lt Interval.openEnds (Sign.eq_or_rank_lt (Sign.leq_join_left _ _))
        (Nullability.eq_or_rank_lt (Nullability.leq_join_left _ _))
        (Interval.widen_eq_or_openEnds_lt (he.not_isEmpty x) _)

/-- What is not known is not known after a widening either. -/
theorem components_widen_of_eq_top (hr : e.reachable = true) (f : Environment) (n : Nat)
    (h : e.components x = .top) : (e.widen f n).components x = .top := by
  cases hr' : f.reachable with
  | false => rw [widen_of_unreachable_right hr hr', h]
  | true =>
      rw [components_widen hr hr', h]
      exact Value.mk.injEq .. ▸ ⟨Sign.top_join _, Nullability.top_join _, Interval.top_widen _⟩

theorem components_eq_top_of_not_mem (h : x ∉ e.names) : e.components x = .top := by
  have hnone {δ : Type} [AbstractDomain δ] (m : DomainMap δ) (hm : x ∉ m.keys) :
      m.read x = AbstractDomain.top := by
    rw [DomainMap.read, SortedMap.getD, Option.eq_none_iff_forall_not_mem.2 fun v hv =>
      hm (SortedMap.mem_keys.2 ⟨v, hv⟩)]
    rfl
  rw [names, ← SortedSet.mem_def, SortedSet.mem_ofList, List.mem_append, List.mem_append, not_or,
    not_or] at h
  rw [components, hnone _ h.1.1, hnone _ h.1.2, hnone _ h.2]
  rfl

variable {x y : Nat → Environment} {n : Nat → Nat}
  (hstep : ∀ k, x (k + 1) = (x k).widen (y k) (n k))
include hstep

theorem tidy_of_widens (h0 : (x 0).Tidy) (hy : ∀ k, (y k).Tidy) (k : Nat) : (x k).Tidy := by
  induction k with
  | zero => exact h0
  | succ k ih =>
      rw [hstep]
      exact ih.widen (hy k) _

/-- Reachable environments change at most eight times for each variable known at the start. -/
theorem encard_changes_le (hr : ∀ k, (x k).reachable = true) (hx : ∀ k, (x k).Tidy) :
    (changes x).encard ≤ ((x 0).names.length * 8 : Nat) := by
  have htop : ∀ z, z ∉ (x 0).names → ∀ k, (x k).components z = .top := by
    intro z hz k
    induction k with
    | zero => exact components_eq_top_of_not_mem hz
    | succ k ih =>
        rw [hstep]
        exact components_widen_of_eq_top (hr k) _ _ ih
  refine encard_changes_le_mul (x 0).names (fun z k => (x k).components z) (fun z _ => ?_)
    fun k hk => ?_
  · exact encard_changes_le_of_rank openness
      (fun k => hstep k ▸ components_widen_eq_or_openness_lt (hx k) (hr k) _ _ z)
      fun k => openness_le _
  · refine (hx (k + 1)).ext (hx k) (by rw [hr, hr]) fun z => ?_
    by_cases hz : z ∈ (x 0).names
    · exact hk z hz
    · rw [htop z hz, htop z hz]

/-- Widening environments settles. -/
theorem stabilizes_of_widens (h0 : (x 0).Tidy) (hy : ∀ k, (y k).Tidy) : Stabilizes x := by
  have hx := tidy_of_widens hstep h0 hy
  refine stabilizes_of_reached reachable bottom (fun k hk => ?_) (fun first hr => ?_)
    fun k _ hk => (hx (k + 1)).eq_bottom hk
  · rw [hstep]
    exact reachable_widen hk _ _
  · have htail := encard_changes_le (x := fun k => x (first + k)) (fun k => hstep (first + k)) hr
      fun k => hx _
    exact stabilizes_of_encard_le htail

end Widening

end Environment

end ValueFlow
