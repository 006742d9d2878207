import ValueFlow.Proofs.Domain.Lattice
import ValueFlow.Proofs.State.Environments
/-!
Environments as a lattice.

The maps of an environment say nothing of a variable in one way only, so an environment is what it
knows of each variable, and its order, its joins and its meets are those of the components. A
variable that is known to have no value leaves no environment but the unreachable one. Meets are
greatest lower bounds only among canonical intervals, so these are what variables are bound to.
-/

namespace ValueFlow

open AbstractDomain (IsLattice)

namespace DomainMap

open AbstractDomain

variable {δ : Type} [AbstractDomain δ] {m n : DomainMap δ} {x : String}

/-- Meeting maps meets what they know, if what they know stays itself where it meets nothing. -/
theorem read_meet (hl : AbstractDomain.meet top (n.read x) = n.read x)
    (hr : AbstractDomain.meet (m.read x) top = m.read x) :
    (DomainMap.meet m n).read x = AbstractDomain.meet (m.read x) (n.read x) := by
  rw [read, SortedMap.getD] at hl hr
  rw [read, read, read, SortedMap.getD, SortedMap.getD, SortedMap.getD, DomainMap.meet,
    SortedMap.get?_unionWith]
  cases hm : m.get? x with
  | none =>
      rw [Option.merge_none_left]
      exact hl.symm
  | some a =>
      cases hn : n.get? x with
      | none =>
          rw [hm] at hr
          exact hr.symm
      | some b => rfl

theorem hasBottom_eq_true_iff (htop : isBottom (top : δ) = false) :
    m.hasBottom = true ↔ ∃ x, isBottom (m.read x) = true := by
  constructor
  · intro h
    obtain ⟨⟨x, d⟩, hmem, hd⟩ := List.any_eq_true.1 h
    refine ⟨x, ?_⟩
    rw [read, SortedMap.getD, SortedMap.get?_eq_some_iff.2 hmem]
    exact hd
  · rintro ⟨x, hx⟩
    rw [read, SortedMap.getD] at hx
    cases hm : m.get? x with
    | none =>
        rw [hm] at hx
        exact absurd (htop.symm.trans hx) Bool.false_ne_true
    | some d =>
        rw [hm] at hx
        exact List.any_eq_true.2 ⟨(x, d), SortedMap.get?_eq_some_iff.1 hm, hx⟩

end DomainMap

namespace Sign

theorem top_meet (a : Sign) : top.meet a = a := by cases a <;> decide

theorem meet_top (a : Sign) : a.meet top = a := by cases a <;> decide

end Sign

namespace Nullability

theorem top_meet (a : Nullability) : top.meet a = a := by cases a <;> decide

theorem meet_top (a : Nullability) : a.meet top = a := by cases a <;> decide

end Nullability

namespace Value

variable {a b c v : Value}

/-- What two values know of a variable together, component by component. -/
def meetParts (a b : Value) : Value :=
  ⟨a.sign.meet b.sign, a.nullability.meet b.nullability, a.range.meet b.range⟩

theorem meetParts_finer_left (a b : Value) : (a.meetParts b).Finer a :=
  ⟨Sign.meet_leq_left _ _, Nullability.meet_leq_left _ _, Interval.meet_leq_left _ _⟩

theorem meetParts_finer_right (a b : Value) : (a.meetParts b).Finer b :=
  ⟨Sign.meet_leq_right _ _, Nullability.meet_leq_right _ _, Interval.meet_leq_right _ _⟩

theorem Finer.meetParts (hc : c.isBottom = false) (hproper : c.range.Proper) (ha : c.Finer a)
    (hb : c.Finer b) : c.Finer (a.meetParts b) :=
  ⟨Sign.leq_meet ha.sign hb.sign, Nullability.leq_meet ha.nullability hb.nullability,
    Interval.leq_meet (not_isEmpty_of_not_isBottom hc) hproper ha.range hb.range⟩

theorem finer_top (v : Value) : v.Finer top :=
  ⟨Sign.leq_top _, Nullability.leq_top _, Interval.leq_top _⟩

end Value

namespace Environment

variable {e f g : Environment} {x : String} {v : Value} {domains : DomainSet}

/-- Whether an environment is built by operations on environments from values whose intervals are
canonical. -/
inductive BuiltCanonically : Environment → Prop
  | bottom : BuiltCanonically .bottom
  | top : BuiltCanonically .top
  | set {e : Environment} (h : BuiltCanonically e) (x : String) {v : Value}
      (hv : v.range.Canonical) (domains : DomainSet) : BuiltCanonically (e.set x v domains)
  | refine {e : Environment} (h : BuiltCanonically e) (x : String) {v : Value}
      (hv : v.range.Canonical) (domains : DomainSet) : BuiltCanonically (e.refine x v domains)
  | forget {e : Environment} (h : BuiltCanonically e) (x : String) : BuiltCanonically (e.forget x)
  | join {e f : Environment} (he : BuiltCanonically e) (hf : BuiltCanonically f) :
      BuiltCanonically (e.join f)
  | meet {e f : Environment} (he : BuiltCanonically e) (hf : BuiltCanonically f) :
      BuiltCanonically (e.meet f)
  | widen {e f : Environment} (he : BuiltCanonically e) (hf : BuiltCanonically f) (n : Nat) :
      BuiltCanonically (e.widen f n)

/-- Whether an environment is tidy and no stored interval has a wrong infinity. -/
structure Canonical (e : Environment) : Prop extends e.Tidy where
  proper : ∀ x, (e.components x).range.Proper

theorem Tidy.not_isBottom (he : e.Tidy) (x : String) : (e.components x).isBottom = false :=
  Value.isBottom_eq_false_iff.2
    ⟨of_decide_eq_false (he.sign.not_isBottom_read rfl x),
      of_decide_eq_false (he.nullability.not_isBottom_read rfl x), he.not_isEmpty x⟩

section Building

theorem canonical_bottom : bottom.Canonical := ⟨tidy_bottom, fun _ => Interval.proper_top⟩

theorem canonical_top : top.Canonical := ⟨tidy_top, fun _ => Interval.proper_top⟩

theorem Canonical.set (he : e.Canonical) (x : String) (hv : v.range.Canonical)
    (domains : DomainSet) : (e.set x v domains).Canonical := by
  refine ⟨he.toTidy.set x v domains, fun y => ?_⟩
  cases hr : e.reachable with
  | false =>
      rw [Environment.set, hr]
      exact he.proper y
  | true =>
      cases hbottom : v.isBottom with
      | true =>
          rw [Environment.set, hr, hbottom]
          exact Interval.proper_top
      | false =>
          rw [components_set hr hbottom]
          split
          · show Interval.Proper (if _ then _ else _)
            split
            · exact hv.proper (Value.not_isEmpty_of_not_isBottom hbottom)
            · exact he.proper y
          · exact he.proper y

theorem components_forget (e : Environment) (x y : String) :
    (e.forget x).components y = if y = x then .top else e.components y := by
  simp only [components, forget, DomainMap.read, SortedMap.getD, SortedMap.get?_erase]
  split
  · rfl
  · rfl

theorem Canonical.forget (he : e.Canonical) (x : String) : (e.forget x).Canonical := by
  refine ⟨he.toTidy.forget x, fun y => ?_⟩
  rw [components_forget]
  split
  · exact Interval.proper_top
  · exact he.proper y

theorem Canonical.join (he : e.Canonical) (hf : f.Canonical) : (e.join f).Canonical := by
  cases hr : e.reachable with
  | false => rwa [join_of_unreachable_left hr]
  | true =>
      cases hr' : f.reachable with
      | false => rwa [join_of_unreachable_right hr hr']
      | true =>
          refine ⟨he.toTidy.join hf.toTidy, fun x => ?_⟩
          rw [components_join hr hr']
          exact (he.proper x).mono (he.not_isEmpty x) (Interval.leq_join_left _ _)

theorem widen_of_unreachable_left (he : e.reachable = false) (n : Nat) : e.widen f n = f := by
  rw [widen, he]
  rfl

theorem Canonical.widen (he : e.Canonical) (hf : f.Canonical) (n : Nat) :
    (e.widen f n).Canonical := by
  cases hr : e.reachable with
  | false => rwa [widen_of_unreachable_left hr]
  | true =>
      cases hr' : f.reachable with
      | false => rwa [widen_of_unreachable_right hr hr']
      | true =>
          refine ⟨he.toTidy.widen hf.toTidy n, fun x => ?_⟩
          rw [components_widen hr hr']
          exact (he.proper x).mono (he.not_isEmpty x) (Interval.leq_widen_left _ _)

end Building

section Meet

theorem meet_of_unreachable (h : e.reachable = false ∨ f.reachable = false) :
    e.meet f = bottom := by
  rw [meet]
  rcases h with h | h
  · rw [h]
    rfl
  · rw [h, Bool.not_false, Bool.or_true]
    rfl

/-- What two reachable environments know together, before it is seen whether that can be. -/
def meetMaps (e f : Environment) : Environment :=
  ⟨true, DomainMap.meet e.sign f.sign, DomainMap.meet e.nullability f.nullability,
    DomainMap.meet e.range f.range⟩

theorem meet_eq (hr : e.reachable = true) (hr' : f.reachable = true) :
    e.meet f = (meetMaps e f).normalize := by
  rw [meet, hr, hr']
  rfl

theorem Canonical.components_meetMaps (he : e.Canonical) (hf : f.Canonical) (x : String) :
    (meetMaps e f).components x = (e.components x).meetParts (f.components x) := by
  rw [components, Value.meetParts, Value.mk.injEq]
  exact ⟨DomainMap.read_meet (Sign.top_meet _) (Sign.meet_top _),
    DomainMap.read_meet (Nullability.top_meet _) (Nullability.meet_top _),
    DomainMap.read_meet
      (Interval.meet_eq_right (hf.proper x) (hf.not_isEmpty x) (Interval.leq_top _))
      (Interval.meet_eq_left (he.proper x) (he.not_isEmpty x) (Interval.leq_top _))⟩

theorem normalize_eq (hr : e.reachable = true) (h : ∀ x, (e.components x).isBottom = false) :
    e.normalize = e := by
  have hnone {δ : Type} [AbstractDomain δ] (m : DomainMap δ)
      (htop : AbstractDomain.isBottom (AbstractDomain.top : δ) = false)
      (hm : ∀ x, AbstractDomain.isBottom (m.read x) = false) : m.hasBottom = false := by
    refine Bool.eq_false_iff.2 fun hb => ?_
    obtain ⟨x, hx⟩ := (DomainMap.hasBottom_eq_true_iff htop).1 hb
    exact absurd ((hm x).symm.trans hx) Bool.false_ne_true
  have hparts x := Value.isBottom_eq_false_iff.1 (h x)
  rw [normalize, hr, hnone e.sign rfl fun x => decide_eq_false (hparts x).1,
    hnone e.nullability rfl fun x => decide_eq_false (hparts x).2.1,
    hnone e.range rfl fun x => (hparts x).2.2]
  rfl

theorem normalize_eq_bottom (h : (e.components x).isBottom = true) : e.normalize = bottom := by
  have hsome {δ : Type} [AbstractDomain δ] (m : DomainMap δ)
      (htop : AbstractDomain.isBottom (AbstractDomain.top : δ) = false)
      (hm : AbstractDomain.isBottom (m.read x) = true) : m.hasBottom = true :=
    (DomainMap.hasBottom_eq_true_iff htop).2 ⟨x, hm⟩
  rw [Value.isBottom, Bool.or_eq_true, Bool.or_eq_true] at h
  rw [normalize, if_pos]
  rcases h with (h | h) | h
  · rw [hsome e.sign rfl h, Bool.or_true, Bool.true_or, Bool.true_or]
  · rw [hsome e.nullability rfl h, Bool.or_true, Bool.true_or]
  · rw [hsome e.range rfl h, Bool.or_true]

/-- The meet of two reachable environments knows of each variable what both know, and is the
unreachable one if for some variable that leaves no value. -/
theorem Canonical.meet_cases (he : e.Canonical) (hf : f.Canonical) (hr : e.reachable = true)
    (hr' : f.reachable = true) :
    (∃ x, ((e.components x).meetParts (f.components x)).isBottom = true ∧ e.meet f = bottom) ∨
      ((∀ x, ((e.components x).meetParts (f.components x)).isBottom = false) ∧
        (e.meet f).reachable = true ∧
        ∀ x, (e.meet f).components x = (e.components x).meetParts (f.components x)) := by
  rw [meet_eq hr hr']
  simp only [← he.components_meetMaps hf]
  by_cases h : ∃ x, ((meetMaps e f).components x).isBottom = true
  · obtain ⟨x, hx⟩ := h
    exact .inl ⟨x, hx, normalize_eq_bottom hx⟩
  · simp only [not_exists, Bool.not_eq_true] at h
    rw [normalize_eq rfl h]
    exact .inr ⟨h, rfl, fun _ => rfl⟩

theorem Canonical.meet (he : e.Canonical) (hf : f.Canonical) : (e.meet f).Canonical := by
  by_cases hr : e.reachable = true ∧ f.reachable = true
  · rcases he.meet_cases hf hr.1 hr.2 with ⟨-, -, h⟩ | ⟨hbottom, -, hparts⟩
    · rw [h]
      exact canonical_bottom
    · refine ⟨he.toTidy.meet hf.toTidy, fun x => ?_⟩
      rw [hparts]
      exact Interval.proper_of_isEmpty_between (Value.not_isEmpty_of_not_isBottom (hbottom x))
  · rw [not_and_or, Bool.not_eq_true, Bool.not_eq_true] at hr
    rw [meet_of_unreachable hr]
    exact canonical_bottom

theorem BuiltCanonically.canonical (he : e.BuiltCanonically) : e.Canonical := by
  induction he with
  | bottom => exact canonical_bottom
  | top => exact canonical_top
  | set _ x hv domains ih => exact ih.set x hv domains
  | refine _ x _ domains ih => exact ih.set x (Value.isReduced_make _ _ _).canonical_range domains
  | forget _ x ih => exact ih.forget x
  | join _ _ ihe ihf => exact ihe.join ihf
  | meet _ _ ihe ihf => exact ihe.meet ihf
  | widen _ _ n ihe ihf => exact ihe.widen ihf n

theorem Canonical.meet_leq (he : e.Canonical) (hf : f.Canonical) :
    (e.meet f).leq e = true ∧ (e.meet f).leq f = true := by
  by_cases hr : e.reachable = true ∧ f.reachable = true
  · rcases he.meet_cases hf hr.1 hr.2 with ⟨-, -, h⟩ | ⟨-, -, hparts⟩
    · rw [h]
      exact ⟨bottom_leq e, bottom_leq f⟩
    · exact ⟨leq_iff.2 fun _ => ⟨hr.1, fun x => hparts x ▸ Value.meetParts_finer_left _ _⟩,
        leq_iff.2 fun _ => ⟨hr.2, fun x => hparts x ▸ Value.meetParts_finer_right _ _⟩⟩
  · rw [not_and_or, Bool.not_eq_true, Bool.not_eq_true] at hr
    rw [meet_of_unreachable hr]
    exact ⟨bottom_leq e, bottom_leq f⟩

theorem Canonical.leq_meet (he : e.Canonical) (hf : f.Canonical) (hg : g.Canonical)
    (hge : g.leq e = true) (hgf : g.leq f = true) : g.leq (e.meet f) = true := by
  refine leq_iff.2 fun hr => ?_
  obtain ⟨hre, hfiner⟩ := leq_iff.1 hge hr
  obtain ⟨hrf, hfiner'⟩ := leq_iff.1 hgf hr
  have hparts x : (g.components x).Finer ((e.components x).meetParts (f.components x)) :=
    (hfiner x).meetParts (hg.not_isBottom x) (hg.proper x) (hfiner' x)
  rcases he.meet_cases hf hre hrf with ⟨x, hbottom, -⟩ | ⟨-, hreach, heq⟩
  · -- a variable without a value would have none below either
    rw [(hparts x).not_isBottom (hg.not_isBottom x)] at hbottom
    cases hbottom
  · exact ⟨hreach, fun x => heq x ▸ hparts x⟩

end Meet

section Order

theorem leq_top (e : Environment) : e.leq top = true :=
  leq_iff.2 fun _ => ⟨rfl, fun _ => Value.finer_top _⟩

theorem Tidy.leq_antisymm (he : e.Tidy) (hf : f.Tidy) (hef : e.leq f = true)
    (hfe : f.leq e = true) : e = f := by
  cases hr : e.reachable with
  | false =>
      have hr' : f.reachable = false :=
        Bool.eq_false_iff.2 fun h => absurd (hr.symm.trans (leq_iff.1 hfe h).1) Bool.false_ne_true
      rw [he.eq_bottom hr, hf.eq_bottom hr']
  | true =>
      obtain ⟨hr', hfiner⟩ := leq_iff.1 hef hr
      obtain ⟨-, hfiner'⟩ := leq_iff.1 hfe hr'
      exact he.ext hf (hr.trans hr'.symm) fun x =>
        (hfiner x).antisymm (hfiner' x) (he.not_isBottom x)

theorem leq_of_unreachable (hr : e.reachable = false) (f : Environment) : e.leq f = true :=
  leq_iff.2 fun h => absurd (hr.symm.trans h) Bool.false_ne_true

theorem leq_join_both (e f : Environment) :
    e.leq (e.join f) = true ∧ f.leq (e.join f) = true := by
  cases hr : e.reachable with
  | false =>
      rw [join_of_unreachable_left hr]
      exact ⟨leq_of_unreachable hr f, leq_refl f⟩
  | true =>
      cases hr' : f.reachable with
      | false =>
          rw [join_of_unreachable_right hr hr']
          exact ⟨leq_refl e, leq_of_unreachable hr' e⟩
      | true => exact leq_join hr hr'

theorem join_leq_of_leq (heg : e.leq g = true) (hfg : f.leq g = true) :
    (e.join f).leq g = true := by
  cases hr : e.reachable with
  | false => rwa [join_of_unreachable_left hr]
  | true =>
      cases hr' : f.reachable with
      | false => rwa [join_of_unreachable_right hr hr']
      | true => exact join_leq hr hr' heg hfg

theorem leq_widen_both (e f : Environment) (n : Nat) :
    e.leq (e.widen f n) = true ∧ f.leq (e.widen f n) = true := by
  cases hr : e.reachable with
  | false =>
      rw [widen_of_unreachable_left hr]
      exact ⟨leq_of_unreachable hr f, leq_refl f⟩
  | true =>
      cases hr' : f.reachable with
      | false =>
          rw [widen_of_unreachable_right hr hr']
          exact ⟨leq_refl e, leq_of_unreachable hr' e⟩
      | true => exact leq_widen hr hr' n

theorem isLattice_builtCanonically : IsLattice BuiltCanonically where
  bottom := .bottom
  top := .top
  join := .join
  meet := .meet
  leq_refl _ := leq_refl _
  leq_trans _ _ _ := leq_trans
  leq_antisymm he hf := he.canonical.toTidy.leq_antisymm hf.canonical.toTidy
  bottom_leq _ := bottom_leq _
  leq_top _ := leq_top _
  leq_join _ _ := leq_join_both _ _
  join_leq _ _ _ := join_leq_of_leq
  meet_leq he hf := he.canonical.meet_leq hf.canonical
  leq_meet he hf hg := he.canonical.leq_meet hf.canonical hg.canonical

end Order

theorem Tidy.eq_iff (he : e.Tidy) (hf : f.Tidy) : e = f ↔ e.reachable = f.reachable ∧
    ∀ x, e.sign.read x = f.sign.read x ∧ e.nullability.read x = f.nullability.read x ∧
      e.range.read x = f.range.read x := by
  constructor
  · rintro rfl
    exact ⟨rfl, fun _ => ⟨rfl, rfl, rfl⟩⟩
  · rintro ⟨hr, hread⟩
    refine he.ext hf hr fun x => ?_
    rw [components, components, (hread x).1, (hread x).2.1, (hread x).2.2]

/-- Environments that are built from values with canonical intervals store nothing that says
nothing or cannot be, are what they know of each variable, and form a bounded lattice whose order is
that of the joins. Widening is above both sides, and chains of widenings settle. -/
theorem builtCanonically_isLattice :
    (∀ e, BuiltCanonically e → e.Tidy) ∧
    (∀ e f, BuiltCanonically e → BuiltCanonically f →
      (e = f ↔ e.reachable = f.reachable ∧ ∀ x, e.sign.read x = f.sign.read x ∧
        e.nullability.read x = f.nullability.read x ∧ e.range.read x = f.range.read x) ∧
      (e.leq f = true ↔ e.join f = f) ∧
      ∀ n, e.leq (e.widen f n) = true ∧ f.leq (e.widen f n) = true) ∧
    IsLattice BuiltCanonically ∧
    ∀ (x y : Nat → Environment) (n : Nat → Nat), BuiltCanonically (x 0) →
      (∀ k, BuiltCanonically (y k)) → (∀ k, x (k + 1) = (x k).widen (y k) (n k)) →
      Stabilizes x := by
  refine ⟨fun e he => he.canonical.toTidy, fun e f he hf => ⟨?_, ?_, leq_widen_both e f⟩,
    isLattice_builtCanonically, fun x y n h0 hy hstep => ?_⟩
  · exact he.canonical.toTidy.eq_iff hf.canonical.toTidy
  · exact isLattice_builtCanonically.leq_iff_join_eq he hf
  · exact stabilizes_of_widens hstep h0.canonical.toTidy fun k => (hy k).canonical.toTidy

/-- The state in which a variable is no positive number. -/
def notPositive : Environment := top.set "x" (.intIn (.atMost 0)) .all

/-- The state in which it is no negative number. -/
def notNegative : Environment := top.set "x" .nonNegative .all

/-- Both are known together of zero, neither follows from the other, and a sequence that is widened
by one of them settles. -/
theorem builtCanonically_isLattice_zero :
    notPositive.BuiltCanonically ∧ notNegative.BuiltCanonically ∧
    (notPositive.meet notNegative).BuiltCanonically ∧
    (notPositive.meet notNegative).range.read "x" = .constant 0 ∧
    (notPositive.meet notNegative).Tidy ∧ (notPositive.meet notNegative).leq notPositive = true ∧
    notPositive ≠ notNegative ∧ notPositive.leq notNegative ≠ true ∧
    ∃ x : Nat → Environment, x 0 = notPositive ∧
      (∀ k, x (k + 1) = (x k).widen notNegative k) ∧ Stabilizes x := by
  obtain ⟨htidy, hpair, hlattice, hsettle⟩ := builtCanonically_isLattice
  have hset {v : Value} (hv : v.IsReduced) : (top.set "x" v .all).BuiltCanonically :=
    .set .top "x" hv.canonical_range .all
  have he : notPositive.BuiltCanonically := hset (Value.isReduced_make _ _ _)
  have hf : notNegative.BuiltCanonically := hset (Value.isReduced_make _ _ _)
  obtain ⟨heq, hleq, -⟩ := hpair _ _ he hf
  have hread : notPositive.range.read "x" ≠ notNegative.range.read "x" := by decide
  refine ⟨he, hf, hlattice.meet he hf, by decide, htidy _ (hlattice.meet he hf),
    (hlattice.meet_leq he hf).1, fun h => hread ((heq.1 h).2 "x").2.2,
    fun h => absurd (hleq.1 h) (by decide), ?_⟩
  let x : Nat → Environment := fun k => k.rec notPositive fun k e => e.widen notNegative k
  exact ⟨x, rfl, fun _ => rfl, hsettle x (fun _ => notNegative) id he (fun _ => hf) fun _ => rfl⟩

end Environment

end ValueFlow
