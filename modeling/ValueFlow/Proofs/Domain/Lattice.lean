import Mathlib.Order.Lattice
import ValueFlow.Proofs.Domain.Reduction
/-!
Lattices among the members of a domain, and the one of reduced values.

On all values the order is a preorder only: whatever has an empty component describes nothing and is
below everything. Among reduced values one describes nothing, and they are closed under joins and
meets. Main statements: the laws that follow from `IsLattice`, and `isLattice_isReduced`.
-/

namespace ValueFlow

namespace AbstractDomain

variable {α : Type} [AbstractDomain α] {P : α → Prop} {a b c : α}

/-- Whether some members of a domain form a bounded lattice under its operations. -/
structure IsLattice (P : α → Prop) : Prop where
  bottom : P bottom
  top : P top
  join : ∀ {a b}, P a → P b → P (join a b)
  meet : ∀ {a b}, P a → P b → P (meet a b)
  leq_refl : ∀ {a}, P a → leq a a = true
  leq_trans : ∀ {a b c}, P a → P b → P c → leq a b = true → leq b c = true → leq a c = true
  leq_antisymm : ∀ {a b}, P a → P b → leq a b = true → leq b a = true → a = b
  bottom_leq : ∀ {a}, P a → leq AbstractDomain.bottom a = true
  leq_top : ∀ {a}, P a → leq a AbstractDomain.top = true
  leq_join : ∀ {a b}, P a → P b →
    leq a (AbstractDomain.join a b) = true ∧ leq b (AbstractDomain.join a b) = true
  join_leq : ∀ {a b c}, P a → P b → P c → leq a c = true → leq b c = true →
    leq (AbstractDomain.join a b) c = true
  meet_leq : ∀ {a b}, P a → P b →
    leq (AbstractDomain.meet a b) a = true ∧ leq (AbstractDomain.meet a b) b = true
  leq_meet : ∀ {a b c}, P a → P b → P c → leq c a = true → leq c b = true →
    leq c (AbstractDomain.meet a b) = true

namespace IsLattice

/-- The members, ordered and with the two operations. -/
abbrev toLattice (h : IsLattice P) : Lattice {a // P a} where
  le a b := leq a.1 b.1 = true
  le_refl a := h.leq_refl a.2
  le_trans a b c := h.leq_trans a.2 b.2 c.2
  le_antisymm a b hab hba := Subtype.ext (h.leq_antisymm a.2 b.2 hab hba)
  sup a b := ⟨AbstractDomain.join a.1 b.1, h.join a.2 b.2⟩
  le_sup_left a b := (h.leq_join a.2 b.2).1
  le_sup_right a b := (h.leq_join a.2 b.2).2
  sup_le a b c := h.join_leq a.2 b.2 c.2
  inf a b := ⟨AbstractDomain.meet a.1 b.1, h.meet a.2 b.2⟩
  inf_le_left a b := (h.meet_leq a.2 b.2).1
  inf_le_right a b := (h.meet_leq a.2 b.2).2
  le_inf a b c := h.leq_meet b.2 c.2 a.2

variable (h : IsLattice P) (ha : P a) (hb : P b)
include h ha

theorem join_self : AbstractDomain.join a a = a :=
  letI := h.toLattice
  congrArg Subtype.val (sup_idem (⟨a, ha⟩ : {a // P a}))

theorem meet_self : AbstractDomain.meet a a = a :=
  letI := h.toLattice
  congrArg Subtype.val (inf_idem (⟨a, ha⟩ : {a // P a}))

include hb

theorem join_comm : AbstractDomain.join a b = AbstractDomain.join b a :=
  letI := h.toLattice
  congrArg Subtype.val (sup_comm (⟨a, ha⟩ : {a // P a}) ⟨b, hb⟩)

theorem meet_comm : AbstractDomain.meet a b = AbstractDomain.meet b a :=
  letI := h.toLattice
  congrArg Subtype.val (inf_comm (⟨a, ha⟩ : {a // P a}) ⟨b, hb⟩)

theorem leq_iff_join_eq : leq a b = true ↔ AbstractDomain.join a b = b :=
  letI := h.toLattice
  (sup_eq_right (a := (⟨a, ha⟩ : {a // P a})) (b := ⟨b, hb⟩)).symm.trans Subtype.ext_iff

theorem join_assoc (hc : P c) : AbstractDomain.join (AbstractDomain.join a b) c =
    AbstractDomain.join a (AbstractDomain.join b c) :=
  letI := h.toLattice
  congrArg Subtype.val (sup_assoc (⟨a, ha⟩ : {a // P a}) ⟨b, hb⟩ ⟨c, hc⟩)

theorem meet_assoc (hc : P c) : AbstractDomain.meet (AbstractDomain.meet a b) c =
    AbstractDomain.meet a (AbstractDomain.meet b c) :=
  letI := h.toLattice
  congrArg Subtype.val (inf_assoc (⟨a, ha⟩ : {a // P a}) ⟨b, hb⟩ ⟨c, hc⟩)

end IsLattice

end AbstractDomain

open AbstractDomain (IsLattice)

namespace Interval

variable {r s : Interval}

/-- Whether two bounds give an interval in this form. -/
def Canonical (r : Interval) : Prop := ∃ lo hi, between lo hi = r

theorem canonical_bottom : bottom.Canonical := ⟨.posInf, .negInf, rfl⟩

theorem canonical_iff : r.Canonical ↔ r = bottom ∨ (r.isEmpty = false ∧ r.Proper) := by
  constructor
  · rintro ⟨lo, hi, rfl⟩
    cases hempty : (between lo hi).isEmpty with
    | false => exact .inr ⟨rfl, proper_of_isEmpty_between hempty⟩
    | true =>
        left
        unfold between at hempty ⊢
        split
        · rfl
        · next h =>
            rw [if_neg h] at hempty
            rw [not_or] at h
            exact absurd (of_decide_eq_true hempty) h.1
  · rintro (rfl | ⟨hempty, hproper⟩)
    · exact canonical_bottom
    · refine ⟨r.lo, r.hi, if_neg ?_⟩
      rintro (h | h | h)
      · exact h (isEmpty_eq_false_iff.1 hempty)
      · exact hproper.lo h
      · exact hproper.hi h

theorem canonical_of_proper (hempty : r.isEmpty = false) (h : r.Proper) : r.Canonical :=
  canonical_iff.2 (.inr ⟨hempty, h⟩)

theorem proper_top : top.Proper := ⟨by decide, by decide⟩

/-- Above an interval with integers none has a wrong infinity. -/
theorem Proper.mono (hr : r.Proper) (hempty : r.isEmpty = false) (h : r.leq s = true) :
    s.Proper := by
  obtain ⟨-, hlo, hhi⟩ := leq_iff.1 h hempty
  exact ⟨fun heq => hr.lo (Bound.posInf_le (heq ▸ hlo)),
    fun heq => hr.hi (Bound.le_negInf (heq ▸ hhi))⟩

theorem Canonical.proper (hr : r.Canonical) (hempty : r.isEmpty = false) : r.Proper := by
  rcases canonical_iff.1 hr with rfl | h
  · cases hempty
  · exact h.2

theorem meet_eq_left (hr : r.Proper) (hempty : r.isEmpty = false) (h : r.leq s = true) :
    r.meet s = r :=
  (leq_antisymm hempty (leq_meet hempty hr (leq_refl r) h) (meet_leq_left r s)).symm

theorem meet_eq_right (hr : r.Proper) (hempty : r.isEmpty = false) (h : r.leq s = true) :
    s.meet r = r :=
  (leq_antisymm hempty (leq_meet hempty hr h (leq_refl r)) (meet_leq_right s r)).symm

end Interval

namespace Value

variable {a b c v : Value} {u : Scalar}

/-- What reducing gives, of values whose interval is canonical. -/
def reductions : Set Value := reduce '' {v | v.range.Canonical}

theorem IsReduced.canonical (h : v.IsReduced) : v.Canonical := h ▸ canonical_reduce v

theorem IsReduced.canonical_range (h : v.IsReduced) : v.range.Canonical := by
  cases hbottom : v.isBottom with
  | true => exact h.canonical hbottom ▸ Interval.canonical_bottom
  | false =>
      exact Interval.canonical_of_proper (not_isEmpty_of_not_isBottom hbottom)
        (h.agrees hbottom).proper

theorem mem_reductions : v ∈ reductions ↔ v.IsReduced := by
  constructor
  · rintro ⟨w, -, rfl⟩
    exact isReduced_reduce w
  · exact fun h => ⟨v, h.canonical_range, h⟩

section Order

theorem finer_of_leq (h : a.leq b = true) (ha : a.isBottom = false) : a.Finer b :=
  have ⟨hsign, hnull, hrange⟩ := leq_iff.1 h ha
  ⟨hsign, hnull, hrange⟩

/-- Below a value, a reduced one is so in each component. -/
theorem IsReduced.finer (ha : a.IsReduced) (h : a.leq b = true) : a.Finer b := by
  cases hbottom : a.isBottom with
  | true =>
      rw [ha.canonical hbottom]
      exact bottom_finer b
  | false => exact finer_of_leq h hbottom

theorem IsReduced.leq_antisymm (ha : a.IsReduced) (hb : b.IsReduced) (hab : a.leq b = true)
    (hba : b.leq a = true) : a = b := by
  cases hbottom : a.isBottom with
  | true => rw [ha.canonical hbottom, hb.canonical (isBottom_of_leq hba hbottom)]
  | false => exact (ha.finer hab).antisymm (hb.finer hba) hbottom

theorem bottom_leq (v : Value) : bottom.leq v = true := (bottom_finer v).leq

theorem leq_top (v : Value) : v.leq top = true :=
  Finer.leq ⟨Sign.leq_top _, Nullability.leq_top _, Interval.leq_top _⟩

theorem meet_finer_right (a b : Value) : (a.meet b).Finer b :=
  (reduce_finer _).trans
    ⟨Sign.meet_leq_right _ _, Nullability.meet_leq_right _ _, Interval.meet_leq_right _ _⟩

theorem IsReduced.leq_meet (hc : c.IsReduced) (ha : c.leq a = true) (hb : c.leq b = true) :
    c.leq (a.meet b) = true := by
  cases hbottom : c.isBottom with
  | true => exact leq_iff.2 fun h => absurd (hbottom.symm.trans h) (Ne.symm Bool.false_ne_true)
  | false =>
      have hagrees := hc.agrees hbottom
      have ha := hc.finer ha
      have hb := hc.finer hb
      have hfiner : c.Finer ⟨a.sign.meet b.sign, a.nullability.meet b.nullability,
          a.range.meet b.range⟩ :=
        ⟨Sign.leq_meet ha.sign hb.sign, Nullability.leq_meet ha.nullability hb.nullability,
          Interval.leq_meet hagrees.not_isEmpty hagrees.proper ha.range hb.range⟩
      exact (hagrees.finer_reduce hfiner).leq

theorem isLattice_isReduced : IsLattice IsReduced where
  bottom := isReduced_bottom
  top := isReduced_top
  join ha hb := ha.join hb
  meet _ _ := isReduced_make _ _ _
  leq_refl _ := leq_refl _
  leq_trans _ _ _ := leq_trans
  leq_antisymm ha hb := ha.leq_antisymm hb
  bottom_leq _ := bottom_leq _
  leq_top _ := leq_top _
  leq_join _ _ := ⟨leq_join_left _ _, leq_join_right _ _⟩
  join_leq _ _ _ := join_leq
  meet_leq _ _ := ⟨(meet_finer_left _ _).leq, (meet_finer_right _ _).leq⟩
  leq_meet _ _ hc := hc.leq_meet

end Order

section Contents

/-- The meet describes what both values describe. -/
theorem describes_meet_iff : (a.meet b).describes u = true ↔
    a.describes u = true ∧ b.describes u = true :=
  ⟨fun h => ⟨(meet_finer_left a b).under.describes h, (meet_finer_right a b).under.describes h⟩,
    fun h => describes_meet h.1 h.2⟩

end Contents

theorem isLattice_reductions : IsLattice (· ∈ reductions) := by
  rw [show (· ∈ reductions) = IsReduced from funext fun _ => propext mem_reductions]
  exact isLattice_isReduced

/-- Reducing is idempotent, goes down and keeps what is described. In what it gives, the sign is
that of the interval and integers are not `None`; and it gives a bounded lattice, in which the order
is that of the joins and meets describe what both sides describe. -/
theorem reductions_isLattice :
    (∀ v : Value, v.reduce.reduce = v.reduce ∧ v.reduce.leq v = true ∧
      (∀ n, v.reduce.containsInt n = true ↔ v.containsInt n = true) ∧
      (v.reduce.containsNone = true ↔ v.containsNone = true)) ∧
    (∀ v ∈ reductions, v ≠ bottom →
      v.sign = v.range.sign ∧ (v.isNumeric = true → v.nullability = .notNull)) ∧
    IsLattice (· ∈ reductions) ∧
    (∀ a ∈ reductions, ∀ b ∈ reductions, (a.leq b = true ↔ a.join b = b) ∧
      a.join b = b.join a ∧ a.meet b = b.meet a ∧ a.join a = a ∧ a.meet a = a ∧
      ∀ c ∈ reductions, (a.join b).join c = a.join (b.join c) ∧
        (a.meet b).meet c = a.meet (b.meet c)) ∧
    ∀ a b : Value,
      (∀ n, (a.meet b).containsInt n = true ↔ a.containsInt n = true ∧ b.containsInt n = true) ∧
      ((a.meet b).containsNone = true ↔ a.containsNone = true ∧ b.containsNone = true) := by
  have hlattice := isLattice_reductions
  refine ⟨fun v => ?_, fun v hv hbottom => ?_, hlattice, fun a ha b hb => ?_, fun a b => ?_⟩
  · exact ⟨isReduced_reduce v, (reduce_finer v).leq, fun n => describes_reduce_iff (u := .int n),
      describes_reduce_iff (u := .none)⟩
  · have hreduced := mem_reductions.1 hv
    have hagrees := hreduced.agrees (Bool.eq_false_iff.2 fun h => hbottom (hreduced.canonical h))
    exact ⟨hagrees.sign, hagrees.nullability⟩
  · exact ⟨hlattice.leq_iff_join_eq ha hb, hlattice.join_comm ha hb, hlattice.meet_comm ha hb,
      hlattice.join_self ha, hlattice.meet_self ha,
      fun c hc => ⟨hlattice.join_assoc ha hb hc, hlattice.meet_assoc ha hb hc⟩⟩
  · exact ⟨fun n => describes_meet_iff (u := .int n), describes_meet_iff (u := .none)⟩

/-- The numbers up to zero and those from zero on: they meet in zero, and neither is below the
other. -/
theorem reductions_isLattice_zero :
    intIn (.atMost 0) ∈ reductions ∧ nonNegative ∈ reductions ∧
    nonNegative.sign = nonNegative.range.sign ∧ nonNegative.nullability = .notNull ∧
    (intIn (.atMost 0)).meet nonNegative = nonNegative.meet (intIn (.atMost 0)) ∧
    ((intIn (.atMost 0)).meet nonNegative).containsInt 0 = true ∧
    (intIn (.atMost 0)).leq nonNegative ≠ true := by
  have ha : intIn (.atMost 0) ∈ reductions := mem_reductions.2 (isReduced_make _ _ _)
  have hb : nonNegative ∈ reductions := mem_reductions.2 (isReduced_make _ _ _)
  obtain ⟨-, hagrees, -, hlaws, hmeet⟩ := reductions_isLattice
  obtain ⟨hsign, hnull⟩ := hagrees _ hb (by decide)
  obtain ⟨hleq, -, hcomm, -⟩ := hlaws _ ha _ hb
  refine ⟨ha, hb, hsign, hnull (by decide), hcomm, ((hmeet _ _).1 0).2 (by decide), fun h => ?_⟩
  exact absurd (hleq.1 h) (by decide)

end Value

end ValueFlow
