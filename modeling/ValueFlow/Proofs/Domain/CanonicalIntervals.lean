import ValueFlow.Proofs.Domain.Monotone
/-!
Intervals in canonical form, and their signs.

Intervals are compared by their bounds, which is right as long as they are canonical. Arithmetic and
meets give a canonical interval whatever they are given, overflows included. Joins and widenings put
bounds together as they find them; they only go up, and above a canonical interval with integers
there are only canonical ones. The sign of an interval is adjoint to the interval of a sign
(`sign_leq_iff`).
-/

namespace ValueFlow

namespace Interval

variable {r s : Interval} {a : Sign}

section Form

theorem canonical_iff_bounds : r.Canonical ↔
    r = bottom ∨ r.lo ≤ r.hi ∧ r.lo ≠ .posInf ∧ r.hi ≠ .negInf := by
  rw [canonical_iff, isEmpty_eq_false_iff]
  exact or_congr_right <| and_congr_right fun _ =>
    ⟨fun h => ⟨h.lo, h.hi⟩, fun h => ⟨h.1, h.2⟩⟩

instance : Decidable r.Canonical := decidable_of_iff _ canonical_iff_bounds.symm

theorem canonical_between (lo hi : Bound) : (between lo hi).Canonical := ⟨lo, hi, rfl⟩

theorem canonical_ofArith (lo hi : Bound) : (ofArith lo hi).Canonical := canonical_between _ _

theorem canonical_hull (a b c d : Bound) : (hull a b c d).Canonical := canonical_ofArith _ _

theorem canonical_top : top.Canonical := ⟨.negInf, .posInf, rfl⟩

theorem Canonical.ite {p : Prop} [Decidable p] (hr : r.Canonical) (hs : s.Canonical) :
    (if p then r else s).Canonical := by
  split
  · exact hr
  · exact hs

/-- Above a canonical interval with integers there are only canonical ones. -/
theorem Canonical.of_leq (hr : r.Canonical) (hempty : r.isEmpty = false) (h : r.leq s = true) :
    s.Canonical :=
  canonical_of_proper (not_isEmpty_of_leq hempty h) ((hr.proper hempty).mono hempty h)

end Form

section Arithmetic

theorem canonical_add (r s : Interval) : (r.add s).Canonical :=
  canonical_bottom.ite (canonical_ofArith _ _)

theorem canonical_negate (r : Interval) : r.negate.Canonical :=
  canonical_bottom.ite (canonical_ofArith _ _)

theorem canonical_sub (r s : Interval) : (r.sub s).Canonical := canonical_add _ _

theorem canonical_mul (r s : Interval) : (r.mul s).Canonical :=
  canonical_bottom.ite (canonical_hull _ _ _ _)

theorem canonical_floorDiv (r s : Interval) : (r.floorDiv s).Canonical := by
  refine canonical_bottom.ite ?_
  split
  · exact canonical_top.ite (canonical_hull _ _ _ _)
  · exact canonical_top

theorem canonical_modulo (r s : Interval) : (r.modulo s).Canonical := by
  unfold modulo
  split
  · exact canonical_bottom
  · next hempty =>
      have hr : r.isEmpty = false := (Bool.or_eq_false_iff.1 (Bool.eq_false_iff.2 hempty)).1
      refine canonical_top.ite (.ite ?_ (canonical_between _ _))
      -- a dividend that stays as it is need not have been given in canonical form
      split
      · next hsmall => exact canonical_of_proper hr (proper_of_dividend hr hsmall.1 hsmall.2)
      · exact canonical_between _ _

end Arithmetic

section Lattice

theorem canonical_meet (r s : Interval) : (r.meet s).Canonical := canonical_between _ _

theorem Canonical.join (hr : r.Canonical) (hs : s.Canonical) : (r.join s).Canonical := by
  cases hempty : r.isEmpty with
  | true => rwa [Interval.join, if_pos hempty]
  | false => exact hr.of_leq hempty (leq_join_left r s)

theorem Canonical.widen (hr : r.Canonical) (hs : s.Canonical) : (r.widen s).Canonical := by
  cases hempty : r.isEmpty with
  | true => rwa [Interval.widen, if_pos hempty]
  | false => exact hr.of_leq hempty (leq_widen_left r s)

end Lattice

section Signs

/-- A sign covers that of an interval if its interval covers the interval. -/
theorem sign_leq_iff : r.sign.leq a = true ↔ r.leq (ofSign a) = true := by
  cases hempty : r.isEmpty with
  | true =>
      rw [sign, leq, hempty]
      exact iff_of_true rfl rfl
  | false =>
      constructor
      · intro h
        exact leq_trans (leq_ofSign_sign hempty) (ofSign_leq_ofSign h)
      · exact sign_leq_of_leq_ofSign hempty

end Signs

/-- Canonical intervals stay canonical under all operations, and so does any interval under
arithmetic and meets. An interval has a sign below another one if it lies in the interval of that
sign. -/
theorem operations_canonical_sign_adjoint :
    (∀ r : Interval, r.Canonical ↔
      r = bottom ∨ r.lo ≤ r.hi ∧ r.lo ≠ .posInf ∧ r.hi ≠ .negInf) ∧
    (∀ r s : Interval, (r.add s).Canonical ∧ (r.sub s).Canonical ∧ r.negate.Canonical ∧
      (r.mul s).Canonical ∧ (r.floorDiv s).Canonical ∧ (r.modulo s).Canonical ∧
      (r.meet s).Canonical) ∧
    (∀ r s : Interval, r.Canonical → s.Canonical →
      (r.join s).Canonical ∧ ∀ k, (AbstractDomain.widen r s k).Canonical) ∧
    ∀ (r : Interval) (a : Sign), r.sign.leq a = true ↔ r.leq (ofSign a) = true := by
  refine ⟨fun _ => canonical_iff_bounds, fun r s => ?_, fun r s hr hs => ?_,
    fun _ _ => sign_leq_iff⟩
  · exact ⟨canonical_add r s, canonical_sub r s, canonical_negate r, canonical_mul r s,
      canonical_floorDiv r s, canonical_modulo r s, canonical_meet r s⟩
  · exact ⟨hr.join hs, fun _ => hr.widen hs⟩

/-- The greatest integer and the positive ones: the least sum is beyond the integers and comes back
to the last one, and widening forgets both bounds. -/
theorem operations_canonical_sign_adjoint_overflow :
    let r := constant Int64.maxValue
    let s := atLeast 1
    r.Canonical ∧ s.Canonical ∧
    r.add s = ⟨.finite Int64.maxValue, .posInf⟩ ∧ (r.add s).Canonical ∧
    AbstractDomain.widen r s 0 = top ∧ (AbstractDomain.widen r s 0).Canonical ∧
    r.sign.leq .nonNegative = true ∧ r.leq (ofSign .nonNegative) = true := by
  intro r s
  obtain ⟨-, harith, hlattice, hadjoint⟩ := operations_canonical_sign_adjoint
  have hr : r.Canonical := by decide
  have hs : s.Canonical := by decide
  have hsign : r.sign.leq .nonNegative = true := by decide
  exact ⟨hr, hs, by decide, (harith r s).1, by decide, (hlattice r s hr hs).2 0, hsign,
    (hadjoint r _).1 hsign⟩

end Interval

end ValueFlow
