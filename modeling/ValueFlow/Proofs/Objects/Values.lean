import ValueFlow.Proofs.Domain.Order
import ValueFlow.Proofs.Domain.Values
/-!
Values of runs that may be objects, and descriptions of them.

An object is covered by every description that is not numeric and does not say `None`. Such a
description also covers all integers, so what is known about integers carries over to objects
wherever a description does not look at its numeric part.
-/

namespace ValueFlow

/-- A value of a run: a scalar, or an object by its number. -/
inductive Datum where
  | scalar (u : Scalar)
  | object (number : Nat)
deriving DecidableEq, Repr

namespace Datum

def null : Datum := scalar .none

def truth : Datum → Bool
  | scalar u => u.truth
  | object _ => true

/-- The result of an operator with two operands; objects have none. -/
def binary? (op : BinOp) : Datum → Datum → Option Datum
  | scalar u, scalar v => (Scalar.binary? op u v).map scalar
  | _, _ => none

/-- The outcome of a comparison. An object equals itself only, and has no place in an order. -/
def compare? (op : CompOp) : Datum → Datum → Option Bool
  | scalar u, scalar v => Scalar.compare? op u v
  | d, e =>
      match op with
      | .eq | .is => some (decide (d = e))
      | .notEq | .isNot => some (decide (d ≠ e))
      | .lt | .ltE | .gt | .gtE => none

theorem scalar_of_binary? {op : BinOp} {c d e : Datum} (h : binary? op d e = some c) :
    ∃ u, c = scalar u := by
  cases d with
  | object => cases h
  | scalar v =>
      cases e with
      | object => cases h
      | scalar w =>
          obtain ⟨u, -, rfl⟩ := Option.map_eq_some_iff.1 h
          exact ⟨u, rfl⟩

theorem compare?_of_object {op : CompOp} {d e : Datum} (h : ∀ u v, d = scalar u → e ≠ scalar v) :
    compare? op d e =
      match op with
      | .eq | .is => some (decide (d = e))
      | .notEq | .isNot => some (decide (d ≠ e))
      | .lt | .ltE | .gt | .gtE => none := by
  cases d with
  | object => rfl
  | scalar u =>
      cases e with
      | object => rfl
      | scalar v => exact absurd rfl (h u v rfl)

/-- Two values are scalars, or not both. -/
theorem both_scalar_or (d e : Datum) :
    (∃ u v, d = scalar u ∧ e = scalar v) ∨ ∀ u v, d = scalar u → e ≠ scalar v := by
  cases d with
  | object => exact .inr fun _ _ hd => nomatch hd
  | scalar u =>
      cases e with
      | object => exact .inr fun _ _ _ he => nomatch he
      | scalar v => exact .inl ⟨u, v, rfl, rfl⟩

theorem compare?_flip (op : CompOp) (d e : Datum) : compare? op.flip e d = compare? op d e := by
  rcases both_scalar_or d e with ⟨u, v, rfl, rfl⟩ | h
  · exact Scalar.compare?_flip op u v
  · rw [compare?_of_object h, compare?_of_object fun v u he hd => h u v hd he]
    cases op <;> simp [CompOp.flip, eq_comm]

theorem compare?_negate (op : CompOp) (d e : Datum) :
    compare? op.negate d e = (compare? op d e).map not := by
  rcases both_scalar_or d e with ⟨u, v, rfl, rfl⟩ | h
  · exact Scalar.compare?_negate op u v
  · rw [compare?_of_object h, compare?_of_object h]
    cases op <;> simp [CompOp.negate]

end Datum

namespace Value

variable {a b v w : Value} {d e : Datum} {l : Nat}

/-- Whether a description covers a value. -/
def Covers (v : Value) : Datum → Prop
  | .scalar u => v.describes u = true
  | .object _ => v.isNumeric = false ∧ v.nullability.mayBeNonNull = true

theorem not_isNumeric_iff : v.isNumeric = false ↔ v.sign = .top ∧ v.range = .top := by
  simp [isNumeric]

theorem covers_object_iff : v.Covers (.object l) ↔
    v.sign = .top ∧ v.range = .top ∧ v.nullability.mayBeNonNull = true := by
  rw [Covers, not_isNumeric_iff, and_assoc]

/-- What covers an object covers all integers. -/
theorem Covers.describes_int (h : v.Covers (.object l)) (n : Int64) :
    v.describes (.int n) = true := by
  obtain ⟨hsign, hrange, hnull⟩ := covers_object_iff.1 h
  rw [describes_int_iff]
  constructor
  · exact hnull
  · rw [hsign]
    exact Sign.admits_top _
  · rw [hrange]
    exact Interval.holds_top _

theorem Covers.not_isBottom (h : v.Covers d) : v.isBottom = false := by
  cases d with
  | scalar u => exact not_isBottom_of_describes h
  | object l => exact not_isBottom_of_describes (h.describes_int 0)

theorem covers_top (d : Datum) : top.Covers d := by
  cases d with
  | scalar u => exact describes_top u
  | object l => exact ⟨rfl, rfl⟩

theorem covers_notNull (h : d ≠ .null) : notNull.Covers d := by
  cases d with
  | scalar u =>
      apply describes_notNull_of_ne
      rintro rfl
      exact h rfl
  | object l => exact ⟨rfl, rfl⟩

theorem Under.covers (h : a.Under b) (ha : a.Covers d) : b.Covers d := by
  cases d with
  | scalar u => exact h.describes ha
  | object l =>
      rw [covers_object_iff] at ha ⊢
      exact ⟨h.sign_top ha.1, h.range_top ha.2.1, h.nonNull ha.2.2⟩

theorem Covers.reduce (h : v.Covers d) : v.reduce.Covers d := by
  cases d with
  | scalar u => exact describes_reduce h
  | object l =>
      have hbottom := h.not_isBottom
      obtain ⟨hsign, hrange, hnull⟩ := covers_object_iff.1 h
      obtain ⟨sign, nullability, range⟩ := v
      dsimp only at hsign hrange hnull
      subst hsign hrange
      rw [covers_object_iff, Value.reduce, hbottom]
      cases nullability with
      | bottom | definitelyNull => cases hnull
      | notNull | nullable | top => exact ⟨rfl, rfl, rfl⟩

theorem Covers.meet (ha : a.Covers d) (hb : b.Covers d) : (a.meet b).Covers d := by
  cases d with
  | scalar u => exact describes_meet ha hb
  | object l =>
      obtain ⟨hsign, hrange, hnull⟩ := covers_object_iff.1 ha
      obtain ⟨hsign', hrange', hnull'⟩ := covers_object_iff.1 hb
      apply Covers.reduce
      rw [covers_object_iff, hsign, hsign', hrange, hrange']
      exact ⟨rfl, rfl, Nullability.mayBeNonNull_meet hnull hnull'⟩

theorem Covers.join_left (h : a.Covers d) (b : Value) : (a.join b).Covers d := by
  rw [join, h.not_isBottom, if_neg Bool.false_ne_true]
  split
  · exact h
  · exact (under_join_left a b).covers h

theorem Covers.join_right (h : b.Covers d) (a : Value) : (a.join b).Covers d := by
  rw [join, h.not_isBottom]
  split
  · exact h
  · exact (under_join_right a b).covers h

theorem Covers.mono (h : a.Covers d) (hle : a.leq b = true) : b.Covers d := by
  obtain ⟨hsign, hnull, hrange⟩ := leq_iff.1 hle h.not_isBottom
  exact (under_of_leq hsign hnull hrange).covers h

theorem Covers.eq_null (h : v.Covers d) (hnull : v.nullability = .definitelyNull) : d = .null := by
  cases d with
  | scalar u => rw [Datum.null, eq_none_of_definitelyNull h hnull]
  | object l =>
      have hnonNull := h.2
      rw [hnull] at hnonNull
      cases hnonNull

theorem Covers.ne_null (h : v.Covers d) (hnull : v.nullability = .notNull) : d ≠ .null := by
  rintro rfl
  exact ne_none_of_notNull h hnull rfl

theorem Covers.truth_eq {o : Bool} (h : v.Covers d) (ho : v.truthiness = some o) : d.truth = o := by
  cases d with
  | scalar u => exact truth_of_truthiness h ho
  | object l => exact truth_of_truthiness (h.describes_int 1) ho

theorem Covers.truthy (h : v.Covers d) (htrue : d.truth = true) : v.truthy.Covers d := by
  cases d with
  | scalar u => exact describes_truthy h htrue
  | object l =>
      have hmeet : (v.meet .notNull).Covers (.object l) := h.meet (covers_notNull nofun)
      rw [Value.truthy, hmeet.1]
      exact hmeet

theorem Covers.falsy (h : v.Covers d) (hfalse : d.truth = false) : v.falsy.Covers d := by
  cases d with
  | scalar u => exact describes_falsy h hfalse
  | object l => cases hfalse

theorem Covers.binary {op : BinOp} {c : Datum} (ha : a.Covers d) (hb : b.Covers e)
    (h : Datum.binary? op d e = some c) : (binary op a b).Covers c := by
  cases d with
  | object => cases h
  | scalar u =>
      cases e with
      | object => cases h
      | scalar v =>
          obtain ⟨r, hr, rfl⟩ := Option.map_eq_some_iff.1 h
          exact describes_binary hr ha hb

section Comparison

variable {op : CompOp} {o : Bool} (ha : a.Covers d) (hb : b.Covers e)
include ha hb

theorem Covers.same_eq (h : identicalToNone? a b = some o) : o = decide (d = e) := by
  unfold identicalToNone? at h
  split at h
  · next hd he =>
      cases h
      rw [ha.eq_null hd, hb.eq_null he]
      rfl
  · next hd he =>
      cases h
      rw [ha.eq_null hd, decide_eq_false (hb.ne_null he).symm]
  · next hd he =>
      cases h
      rw [hb.eq_null he, decide_eq_false (ha.ne_null hd)]
  · cases h

theorem Covers.compare_eq {o' : Bool} (h : Datum.compare? op d e = some o)
    (h' : Value.compare? op a b = some o') : o' = o := by
  rcases Datum.both_scalar_or d e with ⟨u, v, rfl, rfl⟩ | hobject
  · exact eq_of_compare? ha hb h h'
  · rw [Datum.compare?_of_object hobject] at h
    have hnumeric : (!a.isNumeric || !b.isNumeric) = true := by
      cases d with
      | object => simp [ha.1]
      | scalar u =>
          cases e with
          | object => simp [hb.1]
          | scalar v => exact absurd rfl (hobject u v rfl)
    have hequal : ∀ {t}, (identicalToNone? a b).or (numericEquality? a b) = some t →
        t = decide (d = e) := by
      intro t ht
      rw [numericEquality?, if_pos hnumeric, Option.or_none] at ht
      exact ha.same_eq hb ht
    unfold Value.compare? at h'
    rw [ha.not_isBottom, hb.not_isBottom] at h'
    cases op with
    | eq =>
        cases h
        exact hequal h'
    | notEq =>
        cases h
        obtain ⟨t, ht, rfl⟩ := Option.map_eq_some_iff.1 h'
        rw [hequal ht, decide_not]
    | is =>
        cases h
        exact ha.same_eq hb h'
    | isNot =>
        cases h
        obtain ⟨t, ht, rfl⟩ := Option.map_eq_some_iff.1 h'
        rw [ha.same_eq hb ht, decide_not]
    | lt | ltE | gt | gtE => cases h

theorem Covers.comparison (h : Datum.compare? op d e = some o) :
    (comparison op a b).Covers (.scalar (.ofBool o)) := by
  rw [Value.comparison, ha.not_isBottom, hb.not_isBottom]
  apply describes_ofTruth
  intro o' ho'
  exact ha.compare_eq hb h ho'

/-- Restricting a description keeps every value that compares as asked. -/
theorem Covers.restrict (h : Datum.compare? op d e = some true) : (a.restrict op b).Covers d := by
  rcases Datum.both_scalar_or d e with ⟨u, v, rfl, rfl⟩ | hobject
  · exact describes_restrict ha hb h
  · rw [Datum.compare?_of_object hobject] at h
    -- equal values that are not both scalars are one object, of which no number is known
    have hequal : d = e → b.nullability ≠ .definitelyNull ∧ b.isNumeric = false := by
      rintro rfl
      cases d with
      | scalar u => exact absurd rfl (hobject u u rfl)
      | object l =>
          refine ⟨fun hnull => ?_, hb.1⟩
          cases hb.eq_null hnull
    have happart : d ≠ e → (a.restrict .notEq b).Covers d := by
      intro hne
      rw [Value.restrict]
      split
      · next hnull =>
          rw [hb.eq_null hnull] at hne
          exact ha.meet (covers_notNull hne)
      · cases d with
        | object l =>
            rw [ha.1]
            split
            · exact ha
            · exact ha
        | scalar u =>
            cases e with
            | scalar v => exact absurd rfl (hobject u v rfl)
            | object l =>
                rw [(covers_object_iff.1 hb).2.1]
                exact ha
    cases op with
    | eq =>
        obtain ⟨hnull, hnumeric⟩ := hequal (of_decide_eq_true (Option.some.inj h))
        rw [Value.restrict, if_neg hnull, hnumeric]
        exact ha
    | is =>
        obtain ⟨hnull, -⟩ := hequal (of_decide_eq_true (Option.some.inj h))
        rw [Value.restrict, if_neg hnull]
        split
        · next hnotNull =>
            have he := hb.ne_null hnotNull
            rw [← of_decide_eq_true (Option.some.inj h)] at he
            exact ha.meet (covers_notNull he)
        · exact ha
    | notEq | isNot => exact happart (of_decide_eq_true (Option.some.inj h))
    | lt | ltE | gt | gtE => cases h

end Comparison

end Value

end ValueFlow
