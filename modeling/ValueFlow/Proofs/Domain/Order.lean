import ValueFlow.Domain.Value
import ValueFlow.Proofs.Domain.Bounds
/-!
The order of abstract values.

Values are compared as they stand, reduced or not, so the laws hold of every value a program can
build: the order is a preorder, the join is its least upper bound and the widening an upper bound.
Values with an empty component are all below everything, which is why the order is no partial one.
-/

namespace ValueFlow

namespace Bound

variable {a b c : Bound}

theorem le_trans (hab : a ≤ b) (hbc : b ≤ c) : a ≤ c := by
  cases a with
  | negInf => rfl
  | posInf =>
      rw [posInf_le hab] at hbc
      exact hbc
  | finite k =>
      cases c with
      | posInf => rfl
      | negInf =>
          rw [le_negInf hbc] at hab
          exact hab
      | finite l =>
          cases b with
          | negInf => cases hab
          | posInf => cases hbc
          | finite m =>
              rw [finite_le_finite] at hab hbc ⊢
              exact Int.le_trans hab hbc

theorem le_antisymm (hab : a ≤ b) (hba : b ≤ a) : a = b := by
  cases a with
  | negInf => exact (le_negInf hba).symm
  | posInf => exact (posInf_le hab).symm
  | finite m =>
      cases b with
      | negInf => cases hab
      | posInf => cases hba
      | finite n =>
          rw [finite_le_finite] at hab hba
          rw [Int64.toInt_inj.1 (Int.le_antisymm hab hba)]

theorem le_lower (hb : a ≤ b) (hc : a ≤ c) : a ≤ b.lower c := by
  unfold lower
  split
  · exact hc
  · exact hb

theorem upper_le (ha : a ≤ c) (hb : b ≤ c) : a.upper b ≤ c := by
  unfold upper
  split
  · exact hb
  · exact ha

theorem negInf_le (a : Bound) : negInf ≤ a := rfl

theorem le_posInf (a : Bound) : a ≤ posInf := by cases a <;> rfl

theorem le_pred_of_lt (h : a < b) : a ≤ b.pred := by
  cases a with
  | negInf => rfl
  | posInf => exact absurd (le_posInf b) h
  | finite m =>
      cases b with
      | negInf => exact absurd rfl h
      | posInf => rfl
      | finite n =>
          rw [lt_def, finite_le_finite] at h
          have hn : n ≠ Int64.minValue := by
            rintro rfl
            exact h (Int64.minValue_le_toInt m)
          rw [pred, if_neg hn, finite_le_finite, toInt_pred hn]
          omega

theorem succ_le_of_lt (h : a < b) : a.succ ≤ b := by
  cases a with
  | negInf => rfl
  | posInf => exact absurd (le_posInf b) h
  | finite m =>
      cases b with
      | negInf => exact absurd rfl h
      | posInf => rfl
      | finite n =>
          rw [lt_def, finite_le_finite] at h
          have hm : m ≠ Int64.maxValue := by
            rintro rfl
            exact h (Int64.toInt_le n)
          rw [succ, if_neg hm, finite_le_finite, toInt_succ hm]
          omega

end Bound

namespace Sign

theorem leq_iff {a b : Sign} : a.leq b = true ↔ ∀ x, a.admits x = true → b.admits x = true := by
  simp [leq, admits, List.all_eq_true]

theorem leq_refl (a : Sign) : a.leq a = true := leq_iff.2 fun _ h => h

theorem leq_trans {a b c : Sign} (hab : a.leq b = true) (hbc : b.leq c = true) :
    a.leq c = true :=
  leq_iff.2 fun x h => leq_iff.1 hbc x (leq_iff.1 hab x h)

theorem leq_join_left (a b : Sign) : a.leq (a.join b) = true := by
  cases a <;> cases b <;> rfl

theorem leq_join_right (a b : Sign) : b.leq (a.join b) = true := by
  cases a <;> cases b <;> rfl

theorem join_leq {a b c : Sign} (ha : a.leq c = true) (hb : b.leq c = true) :
    (a.join b).leq c = true := by
  revert ha hb
  cases a <;> cases b <;> cases c <;> decide

theorem eq_bottom_of_leq {a : Sign} (h : a.leq .bottom = true) : a = .bottom := by
  cases a <;> first | rfl | cases h

theorem leq_antisymm {a b : Sign} (hab : a.leq b = true) (hba : b.leq a = true) : a = b := by
  revert hab hba
  cases a <;> cases b <;> decide

theorem meet_leq_left (a b : Sign) : (a.meet b).leq a = true := by
  cases a <;> cases b <;> rfl

theorem meet_leq_right (a b : Sign) : (a.meet b).leq b = true := by
  cases a <;> cases b <;> rfl

theorem leq_meet {a b c : Sign} (hb : a.leq b = true) (hc : a.leq c = true) :
    a.leq (b.meet c) = true := by
  revert hb hc
  cases a <;> cases b <;> cases c <;> decide

end Sign

namespace Nullability

theorem leq_refl (a : Nullability) : a.leq a = true := by cases a <;> rfl

theorem leq_trans {a b c : Nullability} (hab : a.leq b = true) (hbc : b.leq c = true) :
    a.leq c = true := by
  revert hab hbc
  cases a <;> cases b <;> cases c <;> decide

theorem leq_join_left (a b : Nullability) : a.leq (a.join b) = true := by
  cases a <;> cases b <;> rfl

theorem leq_join_right (a b : Nullability) : b.leq (a.join b) = true := by
  cases a <;> cases b <;> rfl

theorem join_leq {a b c : Nullability} (ha : a.leq c = true) (hb : b.leq c = true) :
    (a.join b).leq c = true := by
  revert ha hb
  cases a <;> cases b <;> cases c <;> decide

theorem eq_bottom_of_leq {a : Nullability} (h : a.leq .bottom = true) : a = .bottom := by
  cases a <;> first | rfl | cases h

theorem leq_antisymm {a b : Nullability} (hab : a.leq b = true) (hba : b.leq a = true) : a = b := by
  revert hab hba
  cases a <;> cases b <;> decide

theorem meet_leq_left (a b : Nullability) : (a.meet b).leq a = true := by
  cases a <;> cases b <;> rfl

theorem meet_leq_right (a b : Nullability) : (a.meet b).leq b = true := by
  cases a <;> cases b <;> rfl

theorem leq_meet {a b c : Nullability} (hb : a.leq b = true) (hc : a.leq c = true) :
    a.leq (b.meet c) = true := by
  revert hb hc
  cases a <;> cases b <;> cases c <;> decide

end Nullability

namespace Interval

variable {r s t : Interval}

theorem isEmpty_eq_false_iff : r.isEmpty = false ↔ r.lo ≤ r.hi := by
  rw [isEmpty, decide_eq_false_iff_not, Bound.lt_def, Decidable.not_not]

theorem leq_iff : r.leq s = true ↔
    (r.isEmpty = false → s.isEmpty = false ∧ s.lo ≤ r.lo ∧ r.hi ≤ s.hi) := by
  cases hr : r.isEmpty <;> simp [leq, hr, and_assoc]

theorem leq_refl (r : Interval) : r.leq r = true :=
  leq_iff.2 fun hr => ⟨hr, Bound.le_refl _, Bound.le_refl _⟩

theorem leq_trans (hrs : r.leq s = true) (hst : s.leq t = true) : r.leq t = true := by
  refine leq_iff.2 fun hr => ?_
  obtain ⟨hs, hlo, hhi⟩ := leq_iff.1 hrs hr
  obtain ⟨ht, hlo', hhi'⟩ := leq_iff.1 hst hs
  exact ⟨ht, Bound.le_trans hlo' hlo, Bound.le_trans hhi hhi'⟩

/-- An interval that reaches as far as a nonempty one on both sides is above it. -/
theorem leq_of_reaches (hr : r.isEmpty = false) (hlo : s.lo ≤ r.lo) (hhi : r.hi ≤ s.hi) :
    r.leq s = true := by
  have hle : s.lo ≤ s.hi :=
    Bound.le_trans hlo (Bound.le_trans (isEmpty_eq_false_iff.1 hr) hhi)
  exact leq_iff.2 fun _ => ⟨isEmpty_eq_false_iff.2 hle, hlo, hhi⟩

theorem bottom_leq (r : Interval) : bottom.leq r = true := rfl

theorem between_leq {lo hi : Bound} (hlo : s.lo ≤ lo) (hhi : hi ≤ s.hi) :
    (between lo hi).leq s = true := by
  unfold between
  split
  · exact bottom_leq s
  · next h =>
      rw [not_or] at h
      exact leq_of_reaches (isEmpty_eq_false_iff.2 (Decidable.not_not.1 h.1)) hlo hhi

theorem meet_leq_left (r s : Interval) : (r.meet s).leq r = true :=
  between_leq (Bound.le_upper_left _ _) (Bound.lower_le_left _ _)

theorem meet_leq_right (r s : Interval) : (r.meet s).leq s = true :=
  between_leq (Bound.le_upper_right _ _) (Bound.lower_le_right _ _)

theorem leq_join_left (r s : Interval) : r.leq (r.join s) = true := by
  cases hr : r.isEmpty with
  | true => simp [leq, hr]
  | false =>
      cases hs : s.isEmpty with
      | true => simpa [join, hr, hs] using leq_refl r
      | false =>
          simp only [join, hr, hs, Bool.false_eq_true, if_false]
          exact leq_of_reaches hr (Bound.lower_le_left _ _) (Bound.le_upper_left _ _)

theorem leq_join_right (r s : Interval) : s.leq (r.join s) = true := by
  cases hs : s.isEmpty with
  | true => simp [leq, hs]
  | false =>
      cases hr : r.isEmpty with
      | true => simpa [join, hr] using leq_refl s
      | false =>
          simp only [join, hr, hs, Bool.false_eq_true, if_false]
          exact leq_of_reaches hs (Bound.lower_le_right _ _) (Bound.le_upper_right _ _)

theorem join_leq (hr : r.leq t = true) (hs : s.leq t = true) : (r.join s).leq t = true := by
  unfold join
  split
  · exact hs
  · next hre =>
      split
      · exact hr
      · next hse =>
          obtain ⟨ht, hlo, hhi⟩ := leq_iff.1 hr (Bool.eq_false_iff.2 hre)
          obtain ⟨-, hlo', hhi'⟩ := leq_iff.1 hs (Bool.eq_false_iff.2 hse)
          exact leq_iff.2 fun _ => ⟨ht, Bound.le_lower hlo hlo', Bound.upper_le hhi hhi'⟩

theorem leq_widen_left (r s : Interval) : r.leq (r.widen s) = true := by
  cases hr : r.isEmpty with
  | true => simp [leq, hr]
  | false =>
      cases hs : s.isEmpty with
      | true => simpa [widen, hr, hs] using leq_refl r
      | false =>
          simp only [widen, hr, hs, Bool.false_eq_true, if_false]
          refine leq_of_reaches hr ?_ ?_
          · show (if s.lo < r.lo then Bound.negInf else r.lo) ≤ r.lo
            split
            · rfl
            · exact Bound.le_refl _
          · show r.hi ≤ (if r.hi < s.hi then Bound.posInf else r.hi)
            split
            · cases r.hi <;> rfl
            · exact Bound.le_refl _

theorem leq_widen_right (r s : Interval) : s.leq (r.widen s) = true := by
  cases hs : s.isEmpty with
  | true => simp [leq, hs]
  | false =>
      cases hr : r.isEmpty with
      | true => simpa [widen, hr] using leq_refl s
      | false =>
          simp only [widen, hr, hs, Bool.false_eq_true, if_false]
          refine leq_of_reaches hs ?_ ?_
          · show (if s.lo < r.lo then Bound.negInf else r.lo) ≤ s.lo
            split
            · rfl
            · next h => exact Decidable.not_not.1 h
          · show s.hi ≤ (if r.hi < s.hi then Bound.posInf else r.hi)
            split
            · cases s.hi <;> rfl
            · next h => exact Decidable.not_not.1 h

end Interval

namespace Value

variable {a b c : Value}

theorem leq_iff : a.leq b = true ↔ (a.isBottom = false →
    a.sign.leq b.sign = true ∧ a.nullability.leq b.nullability = true ∧
      a.range.leq b.range = true) := by
  cases ha : a.isBottom <;> simp [leq, ha, and_assoc]

/-- Below a value with an empty component stand only values with an empty component. -/
theorem isBottom_of_leq (h : a.leq b = true) (hb : b.isBottom = true) : a.isBottom = true := by
  refine Bool.of_not_eq_false fun ha => ?_
  obtain ⟨hsign, hnull, hrange⟩ := leq_iff.1 h ha
  simp only [isBottom, Bool.or_eq_false_iff, decide_eq_false_iff_not] at ha
  simp only [isBottom, Bool.or_eq_true, decide_eq_true_eq] at hb
  rcases hb with (hb | hb) | hb
  · rw [hb] at hsign
    exact ha.1.1 (Sign.eq_bottom_of_leq hsign)
  · rw [hb] at hnull
    exact ha.1.2 (Nullability.eq_bottom_of_leq hnull)
  · rw [(Interval.leq_iff.1 hrange ha.2).1] at hb
    cases hb

theorem leq_refl (a : Value) : a.leq a = true :=
  leq_iff.2 fun _ => ⟨Sign.leq_refl _, Nullability.leq_refl _, Interval.leq_refl _⟩

theorem leq_trans (hab : a.leq b = true) (hbc : b.leq c = true) : a.leq c = true := by
  refine leq_iff.2 fun ha => ?_
  have hb : b.isBottom = false := by
    refine Bool.eq_false_iff.2 fun hb => ?_
    rw [isBottom_of_leq hab hb] at ha
    cases ha
  obtain ⟨hsign, hnull, hrange⟩ := leq_iff.1 hab ha
  obtain ⟨hsign', hnull', hrange'⟩ := leq_iff.1 hbc hb
  exact ⟨Sign.leq_trans hsign hsign', Nullability.leq_trans hnull hnull',
    Interval.leq_trans hrange hrange'⟩

theorem leq_join_left (a b : Value) : a.leq (a.join b) = true := by
  refine leq_iff.2 fun ha => ?_
  cases hb : b.isBottom with
  | true => simpa [join, ha, hb] using leq_iff.1 (leq_refl a) ha
  | false =>
      simp only [join, ha, hb, Bool.false_eq_true, if_false]
      exact ⟨Sign.leq_join_left _ _, Nullability.leq_join_left _ _, Interval.leq_join_left _ _⟩

theorem leq_join_right (a b : Value) : b.leq (a.join b) = true := by
  refine leq_iff.2 fun hb => ?_
  cases ha : a.isBottom with
  | true => simpa [join, ha] using leq_iff.1 (leq_refl b) hb
  | false =>
      simp only [join, ha, hb, Bool.false_eq_true, if_false]
      exact ⟨Sign.leq_join_right _ _, Nullability.leq_join_right _ _, Interval.leq_join_right _ _⟩

theorem join_leq (ha : a.leq c = true) (hb : b.leq c = true) : (a.join b).leq c = true := by
  unfold join
  split
  · exact hb
  · next hna =>
      split
      · exact ha
      · next hnb =>
          obtain ⟨hsign, hnull, hrange⟩ := leq_iff.1 ha (Bool.eq_false_iff.2 hna)
          obtain ⟨hsign', hnull', hrange'⟩ := leq_iff.1 hb (Bool.eq_false_iff.2 hnb)
          exact leq_iff.2 fun _ => ⟨Sign.join_leq hsign hsign', Nullability.join_leq hnull hnull',
            Interval.join_leq hrange hrange'⟩

theorem leq_widen_left (a b : Value) : a.leq (a.widen b) = true := by
  refine leq_iff.2 fun ha => ?_
  cases hb : b.isBottom with
  | true => simpa [widen, ha, hb] using leq_iff.1 (leq_refl a) ha
  | false =>
      simp only [widen, ha, hb, Bool.false_eq_true, if_false]
      exact ⟨Sign.leq_join_left _ _, Nullability.leq_join_left _ _, Interval.leq_widen_left _ _⟩

theorem leq_widen_right (a b : Value) : b.leq (a.widen b) = true := by
  refine leq_iff.2 fun hb => ?_
  cases ha : a.isBottom with
  | true => simpa [widen, ha] using leq_iff.1 (leq_refl b) hb
  | false =>
      simp only [widen, ha, hb, Bool.false_eq_true, if_false]
      exact ⟨Sign.leq_join_right _ _, Nullability.leq_join_right _ _, Interval.leq_widen_right _ _⟩

end Value

end ValueFlow
