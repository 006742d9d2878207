import ValueFlow.Proofs.Domain.Lattice
/-!
Arithmetic on descriptions is monotone.

Less precise operands never give a more precise result, although the formulas change as operands
grow: from a quotient or a remainder to anything at all once the divisor may be zero, and from a
dividend that stays as it is to all remainders. Products and quotients take the hull of the results
at the ends; each of these lies between two others when the ends move apart (`Bound.Among`).
-/

namespace ValueFlow

namespace Bound

variable {a b c d x y lo hi : Bound} {m n : Int}

theorem ofExact_le_ofExact (h : m ≤ n) : ofExact m ≤ ofExact n := by
  unfold ofExact
  split
  · exact negInf_le _
  · next hmin =>
      rw [if_neg fun hn => hmin (Int.lt_of_le_of_lt h hn)]
      split
      · next hmax =>
          rw [if_pos (Int.lt_of_lt_of_le hmax h)]
          exact le_refl posInf
      · next hmax =>
          split
          · exact le_posInf _
          · next hmax' =>
              rw [finite_le_finite, toInt_ofInt_of_fits hmin hmax,
                toInt_ofInt_of_fits (fun hn => hmin (Int.lt_of_le_of_lt h hn)) hmax']
              exact h

/-- A function of bounds is monotone if it is so on integers and towards the infinities. -/
theorem map_le_map {f : Bound → Bound} (hinf : f negInf ≤ f posInf)
    (hlo : ∀ k, f negInf ≤ f (finite k)) (hhi : ∀ k, f (finite k) ≤ f posInf)
    (hfinite : ∀ k l : Int64, k.toInt ≤ l.toInt → f (finite k) ≤ f (finite l)) (h : a ≤ b) :
    f a ≤ f b := by
  cases a with
  | negInf =>
      cases b with
      | negInf => exact le_refl _
      | finite l => exact hlo l
      | posInf => exact hinf
  | posInf =>
      rw [posInf_le h]
      exact le_refl _
  | finite k =>
      cases b with
      | negInf => cases h
      | finite l => exact hfinite k l (finite_le_finite.1 h)
      | posInf => exact hhi k

/-- So is one that keeps the infinities and is monotone on integers. -/
theorem map_le_map_of_fixed {f : Bound → Bound} (hneg : f negInf = negInf)
    (hpos : f posInf = posInf)
    (hfinite : ∀ k l : Int64, k.toInt ≤ l.toInt → f (finite k) ≤ f (finite l)) (h : a ≤ b) :
    f a ≤ f b := by
  refine map_le_map ?_ (fun k => ?_) (fun k => ?_) hfinite h
  · rw [hneg]
    exact negInf_le _
  · rw [hneg]
    exact negInf_le _
  · rw [hpos]
    exact le_posInf _

/-- One that swaps the infinities and is antitone on integers is antitone. -/
theorem map_le_map_of_swapped {f : Bound → Bound} (hneg : f negInf = posInf)
    (hpos : f posInf = negInf)
    (hfinite : ∀ k l : Int64, k.toInt ≤ l.toInt → f (finite l) ≤ f (finite k)) (h : a ≤ b) :
    f b ≤ f a := by
  cases a with
  | negInf =>
      rw [hneg]
      exact le_posInf _
  | posInf =>
      rw [posInf_le h]
      exact le_refl _
  | finite k =>
      cases b with
      | negInf => cases h
      | finite l => exact hfinite k l (finite_le_finite.1 h)
      | posInf =>
          rw [hpos]
          exact negInf_le _

theorem neg_le_neg (h : a ≤ b) : b.neg ≤ a.neg :=
  map_le_map_of_swapped rfl rfl (fun _ _ hkl => ofExact_le_ofExact (Int.neg_le_neg hkl)) h

theorem add_comm (a b : Bound) : a.add b = b.add a := by
  cases a <;> cases b <;> simp only [add, Int.add_comm]

theorem add_le_add_right (h : a ≤ b) (c : Bound) : a.add c ≤ b.add c := by
  cases c with
  | negInf => cases a <;> exact negInf_le _
  | posInf =>
      exact map_le_map (f := (·.add posInf)) rfl (fun _ => negInf_le _) (fun _ => le_refl posInf)
        (fun _ _ _ => le_refl posInf) h
  | finite l =>
      exact map_le_map_of_fixed (f := (·.add (finite l))) rfl rfl
        (fun _ _ hkl => ofExact_le_ofExact (Int.add_le_add_right hkl _)) h

theorem add_le_add (hab : a ≤ b) (hcd : c ≤ d) : a.add c ≤ b.add d := by
  refine le_trans (add_le_add_right hab c) ?_
  rw [add_comm b c, add_comm b d]
  exact add_le_add_right hcd b

theorem pred_le_pred (h : a ≤ b) : a.pred ≤ b.pred := by
  refine map_le_map_of_fixed rfl rfl (fun k l hkl => ?_) h
  show finite _ ≤ finite _
  rw [finite_le_finite]
  by_cases hk : k = Int64.minValue
  · rw [if_pos hk, hk]
    exact Int64.minValue_le_toInt _
  · have hl : l ≠ Int64.minValue := by
      rintro rfl
      exact hk (Int64.toInt_inj.1 (Int.le_antisymm hkl (Int64.minValue_le_toInt k)))
    rw [if_neg hk, if_neg hl, toInt_pred hk, toInt_pred hl]
    omega

theorem succ_le_succ (h : a ≤ b) : a.succ ≤ b.succ := by
  refine map_le_map_of_fixed rfl rfl (fun k l hkl => ?_) h
  show finite _ ≤ finite _
  rw [finite_le_finite]
  by_cases hl : l = Int64.maxValue
  · rw [if_pos hl, hl]
    exact Int64.toInt_le _
  · have hk : k ≠ Int64.maxValue := by
      rintro rfl
      exact hl (Int64.toInt_inj.1 (Int.le_antisymm (Int64.toInt_le l) hkl))
    rw [if_neg hk, if_neg hl, toInt_succ hk, toInt_succ hl]
    omega

theorem cutAbove_le_cutAbove (h : a ≤ b) :
    (if a = posInf then finite Int64.maxValue else a) ≤
      if b = posInf then finite Int64.maxValue else b :=
  map_le_map (f := fun x => if x = posInf then finite Int64.maxValue else x) rfl (fun _ => rfl)
    (fun k => finite_le_finite.2 (Int64.toInt_le k)) (fun _ _ => finite_le_finite.2) h

theorem cutBelow_le_cutBelow (h : a ≤ b) :
    (if a = negInf then finite Int64.minValue else a) ≤
      if b = negInf then finite Int64.minValue else b :=
  map_le_map (f := fun x => if x = negInf then finite Int64.minValue else x) rfl
    (fun k => finite_le_finite.2 (Int64.minValue_le_toInt k)) (fun _ => rfl)
    (fun _ _ => finite_le_finite.2) h

section Corners

/-- Whether a bound lies between two others, whichever of them is the smaller. -/
def Among (a b x : Bound) : Prop := (a ≤ x ∧ x ≤ b) ∨ (b ≤ x ∧ x ≤ a)

theorem Among.lower_le (h : Among a b x) : a.lower b ≤ x :=
  h.elim (fun h => le_trans (lower_le_left a b) h.1) fun h => le_trans (lower_le_right a b) h.1

theorem Among.le_upper (h : Among a b x) : x ≤ a.upper b :=
  h.elim (fun h => le_trans h.2 (le_upper_right a b)) fun h => le_trans h.2 (le_upper_left a b)

theorem among_self (a : Bound) : Among a a a := .inl ⟨le_refl a, le_refl a⟩

/-- What lies between two bounds, each of which lies between two corners, is not beyond all four. -/
theorem Among.within (hx : Among x y c) (h : Among a b x) (h' : Among lo hi y) :
    ((a.lower b).lower lo).lower hi ≤ c ∧ c ≤ ((a.upper b).upper lo).upper hi := by
  constructor
  · refine le_trans (le_lower ?_ ?_) hx.lower_le
    · exact le_trans (le_trans (lower_le_left _ _) (lower_le_left _ _)) h.lower_le
    · refine le_trans (le_lower ?_ (lower_le_right _ _)) h'.lower_le
      exact le_trans (lower_le_left _ _) (lower_le_right _ _)
  · refine le_trans hx.le_upper (upper_le ?_ ?_)
    · exact le_trans h.le_upper (le_trans (le_upper_left _ _) (le_upper_left _ _))
    · refine le_trans h'.le_upper (upper_le ?_ (le_upper_right _ _))
      exact le_trans (le_upper_right _ _) (le_upper_left _ _)

end Corners

section Products

theorem mul_posInf_le (h : a ≤ b) : a.mul posInf ≤ b.mul posInf := by
  refine map_le_map_of_fixed (f := (·.mul posInf)) rfl rfl (fun k l hkl => ?_) h
  rw [mul_comm, mul_comm (finite l)]
  rcases mul_finite_of_sign k (.inr rfl) with ⟨hk, -⟩ | ⟨-, ek⟩ | ⟨hk, ek⟩
  · rcases mul_finite_of_sign l (.inr rfl) with ⟨-, el⟩ | ⟨hl, -⟩ | ⟨hl, -⟩
    · rw [el]
      exact le_posInf _
    · omega
    · omega
  · rw [ek]
    exact negInf_le _
  · rcases mul_finite_of_sign l (.inr rfl) with ⟨-, el⟩ | ⟨hl, -⟩ | ⟨-, el⟩
    · rw [el]
      exact le_posInf _
    · omega
    · rw [ek, el]
      exact le_refl _

theorem mul_negInf (a : Bound) : a.mul negInf = (a.mul posInf).neg := by
  cases a with
  | negInf | posInf => rfl
  | finite k =>
      rw [mul_comm, mul_comm (finite k)]
      rcases mul_finite_of_sign k (.inr rfl) with ⟨hk, e⟩ | ⟨hk, e⟩ | ⟨hk, e⟩ <;>
        rcases mul_finite_of_sign k (.inl rfl) with ⟨hk', e'⟩ | ⟨hk', e'⟩ | ⟨hk', e'⟩ <;>
          first
          | omega
          | (rw [e, e']; rfl)

theorem mul_finite_of_pos {k : Int64} (hk : 0 < k.toInt) (ha : a = negInf ∨ a = posInf) :
    a.mul (finite k) = a := by
  rcases mul_finite_of_sign k ha with ⟨-, e⟩ | ⟨hk', -⟩ | ⟨hk', -⟩
  · exact e
  · omega
  · omega

theorem mul_finite_of_neg {k : Int64} (hk : k.toInt < 0) (ha : a = negInf ∨ a = posInf) :
    a.mul (finite k) = a.neg := by
  rcases mul_finite_of_sign k ha with ⟨hk', -⟩ | ⟨-, e⟩ | ⟨hk', -⟩
  · omega
  · exact e
  · omega

theorem mul_finite_le_of_pos {k : Int64} (hk : 0 < k.toInt) (h : a ≤ b) :
    a.mul (finite k) ≤ b.mul (finite k) :=
  map_le_map_of_fixed (f := (·.mul (finite k))) (mul_finite_of_pos hk (.inl rfl))
    (mul_finite_of_pos hk (.inr rfl))
    (fun _ _ hij => ofExact_le_ofExact (Int.mul_le_mul_of_nonneg_right hij (Int.le_of_lt hk))) h

theorem mul_finite_le_of_neg {k : Int64} (hk : k.toInt < 0) (h : a ≤ b) :
    b.mul (finite k) ≤ a.mul (finite k) :=
  map_le_map_of_swapped (f := (·.mul (finite k))) (mul_finite_of_neg hk (.inl rfl))
    (mul_finite_of_neg hk (.inr rfl))
    (fun _ _ hij => ofExact_le_ofExact (Int.mul_le_mul_of_nonpos_right hij (Int.le_of_lt hk))) h

theorem mul_finite_zero (a : Bound) : a.mul (finite 0) = finite 0 := by
  cases a with
  | negInf | posInf => rfl
  | finite k =>
      show ofExact (k.toInt * 0) = finite 0
      rw [Int.mul_zero]
      rfl

/-- A factor that grows moves the product in one direction. -/
theorem mul_among (hlo : lo ≤ x) (hhi : x ≤ hi) (c : Bound) :
    Among (lo.mul c) (hi.mul c) (x.mul c) := by
  cases c with
  | posInf => exact .inl ⟨mul_posInf_le hlo, mul_posInf_le hhi⟩
  | negInf =>
      rw [mul_negInf, mul_negInf, mul_negInf]
      exact .inr ⟨neg_le_neg (mul_posInf_le hhi), neg_le_neg (mul_posInf_le hlo)⟩
  | finite k =>
      rcases Int.lt_trichotomy k.toInt 0 with hk | hk | hk
      · exact .inr ⟨mul_finite_le_of_neg hk hhi, mul_finite_le_of_neg hk hlo⟩
      · have hzero : k = 0 := Int64.toInt_inj.1 hk
        rw [hzero, mul_finite_zero, mul_finite_zero, mul_finite_zero]
        exact among_self _
      · exact .inl ⟨mul_finite_le_of_pos hk hlo, mul_finite_le_of_pos hk hhi⟩

theorem mul_among_right (hlo : lo ≤ x) (hhi : x ≤ hi) (c : Bound) :
    Among (c.mul lo) (c.mul hi) (c.mul x) := by
  rw [mul_comm c lo, mul_comm c hi, mul_comm c x]
  exact mul_among hlo hhi c

end Products

section Quotients

variable {d dl dh : Int64}

theorem floorDiv_le_of_pos (hd : 0 < d.toInt) (h : a ≤ b) : a.floorDiv d ≤ b.floorDiv d := by
  refine map_le_map_of_fixed (f := (·.floorDiv d)) (floorDiv_of_pos hd (.inl rfl))
    (floorDiv_of_pos hd (.inr rfl)) (fun i j hij => ?_) h
  have hi := (le_fdiv_iff_of_pos hd).1 (Int.le_refl (i.toInt.fdiv d.toInt))
  exact ofExact_le_ofExact ((le_fdiv_iff_of_pos hd).2 (Int.le_trans hi hij))

theorem floorDiv_le_of_neg (hd : d.toInt < 0) (h : a ≤ b) : b.floorDiv d ≤ a.floorDiv d := by
  refine map_le_map_of_swapped (f := (·.floorDiv d)) (floorDiv_of_neg hd (.inl rfl))
    (floorDiv_of_neg hd (.inr rfl)) (fun i j hij => ?_) h
  have hj := (le_fdiv_iff_of_neg hd).1 (Int.le_refl (j.toInt.fdiv d.toInt))
  exact ofExact_le_ofExact ((le_fdiv_iff_of_neg hd).2 (Int.le_trans hij hj))

/-- A dividend that grows moves the quotient in one direction. -/
theorem floorDiv_among (hlo : lo ≤ x) (hhi : x ≤ hi) (hd : d.toInt ≠ 0) :
    Among (lo.floorDiv d) (hi.floorDiv d) (x.floorDiv d) := by
  rcases Int.lt_or_gt_of_ne hd with hd | hd
  · exact .inr ⟨floorDiv_le_of_neg hd hhi, floorDiv_le_of_neg hd hlo⟩
  · exact .inl ⟨floorDiv_le_of_pos hd hlo, floorDiv_le_of_pos hd hhi⟩

theorem fdiv_le_fdiv_of_nonneg {k i j : Int} (hk : 0 ≤ k) (hi : 0 < i) (hij : i ≤ j) :
    k.fdiv j ≤ k.fdiv i := by
  have hj := (le_fdiv_iff_of_pos (by omega)).1 (Int.le_refl (k.fdiv j))
  have hquot : 0 ≤ k.fdiv j := Int.fdiv_nonneg hk (by omega)
  exact (le_fdiv_iff_of_pos hi).2 (Int.le_trans (Int.mul_le_mul_of_nonneg_left hij hquot) hj)

theorem fdiv_le_fdiv_of_neg {k i j : Int} (hk : k < 0) (hi : 0 < i) (hij : i ≤ j) :
    k.fdiv i ≤ k.fdiv j := by
  have hi' := (le_fdiv_iff_of_pos hi).1 (Int.le_refl (k.fdiv i))
  have hquot : k.fdiv i ≤ 0 := Int.le_of_lt (Int.fdiv_neg_of_neg_of_pos hk hi)
  exact (le_fdiv_iff_of_pos (by omega)).2
    (Int.le_trans (Int.mul_le_mul_of_nonpos_left hquot hij) hi')

/-- A positive divisor that grows moves the quotient in one direction. -/
theorem fdiv_monotone_or_antitone (k : Int) :
    (∀ {i j}, 0 < i → i ≤ j → k.fdiv i ≤ k.fdiv j) ∨
      ∀ {i j}, 0 < i → i ≤ j → k.fdiv j ≤ k.fdiv i := by
  rcases Int.lt_or_le k 0 with hk | hk
  · exact .inl fun hi hij => fdiv_le_fdiv_of_neg hk hi hij
  · exact .inr fun hi hij => fdiv_le_fdiv_of_nonneg hk hi hij

/-- A divisor that grows and keeps its sign moves the quotient in one direction. -/
theorem floorDiv_among_divisor (hlo : dl.toInt ≤ d.toInt) (hhi : d.toInt ≤ dh.toInt)
    (hsign : 0 < dl.toInt ∨ dh.toInt < 0) (a : Bound) :
    Among (a.floorDiv dl) (a.floorDiv dh) (a.floorDiv d) := by
  cases a with
  | negInf | posInf =>
      rcases hsign with hpos | hneg
      · rw [floorDiv_of_pos hpos (by simp), floorDiv_of_pos (by omega) (by simp),
          floorDiv_of_pos (by omega) (by simp)]
        exact among_self _
      · rw [floorDiv_of_neg hneg (by simp), floorDiv_of_neg (by omega) (by simp),
          floorDiv_of_neg (by omega) (by simp)]
        exact among_self _
  | finite k =>
      have hex : ∀ {i j}, i ≤ j → ofExact i ≤ ofExact j := ofExact_le_ofExact
      show Among (ofExact _) (ofExact _) (ofExact _)
      rcases hsign with hpos | hneg
      · rcases fdiv_monotone_or_antitone k.toInt with h | h
        · exact .inl ⟨hex (h hpos hlo), hex (h (by omega) hhi)⟩
        · exact .inr ⟨hex (h (by omega) hhi), hex (h hpos hlo)⟩
      · rw [← Int.neg_fdiv_neg k.toInt dl.toInt, ← Int.neg_fdiv_neg k.toInt dh.toInt,
          ← Int.neg_fdiv_neg k.toInt d.toInt]
        rcases fdiv_monotone_or_antitone (-k.toInt) with h | h
        · exact .inr ⟨hex (h (by omega) (by omega)), hex (h (by omega) (by omega))⟩
        · exact .inl ⟨hex (h (by omega) (by omega)), hex (h (by omega) (by omega))⟩

end Quotients

end Bound

namespace Sign

variable {a a' b b' t : Sign}

theorem joinAll_leq {l : List Sign} (h : ∀ s ∈ l, s.leq t = true) :
    (AbstractDomain.joinAll l).leq t = true := by
  refine List.foldlRecOn (motive := fun s : Sign => s.leq t = true) l _ ?_ ?_
  · exact leq_iff.2 fun x hx => by cases x <;> cases hx
  · exact fun _ hacc s hs => join_leq hacc (h s hs)

/-- An operation extended from atomic signs is monotone. -/
theorem lift_leq_lift (op : Atom → Atom → Sign) (ha : a.leq a' = true) (hb : b.leq b' = true) :
    (lift op a b).leq (lift op a' b') = true := by
  refine joinAll_leq fun s hs => ?_
  obtain ⟨x, hx, hs⟩ := List.mem_flatMap.1 hs
  obtain ⟨y, hy, rfl⟩ := List.mem_map.1 hs
  have hx' := leq_iff.1 ha x (List.contains_iff_mem.2 hx)
  have hy' := leq_iff.1 hb y (List.contains_iff_mem.2 hy)
  exact leq_iff.2 fun z hz => admits_lift hx' hy' hz

/-- So is one that says nothing as soon as the divisor may be zero. -/
theorem divided_leq_divided (op : Atom → Atom → Sign) (ha : a.leq a' = true)
    (hb : b.leq b' = true) :
    leq (if a = .bottom ∨ b = .bottom then .bottom
        else if b.mayBeZero then .top else lift op a b)
      (if a' = .bottom ∨ b' = .bottom then .bottom
        else if b'.mayBeZero then .top else lift op a' b') = true := by
  by_cases hbottom : a = .bottom ∨ b = .bottom
  · rw [if_pos hbottom]
    rfl
  · rw [not_or] at hbottom
    have ha' : a' ≠ .bottom := fun h => hbottom.1 (eq_bottom_of_leq (h ▸ ha))
    have hb' : b' ≠ .bottom := fun h => hbottom.2 (eq_bottom_of_leq (h ▸ hb))
    rw [if_neg (not_or.2 hbottom), if_neg (not_or.2 ⟨ha', hb'⟩)]
    by_cases hzero' : b'.mayBeZero = true
    · rw [if_pos hzero']
      exact leq_top _
    · have hzero : ¬ b.mayBeZero = true := fun h => hzero' (leq_iff.1 hb .zero h)
      rw [if_neg hzero, if_neg hzero']
      exact lift_leq_lift op ha hb

theorem negate_leq_negate (h : a.leq a' = true) : a.negate.leq a'.negate = true :=
  ofAtoms_leq (leq_iff.1 h .pos) (leq_iff.1 h .zero) (leq_iff.1 h .neg)

theorem add_leq_add (ha : a.leq a' = true) (hb : b.leq b' = true) :
    (a.add b).leq (a'.add b') = true := lift_leq_lift _ ha hb

theorem sub_leq_sub (ha : a.leq a' = true) (hb : b.leq b' = true) :
    (a.sub b).leq (a'.sub b') = true := add_leq_add ha (negate_leq_negate hb)

theorem mul_leq_mul (ha : a.leq a' = true) (hb : b.leq b' = true) :
    (a.mul b).leq (a'.mul b') = true := lift_leq_lift _ ha hb

theorem floorDiv_leq_floorDiv (ha : a.leq a' = true) (hb : b.leq b' = true) :
    (a.floorDiv b).leq (a'.floorDiv b') = true := divided_leq_divided _ ha hb

theorem modulo_leq_modulo (ha : a.leq a' = true) (hb : b.leq b' = true) :
    (a.modulo b).leq (a'.modulo b') = true := divided_leq_divided _ ha hb

end Sign

namespace Interval

variable {r r' s s' t t' : Interval} {lo lo' hi hi' : Bound}

theorem between_leq_between (hlo : lo' ≤ lo) (hhi : hi ≤ hi') :
    (between lo hi).leq (between lo' hi') = true := by
  rw [between.eq_def lo hi]
  split
  · exact bottom_leq _
  · next h =>
      rw [not_or, not_or] at h
      exact leq_between (isEmpty_eq_false_iff.2 (Decidable.not_not.1 h.1)) ⟨h.2.1, h.2.2⟩ hlo hhi

theorem ofArith_leq_ofArith (hlo : lo' ≤ lo) (hhi : hi ≤ hi') :
    (ofArith lo hi).leq (ofArith lo' hi') = true :=
  between_leq_between (Bound.cutAbove_le_cutAbove hlo) (Bound.cutBelow_le_cutBelow hhi)

/-- An operation that gives nothing for empty operands is monotone if it is on others. -/
theorem strict_leq_strict {f : Interval → Interval → Interval}
    (hstrict : ∀ r s, (r.isEmpty || s.isEmpty) = true → f r s = bottom)
    (hr : r.leq r' = true) (hs : s.leq s' = true)
    (h : r.isEmpty = false → s.isEmpty = false → r'.isEmpty = false → s'.isEmpty = false →
      (f r s).leq (f r' s') = true) : (f r s).leq (f r' s') = true := by
  cases hempty : r.isEmpty || s.isEmpty with
  | true =>
      rw [hstrict r s hempty]
      exact bottom_leq _
  | false =>
      obtain ⟨hre, hse⟩ := Bool.or_eq_false_iff.1 hempty
      exact h hre hse (not_isEmpty_of_leq hre hr) (not_isEmpty_of_leq hse hs)

theorem add_eq (hr : r.isEmpty = false) (hs : s.isEmpty = false) :
    r.add s = ofArith (r.lo.add s.lo) (r.hi.add s.hi) := by
  rw [add, hr, hs]
  rfl

theorem add_leq_add (hr : r.leq r' = true) (hs : s.leq s' = true) :
    (r.add s).leq (r'.add s') = true := by
  refine strict_leq_strict (fun _ _ h => if_pos h) hr hs fun hre hse hre' hse' => ?_
  obtain ⟨-, hlo, hhi⟩ := leq_iff.1 hr hre
  obtain ⟨-, hlo', hhi'⟩ := leq_iff.1 hs hse
  rw [add_eq hre hse, add_eq hre' hse']
  exact ofArith_leq_ofArith (Bound.add_le_add hlo hlo') (Bound.add_le_add hhi hhi')

theorem negate_leq_negate (hr : r.leq r' = true) : r.negate.leq r'.negate = true := by
  cases hre : r.isEmpty with
  | true =>
      rw [negate, hre]
      exact bottom_leq _
  | false =>
      obtain ⟨hre', hlo, hhi⟩ := leq_iff.1 hr hre
      rw [negate, negate, hre, hre']
      exact ofArith_leq_ofArith (Bound.neg_le_neg hhi) (Bound.neg_le_neg hlo)

theorem sub_leq_sub (hr : r.leq r' = true) (hs : s.leq s' = true) :
    (r.sub s).leq (r'.sub s') = true := add_leq_add hr (negate_leq_negate hs)

/-- The hull of four results that are not beyond two bounds. -/
theorem hull_leq {a b c d : Bound} (ha : lo ≤ a ∧ a ≤ hi) (hb : lo ≤ b ∧ b ≤ hi)
    (hc : lo ≤ c ∧ c ≤ hi) (hd : lo ≤ d ∧ d ≤ hi) : (hull a b c d).leq (ofArith lo hi) = true :=
  ofArith_leq_ofArith (Bound.le_lower (Bound.le_lower (Bound.le_lower ha.1 hb.1) hc.1) hd.1)
    (Bound.upper_le (Bound.upper_le (Bound.upper_le ha.2 hb.2) hc.2) hd.2)

/-- The ends of a nonempty interval lie between those of a larger one. -/
theorem ends_within (hr : r.leq r' = true) (hre : r.isEmpty = false) :
    (r'.lo ≤ r.lo ∧ r.lo ≤ r'.hi) ∧ r'.lo ≤ r.hi ∧ r.hi ≤ r'.hi := by
  obtain ⟨-, hlo, hhi⟩ := leq_iff.1 hr hre
  have hle := isEmpty_eq_false_iff.1 hre
  exact ⟨⟨hlo, Bound.le_trans hle hhi⟩, Bound.le_trans hlo hle, hhi⟩

theorem mul_eq (hr : r.isEmpty = false) (hs : s.isEmpty = false) : r.mul s =
    hull (r.lo.mul s.lo) (r.lo.mul s.hi) (r.hi.mul s.lo) (r.hi.mul s.hi) := by
  rw [mul, hr, hs]
  rfl

theorem mul_leq_mul (hr : r.leq r' = true) (hs : s.leq s' = true) :
    (r.mul s).leq (r'.mul s') = true := by
  refine strict_leq_strict (fun _ _ h => if_pos h) hr hs fun hre hse hre' hse' => ?_
  obtain ⟨hx, hx'⟩ := ends_within hr hre
  obtain ⟨hy, hy'⟩ := ends_within hs hse
  have hcorner := fun {x y} (hx : r'.lo ≤ x ∧ x ≤ r'.hi) (hy : s'.lo ≤ y ∧ y ≤ s'.hi) =>
    (Bound.mul_among hx.1 hx.2 y).within (Bound.mul_among_right hy.1 hy.2 r'.lo)
      (Bound.mul_among_right hy.1 hy.2 r'.hi)
  rw [mul_eq hre hse, mul_eq hre' hse']
  exact hull_leq (hcorner hx hy) (hcorner hx hy') (hcorner hx' hy) (hcorner hx' hy')

section Quotients

/-- Nothing is known of the quotients unless the divisors have one sign. -/
theorem floorDiv_eq_top (hr : r.isEmpty = false) (hs : s.isEmpty = false)
    (h : ∀ dl dh, s = ⟨.finite dl, .finite dh⟩ → ¬ (0 < dl.toInt ∨ dh.toInt < 0)) :
    r.floorDiv s = top := by
  rw [floorDiv, hr, hs]
  obtain ⟨lo, hi⟩ := s
  cases lo with
  | negInf | posInf => rfl
  | finite dl =>
      cases hi with
      | negInf | posInf => rfl
      | finite dh =>
          refine if_pos (contains_iff.2 ⟨?_, ?_⟩)
          · exact Int.not_lt.1 fun hpos => h dl dh rfl (.inl hpos)
          · exact Int.not_lt.1 fun hneg => h dl dh rfl (.inr hneg)

theorem floorDiv_eq {dl dh : Int64} (hr : r.isEmpty = false)
    (hs : isEmpty ⟨.finite dl, .finite dh⟩ = false) (hsign : 0 < dl.toInt ∨ dh.toInt < 0) :
    r.floorDiv ⟨.finite dl, .finite dh⟩ =
      hull (r.lo.floorDiv dl) (r.lo.floorDiv dh) (r.hi.floorDiv dl) (r.hi.floorDiv dh) := by
  rw [floorDiv, hr, hs]
  refine if_neg (c := contains ⟨.finite dl, .finite dh⟩ 0 = true) fun hzero => ?_
  have hholds := contains_iff.1 hzero
  have hlo : dl.toInt ≤ 0 := hholds.lo
  have hhi : 0 ≤ dh.toInt := hholds.hi
  omega

/-- Below finite bounds are finite bounds. -/
theorem exists_finite_of_leq {dl' dh' : Int64} (hs : s.isEmpty = false)
    (h : s.leq ⟨.finite dl', .finite dh'⟩ = true) : ∃ dl dh, s = ⟨.finite dl, .finite dh⟩ ∧
      dl'.toInt ≤ dl.toInt ∧ dl.toInt ≤ dh.toInt ∧ dh.toInt ≤ dh'.toInt := by
  obtain ⟨⟨hlo, hlo'⟩, hhi, hhi'⟩ := ends_within h hs
  have hle := isEmpty_eq_false_iff.1 hs
  obtain ⟨lo, hi⟩ := s
  have hfinite : ∀ {x : Bound}, .finite dl' ≤ x → x ≤ .finite dh' → ∃ d, x = .finite d := by
    intro x hx hx'
    cases x with
    | negInf => cases hx
    | posInf => cases hx'
    | finite d => exact ⟨d, rfl⟩
  obtain ⟨dl, rfl⟩ := hfinite hlo hlo'
  obtain ⟨dh, rfl⟩ := hfinite hhi hhi'
  exact ⟨dl, dh, rfl, Bound.finite_le_finite.1 hlo, Bound.finite_le_finite.1 hle,
    Bound.finite_le_finite.1 hhi'⟩

theorem floorDiv_leq_floorDiv (hr : r.leq r' = true) (hs : s.leq s' = true) :
    (r.floorDiv s).leq (r'.floorDiv s') = true := by
  refine strict_leq_strict (fun _ _ h => if_pos h) hr hs fun hre hse hre' hse' => ?_
  by_cases hknown : ∃ dl dh, s' = ⟨.finite dl, .finite dh⟩ ∧ (0 < dl.toInt ∨ dh.toInt < 0)
  · obtain ⟨dl', dh', rfl, hsign⟩ := hknown
    obtain ⟨dl, dh, rfl, hlo, hle, hhi⟩ := exists_finite_of_leq hse hs
    obtain ⟨hx, hx'⟩ := ends_within hr hre
    have hcorner := fun {x d} (hx : r'.lo ≤ x ∧ x ≤ r'.hi)
        (hd : dl'.toInt ≤ d.toInt ∧ d.toInt ≤ dh'.toInt) =>
      (Bound.floorDiv_among hx.1 hx.2 (d := d) (by omega)).within
        (Bound.floorDiv_among_divisor hd.1 hd.2 hsign r'.lo)
        (Bound.floorDiv_among_divisor hd.1 hd.2 hsign r'.hi)
    have hdl : dl'.toInt ≤ dl.toInt ∧ dl.toInt ≤ dh'.toInt := ⟨hlo, by omega⟩
    have hdh : dl'.toInt ≤ dh.toInt ∧ dh.toInt ≤ dh'.toInt := ⟨by omega, hhi⟩
    rw [floorDiv_eq hre hse (by omega), floorDiv_eq hre' hse' hsign]
    exact hull_leq (hcorner hx hdl) (hcorner hx hdh) (hcorner hx' hdl) (hcorner hx' hdh)
  · rw [floorDiv_eq_top hre' hse' fun dl dh hs' hsign => hknown ⟨dl, dh, hs', hsign⟩]
    exact leq_top _

end Quotients

section Remainders

theorem modulo_eq_top (hr : r.isEmpty = false) (hs : s.isEmpty = false)
    (hzero : s.contains 0 = true) : r.modulo s = top := by
  rw [modulo, hr, hs, hzero]
  rfl

/-- The remainders, if no divisor is zero. -/
theorem modulo_eq (hr : r.isEmpty = false) (hs : s.isEmpty = false)
    (hzero : s.contains 0 = false) : r.modulo s =
      if .finite 0 < s.lo then
        if .finite 0 ≤ r.lo ∧ r.hi < s.lo then r else between (.finite 0) s.hi.pred
      else between s.lo.succ (.finite 0) := by
  rw [modulo, hr, hs, hzero]
  rfl

/-- A dividend below every divisor has the infinity on the other side at neither end. -/
theorem proper_of_dividend {x : Bound} (hr : r.isEmpty = false) (hlo : .finite 0 ≤ r.lo)
    (hhi : r.hi < x) : r.Proper := by
  have hle := isEmpty_eq_false_iff.1 hr
  have hinf : r.hi ≠ .posInf := fun h => hhi (h ▸ Bound.le_posInf x)
  refine ⟨fun h => hinf (Bound.posInf_le (h ▸ hle)), fun h => ?_⟩
  rw [h] at hle
  rw [Bound.le_negInf hle] at hlo
  cases hlo

theorem modulo_leq_modulo (hr : r.leq r' = true) (hs : s.leq s' = true) :
    (r.modulo s).leq (r'.modulo s') = true := by
  refine strict_leq_strict (fun _ _ h => if_pos h) hr hs fun hre hse hre' hse' => ?_
  obtain ⟨-, hrlo, hrhi⟩ := leq_iff.1 hr hre
  obtain ⟨-, hslo, hshi⟩ := leq_iff.1 hs hse
  have hsle := isEmpty_eq_false_iff.1 hse
  cases hzero' : s'.contains 0 with
  | true =>
      rw [modulo_eq_top hre' hse' hzero']
      exact leq_top _
  | false =>
      have hzero : s.contains 0 = false := Bool.eq_false_iff.2 fun h =>
        Bool.eq_false_iff.1 hzero' (contains_iff.2 ((contains_iff.1 h).mono hs))
      rw [modulo_eq hre hse hzero, modulo_eq hre' hse' hzero']
      by_cases hpos' : .finite 0 < s'.lo
      · have hpos : .finite 0 < s.lo := fun h => hpos' (Bound.le_trans hslo h)
        rw [if_pos hpos, if_pos hpos']
        by_cases hsmall' : .finite 0 ≤ r'.lo ∧ r'.hi < s'.lo
        · have hsmall : .finite 0 ≤ r.lo ∧ r.hi < s.lo :=
            ⟨Bound.le_trans hsmall'.1 hrlo,
              fun h => hsmall'.2 (Bound.le_trans hslo (Bound.le_trans h hrhi))⟩
          rw [if_pos hsmall, if_pos hsmall']
          exact hr
        · rw [if_neg hsmall']
          by_cases hsmall : .finite 0 ≤ r.lo ∧ r.hi < s.lo
          · -- a dividend that stays as it is lies below the largest divisor
            have hbelow : r.hi < s'.hi := fun h =>
              hsmall.2 (Bound.le_trans hsle (Bound.le_trans hshi h))
            rw [if_pos hsmall]
            exact leq_between hre (proper_of_dividend hre hsmall.1 hsmall.2) hsmall.1
              (Bound.le_pred_of_lt hbelow)
          · rw [if_neg hsmall]
            exact between_leq_between (Bound.le_refl _) (Bound.pred_le_pred hshi)
      · have hneg' : s'.hi < .finite 0 := fun h => Bool.eq_false_iff.1 hzero'
          (contains_iff.2 ⟨Bound.le_finite_iff.1 (Decidable.not_not.1 hpos'),
            Bound.finite_le_iff.1 h⟩)
        have hpos : ¬ .finite 0 < s.lo := fun h => by
          have hlo : s.lo ≤ s'.hi := Bound.le_trans hsle hshi
          exact h (Bound.le_trans hlo (Bound.le_of_lt hneg'))
        rw [if_neg hpos, if_neg hpos']
        exact between_leq_between (Bound.succ_le_succ hslo) (Bound.le_refl _)

end Remainders

end Interval

namespace Value

variable {a a' b b' : Value}

theorem make_leq_make {s s' : Sign} {n n' : Nullability} {r r' : Interval}
    (hs : s.leq s' = true) (hn : n.leq n' = true) (hr : r.leq r' = true) :
    (make s n r).leq (make s' n' r') = true :=
  Finer.leq (Finer.reduce ((reduce_finer _).trans ⟨hs, hn, hr⟩))

/-- What arithmetic makes of integers is not `None`. -/
theorem make_leq_anyInt (s : Sign) (r : Interval) : (make s .notNull r).leq anyInt = true :=
  Finer.leq ((reduce_finer _).trans ⟨Sign.leq_top s, Nullability.leq_refl _, Interval.leq_top r⟩)

/-- A binary operator is monotone. -/
theorem binary_leq_binary (op : BinOp) (ha : a.leq a' = true) (hb : b.leq b' = true) :
    (binary op a b).leq (binary op a' b') = true := by
  cases hempty : a.isBottom || b.isBottom with
  | true =>
      rw [binary.eq_def op a b, hempty, if_pos rfl]
      exact bottom_leq _
  | false =>
      obtain ⟨hae, hbe⟩ := Bool.or_eq_false_iff.1 hempty
      have ha := finer_of_leq ha hae
      have hb := finer_of_leq hb hbe
      rw [binary.eq_def op a b, binary.eq_def op a' b', hae, hbe, ha.not_isBottom hae,
        hb.not_isBottom hbe]
      cases hnum' : a'.isNumeric && b'.isNumeric with
      | true =>
          obtain ⟨hanum', hbnum'⟩ := (Bool.and_eq_true _ _).mp hnum'
          rw [hanum', hbnum', ha.isNumeric hanum', hb.isNumeric hbnum']
          cases op with
          | add =>
              exact make_leq_make (Sign.add_leq_add ha.sign hb.sign) rfl
                (Interval.add_leq_add ha.range hb.range)
          | sub =>
              exact make_leq_make (Sign.sub_leq_sub ha.sign hb.sign) rfl
                (Interval.sub_leq_sub ha.range hb.range)
          | mul =>
              exact make_leq_make (Sign.mul_leq_mul ha.sign hb.sign) rfl
                (Interval.mul_leq_mul ha.range hb.range)
          | floorDiv =>
              exact make_leq_make (Sign.floorDiv_leq_floorDiv ha.sign hb.sign) rfl
                (Interval.floorDiv_leq_floorDiv ha.range hb.range)
          | mod =>
              exact make_leq_make (Sign.modulo_leq_modulo ha.sign hb.sign) rfl
                (Interval.modulo_leq_modulo ha.range hb.range)
          | bitAnd | bitOr | bitXor => exact leq_refl _
      | false =>
          have hany : (!a'.isNumeric || !b'.isNumeric) = true := by
            rw [← Bool.not_and, hnum']
            rfl
          rw [hany]
          cases op with
          | add | mul => exact leq_top _
          | sub | floorDiv | mod =>
              cases !a.isNumeric || !b.isNumeric with
              | true => exact leq_refl _
              | false => exact make_leq_anyInt _ _
          | bitAnd | bitOr | bitXor => cases !a.isNumeric || !b.isNumeric <;> exact leq_refl _

/-- So is negation. -/
theorem negate_leq_negate (ha : a.leq a' = true) : a.negate.leq a'.negate = true := by
  cases hempty : a.isBottom with
  | true =>
      rw [negate, hempty]
      exact leq_iff.2 fun h => absurd (hempty.symm.trans h) (by decide)
  | false =>
      have ha := finer_of_leq ha hempty
      rw [negate, negate, hempty, ha.not_isBottom hempty]
      cases hnum' : a'.isNumeric with
      | true =>
          rw [ha.isNumeric hnum']
          exact make_leq_make (Sign.negate_leq_negate ha.sign) rfl
            (Interval.negate_leq_negate ha.range)
      | false =>
          cases a.isNumeric with
          | true => exact make_leq_anyInt _ _
          | false => exact leq_refl _

/-- Arithmetic on less precise operands is less precise. -/
theorem arithmetic_monotone (ha : a.leq a' = true) :
    (∀ op b b', b.leq b' = true → (binary op a b).leq (binary op a' b') = true) ∧
      a.negate.leq a'.negate = true :=
  ⟨fun op _ _ hb => binary_leq_binary op ha hb, negate_leq_negate ha⟩

/-- From a dividend that stays as it is to all remainders, and on to all integers. -/
theorem arithmetic_monotone_modulo :
    let small := intIn (.finite 2 3)
    let large := intIn (.finite 2 30)
    small.leq large = true ∧ (intIn (.finite 4 5)).leq (intIn (.finite 0 5)) = true ∧
      binary .mod small (intIn (.finite 4 5)) = small ∧
      binary .mod large (intIn (.finite 0 5)) = anyInt ∧
      (binary .mod small (intIn (.finite 4 5))).leq (binary .mod large (intIn (.finite 0 5))) =
        true ∧
      small.negate.leq large.negate = true := by
  have hle : (intIn (.finite 2 3)).leq (intIn (.finite 2 30)) = true := by decide
  have hmono := arithmetic_monotone hle
  exact ⟨hle, by decide, by decide, by decide, hmono.1 .mod _ _ (by decide), hmono.2⟩

end Value

end ValueFlow
