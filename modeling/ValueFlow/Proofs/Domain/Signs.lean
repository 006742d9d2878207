import ValueFlow.Domain.Sign
/-!
Signs over-approximate exact arithmetic.

`Admits` says that a sign describes an integer of any size. Every operation on signs admits the
results of the operation on integers that its arguments admit.
-/

namespace ValueFlow

namespace Sign

/-- The atomic sign of an integer of any size. -/
def Atom.ofInt (n : Int) : Atom := if n < 0 then .neg else if n = 0 then .zero else .pos

/-- Whether an integer of any size has a described sign. -/
def Admits (s : Sign) (n : Int) : Prop := s.admits (Atom.ofInt n) = true

variable {a b : Sign} {m n : Int}

theorem Atom.of_eq (k : Int64) : Atom.of k = Atom.ofInt k.toInt := by
  have hzero : k = 0 ↔ k.toInt = 0 := ⟨fun h => h ▸ rfl, fun h => Int64.toInt.inj h⟩
  have hneg : k < 0 ↔ k.toInt < 0 := Int64.lt_iff_toInt_lt
  simp only [Atom.of, Atom.ofInt, hzero, hneg]

theorem contains_iff {k : Int64} : a.contains k = true ↔ a.Admits k.toInt := by
  rw [contains, Atom.of_eq, Admits]

theorem Atom.ofInt_neg (h : n < 0) : Atom.ofInt n = .neg := if_pos h

theorem Atom.ofInt_zero : Atom.ofInt 0 = .zero := rfl

theorem Atom.ofInt_pos (h : 0 < n) : Atom.ofInt n = .pos := by
  rw [Atom.ofInt, if_neg (Int.lt_asymm h), if_neg (Int.ne_of_gt h)]

/-- An integer by its sign. -/
theorem Atom.ofInt_cases (n : Int) : (n < 0 ∧ Atom.ofInt n = .neg) ∨
    (n = 0 ∧ Atom.ofInt n = .zero) ∨ (0 < n ∧ Atom.ofInt n = .pos) := by
  rcases Int.lt_trichotomy n 0 with h | h | h
  · exact .inl ⟨h, ofInt_neg h⟩
  · exact .inr (.inl ⟨h, h ▸ ofInt_zero⟩)
  · exact .inr (.inr ⟨h, ofInt_pos h⟩)

theorem admits_nonNegative (h : 0 ≤ n) : nonNegative.Admits n := by
  rw [Admits]
  rcases Atom.ofInt_cases n with ⟨hn, -⟩ | ⟨-, e⟩ | ⟨-, e⟩
  · omega
  · rw [e]; rfl
  · rw [e]; rfl

theorem admits_nonPositive (h : n ≤ 0) : nonPositive.Admits n := by
  rw [Admits]
  rcases Atom.ofInt_cases n with ⟨-, e⟩ | ⟨-, e⟩ | ⟨hn, -⟩
  · rw [e]; rfl
  · rw [e]; rfl
  · omega

theorem admits_top (n : Int) : top.Admits n := by
  unfold Admits
  cases Atom.ofInt n <;> rfl

theorem not_admits_bottom (n : Int) : ¬ bottom.Admits n := by
  unfold Admits
  cases Atom.ofInt n <;> decide

theorem Admits.ne_bottom (h : a.Admits n) : a ≠ .bottom := by
  rintro rfl
  exact not_admits_bottom n h

theorem admits_of (k : Int64) : (Sign.of k).Admits k.toInt := by
  rw [Sign.of, Atom.of_eq, Admits]
  cases Atom.ofInt k.toInt <;> rfl

theorem admits_ofAtoms_neg (zero pos : Bool) : (ofAtoms true zero pos).admits .neg = true := by
  cases zero <;> cases pos <;> rfl

theorem admits_ofAtoms_zero (neg pos : Bool) : (ofAtoms neg true pos).admits .zero = true := by
  cases neg <;> cases pos <;> rfl

theorem admits_ofAtoms_pos (neg zero : Bool) : (ofAtoms neg zero true).admits .pos = true := by
  cases neg <;> cases zero <;> rfl

section Lattice

theorem admits_join_left {x : Atom} (h : a.admits x = true) (b : Sign) :
    (a.join b).admits x = true := by
  revert h
  cases a <;> cases b <;> cases x <;> decide

theorem admits_join_right {x : Atom} (h : b.admits x = true) (a : Sign) :
    (a.join b).admits x = true := by
  revert h
  cases a <;> cases b <;> cases x <;> decide

theorem Admits.join_left (h : a.Admits n) (b : Sign) : (a.join b).Admits n := admits_join_left h b

theorem Admits.join_right (h : b.Admits n) (a : Sign) : (a.join b).Admits n :=
  admits_join_right h a

theorem Admits.meet (ha : a.Admits n) (hb : b.Admits n) : (a.meet b).Admits n := by
  unfold Admits at *
  revert ha hb
  cases a <;> cases b <;> cases Atom.ofInt n <;> decide

theorem eq_zero_of_admits_meet_zero (h : (a.meet .zero).Admits n) : n = 0 := by
  rw [Admits] at h
  rcases Atom.ofInt_cases n with ⟨-, e⟩ | ⟨hn, -⟩ | ⟨-, e⟩
  · rw [e] at h
    exact absurd h (by cases a <;> decide)
  · exact hn
  · rw [e] at h
    exact absurd h (by cases a <;> decide)

theorem Admits.mono (h : a.Admits n) (hle : a.leq b = true) : b.Admits n := by
  rw [leq, List.all_eq_true] at hle
  exact hle _ (List.contains_iff_mem.1 h)

theorem leq_top (a : Sign) : a.leq .top = true := by cases a <;> decide

theorem top_join (b : Sign) : join .top b = .top := by cases b <;> rfl

theorem join_top (a : Sign) : a.join .top = .top := by cases a <;> rfl

end Lattice

section Arithmetic

theorem admits_joinAll {x : Atom} {values : List Sign} {s : Sign} (hs : s ∈ values)
    (hx : s.admits x = true) : (AbstractDomain.joinAll values).admits x = true := by
  have grows : ∀ (l : List Sign) (acc : Sign), acc.admits x = true →
      (l.foldl AbstractDomain.join acc).admits x = true := by
    intro l
    induction l with
    | nil => exact fun _ h => h
    | cons t l ih => exact fun acc h => ih _ (admits_join_left h t)
  have reaches : ∀ (l : List Sign) (acc : Sign), s ∈ l →
      (l.foldl AbstractDomain.join acc).admits x = true := by
    intro l
    induction l with
    | nil => exact fun _ h => absurd h List.not_mem_nil
    | cons t l ih =>
        intro acc hmem
        rcases List.mem_cons.1 hmem with rfl | hmem
        · exact grows l _ (admits_join_right hx acc)
        · exact ih _ hmem
  exact reaches values _ hs

/-- An operation that is right on atomic signs is right on all elements. -/
theorem admits_lift {op : Atom → Atom → Sign} {x y z : Atom} (ha : a.admits x = true)
    (hb : b.admits y = true) (hop : (op x y).admits z = true) : (lift op a b).admits z = true := by
  refine admits_joinAll (List.mem_flatMap.2 ⟨x, List.contains_iff_mem.1 ha, ?_⟩) hop
  exact List.mem_map.2 ⟨y, List.contains_iff_mem.1 hb, rfl⟩

theorem Admits.add (ha : a.Admits m) (hb : b.Admits n) : (a.add b).Admits (m + n) := by
  refine admits_lift ha hb ?_
  rcases Atom.ofInt_cases m with ⟨hm, em⟩ | ⟨rfl, em⟩ | ⟨hm, em⟩
  · rcases Atom.ofInt_cases n with ⟨hn, en⟩ | ⟨rfl, en⟩ | ⟨hn, en⟩
    · rw [em, en, Atom.ofInt_neg (by omega)]; rfl
    · rw [em, en, Int.add_zero, em]; rfl
    · rw [em, en]; exact admits_top _
  · rw [em, Int.zero_add]
    cases Atom.ofInt n <;> rfl
  · rcases Atom.ofInt_cases n with ⟨hn, en⟩ | ⟨rfl, en⟩ | ⟨hn, en⟩
    · rw [em, en]; exact admits_top _
    · rw [em, en, Int.add_zero, em]; rfl
    · rw [em, en, Atom.ofInt_pos (by omega)]; rfl

theorem Admits.negate (h : a.Admits n) : a.negate.Admits (-n) := by
  rw [Admits] at h ⊢
  rcases Atom.ofInt_cases n with ⟨hn, e⟩ | ⟨rfl, e⟩ | ⟨hn, e⟩
  · rw [Atom.ofInt_pos (by omega)]
    rw [e] at h
    revert h
    cases a <;> decide
  · rw [Int.neg_zero]
    rw [e] at h ⊢
    revert h
    cases a <;> decide
  · rw [Atom.ofInt_neg (by omega)]
    rw [e] at h
    revert h
    cases a <;> decide

theorem Admits.sub (ha : a.Admits m) (hb : b.Admits n) : (a.sub b).Admits (m - n) := by
  rw [Int.sub_eq_add_neg]
  exact ha.add hb.negate

theorem Admits.mul (ha : a.Admits m) (hb : b.Admits n) : (a.mul b).Admits (m * n) := by
  refine admits_lift ha hb ?_
  rcases Atom.ofInt_cases m with ⟨hm, em⟩ | ⟨rfl, em⟩ | ⟨hm, em⟩
  · rcases Atom.ofInt_cases n with ⟨hn, en⟩ | ⟨rfl, en⟩ | ⟨hn, en⟩
    · rw [em, en, Atom.ofInt_pos (Int.mul_pos_of_neg_of_neg hm hn)]; rfl
    · rw [em, en, Int.mul_zero]; rfl
    · rw [em, en, Atom.ofInt_neg (Int.mul_neg_of_neg_of_pos hm hn)]; rfl
  · rw [em, Int.zero_mul]
    cases Atom.ofInt n <;> rfl
  · rcases Atom.ofInt_cases n with ⟨hn, en⟩ | ⟨rfl, en⟩ | ⟨hn, en⟩
    · rw [em, en, Atom.ofInt_neg (Int.mul_neg_of_pos_of_neg hm hn)]; rfl
    · rw [em, en, Int.mul_zero]; rfl
    · rw [em, en, Atom.ofInt_pos (Int.mul_pos hm hn)]; rfl

/-- A divisor that may be zero leaves the sign of the result open. -/
theorem admits_of_divisor {op : Atom → Atom → Sign} {k : Int} (ha : a.Admits m) (hb : b.Admits n)
    (hop : n ≠ 0 → (op (Atom.ofInt m) (Atom.ofInt n)).Admits k) :
    Admits (if a = .bottom ∨ b = .bottom then .bottom
      else if b.mayBeZero then .top else lift op a b) k := by
  rw [if_neg (not_or.2 ⟨ha.ne_bottom, hb.ne_bottom⟩)]
  split
  · exact admits_top k
  · next hzero =>
      refine admits_lift ha hb (hop ?_)
      rintro rfl
      exact hzero hb

theorem Admits.floorDiv (ha : a.Admits m) (hb : b.Admits n) :
    (a.floorDiv b).Admits (m.fdiv n) := by
  refine admits_of_divisor ha hb fun hn => ?_
  rcases Atom.ofInt_cases m with ⟨hm, em⟩ | ⟨rfl, em⟩ | ⟨hm, em⟩
  · rcases Int.lt_or_gt_of_ne hn with hn | hn
    · rw [em, Atom.ofInt_neg hn]
      exact admits_nonNegative (Int.fdiv_nonneg_of_nonpos_of_nonpos (Int.le_of_lt hm)
        (Int.le_of_lt hn))
    · rw [em, Atom.ofInt_pos hn, Admits, Atom.ofInt_neg (Int.fdiv_neg_of_neg_of_pos hm hn)]
      rfl
  · rw [em, Int.zero_fdiv]
    cases Atom.ofInt n <;> rfl
  · rcases Int.lt_or_gt_of_ne hn with hn | hn
    · have hneg : m.fdiv n < 0 := by
        rw [← Int.neg_fdiv_neg]
        exact Int.fdiv_neg_of_neg_of_pos (Int.neg_neg_of_pos hm) (Int.neg_pos_of_neg hn)
      rw [em, Atom.ofInt_neg hn, Admits, Atom.ofInt_neg hneg]
      rfl
    · rw [em, Atom.ofInt_pos hn]
      exact admits_nonNegative (Int.fdiv_nonneg (Int.le_of_lt hm) (Int.le_of_lt hn))

theorem Admits.modulo (ha : a.Admits m) (hb : b.Admits n) : (a.modulo b).Admits (m.fmod n) := by
  refine admits_of_divisor ha hb fun hn => ?_
  by_cases hm : m = 0
  · rw [hm, Int.zero_fmod, Atom.ofInt_zero]
    cases Atom.ofInt n <;> rfl
  · rcases Int.lt_or_gt_of_ne hn with hn | hn
    · have hle : m.fmod n ≤ 0 := by
        rw [← Int.neg_neg (m.fmod n), ← Int.neg_fmod_neg]
        have := Int.fmod_nonneg_of_pos (-m) (Int.neg_pos_of_neg hn)
        omega
      rw [Atom.ofInt_neg hn]
      rcases Atom.ofInt_cases m with ⟨-, e⟩ | ⟨h, -⟩ | ⟨-, e⟩
      · rw [e]; exact admits_nonPositive hle
      · exact absurd h hm
      · rw [e]; exact admits_nonPositive hle
    · have hle := Int.fmod_nonneg_of_pos m hn
      rw [Atom.ofInt_pos hn]
      rcases Atom.ofInt_cases m with ⟨-, e⟩ | ⟨h, -⟩ | ⟨-, e⟩
      · rw [e]; exact admits_nonNegative hle
      · exact absurd h hm
      · rw [e]; exact admits_nonNegative hle

end Arithmetic

end Sign

end ValueFlow
