import Mathlib.Data.Int.Bitwise
import ValueFlow.Proofs.Domain.Scalars
/-!
Exact arithmetic, on integers of any size.

What a run computes is the exact result where that fits into 64 bits (`arith?_eq`). Bit operators
work on two's complement, whose digits continue with the sign beyond any width, so their exact
result always fits.
-/

namespace ValueFlow

/-- The exact result of an operator; quotients are rounded down. -/
def BinOp.result? : BinOp → Int → Int → Option Int
  | .add, a, b => some (a + b)
  | .sub, a, b => some (a - b)
  | .mul, a, b => some (a * b)
  | .floorDiv, a, b => if b = 0 then none else some (a.fdiv b)
  | .mod, a, b => if b = 0 then none else some (a.fmod b)
  | .bitAnd, a, b => some (a.land b)
  | .bitOr, a, b => some (a.lor b)
  | .bitXor, a, b => some (a.xor b)

namespace Scalar

section Digits

/-- The digits of an integer that is not negative end in zeros and those of a negative one in ones,
so the digits tell integers apart. -/
theorem eq_of_testBit {m n : Int} (h : ∀ i, m.testBit i = n.testBit i) : m = n := by
  have ends (k l : Nat) : ∃ i, k.testBit i = false ∧ l.testBit i = false := by
    refine ⟨max k l, ?_, ?_⟩
    · apply Nat.testBit_lt_two_pow
      exact Nat.lt_of_le_of_lt (Nat.le_max_left k l) Nat.lt_two_pow_self
    · apply Nat.testBit_lt_two_pow
      exact Nat.lt_of_le_of_lt (Nat.le_max_right k l) Nat.lt_two_pow_self
  cases m with
  | ofNat k =>
      cases n with
      | ofNat l => exact congrArg Int.ofNat (Nat.eq_of_testBit_eq h)
      | negSucc l =>
          obtain ⟨i, hk, hl⟩ := ends k l
          simpa [Int.testBit, hk, hl] using h i
  | negSucc k =>
      cases n with
      | ofNat l =>
          obtain ⟨i, hk, hl⟩ := ends k l
          simpa [Int.testBit, hk, hl] using h i
      | negSucc l =>
          apply congrArg Int.negSucc
          apply Nat.eq_of_testBit_eq
          intro i
          simpa [Int.testBit] using h i

theorem testBit_toInt {w : Nat} (x : BitVec w) (i : Nat) :
    x.toInt.testBit i = if i < w then x.getLsbD i else x.msb := by
  cases hmsb : x.msb with
  | false =>
      rw [BitVec.toInt_eq_toNat_of_msb hmsb]
      split
      · rfl
      · next hi => exact BitVec.getLsbD_of_ge x i (Nat.le_of_not_lt hi)
  | true =>
      have hneg : x.toInt = Int.negSucc (~~~x).toNat := by
        rw [BitVec.toInt_eq_msb_cond, if_pos hmsb, BitVec.toNat_not]
        have := x.isLt
        omega
      have hdigit : x.toInt.testBit i = !(~~~x).getLsbD i := by
        rw [hneg]
        rfl
      rw [hdigit]
      split
      · next hi => simp [hi]
      · next hi => simp [hi]

theorem toInt_eq_of_testBit {x : BitVec 64} {n : Int}
    (h : ∀ i, n.testBit i = if i < 64 then x.getLsbD i else x.msb) : x.toInt = n := by
  apply eq_of_testBit
  intro i
  rw [h, testBit_toInt]

variable (a b : Int64)

theorem toInt_and : (a &&& b).toInt = a.toInt.land b.toInt := by
  apply toInt_eq_of_testBit
  intro i
  rw [Int.testBit_land, Int64.toInt, Int64.toInt, testBit_toInt, testBit_toInt]
  split <;> simp

theorem toInt_or : (a ||| b).toInt = a.toInt.lor b.toInt := by
  apply toInt_eq_of_testBit
  intro i
  rw [Int.testBit_lor, Int64.toInt, Int64.toInt, testBit_toInt, testBit_toInt]
  split <;> simp

theorem toInt_xor : (a ^^^ b).toInt = a.toInt.xor b.toInt := by
  apply toInt_eq_of_testBit
  intro i
  rw [Int.testBit_lxor, Int64.toInt, Int64.toInt, testBit_toInt, testBit_toInt]
  split <;> simp

end Digits

theorem ofInt?_toInt (k : Int64) : ofInt? k.toInt = some (int k) := by
  rw [ofInt?, if_pos ⟨Int64.minValue_le_toInt k, Int64.toInt_le k⟩, Int64.ofInt_toInt]

/-- Arithmetic in runs is exact, as far as its results fit. -/
theorem arith?_eq (a b : Int64) (op : BinOp) :
    arith? a b op = (op.result? a.toInt b.toInt).bind ofInt? := by
  have hzero : b = 0 ↔ b.toInt = 0 := ⟨fun h => h ▸ rfl, fun h => Int64.toInt.inj h⟩
  cases op with
  | add | sub | mul => rfl
  | floorDiv | mod =>
      simp only [arith?, BinOp.result?, hzero]
      split <;> rfl
  | bitAnd => exact (toInt_and a b ▸ ofInt?_toInt (a &&& b)).symm
  | bitOr => exact (toInt_or a b ▸ ofInt?_toInt (a ||| b)).symm
  | bitXor => exact (toInt_xor a b ▸ ofInt?_toInt (a ^^^ b)).symm

end Scalar

end ValueFlow
