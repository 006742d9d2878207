import ValueFlow.Domain.Value
import ValueFlow.Program.Tree
/-!
The values of runs and what operators do to them.

Integers are exact and truth values are the integers zero and one. An operation without a result
raises an error, leaves the 64-bit integers, or asks which of two integers is the same object.
-/

namespace ValueFlow

/-- A value of a run. -/
inductive Scalar where
  | int (n : Int64)
  | none
deriving DecidableEq, Repr

namespace Scalar

def ofBool (b : Bool) : Scalar := int (if b then 1 else 0)

def truth : Scalar → Bool
  | int n => decide (n ≠ 0)
  | none => false

@[simp] theorem truth_ofBool (b : Bool) : (ofBool b).truth = b := by cases b <;> rfl

/-- The value of a literal; texts are not among the values. -/
def ofLiteral? : Literal → Option Scalar
  | .int n => some (int n)
  | .bool b => some (ofBool b)
  | .none => some none
  | .str _ => Option.none

/-- An exact result, if it fits into 64 bits. -/
def ofInt? (n : Int) : Option Scalar :=
  if Int64.minValue.toInt ≤ n ∧ n ≤ Int64.maxValue.toInt then some (int (Int64.ofInt n))
  else Option.none

/-- The result of an operator with two integers; quotients are rounded down. -/
def arith? (a b : Int64) : BinOp → Option Scalar
  | .add => ofInt? (a.toInt + b.toInt)
  | .sub => ofInt? (a.toInt - b.toInt)
  | .mul => ofInt? (a.toInt * b.toInt)
  | .floorDiv => if b = 0 then Option.none else ofInt? (a.toInt.fdiv b.toInt)
  | .mod => if b = 0 then Option.none else ofInt? (a.toInt.fmod b.toInt)
  | .bitAnd => some (int (a &&& b))
  | .bitOr => some (int (a ||| b))
  | .bitXor => some (int (a ^^^ b))

def binary? (op : BinOp) : Scalar → Scalar → Option Scalar
  | int a, int b => arith? a b op
  | _, _ => Option.none

def unary? : UnaryOp → Scalar → Option Scalar
  | .not, v => some (ofBool !v.truth)
  | .neg, int n => ofInt? (-n.toInt)
  | .pos, int n => some (int n)
  | _, none => Option.none

def compare? : CompOp → Scalar → Scalar → Option Bool
  | .eq, u, v => some (decide (u = v))
  | .notEq, u, v => some (decide (u ≠ v))
  | .is, int _, int _ => Option.none
  | .is, u, v => some (decide (u = v))
  | .isNot, int _, int _ => Option.none
  | .isNot, u, v => some (decide (u ≠ v))
  | .lt, int a, int b => some (decide (a < b))
  | .ltE, int a, int b => some (decide (a ≤ b))
  | .gt, int a, int b => some (decide (b < a))
  | .gtE, int a, int b => some (decide (b ≤ a))
  | _, _, _ => Option.none

theorem compare?_is {u v : Scalar} {o : Bool} (h : compare? .is u v = some o) :
    o = decide (u = v) := by
  cases u with
  | int =>
      cases v with
      | int => cases h
      | none => exact (Option.some.inj h).symm
  | none => cases v <;> exact (Option.some.inj h).symm

theorem compare?_isNot {u v : Scalar} {o : Bool} (h : compare? .isNot u v = some o) :
    o = decide (u ≠ v) := by
  cases u with
  | int =>
      cases v with
      | int => cases h
      | none => exact (Option.some.inj h).symm
  | none => cases v <;> exact (Option.some.inj h).symm

theorem compare?_negate (op : CompOp) (u v : Scalar) :
    compare? op.negate u v = (compare? op u v).map not := by
  have opposite (p q : Prop) [Decidable p] [Decidable q] (h : p ↔ ¬ q) :
      some (decide p) = (some (decide q)).map not := by
    rw [Option.map_some, ← decide_not, decide_eq_decide.2 h]
  cases u with
  | none => cases v <;> cases op <;> rfl
  | int m =>
      cases v with
      | none => cases op <;> rfl
      | int n =>
          cases op with
          | eq => exact opposite _ _ Iff.rfl
          | notEq => exact opposite _ _ Decidable.not_not.symm
          | is | isNot => rfl
          | lt | gt => exact opposite _ _ Int64.not_lt.symm
          | ltE | gtE => exact opposite _ _ Int64.not_le.symm

theorem compare?_flip (op : CompOp) (u v : Scalar) : compare? op.flip v u = compare? op u v := by
  cases u with
  | none => cases v <;> cases op <;> rfl
  | int m =>
      cases v with
      | none => cases op <;> rfl
      | int n =>
          cases op with
          | eq => exact congrArg some (decide_eq_decide.2 eq_comm)
          | notEq => exact congrArg some (decide_eq_decide.2 ne_comm)
          | is | isNot | lt | ltE | gt | gtE => rfl

/-- The integers from one up or down to another, which is left out, in steps. -/
def steps (start stop step : Int) : List Int :=
  let count :=
    if 0 < step then (stop - start + step - 1) / step else (start - stop - step - 1) / -step
  (List.range count.toNat).map fun i : Nat => start + i * step

theorem compare?_lt {u v : Scalar} (h : compare? .lt u v = some true) :
    ∃ m n, u = int m ∧ v = int n ∧ m.toInt < n.toInt := by
  cases u with
  | none => cases h
  | int m =>
      cases v with
      | none => cases h
      | int n => exact ⟨m, n, rfl, rfl,
          Int64.lt_iff_toInt_lt.1 (of_decide_eq_true (Option.some.inj h))⟩

theorem compare?_ltE {u v : Scalar} (h : compare? .ltE u v = some true) :
    ∃ m n, u = int m ∧ v = int n ∧ m.toInt ≤ n.toInt := by
  cases u with
  | none => cases h
  | int m =>
      cases v with
      | none => cases h
      | int n => exact ⟨m, n, rfl, rfl,
          Int64.le_iff_toInt_le.1 (of_decide_eq_true (Option.some.inj h))⟩

theorem lt_of_mem_steps {start stop n : Int} (h : n ∈ steps start stop 1) :
    start ≤ n ∧ n < stop := by
  rw [steps, if_pos Int.one_pos, List.mem_map] at h
  obtain ⟨i, hi, rfl⟩ := h
  rw [List.mem_range, Int.ediv_one] at hi
  omega

def range? : List Scalar → Option (List Int)
  | [int stop] => some (steps 0 stop.toInt 1)
  | [int start, int stop] => some (steps start.toInt stop.toInt 1)
  | [int start, int stop, int step] =>
      if step = 0 then Option.none else some (steps start.toInt stop.toInt step.toInt)
  | _ => Option.none

end Scalar

namespace Value

def describes (v : Value) : Scalar → Bool
  | .int n => v.containsInt n
  | .none => v.containsNone

end Value

end ValueFlow
