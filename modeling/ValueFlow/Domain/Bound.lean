/-!
Ends of intervals: a 64-bit integer or one of the two infinities.

Exact results that do not fit into 64 bits move to the infinity on their side.
-/

namespace ValueFlow

inductive Bound where
  | negInf
  | finite (n : Int64)
  | posInf
deriving DecidableEq, Repr

namespace Bound

def le : Bound → Bound → Bool
  | negInf, _ => true
  | _, posInf => true
  | finite a, finite b => decide (a ≤ b)
  | _, _ => false

instance : LE Bound := ⟨fun a b => a.le b = true⟩

instance : LT Bound := ⟨fun a b => ¬ b ≤ a⟩

instance (a b : Bound) : Decidable (a ≤ b) := inferInstanceAs (Decidable (a.le b = true))

instance (a b : Bound) : Decidable (a < b) := inferInstanceAs (Decidable ¬ (b.le a = true))

def lower (a b : Bound) : Bound := if b < a then b else a

def upper (a b : Bound) : Bound := if a < b then b else a

def finite? : Bound → Option Int64
  | finite n => some n
  | _ => none

def isFinite (b : Bound) : Bool := b.finite?.isSome

/-- The bound an exact result stands for: itself, or the infinity beyond the 64-bit limits. -/
def ofExact (n : Int) : Bound :=
  if n < Int64.minValue.toInt then negInf
  else if Int64.maxValue.toInt < n then posInf
  else finite (Int64.ofInt n)

/-- The sum of two bounds; opposite infinities do not meet on one side of an interval. -/
def add : Bound → Bound → Bound
  | finite a, finite b => ofExact (a.toInt + b.toInt)
  | negInf, _ => negInf
  | _, negInf => negInf
  | _, _ => posInf

def neg : Bound → Bound
  | negInf => posInf
  | finite n => ofExact (-n.toInt)
  | posInf => negInf

/-- The sign of a bound as `-1`, `0` or `1`. -/
def signum : Bound → Int
  | negInf => -1
  | finite n => n.toInt.sign
  | posInf => 1

/-- The product of two bounds, where zero times an infinity is zero. -/
def mul : Bound → Bound → Bound
  | finite a, finite b => ofExact (a.toInt * b.toInt)
  | a, b =>
      let s := a.signum * b.signum
      if s = 0 then finite 0 else if 0 < s then posInf else negInf

/-- The quotient by a non-zero integer, rounded down. -/
def floorDiv (a : Bound) (divisor : Int64) : Bound :=
  match a with
  | finite n => ofExact (n.toInt.fdiv divisor.toInt)
  | _ => if 0 < divisor then a else a.neg

/-- The next smaller bound; the least integer stays. -/
def pred : Bound → Bound
  | finite n => finite (if n = Int64.minValue then n else n - 1)
  | b => b

/-- The next larger bound; the greatest integer stays. -/
def succ : Bound → Bound
  | finite n => finite (if n = Int64.maxValue then n else n + 1)
  | b => b

def compare (a b : Bound) : Ordering :=
  if a < b then .lt else if b < a then .gt else .eq

def render : Bound → String
  | negInf => "-INF"
  | finite n => toString n.toInt
  | posInf => "+INF"

end Bound

end ValueFlow
