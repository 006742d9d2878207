import ValueFlow.Domain.Bound
import ValueFlow.Domain.Sign
/-!
Intervals of integers.

The empty interval has one canonical form, so that on canonical intervals equality is the
equality of the described sets. Intervals given from outside need not be canonical.
-/

namespace ValueFlow

structure Interval where
  lo : Bound
  hi : Bound
deriving DecidableEq, Repr

namespace Interval

/-- The canonical empty interval. -/
def bottom : Interval := ⟨.posInf, .negInf⟩

def top : Interval := ⟨.negInf, .posInf⟩

instance : Inhabited Interval := ⟨top⟩

/-- The interval between two bounds in canonical form. -/
def between (lo hi : Bound) : Interval :=
  if hi < lo ∨ lo = .posInf ∨ hi = .negInf then bottom else ⟨lo, hi⟩

/-- The interval of arithmetic results; a bound that left the integers on the wrong side comes
back to the last integer there. -/
def ofArith (lo hi : Bound) : Interval :=
  between (if lo = .posInf then .finite Int64.maxValue else lo)
    (if hi = .negInf then .finite Int64.minValue else hi)

def finite (lo hi : Int64) : Interval := between (.finite lo) (.finite hi)

def constant (n : Int64) : Interval := finite n n

def atLeast (lo : Int64) : Interval := between (.finite lo) .posInf

def atMost (hi : Int64) : Interval := between .negInf (.finite hi)

def isEmpty (r : Interval) : Bool := decide (r.hi < r.lo)

def contains (r : Interval) (n : Int64) : Bool :=
  !r.isEmpty && decide (r.lo ≤ .finite n) && decide (.finite n ≤ r.hi)

/-- The only integer of an interval with equal finite bounds. -/
def constant? (r : Interval) : Option Int64 :=
  match r.lo, r.hi with
  | .finite a, .finite b => if a = b then some a else none
  | _, _ => none

def isBounded (r : Interval) : Bool := r.lo.isFinite && r.hi.isFinite

def join (r s : Interval) : Interval :=
  if r.isEmpty then s
  else if s.isEmpty then r
  else ⟨r.lo.lower s.lo, r.hi.upper s.hi⟩

def meet (r s : Interval) : Interval := between (r.lo.upper s.lo) (r.hi.lower s.hi)

def leq (r s : Interval) : Bool :=
  r.isEmpty || (!s.isEmpty && decide (s.lo ≤ r.lo) && decide (r.hi ≤ s.hi))

/-- An unstable bound jumps to infinity. -/
def widen (r s : Interval) : Interval :=
  if r.isEmpty then s
  else if s.isEmpty then r
  else ⟨if s.lo < r.lo then .negInf else r.lo, if r.hi < s.hi then .posInf else r.hi⟩

instance : AbstractDomain Interval where
  bottom := bottom
  top := top
  join := join
  meet := meet
  leq := leq
  widen r s _ := widen r s
  isBottom := isEmpty

def add (r s : Interval) : Interval :=
  if r.isEmpty || s.isEmpty then bottom else ofArith (r.lo.add s.lo) (r.hi.add s.hi)

def negate (r : Interval) : Interval :=
  if r.isEmpty then bottom else ofArith r.hi.neg r.lo.neg

def sub (r s : Interval) : Interval := r.add s.negate

/-- The interval spanned by four corner results. -/
def hull (a b c d : Bound) : Interval :=
  ofArith (((a.lower b).lower c).lower d) (((a.upper b).upper c).upper d)

def mul (r s : Interval) : Interval :=
  if r.isEmpty || s.isEmpty then bottom
  else hull (r.lo.mul s.lo) (r.lo.mul s.hi) (r.hi.mul s.lo) (r.hi.mul s.hi)

/-- The quotients rounded down; nothing is known when the divisor is unbounded or may be zero. -/
def floorDiv (r s : Interval) : Interval :=
  if r.isEmpty || s.isEmpty then bottom
  else
    match s.lo, s.hi with
    | .finite dl, .finite dh =>
        if s.contains 0 then top
        else hull (r.lo.floorDiv dl) (r.lo.floorDiv dh) (r.hi.floorDiv dl) (r.hi.floorDiv dh)
    | _, _ => top

/-- The remainders, which lie between zero and the divisor. -/
def modulo (r s : Interval) : Interval :=
  if r.isEmpty || s.isEmpty then bottom
  else if s.contains 0 then top
  else if .finite 0 < s.lo then
    -- a dividend below every divisor stays as it is
    if .finite 0 ≤ r.lo ∧ r.hi < s.lo then r else between (.finite 0) s.hi.pred
  else between s.lo.succ (.finite 0)

def ofSign : Sign → Interval
  | .bottom => bottom
  | .negative => atMost (-1)
  | .zero => constant 0
  | .positive => atLeast 1
  | .nonNegative => atLeast 0
  | .nonPositive => atMost 0
  | .top => top

/-- The sign of all integers of an interval. -/
def sign (r : Interval) : Sign :=
  if r.isEmpty then .bottom
  else
    Sign.ofAtoms (decide (r.lo < .finite 0))
      (decide (r.lo ≤ .finite 0) && decide (.finite 0 ≤ r.hi)) (decide (.finite 0 < r.hi))

def render (r : Interval) : String :=
  if r.isEmpty then "⊥" else s!"[{r.lo.render}, {r.hi.render}]"

end Interval

end ValueFlow
