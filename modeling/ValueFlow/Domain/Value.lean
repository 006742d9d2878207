import ValueFlow.Domain.Interval
import ValueFlow.Domain.Nullability
import ValueFlow.Program.Operator
/-!
Abstract values: the reduced product of sign, nullability and interval.

A value is described when all three components describe it. Sign and interval only constrain
integers, so one of them below `top` makes the value an integer and hence not `None`.
-/

namespace ValueFlow

/-- A description of the values of one variable. -/
structure Value where
  sign : Sign
  nullability : Nullability
  range : Interval
deriving DecidableEq, Repr

namespace Value

def bottom : Value := ⟨.bottom, .bottom, .bottom⟩

def top : Value := ⟨.top, .top, .top⟩

instance : Inhabited Value := ⟨top⟩

def isBottom (v : Value) : Bool :=
  decide (v.sign = .bottom) || decide (v.nullability = .bottom) || v.range.isEmpty

/-- Whether a numeric component makes the value an integer. -/
def isNumeric (v : Value) : Bool :=
  decide (v.sign ≠ .top) || decide (v.range ≠ .top)

def isTop (v : Value) : Bool := decide (v = top)

/-- Refines the components by each other; an empty one empties all. -/
def reduce (v : Value) : Value :=
  if v.isBottom then bottom
  else
    let range := v.range.meet (.ofSign v.sign)
    let sign := v.sign.meet range.sign
    let nullability :=
      if sign ≠ .top ∨ range ≠ .top then v.nullability.meet .notNull else v.nullability
    let refined : Value := ⟨sign, nullability, range⟩
    if refined.isBottom then bottom else refined

def make (sign : Sign) (nullability : Nullability) (range : Interval) : Value :=
  reduce ⟨sign, nullability, range⟩

def constant (n : Int64) : Value := ⟨.of n, .notNull, .constant n⟩

def intIn (range : Interval) : Value := make range.sign .notNull range

def nonNegative : Value := intIn (.atLeast 0)

/-- A truth value, as the integer zero or one. -/
def anyBool : Value := intIn (.finite 0 1)

/-- A known truth value, as the integer zero or one. -/
def ofBool (b : Bool) : Value := constant (if b then 1 else 0)

def notNull : Value := ⟨.top, .notNull, .top⟩

/-- Some integer; its components are those of any value other than `None`. -/
def anyInt : Value := notNull

def none : Value := ⟨.top, .definitelyNull, .top⟩

def containsInt (v : Value) (n : Int64) : Bool :=
  v.nullability.mayBeNonNull && v.sign.contains n && v.range.contains n

def containsNone (v : Value) : Bool :=
  v.nullability.mayBeNull && decide (v.sign = .top) && decide (v.range = .top)

def join (a b : Value) : Value :=
  if a.isBottom then b
  else if b.isBottom then a
  else ⟨a.sign.join b.sign, a.nullability.join b.nullability, a.range.join b.range⟩

def meet (a b : Value) : Value :=
  make (a.sign.meet b.sign) (a.nullability.meet b.nullability) (a.range.meet b.range)

def leq (a b : Value) : Bool :=
  a.isBottom || (a.sign.leq b.sign && a.nullability.leq b.nullability && a.range.leq b.range)

def widen (a b : Value) : Value :=
  if a.isBottom then b
  else if b.isBottom then a
  else ⟨a.sign.join b.sign, a.nullability.join b.nullability, a.range.widen b.range⟩

instance : AbstractDomain Value where
  bottom := bottom
  top := top
  join := join
  meet := meet
  leq := leq
  widen a b _ := widen a b
  isBottom := isBottom

/-- The truth value all described values share. -/
def truthiness (v : Value) : Option Bool :=
  if v.isBottom then .none
  else if v.nullability = .definitelyNull then some false
  else if v.isNumeric && v.nullability = .notNull then
    if v.range.constant? = some 0 then some false
    else if v.range.contains 0 then .none
    else some true
  else .none

/-- The results of a binary operator. Operands that need not be integers only fix the result as
far as the operator does. -/
def binary (op : BinOp) (a b : Value) : Value :=
  if a.isBottom || b.isBottom then bottom
  else if !a.isNumeric || !b.isNumeric then
    match op with
    | .add | .mul => top
    | _ => anyInt
  else
    match op with
    | .add => make (a.sign.add b.sign) .notNull (a.range.add b.range)
    | .sub => make (a.sign.sub b.sign) .notNull (a.range.sub b.range)
    | .mul => make (a.sign.mul b.sign) .notNull (a.range.mul b.range)
    | .floorDiv => make (a.sign.floorDiv b.sign) .notNull (a.range.floorDiv b.range)
    | .mod => make (a.sign.modulo b.sign) .notNull (a.range.modulo b.range)
    | .bitAnd | .bitOr | .bitXor => anyInt

def negate (v : Value) : Value :=
  if v.isBottom then v
  else if v.isNumeric then make v.sign.negate .notNull v.range.negate
  else anyInt

/-- Whether two values are the same object, as far as being `None` decides it. -/
def identicalToNone? (a b : Value) : Option Bool :=
  match a.nullability, b.nullability with
  | .definitelyNull, .definitelyNull => some true
  | .definitelyNull, .notNull => some false
  | .notNull, .definitelyNull => some false
  | _, _ => .none

/-- Whether two integers are equal, as far as their intervals decide it. -/
def numericEquality? (a b : Value) : Option Bool :=
  if !a.isNumeric || !b.isNumeric then .none
  else
    match a.range.constant?, b.range.constant? with
    | some m, some n => some (m == n)
    | _, _ => if (a.range.meet b.range).isEmpty then some false else .none

/-- The outcome all pairs of described values share. -/
def compare? (op : CompOp) (a b : Value) : Option Bool :=
  if a.isBottom || b.isBottom then .none
  else
    let equal? := (identicalToNone? a b).or (numericEquality? a b)
    let order? (yes no : Bool) : Option Bool :=
      if !a.isNumeric || !b.isNumeric then .none
      else if yes then some true
      else if no then some false
      else .none
    match op with
    | .is => identicalToNone? a b
    | .isNot => (identicalToNone? a b).map not
    | .eq => equal?
    | .notEq => equal?.map not
    | .lt => order? (a.range.hi < b.range.lo) (b.range.hi ≤ a.range.lo)
    | .ltE => order? (a.range.hi ≤ b.range.lo) (b.range.hi < a.range.lo)
    | .gt => order? (b.range.hi < a.range.lo) (a.range.hi ≤ b.range.lo)
    | .gtE => order? (b.range.hi ≤ a.range.lo) (a.range.hi < b.range.lo)

/-- Drops an integer that stands at an end of the interval. -/
def exclude (v : Value) (n : Int64) : Value :=
  let fromLow :=
    if v.range.lo = .finite n then Interval.between (Bound.finite n).succ v.range.hi else v.range
  let range :=
    if fromLow.hi = .finite n then Interval.between fromLow.lo (Bound.finite n).pred else fromLow
  let sign := if n = 0 ∧ v.sign.meet .zero = v.sign then .bottom else v.sign
  make sign v.nullability range

/-- The values that compare as asked with some value of the other side. -/
def restrict (v : Value) (op : CompOp) (other : Value) : Value :=
  let within (r : Interval) : Value := if other.isNumeric then v.meet (intIn r) else v
  match op with
  | .lt => within (.between .negInf other.range.hi.pred)
  | .ltE => within (.between .negInf other.range.hi)
  | .gt => within (.between other.range.lo.succ .posInf)
  | .gtE => within (.between other.range.lo .posInf)
  | .eq =>
      if other.nullability = .definitelyNull then v.meet none
      else if other.isNumeric && v.isNumeric then v.meet other
      else v
  | .is =>
      if other.nullability = .definitelyNull then v.meet none
      else if other.nullability = .notNull then v.meet notNull
      else v
  | .notEq | .isNot =>
      if other.nullability = .definitelyNull then v.meet notNull
      else
        match other.range.constant? with
        | some c => if v.isNumeric then v.exclude c else v
        | .none => v

def render (v : Value) : String :=
  s!"({v.sign.render}, {v.nullability.render}, {v.range.render})"

end Value

end ValueFlow
