import ValueFlow.Domain.Value
/-!
Builtin functions and methods with known results.

A call of one of these leaves its arguments unchanged.
-/

namespace ValueFlow

/-- Whether a method reads its receiver without changing it. -/
def isPureMethod (name : String) : Bool :=
  ["get", "copy", "keys", "values", "items", "index", "count", "startswith", "endswith",
    "lower", "upper", "strip", "split", "join", "format"].contains name

inductive Builtin where
  | len
  | range
  | print
  | abs
  | min
  | max
  | int
  | bool
  | str
  | isinstance
deriving DecidableEq, Repr

namespace Builtin

def ofName? : String → Option Builtin
  | "len" => some .len
  | "range" => some .range
  | "print" => some .print
  | "abs" => some .abs
  | "min" => some .min
  | "max" => some .max
  | "int" => some .int
  | "bool" => some .bool
  | "str" => some .str
  | "isinstance" => some .isinstance
  | _ => none

def absolute (v : Value) : Value :=
  let r := v.range
  .intIn <|
    if .finite 0 ≤ r.lo then r
    else if r.hi ≤ .finite 0 then r.negate
    else .between (.finite 0) (r.lo.neg.upper r.hi)

/-- The interval of the extremum of two integers; `pick` chooses on each side. -/
def extremumRange (pick : Bound → Bound → Bound) (r s : Interval) : Interval :=
  .between (pick r.lo s.lo) (pick r.hi s.hi)

def extremum (pick : Bound → Bound → Bound) (args : List Value) : Value :=
  match args with
  | [] => .top
  | first :: rest =>
      if args.all Value.isNumeric then
        .intIn (rest.foldl (fun acc arg => extremumRange pick acc arg.range) first.range)
      else .top

/-- The result of a call; `length` is what is known about the length of the first argument. -/
def call (b : Builtin) (args : List Value) (length : Option Value) : Value :=
  match b with
  | .len => length.getD .nonNegative
  | .range | .str => .notNull
  | .print => .none
  | .abs =>
      match args with
      | v :: _ => if v.isNumeric then absolute v else .top
      | [] => .top
  | .min => extremum Bound.lower args
  | .max => extremum Bound.upper args
  | .int => .anyInt
  | .bool | .isinstance => .anyBool

/-- The values a loop over `range` of the given arguments binds; a step may walk down and leaves
the values unbounded. -/
def rangeElement (args : List Value) : Value :=
  match args with
  | [stop] =>
      if stop.isNumeric then .intIn (.between (.finite 0) stop.range.hi.pred)
      else .nonNegative
  | [start, stop] =>
      if start.isNumeric then
        .intIn (.between start.range.lo (if stop.isNumeric then stop.range.hi.pred else .posInf))
      else .anyInt
  | _ => .anyInt

end Builtin

end ValueFlow
