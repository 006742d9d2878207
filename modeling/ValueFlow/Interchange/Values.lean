import ValueFlow.Domain.IndexCheck
import ValueFlow.Interchange.Json
/-!
Documents of signs, nullabilities, intervals and values.
-/

namespace ValueFlow

namespace Sign

def toJson : Sign → Json
  | bottom => "Bottom"
  | negative => "Negative"
  | zero => "Zero"
  | positive => "Positive"
  | nonNegative => "NonNegative"
  | nonPositive => "NonPositive"
  | top => "Top"

def ofJson? (j : Json) : Option Sign := do
  match ← j.case? with
  | "Bottom" => some .bottom
  | "Negative" => some .negative
  | "Zero" => some .zero
  | "Positive" => some .positive
  | "NonNegative" => some .nonNegative
  | "NonPositive" => some .nonPositive
  | "Top" => some .top
  | _ => none

end Sign

namespace Nullability

def toJson : Nullability → Json
  | bottom => "Bottom"
  | notNull => "NotNull"
  | definitelyNull => "DefinitelyNull"
  | nullable => "Nullable"
  | top => "Top"

def ofJson? (j : Json) : Option Nullability := do
  match ← j.case? with
  | "Bottom" => some .bottom
  | "NotNull" => some .notNull
  | "DefinitelyNull" => some .definitelyNull
  | "Nullable" => some .nullable
  | "Top" => some .top
  | _ => none

end Nullability

namespace Bound

def toJson : Bound → Json
  | negInf => "NegInf"
  | finite n => .obj [("Finite", n)]
  | posInf => "PosInf"

def ofJson? (j : Json) : Option Bound :=
  match j.case?, j.onlyField? with
  | some "NegInf", _ => some .negInf
  | some "PosInf", _ => some .posInf
  | _, some ("Finite", n) => n.int64?.map .finite
  | _, _ => none

end Bound

namespace Interval

def toJson (r : Interval) : Json := .obj [("lo", r.lo.toJson), ("hi", r.hi.toJson)]

def ofJson? (j : Json) : Option Interval := do
  some ⟨← j.get? Bound.ofJson? "lo", ← j.get? Bound.ofJson? "hi"⟩

end Interval

namespace Value

def toJson (v : Value) : Json :=
  .obj [("sign", v.sign.toJson), ("nullability", v.nullability.toJson), ("range", v.range.toJson)]

def ofJson? (j : Json) : Option Value := do
  some ⟨← j.get? Sign.ofJson? "sign", ← j.get? Nullability.ofJson? "nullability",
    ← j.get? Interval.ofJson? "range"⟩

end Value

namespace IndexCheck

def toJson : IndexCheck → Json
  | inBounds => "InBounds"
  | possible => "Possible"
  | definite => "Definite"

end IndexCheck

end ValueFlow
