import ValueFlow.Domain.AbstractDomain
/-!
Whether a value may be `None`.

`nullable` and `top` describe the same values; only `nullable` carries evidence that `None` can
occur, so only it gives rise to a possible finding.
-/

namespace ValueFlow

/-- What is known about a value being `None`. -/
inductive Nullability where
  | bottom
  | notNull
  | definitelyNull
  | nullable
  | top
deriving DecidableEq, Repr, Inhabited

namespace Nullability

def mayBeNull : Nullability → Bool
  | definitelyNull | nullable | top => true
  | bottom | notNull => false

def mayBeNonNull : Nullability → Bool
  | notNull | nullable | top => true
  | bottom | definitelyNull => false

def join : Nullability → Nullability → Nullability
  | bottom, b => b
  | a, bottom => a
  | top, _ => top
  | _, top => top
  | a, b => if a = b then a else nullable

def meet : Nullability → Nullability → Nullability
  | top, b => b
  | a, top => a
  | nullable, b => b
  | a, nullable => a
  | a, b => if a = b then a else bottom

def leq (a b : Nullability) : Bool := decide (a.join b = b)

instance : AbstractDomain Nullability where
  bottom := .bottom
  top := .top
  join := join
  meet := meet
  leq := leq
  widen a b _ := join a b
  isBottom a := decide (a = .bottom)

def render : Nullability → String
  | bottom => "⊥"
  | notNull => "not-null"
  | definitelyNull => "null"
  | nullable => "nullable"
  | top => "⊤"

end Nullability

end ValueFlow
