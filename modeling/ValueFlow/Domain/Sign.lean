import ValueFlow.Domain.AbstractDomain
/-!
Signs of integers.

An element is a set of the three atomic signs; the set of negative and positive numbers without
zero is not an element and closes to `top`. Arithmetic is computed atom by atom and joined.
-/

namespace ValueFlow

/-- What is known about the sign of an integer. -/
inductive Sign where
  | bottom
  | negative
  | zero
  | positive
  | nonNegative
  | nonPositive
  | top
deriving DecidableEq, Repr, Inhabited

namespace Sign

/-- One of the three atomic signs. -/
inductive Atom where
  | neg
  | zero
  | pos
deriving DecidableEq, Repr

/-- The atomic signs an element admits, from negative to positive. -/
def atoms : Sign → List Atom
  | bottom => []
  | negative => [.neg]
  | zero => [.zero]
  | positive => [.pos]
  | nonNegative => [.zero, .pos]
  | nonPositive => [.neg, .zero]
  | top => [.neg, .zero, .pos]

def admits (s : Sign) (a : Atom) : Bool := s.atoms.contains a

/-- The least element that admits the chosen atomic signs. -/
def ofAtoms (neg zero pos : Bool) : Sign :=
  match neg, zero, pos with
  | false, false, false => .bottom
  | true, false, false => .negative
  | false, true, false => .zero
  | false, false, true => .positive
  | false, true, true => .nonNegative
  | true, true, false => .nonPositive
  | true, _, true => .top

def ofAtom : Atom → Sign
  | .neg => .negative
  | .zero => .zero
  | .pos => .positive

def join (a b : Sign) : Sign :=
  ofAtoms (a.admits .neg || b.admits .neg) (a.admits .zero || b.admits .zero)
    (a.admits .pos || b.admits .pos)

def meet (a b : Sign) : Sign :=
  ofAtoms (a.admits .neg && b.admits .neg) (a.admits .zero && b.admits .zero)
    (a.admits .pos && b.admits .pos)

def leq (a b : Sign) : Bool := a.atoms.all b.admits

instance : AbstractDomain Sign where
  bottom := .bottom
  top := .top
  join := join
  meet := meet
  leq := leq
  widen a b _ := join a b
  isBottom a := decide (a = .bottom)

def Atom.of (n : Int64) : Atom :=
  if n < 0 then .neg else if n = 0 then .zero else .pos

def of (n : Int64) : Sign := ofAtom (Atom.of n)

def contains (s : Sign) (n : Int64) : Bool := s.admits (Atom.of n)

def mayBeZero (s : Sign) : Bool := s.admits .zero

/-- Extends an operation on atomic signs to all elements. -/
def lift (op : Atom → Atom → Sign) (a b : Sign) : Sign :=
  AbstractDomain.joinAll (a.atoms.flatMap fun x => b.atoms.map (op x))

def add : Sign → Sign → Sign :=
  lift fun
    | .zero, y => ofAtom y
    | x, .zero => ofAtom x
    | .neg, .neg => .negative
    | .pos, .pos => .positive
    | _, _ => .top

def negate (a : Sign) : Sign := ofAtoms (a.admits .pos) (a.admits .zero) (a.admits .neg)

def sub (a b : Sign) : Sign := a.add b.negate

def mul : Sign → Sign → Sign :=
  lift fun
    | .zero, _ => .zero
    | _, .zero => .zero
    | x, y => if x = y then .positive else .negative

/-- The sign of a quotient rounded down; nothing is known when the divisor may be zero. -/
def floorDiv (a b : Sign) : Sign :=
  if a = .bottom ∨ b = .bottom then .bottom
  else if b.mayBeZero then .top
  else lift
    (fun
      | .zero, _ => .zero
      | x, y => if x = y then .nonNegative else .negative) a b

/-- The sign of a remainder, which is zero or follows the divisor. -/
def modulo (a b : Sign) : Sign :=
  if a = .bottom ∨ b = .bottom then .bottom
  else if b.mayBeZero then .top
  else lift
    (fun
      | .zero, _ => .zero
      | _, y => Sign.join .zero (ofAtom y)) a b

def render : Sign → String
  | bottom => "⊥"
  | negative => "-"
  | zero => "0"
  | positive => "+"
  | nonNegative => "0+"
  | nonPositive => "0-"
  | top => "⊤"

end Sign

end ValueFlow
