/-!
Operators of the analysed language.
-/

namespace ValueFlow

inductive BinOp where
  | add
  | sub
  | mul
  | floorDiv
  | mod
  | bitAnd
  | bitOr
  | bitXor
deriving DecidableEq, Repr

inductive BoolOp where
  | and
  | or
deriving DecidableEq, Repr

inductive UnaryOp where
  | not
  | neg
  | pos
deriving DecidableEq, Repr

inductive CompOp where
  | eq
  | notEq
  | lt
  | ltE
  | gt
  | gtE
  | is
  | isNot
deriving DecidableEq, Repr

namespace CompOp

/-- The operator that holds exactly when this one does not. -/
def negate : CompOp → CompOp
  | eq => notEq
  | notEq => eq
  | lt => gtE
  | ltE => gt
  | gt => ltE
  | gtE => lt
  | is => isNot
  | isNot => is

/-- The operator for swapped operands. -/
def flip : CompOp → CompOp
  | lt => gt
  | ltE => gtE
  | gt => lt
  | gtE => ltE
  | op => op

end CompOp

inductive CollectionKind where
  | list
  | tuple
  | set
  | dict
deriving DecidableEq, Repr

namespace CollectionKind

def typeName : CollectionKind → String
  | list => "list"
  | tuple => "tuple"
  | set => "set"
  | dict => "dict"

end CollectionKind

end ValueFlow
