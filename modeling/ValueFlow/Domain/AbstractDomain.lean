/-!
The operations every abstract domain offers.
-/

namespace ValueFlow

/-- A bounded lattice of descriptions with a widening operator. -/
class AbstractDomain (α : Type) where
  /-- Describes nothing. -/
  bottom : α
  /-- Describes everything. -/
  top : α
  join : α → α → α
  meet : α → α → α
  leq : α → α → Bool
  /-- An upper bound whose repeated use stabilizes; the number is that of the current iteration. -/
  widen : α → α → Nat → α
  /-- Whether a description is read as describing nothing. -/
  isBottom : α → Bool

namespace AbstractDomain

variable {α : Type} [AbstractDomain α]

/-- The join of a list, least description first. -/
def joinAll (values : List α) : α := values.foldl join bottom

def isTop [DecidableEq α] (a : α) : Bool := decide (a = top)

end AbstractDomain

end ValueFlow
