import ValueFlow.Domain.Value
/-!
Checking an index against the length of a container.
-/

namespace ValueFlow

inductive IndexCheck where
  /-- Every pair of length and index is in range, or too little is known for a finding. -/
  | inBounds
  /-- Some pair is out of range. -/
  | possible
  /-- Every pair is out of range. -/
  | definite
deriving DecidableEq, Repr

namespace IndexCheck

/-- Checks an index, where negative indices count from the end. Only a length with a finite upper
bound and an index with some finite bound give a finding. -/
def check (length index : Value) : IndexCheck :=
  if length.isBottom || index.isBottom || !length.isNumeric || !index.isNumeric then .inBounds
  else
    let n := length.range
    let i := index.range
    if !n.hi.isFinite || (!i.lo.isFinite && !i.hi.isFinite) then .inBounds
    else if n.hi ≤ i.lo ∨ i.hi < n.hi.neg then .definite
    else if n.lo ≤ i.hi ∨ i.lo < n.lo.neg then .possible
    else .inBounds

end IndexCheck

end ValueFlow
