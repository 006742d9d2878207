import ValueFlow.Data.SortedMap
import ValueFlow.Data.SortedSet
import ValueFlow.Domain.DomainSet
import ValueFlow.Domain.Value
/-!
What is known about the variables at a point of a program.

There is one map for each value domain. A variable without an entry can have any value, and
`top` is never stored, so equal maps are maps with equal knowledge.
-/

namespace ValueFlow

/-- What one domain knows about the variables. -/
abbrev DomainMap (δ : Type) := SortedMap String δ

namespace DomainMap

open AbstractDomain

variable {δ : Type} [AbstractDomain δ] [DecidableEq δ]

omit [DecidableEq δ] in
def read (m : DomainMap δ) (x : String) : δ := m.getD x top

/-- Replaces what is known about a variable. -/
def write (m : DomainMap δ) (x : String) (d : δ) : DomainMap δ :=
  if isTop d then m.erase x else m.insert x d

/-- Combines what two maps both know; a variable unknown to one of them stays unknown. -/
def combine (op : δ → δ → δ) (m n : DomainMap δ) : DomainMap δ :=
  m.filterMap fun x a =>
    (n.get? x).bind fun b => if isTop (op a b) then none else some (op a b)

def join (m n : DomainMap δ) : DomainMap δ := combine AbstractDomain.join m n

def widen (m n : DomainMap δ) (iteration : Nat) : DomainMap δ :=
  combine (fun a b => AbstractDomain.widen a b iteration) m n

omit [DecidableEq δ] in
def meet (m n : DomainMap δ) : DomainMap δ := SortedMap.unionWith AbstractDomain.meet m n

omit [DecidableEq δ] in
def leq (m n : DomainMap δ) : Bool := n.all fun x b => AbstractDomain.leq (m.read x) b

omit [DecidableEq δ] in
/-- Whether some variable can have no value. -/
def hasBottom (m : DomainMap δ) : Bool := m.any fun _ d => isBottom d

end DomainMap

/-- What all domains know about the variables; in an unreachable state no value exists. -/
structure Environment where
  reachable : Bool
  sign : DomainMap Sign
  nullability : DomainMap Nullability
  range : DomainMap Interval
deriving DecidableEq

namespace Environment

def bottom : Environment := ⟨false, ∅, ∅, ∅⟩

def top : Environment := ⟨true, ∅, ∅, ∅⟩

instance : Inhabited Environment := ⟨top⟩

def get (e : Environment) (x : String) : Value :=
  if e.reachable then
    .make (DomainMap.read e.sign x) (DomainMap.read e.nullability x) (DomainMap.read e.range x)
  else .bottom

/-- Binds a variable in the enabled domains; a variable without a value makes the state
unreachable. -/
def set (e : Environment) (x : String) (v : Value) (domains : DomainSet) : Environment :=
  if !e.reachable then e
  else if v.isBottom then bottom
  else
    { e with
      sign := if domains.sign then DomainMap.write e.sign x v.sign else e.sign
      nullability :=
        if domains.nullability then DomainMap.write e.nullability x v.nullability
        else e.nullability
      range := if domains.range then DomainMap.write e.range x v.range else e.range }

/-- Narrows a variable to the values of a description. -/
def refine (e : Environment) (x : String) (v : Value) (domains : DomainSet) : Environment :=
  e.set x ((e.get x).meet v) domains

/-- Forgets what is known about a variable. -/
def forget (e : Environment) (x : String) : Environment :=
  { e with sign := e.sign.erase x, nullability := e.nullability.erase x, range := e.range.erase x }

def names (e : Environment) : List String :=
  (SortedSet.ofList (e.sign.keys ++ e.nullability.keys ++ e.range.keys)).toList

/-- Turns a state in which some variable has no value into the unreachable state. -/
def normalize (e : Environment) : Environment :=
  if !e.reachable || DomainMap.hasBottom e.sign || DomainMap.hasBottom e.nullability
      || DomainMap.hasBottom e.range then bottom
  else e

def join (e f : Environment) : Environment :=
  if !e.reachable then f
  else if !f.reachable then e
  else
    ⟨true, DomainMap.join e.sign f.sign, DomainMap.join e.nullability f.nullability,
      DomainMap.join e.range f.range⟩

def meet (e f : Environment) : Environment :=
  if !e.reachable || !f.reachable then bottom
  else
    normalize ⟨true, DomainMap.meet e.sign f.sign, DomainMap.meet e.nullability f.nullability,
      DomainMap.meet e.range f.range⟩

def leq (e f : Environment) : Bool :=
  !e.reachable || (f.reachable && DomainMap.leq e.sign f.sign
    && DomainMap.leq e.nullability f.nullability && DomainMap.leq e.range f.range)

def widen (e f : Environment) (iteration : Nat) : Environment :=
  if !e.reachable then f
  else if !f.reachable then e
  else
    ⟨true, DomainMap.widen e.sign f.sign iteration,
      DomainMap.widen e.nullability f.nullability iteration,
      DomainMap.widen e.range f.range iteration⟩

instance : AbstractDomain Environment where
  bottom := bottom
  top := top
  join := join
  meet := meet
  leq := leq
  widen := widen
  isBottom e := decide (e = bottom)

end Environment

end ValueFlow
