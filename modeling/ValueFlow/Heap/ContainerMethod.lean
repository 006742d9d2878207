import ValueFlow.Domain.Value
/-!
Container methods that change their receiver in place.
-/

namespace ValueFlow

/-- A method known to mutate its receiver. -/
inductive ContainerMethod where
  | append
  | extend
  | insert
  | pop
  | remove
  | clear
  | update
  | setdefault
  | sort
  | reverse
  | add
  | discard
deriving DecidableEq, Repr

namespace ContainerMethod

def ofName? : String → Option ContainerMethod
  | "append" => some .append
  | "extend" => some .extend
  | "insert" => some .insert
  | "pop" => some .pop
  | "remove" => some .remove
  | "clear" => some .clear
  | "update" => some .update
  | "setdefault" => some .setdefault
  | "sort" => some .sort
  | "reverse" => some .reverse
  | "add" => some .add
  | "discard" => some .discard
  | _ => none

def isMutating (name : String) : Bool := (ofName? name).isSome

/-- The length after a call, from the length before it; `none` when the length stays. -/
def newLength (m : ContainerMethod) (old : Value) : Option Value :=
  match m with
  | append | insert => some (.binary .add old (.constant 1))
  | add | setdefault => some (.binary .add old (.intIn (.finite 0 1)))
  | extend | update => some (.binary .add old .nonNegative)
  | pop | remove => some (.binary .sub old (.constant 1))
  | discard => some (.binary .sub old (.intIn (.finite 0 1)))
  | clear => some (.constant 0)
  | sort | reverse => none

/-- A length computed by a method, kept to the numbers a length can be. -/
def asLength (v : Value) : Value :=
  let met := v.meet .nonNegative
  if v.isNumeric && !met.isBottom then met else .nonNegative

/-- The value a call stores among the elements. -/
def stored? (m : ContainerMethod) (args : List Value) : Option Value :=
  match m with
  | append | add => args[0]?
  | insert | setdefault => args[1]?
  | clear => some .top
  | _ => none

end ContainerMethod

end ValueFlow
