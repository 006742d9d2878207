import ValueFlow.Program.Operator
/-!
Abstract heap objects: one object stands for all that an allocating expression creates in one
calling context.
-/

namespace ValueFlow

inductive ObjectKind where
  /-- An instance of a class of the program. -/
  | ofClass (className : String)
  | collection (kind : CollectionKind)
deriving DecidableEq

namespace ObjectKind

def typeName : ObjectKind → String
  | ofClass className => className
  | collection kind => kind.typeName

/-- The class that methods are looked up in. -/
def class? : ObjectKind → Option String
  | ofClass className => some className
  | collection _ => none

/-- Whether the length bounds the valid subscripts. -/
def isSequence : ObjectKind → Bool
  | collection .list | collection .tuple => true
  | _ => false

end ObjectKind

structure HeapObject where
  id : Nat
  /-- The identifier of the allocating expression. -/
  site : Nat
  context : Nat
  /-- The function that holds the expression. -/
  function : Nat
  kind : ObjectKind
deriving DecidableEq

namespace HeapObject

def render (o : HeapObject) : String := s!"{o.kind.typeName}@{o.site}:ctx{o.context}"

def renderId (object : Nat) : String := s!"o{object}"

end HeapObject

end ValueFlow
