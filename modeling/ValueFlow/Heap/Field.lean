import ValueFlow.Data.SortKey
import ValueFlow.Domain.Value
/-!
Fields of heap objects and what they hold.
-/

namespace ValueFlow

/-- A field of a heap object. -/
inductive HeapField where
  | attr (name : String)
  /-- All elements of a container together. -/
  | elements
  /-- The number of elements of a container. -/
  | length
  /-- Set once a method changed the object in place. -/
  | mutationMarker
deriving DecidableEq, Repr

namespace HeapField

/-- The place in the order of fields: attributes by name, then the others. -/
def rank : HeapField → Nat × String
  | attr name => (0, name)
  | elements => (1, "")
  | length => (2, "")
  | mutationMarker => (3, "")

theorem rank_injective {f g : HeapField} (h : f.rank = g.rank) : f = g := by
  cases f <;> cases g <;> simp_all [rank]

instance : SortKey HeapField where
  before f g := SortKey.before f.rank g.rank
  before_irrefl f := SortKey.before_irrefl f.rank
  before_trans f g h := SortKey.before_trans f.rank g.rank h.rank
  before_connected f g hfg hgf := rank_injective (SortKey.before_connected f.rank g.rank hfg hgf)

def render : HeapField → String
  | attr name => "." ++ name
  | elements => "[*]"
  | length => "<len>"
  | mutationMarker => "<mutated>"

end HeapField

abbrev FieldKey := Nat × HeapField

inductive HeapValue where
  | null
  | primitive (value : Value)
  | reference (object : Nat)
  /-- The merge of different contents. -/
  | merged (value : Value)
deriving DecidableEq, Repr

namespace HeapValue

/-- The contents for a value; the object it refers to is kept if it is known and the value is
neither `None` nor a number. -/
def ofValue (value : Value) (referent : Option Nat) : HeapValue :=
  match value.nullability, referent with
  | .definitelyNull, _ => .null
  | .notNull, some object => if value.isNumeric then .primitive value else .reference object
  | _, _ => .primitive value

def abstraction : HeapValue → Value
  | null => .none
  | reference _ => .notNull
  | primitive v | merged v => v

/-- Merges contents through their values unless they are equal. -/
def mergeBy (op : Value → Value → Value) (a b : HeapValue) : HeapValue :=
  if a = b then a else .merged (op a.abstraction b.abstraction)

def join (a b : HeapValue) : HeapValue := mergeBy Value.join a b

def widen (a b : HeapValue) (iteration : Nat) : HeapValue :=
  mergeBy (fun v w => AbstractDomain.widen v w iteration) a b

def leq (a b : HeapValue) : Bool := decide (a = b) || a.abstraction.leq b.abstraction

end HeapValue

/-- What is known about a field of an object. -/
inductive Slot where
  /-- Never written since the object was created. -/
  | unset
  | unknown
  | holds (value : HeapValue)
deriving DecidableEq, Repr

namespace Slot

/-- Merges two slots, combining what both hold. -/
def mergeBy (op : HeapValue → HeapValue → HeapValue) : Slot → Slot → Slot
  | unset, s => s
  | s, unset => s
  | unknown, _ => unknown
  | _, unknown => unknown
  | holds a, holds b => holds (op a b)

def leq : Slot → Slot → Bool
  | unset, _ => true
  | _, unknown => true
  | unknown, _ => false
  | holds _, unset => false
  | holds a, holds b => a.leq b

def value? : Slot → Option HeapValue
  | holds v => some v
  | _ => none

end Slot

end ValueFlow
