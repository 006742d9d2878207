import ValueFlow.Data.SortKey
/-!
Inclusion constraints between the sets of objects that variables may refer to.
-/

namespace ValueFlow

/-- A place that may refer to objects, in one calling context. -/
inductive PointerVar where
  /-- A variable or parameter of a function. -/
  | named (function context : Nat) (name : String)
  | value (node context : Nat)
  | result (function context : Nat)
deriving DecidableEq

namespace PointerVar

/-- The place in the order of variables. -/
def rank : PointerVar → Nat × Nat × Nat × String
  | named function context name => (0, function, context, name)
  | value node context => (1, node, context, "")
  | result function context => (2, function, context, "")

theorem rank_injective {v w : PointerVar} (h : v.rank = w.rank) : v = w := by
  cases v <;> cases w <;> simp_all [rank]

instance : SortKey PointerVar where
  before v w := SortKey.before v.rank w.rank
  before_irrefl v := SortKey.before_irrefl v.rank
  before_trans v w x := SortKey.before_trans v.rank w.rank x.rank
  before_connected v w hvw hwv := rank_injective (SortKey.before_connected v.rank w.rank hvw hwv)

end PointerVar

/-- A field through which objects refer to objects. -/
inductive PointerField where
  | attr (name : String)
  /-- All elements of a container together. -/
  | elements
deriving DecidableEq

namespace PointerField

/-- No field comes before this one. -/
def first : PointerField := .attr ""

/-- The place in the order of fields: attributes by name, then the elements. -/
def rank : PointerField → Nat × String
  | attr name => (0, name)
  | elements => (1, "")

theorem rank_injective {f g : PointerField} (h : f.rank = g.rank) : f = g := by
  cases f <;> cases g <;> simp_all [rank]

instance : SortKey PointerField where
  before f g := SortKey.before f.rank g.rank
  before_irrefl f := SortKey.before_irrefl f.rank
  before_trans f g h := SortKey.before_trans f.rank g.rank h.rank
  before_connected f g hfg hgf := rank_injective (SortKey.before_connected f.rank g.rank hfg hgf)

def render : PointerField → String
  | attr name => "." ++ name
  | elements => "[*]"

end PointerField

/-- How a call finds the functions it runs. -/
inductive CallTarget where
  /-- Known functions; arguments go to the parameters from the first. -/
  | static (functions : List Nat)
  /-- A new object, which is the receiver of the constructor if there is one. -/
  | construct (object : Nat) (constructor : Option Nat)
  /-- The method of each object that the receiver may be. -/
  | dispatch (method : String) (receiver : PointerVar)
deriving DecidableEq

/-- A call in a calling context. -/
structure PointerCall where
  /-- The identifier of the call expression. -/
  site : Nat
  caller : Nat
  context : Nat
  target : CallTarget
  args : List PointerVar
  result : PointerVar
deriving DecidableEq

/-- A constraint on what variables and fields may refer to. -/
inductive Constraint where
  /-- The variable may be the object. -/
  | alloc (object : Nat) (dest : PointerVar)
  /-- The second variable may be whatever the first may be. -/
  | copy (source dest : PointerVar)
  /-- The variable may be whatever the field of the base may be. -/
  | load (base : PointerVar) (field : PointerField) (dest : PointerVar)
  /-- The field of the base may be whatever the variable may be. -/
  | store (base : PointerVar) (field : PointerField) (source : PointerVar)
  | call (call : PointerCall)
deriving DecidableEq

end ValueFlow
