/-!
Bodies that have no flow graph.
-/

namespace ValueFlow

/-- What is wrong with a statement. -/
inductive Misplaced where
  | breakOutsideLoop
  | continueOutsideLoop
  | returnOutsideFunction
  | returnInClass (className : String)
deriving DecidableEq, Repr

namespace Misplaced

def message : Misplaced → String
  | breakOutsideLoop => "'break' outside loop"
  | continueOutsideLoop => "'continue' not properly in loop"
  | returnOutsideFunction => "'return' outside function"
  | returnInClass className => s!"'return' in body of class '{className}'"

end Misplaced

/-- A misplaced statement of a function. -/
structure MalformedBody where
  function : String
  node : Nat
  cause : Misplaced
deriving DecidableEq, Repr

namespace MalformedBody

def message (m : MalformedBody) : String :=
  s!"Malformed input in '{m.function}' at node {m.node}: {m.cause.message}"

end MalformedBody

end ValueFlow
