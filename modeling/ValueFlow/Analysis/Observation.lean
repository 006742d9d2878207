import ValueFlow.Analysis.Diagnostic
import ValueFlow.Heap.State
/-!
What a pass over a function sees: findings, and the inputs and targets of calls.
-/

namespace ValueFlow

/-- The arguments and the heap that reach a function, joined over its calls. -/
structure CallInput where
  /-- One value for each parameter. -/
  args : List Value
  heap : Heap
deriving DecidableEq

namespace CallInput

def join (a b : CallInput) : CallInput :=
  ⟨List.zipWith Value.join a.args b.args, a.heap.join b.heap⟩

end CallInput

abbrev CallInputs := SortedMap Nat CallInput

namespace CallInputs

def record (m : CallInputs) (function : Nat) (input : CallInput) : CallInputs :=
  m.insertWith CallInput.join function input

def merge (m n : CallInputs) : CallInputs := m.unionWith CallInput.join n

end CallInputs

/-- What a pass over a function has seen. -/
structure Observations where
  /-- Findings, latest first. -/
  diagnostics : List Diagnostic
  calls : CallInputs
  /-- The names of the functions that each call may reach. -/
  callTargets : SortedMap Nat (SortedSet String)
deriving DecidableEq

namespace Observations

def empty : Observations := ⟨[], ∅, ∅⟩

def report (o : Observations) (d : Diagnostic) : Observations :=
  { o with diagnostics := d :: o.diagnostics }

/-- The findings in the order in which they were made. -/
def findings (o : Observations) : List Diagnostic := o.diagnostics.reverse

end Observations

end ValueFlow
