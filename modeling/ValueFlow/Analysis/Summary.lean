import ValueFlow.Analysis.Diagnostic
import ValueFlow.Heap.Effects
/-!
Summaries of functions.

The return value and the effects are what callers consult; they are found from callees to callers
with unknown parameters. The rest is found from callers to callees.
-/

namespace ValueFlow

/-- What is known about a function. -/
structure FunctionSummary where
  function : String
  params : List String
  /-- The parameters, joined over all calls. -/
  input : SortedMap String Value
  returnValue : Value
  effects : HeapEffects
  /-- The names of the functions that each call may reach. -/
  callTargets : SortedMap Nat (SortedSet String)
  /-- The variables known at the exit. -/
  exitState : SortedMap String Value
  diagnostics : List Diagnostic
  degraded : Bool
  /-- How many rounds the group of the function took. -/
  rounds : Nat
deriving DecidableEq

namespace FunctionSummary

/-- The summary of a function that never returns and does nothing. -/
def initial (function : String) (params : List String) : FunctionSummary :=
  { function, params, input := ∅, returnValue := .bottom, effects := .none, callTargets := ∅,
    exitState := ∅, diagnostics := [], degraded := false, rounds := 0 }

/-- Whether callers see no difference. -/
def sameInterface (s t : FunctionSummary) : Bool :=
  decide (s.returnValue = t.returnValue) && decide (s.effects = t.effects)

/-- Widens what callers see; the rest is that of the newer summary. -/
def widen (s t : FunctionSummary) (iteration : Nat) : FunctionSummary :=
  { t with
    returnValue := AbstractDomain.widen s.returnValue t.returnValue iteration
    effects := s.effects.widen t.effects iteration }

/-- Gives up precision: any value may be returned, and the effects are the given ones. -/
def degrade (s : FunctionSummary) (effects : HeapEffects) : FunctionSummary :=
  { s with returnValue := .top, effects, exitState := ∅, degraded := true }

def returnsNone (s : FunctionSummary) : Bool :=
  decide (s.returnValue.nullability = .definitelyNull)

end FunctionSummary

end ValueFlow
