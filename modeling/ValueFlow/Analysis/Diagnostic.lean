import ValueFlow.Data.SortKey
/-!
Findings of an analysis and their order.
-/

namespace ValueFlow

inductive Certainty where
  | definite
  | possible
deriving DecidableEq, Repr

/-- How much a finding matters, least first. -/
inductive Severity where
  | info
  | warning
  | error
deriving DecidableEq, Repr

namespace Severity

def rank : Severity → Nat
  | info => 0
  | warning => 1
  | error => 2

def worst? : List Severity → Option Severity
  | [] => none
  | s :: rest => some (rest.foldl (fun acc t => if acc.rank < t.rank then t else acc) s)

end Severity

inductive DiagnosticKind where
  /-- An access on a value that is always `None`. -/
  | definiteNullDeref
  /-- An access on a value that may be `None`. -/
  | possibleNullDeref
  /-- An index against a known length. -/
  | outOfBounds (certainty : Certainty)
  /-- A condition with a fixed outcome. -/
  | unreachableBranch
  /-- Results that were given up. -/
  | analysisDegraded
deriving DecidableEq, Repr

namespace DiagnosticKind

def rank : DiagnosticKind → Nat
  | definiteNullDeref => 0
  | possibleNullDeref => 1
  | outOfBounds .definite => 2
  | outOfBounds .possible => 3
  | unreachableBranch => 4
  | analysisDegraded => 5

def code : DiagnosticKind → String
  | definiteNullDeref => "DEFINITE_NULL_DEREF"
  | possibleNullDeref => "POSSIBLE_NULL_DEREF"
  | outOfBounds .definite => "OUT_OF_BOUNDS_DEFINITE"
  | outOfBounds .possible => "OUT_OF_BOUNDS_POSSIBLE"
  | unreachableBranch => "UNREACHABLE_BRANCH"
  | analysisDegraded => "ANALYSIS_DEGRADED"

def severity : DiagnosticKind → Severity
  | definiteNullDeref | outOfBounds .definite => .error
  | possibleNullDeref | outOfBounds .possible => .warning
  | unreachableBranch | analysisDegraded => .info

end DiagnosticKind

/-- A finding at a node of a function. -/
structure Diagnostic where
  kind : DiagnosticKind
  location : Nat
  function : String
  message : String
deriving DecidableEq, Repr

namespace Diagnostic

/-- An access on `None`; `access` names what is accessed. -/
def nullDeref (certainty : Certainty) (location : Nat) (function access : String) : Diagnostic :=
  match certainty with
  | .definite =>
      ⟨.definiteNullDeref, location, function,
        access ++ " accessed on a value that is always None"⟩
  | .possible =>
      ⟨.possibleNullDeref, location, function, access ++ " accessed on a value that may be None"⟩

/-- An index out of bounds; index and length are given as texts. -/
def outOfBounds (certainty : Certainty) (location : Nat) (function index length : String) :
    Diagnostic :=
  let verb :=
    match certainty with
    | .definite => "is"
    | .possible => "may be"
  ⟨.outOfBounds certainty, location, function,
    s!"index {index} {verb} out of bounds for length {length}"⟩

/-- A condition that always has the given outcome. -/
def unreachableBranch (location : Nat) (function : String) (outcome : Bool) : Diagnostic :=
  ⟨.unreachableBranch, location, function,
    if outcome then "condition is always true; the else branch is unreachable"
    else "condition is always false; the then branch is unreachable"⟩

/-- Results of a function that were given up for a reason. -/
def degraded (location : Nat) (function reason : String) : Diagnostic :=
  ⟨.analysisDegraded, location, function, s!"results for '{function}' forced to Top: {reason}"⟩

def severity (d : Diagnostic) : Severity := d.kind.severity

/-- What findings are ordered by: place, kind, function. -/
def sortKey (d : Diagnostic) : Nat × Nat × String := (d.location, d.kind.rank, d.function)

/-- Whether the first finding may stand in front of the second. -/
def ordered (d e : Diagnostic) : Bool := !SortKey.before e.sortKey d.sortKey

/-- Findings in order; those that the order does not tell apart stay as they were. -/
def sort (ds : List Diagnostic) : List Diagnostic := ds.mergeSort ordered

/-- Drops every element that a relation ties to the kept one before it. -/
def dropRepeats {α : Type} (same : α → α → Bool) : List α → List α
  | [] => []
  | a :: rest =>
      a :: (rest.foldl
        (fun (acc : α × List α) b => if same acc.1 b then acc else (b, b :: acc.2))
        (a, [])).2.reverse

/-- Keeps the first of neighbouring findings with one sort key. -/
def dedup (ds : List Diagnostic) : List Diagnostic :=
  dropRepeats (fun d e => decide (d.sortKey = e.sortKey)) ds

def render (d : Diagnostic) : String :=
  s!"[{d.kind.code}] {d.function} @{d.location}: {d.message}"

end Diagnostic

end ValueFlow
