import ValueFlow.Data.SortedMap
import ValueFlow.Data.SortedSet
/-!
Call graphs: the functions of a program and its call sites.

A site is found by the identifier of its call expression; of two sites with one identifier the
later counts.
-/

namespace ValueFlow

/-- How a call names what it calls. -/
inductive CallKind where
  | direct
  /-- A class of the program; the call runs its constructor. -/
  | construct (className : String)
  /-- A method of whatever the receiver is. -/
  | virtual (method : String) (receiver : Nat)
  /-- Anything else, with the name of the callee if it has one. -/
  | unknown (callee : Option String)
deriving DecidableEq

/-- A call expression with the functions it may run. -/
structure CallSite where
  node : Nat
  caller : Nat
  kind : CallKind
  targets : SortedSet Nat
  resolved : Bool

/-- The functions of a program by number, and its call sites. -/
structure CallGraph where
  functions : Array String
  sites : SortedMap Nat CallSite

namespace CallGraph

def ofFunctions (names : List String) : CallGraph := ⟨names.toArray, ∅⟩

def name (g : CallGraph) (function : Nat) : String := g.functions.getD function "<unknown>"

def addSite (g : CallGraph) (site : CallSite) : CallGraph :=
  { g with sites := g.sites.insert site.node site }

def site? (g : CallGraph) (node : Nat) : Option CallSite := g.sites.get? node

def targets? (g : CallGraph) (node : Nat) : Option (SortedSet Nat) :=
  (g.site? node).map CallSite.targets

/-- Gives a call site its final targets. -/
def resolve (g : CallGraph) (node : Nat) (targets : SortedSet Nat) : CallGraph :=
  { g with sites := g.sites.alter node (Option.map ({ · with targets, resolved := true })) }

def callees (g : CallGraph) (caller : Nat) : SortedSet Nat :=
  g.sites.values.foldl (fun acc s => if s.caller = caller then acc.union s.targets else acc) ∅

def callers (g : CallGraph) (callee : Nat) : SortedSet Nat :=
  .ofList ((g.sites.values.filter fun s => s.targets.contains callee).map CallSite.caller)

def edges (g : CallGraph) : SortedSet (Nat × Nat) :=
  .ofList (g.sites.values.flatMap fun s => s.targets.toList.map (s.caller, ·))

end CallGraph

end ValueFlow
