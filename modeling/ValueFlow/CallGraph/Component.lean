import ValueFlow.CallGraph.Basic
import ValueFlow.Data.Search
/-!
The strongly connected components of a call graph, callees before callers.

Two functions share a component when each can be reached from the other. One depth-first search
over all functions fixes the order: it tries functions in ascending order and the callees of a
function in descending order, and a component stands where the last of its members was left.
-/

namespace ValueFlow

/-- Functions that call each other, directly or through others. -/
structure Component where
  /-- The functions in ascending order. -/
  members : List Nat
  /-- Whether a member can call itself, directly or through others. -/
  recursive : Bool
  /-- Zero if no other component is called, else one more than the highest one called. -/
  level : Nat
deriving DecidableEq

namespace CallGraph

/-- The callees of a function in descending order. -/
def successors (g : CallGraph) (function : Nat) : List Nat := (g.callees function).toList.reverse

/-- The functions that calls from a function may reach, itself included. -/
def reachable (g : CallGraph) (function : Nat) : List Nat :=
  (Search.visitAll g.successors g.functions.size [function]).entered

/-- The functions that share a component with a function, given what each function reaches. -/
def classOf (reach : Array (List Nat)) (function : Nat) : List Nat :=
  (List.range reach.size).filter fun other =>
    (reach.getD function []).contains other && (reach.getD other []).contains function

/-- The members of the components, callees before callers. -/
def classes (g : CallGraph) : List (List Nat) :=
  let functions := List.range g.functions.size
  let reach := (functions.map g.reachable).toArray
  let left := (Search.visitAll g.successors g.functions.size functions).left
  (left.map (classOf reach)).eraseDups.reverse

/-- The component of some members, given the components below it. -/
def componentOf (edges : List (Nat × Nat)) (below : List Component) (members : List Nat) :
    Component :=
  let outgoing := edges.filter fun e => members.contains e.1
  let levels := outgoing.filterMap fun e =>
    if members.contains e.2 then none
    else (below.find? fun c => c.members.contains e.2).map fun c => c.level + 1
  { members
    recursive := decide (1 < members.length) || outgoing.any fun e => e.1 = e.2
    level := levels.foldl max 0 }

/-- The components of a call graph, callees before callers. -/
def components (g : CallGraph) : List Component :=
  g.classes.foldl (fun below members => below ++ [componentOf g.edges.toList below members]) []

end CallGraph

namespace Component

def indexOf (components : List Component) (function : Nat) : Nat :=
  (components.findIdx? fun c => c.members.contains function).getD 0

def isRecursive (components : List Component) (function : Nat) : Bool :=
  components.any fun c => c.members.contains function && c.recursive

/-- The positions of the components of each level, lowest level first. -/
def levels (components : List Component) : List (List Nat) :=
  let depth := (components.map fun c => c.level + 1).foldl max 0
  (List.range depth).map fun level =>
    (components.zipIdx.filter fun p => p.1.level = level).map Prod.snd

end Component

end ValueFlow
