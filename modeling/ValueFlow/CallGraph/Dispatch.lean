import ValueFlow.CallGraph.Build
import ValueFlow.PointsTo.Graph
/-!
The targets of method calls, from the objects that their receivers may be.

A receiver of which nothing is known may be an instance of any class that defines the method.
-/

namespace ValueFlow

namespace CallGraph

def methodTargets (classes : ClassTable) (pointsTo : PointsTo) (method : String) (receiver : Nat) :
    SortedSet Nat :=
  if (pointsTo.ofNode receiver).isEmpty then classes.definitions method
  else classes.dispatch method ((pointsTo.kindsAt receiver).filterMap ObjectKind.class?)

/-- Gives every method call its final targets. -/
def refine (g : CallGraph) (classes : ClassTable) (pointsTo : PointsTo) : CallGraph :=
  g.sites.values.foldl (fun g site =>
    match site.kind with
    | .virtual method receiver =>
        g.resolve site.node (methodTargets classes pointsTo method receiver)
    | _ => g) g

end CallGraph

end ValueFlow
