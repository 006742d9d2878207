import ValueFlow.CallGraph.Basic
import ValueFlow.Program.ClassTable
/-!
The call graph that a program shows without knowledge of its values.

A name calls the class of that name or else the function of that name. An attribute of a class
name calls the nearest method of the class. Every other attribute is a method of an unknown
receiver, whose targets are left open.
-/

namespace ValueFlow

namespace CallGraph

/-- How a callee expression is called, and the targets that are known from it. -/
def classify (ix : ProgramIndex) (classes : ClassTable) : Expr → CallKind × Option Nat
  | .name _ n =>
      if classes.contains n then (.construct n, classes.constructor? n)
      else
        match ix.freeFunction? n with
        | some target => (.direct, some target)
        | none => (.unknown (some n), none)
  | .attr _ value method =>
      match value.name?.filter classes.contains with
      | some c =>
          match classes.lookup? c method with
          | some target => (.direct, some target)
          | none => (.unknown (some (c ++ "." ++ method)), none)
      | none => (.virtual method value.id, none)
  | _ => (.unknown none, none)

def isOpen : CallKind → Bool
  | .virtual _ _ => true
  | _ => false

def siteOf (ix : ProgramIndex) (classes : ClassTable) (caller node : Nat) (func : Expr) :
    CallSite :=
  let (kind, target) := classify ix classes func
  { node, caller, kind, targets := .ofList target.toList, resolved := !isOpen kind }

/-- The call sites of a function in source order. -/
def sitesOf (ix : ProgramIndex) (classes : ClassTable) (caller : Nat) (f : FunctionInfo) :
    List CallSite :=
  (walkExprs f.body).filterMap fun
    | (_, .call node func _) => some (siteOf ix classes caller node func)
    | _ => none

def build (ix : ProgramIndex) (classes : ClassTable) : CallGraph :=
  let sites := ix.functions.toList.zipIdx.flatMap fun p => sitesOf ix classes p.2 p.1
  sites.foldl addSite (ofFunctions (ix.functions.toList.map FunctionInfo.name))

end CallGraph

end ValueFlow
