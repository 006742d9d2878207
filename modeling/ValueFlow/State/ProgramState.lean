import ValueFlow.Heap.State
import ValueFlow.State.Environment
/-!
What is known at a point of a program: about its variables and about the heap.
-/

namespace ValueFlow

/-- The variable that holds what a function returns. -/
def returnSlot : String := "<return>"

/-- The state at a point of a program. -/
structure ProgramState where
  env : Environment
  heap : Heap
deriving DecidableEq

namespace ProgramState

def bottom : ProgramState := ⟨.bottom, .bottom⟩

def top : ProgramState := ⟨.top, .top⟩

instance : Inhabited ProgramState := ⟨top⟩

def isReachable (s : ProgramState) : Bool := s.env.reachable && s.heap.reachable

/-- Turns a state with an unreachable half into the unreachable state. -/
def normalize (s : ProgramState) : ProgramState := if s.isReachable then s else bottom

def make (env : Environment) (heap : Heap) : ProgramState := normalize ⟨env, heap⟩

def join (s t : ProgramState) : ProgramState :=
  if !s.isReachable then t.normalize
  else if !t.isReachable then s
  else ⟨s.env.join t.env, s.heap.join t.heap⟩

def meet (s t : ProgramState) : ProgramState := make (s.env.meet t.env) (s.heap.meet t.heap)

def leq (s t : ProgramState) : Bool :=
  !s.isReachable || (t.isReachable && s.env.leq t.env && s.heap.leq t.heap)

def widen (s t : ProgramState) (iteration : Nat) : ProgramState :=
  if !s.isReachable then t.normalize
  else if !t.isReachable then s
  else ⟨s.env.widen t.env iteration, s.heap.widen t.heap iteration⟩

instance : AbstractDomain ProgramState where
  bottom := bottom
  top := top
  join := join
  meet := meet
  leq := leq
  widen := widen
  isBottom s := !s.isReachable

end ProgramState

end ValueFlow
