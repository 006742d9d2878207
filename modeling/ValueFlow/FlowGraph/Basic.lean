import ValueFlow.Data.SortedSet
import ValueFlow.Program.Tree
/-!
Flow graphs of function bodies.
-/

namespace ValueFlow

/-- How control gets from one block to another. -/
inductive EdgeKind where
  | sequential
  | trueBranch
  | falseBranch
  | loopBack
  | breakOut
  | returnOut
deriving DecidableEq, Repr

namespace EdgeKind

def code : EdgeKind → String
  | sequential => "SEQUENTIAL"
  | trueBranch => "TRUE"
  | falseBranch => "FALSE"
  | loopBack => "LOOP_BACK"
  | breakOut => "BREAK"
  | returnOut => "RETURN"

/-- The outcome of the condition for which an edge is taken. -/
def outcome? : EdgeKind → Option Bool
  | trueBranch => some true
  | falseBranch => some false
  | _ => none

end EdgeKind

inductive BlockKind where
  | entry
  | exit
  | statement
  | loopHeader
  | join
deriving DecidableEq, Repr

/-- An edge between two numbered blocks. -/
structure Edge where
  source : Nat
  target : Nat
  kind : EdgeKind
deriving DecidableEq, Repr

/-- A unit of work inside a block. -/
inductive BlockItem where
  /-- A statement without control flow of its own. -/
  | statement (s : Stmt)
  /-- A branch condition, the last item of its block. -/
  | condition (e : Expr)
  /-- An expression evaluated for its effects, the iterable of a `for` loop. -/
  | evaluate (e : Expr)
  /-- The binding of the target of a `for` loop, the first item of the loop's body. -/
  | bind (node : Nat) (target : String) (iter : Expr)

/-- A straight piece of code with the numbers of the edges at its ends. -/
structure Block where
  id : Nat
  kind : BlockKind
  items : List BlockItem
  incoming : List Nat
  outgoing : List Nat

namespace Block

def condition? (b : Block) : Option Expr :=
  match b.items.getLast? with
  | some (.condition e) => some e
  | _ => none

end Block

/-- The flow graph of a function body. Blocks and edges are numbered from zero. -/
structure FlowGraph where
  function : String
  blocks : Array Block
  edges : Array Edge
  entry : Nat
  exit : Nat
  /-- The blocks in reverse postorder from the entry, then those the entry does not reach. -/
  reversePostorder : List Nat

namespace FlowGraph

/-- The block of a number; numbers without a block stand for an empty block. -/
def block (g : FlowGraph) (b : Nat) : Block :=
  g.blocks.getD b ⟨b, .statement, [], [], []⟩

def edgesOf (g : FlowGraph) (ids : List Nat) : List Edge := ids.filterMap fun e => g.edges[e]?

def incoming (g : FlowGraph) (b : Nat) : List Edge := g.edgesOf (g.block b).incoming

def outgoing (g : FlowGraph) (b : Nat) : List Edge := g.edgesOf (g.block b).outgoing

def successors (g : FlowGraph) (b : Nat) : List Nat := (g.outgoing b).map Edge.target

def predecessors (g : FlowGraph) (b : Nat) : List Nat := (g.incoming b).map Edge.source

def size (g : FlowGraph) : Nat := g.blocks.size

def isLoopHeader (g : FlowGraph) (b : Nat) : Bool := decide ((g.block b).kind = .loopHeader)

def loopHeaders (g : FlowGraph) : List Nat := (List.range g.size).filter g.isLoopHeader

def position (g : FlowGraph) (b : Nat) : Nat := g.reversePostorder.idxOf b

end FlowGraph

end ValueFlow
