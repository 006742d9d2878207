/-!
Depth-first search in a graph given by successor lists, with the open nodes on a stack.
-/

namespace ValueFlow

structure StackSearch (α : Type) where
  /-- The open nodes, latest first, each with the number of its successors that were read. -/
  stack : List (α × Nat)
  /-- The nodes that were entered, latest first. -/
  entered : List α
  /-- The nodes that were left, latest first. -/
  left : List α

namespace StackSearch

variable {α : Type} [BEq α]

/-- A search that has entered its root. -/
def start (root : α) : StackSearch α := ⟨[(root, 0)], [root], []⟩

/-- Reads the next successor of the latest open node and enters it if it is new. A node without
further successors is left. -/
def step (next : α → List α) (s : StackSearch α) : StackSearch α :=
  match s.stack with
  | [] => s
  | (a, i) :: below =>
      match (next a)[i]? with
      | some b =>
          if s.entered.contains b then { s with stack := (a, i + 1) :: below }
          else { s with stack := (b, 0) :: (a, i + 1) :: below, entered := b :: s.entered }
      | none => { s with stack := below, left := a :: s.left }

def run (next : α → List α) : Nat → StackSearch α → StackSearch α
  | 0, s => s
  | n + 1, s => run next n (s.step next)

/-- The number of steps in which some nodes are entered and left: one to leave each of them, and one
for each of its successors. -/
def steps (next : α → List α) : List α → Nat
  | [] => 0
  | a :: nodes => (next a).length + 1 + steps next nodes

/-- Searches some nodes from a root until every open node is left. -/
def search (next : α → List α) (nodes : List α) (root : α) : StackSearch α :=
  run next (steps next nodes) (start root)

end StackSearch

end ValueFlow
