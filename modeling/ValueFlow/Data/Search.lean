/-!
Depth-first search in a finite graph given by successor lists.
-/

namespace ValueFlow

/-- What a search has seen: nodes as they were entered and as they were left, latest first. -/
structure Search (α : Type) where
  entered : List α
  left : List α

namespace Search

variable {α : Type} [BEq α]

def start : Search α := ⟨[], []⟩

/-- Visits a node and what can be reached from it through nodes not entered before. The number
bounds the length of a path without repetition. -/
def visit (next : α → List α) : Nat → α → Search α → Search α
  | 0, _, s => s
  | n + 1, a, s =>
      if s.entered.contains a then s
      else
        let entered := { s with entered := a :: s.entered }
        let below := (next a).foldl (fun s b => visit next n b s) entered
        { below with left := a :: below.left }

def visitAll (next : α → List α) (bound : Nat) (roots : List α) : Search α :=
  roots.foldl (fun s a => visit next bound a s) start

/-- The nodes in the order in which they were entered. -/
def preorder (s : Search α) : List α := s.entered.reverse

end Search

end ValueFlow
