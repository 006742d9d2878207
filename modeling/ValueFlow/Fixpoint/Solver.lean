import ValueFlow.Domain.AbstractDomain
import ValueFlow.FlowGraph.Basic
/-!
Fixpoint iteration over a flow graph.

The block earliest in reverse postorder is taken from the worklist, its entry state is the join of
what flows in along its edges, and its successors are put on the worklist on the first visit and
whenever its exit state grew. Loop headers widen after some visits. A block visited too often
stops the iteration.
-/

namespace ValueFlow

/-- The meaning of block items and edges for states of a type. -/
structure Transfer (σ : Type) where
  item : BlockItem → σ → σ
  /-- The state that flows along an edge from the exit state of its source block; a bottom state
  marks an edge that is never taken. -/
  edge : Edge → Block → σ → σ

namespace Fixpoint

structure Limits where
  /-- How many visits a loop header is joined before it is widened. -/
  wideningThreshold : Nat
  /-- How often a block may be visited. -/
  maxBlockVisits : Nat

/-- The states of an iteration, by block. -/
structure Solution (σ : Type) where
  /-- The states on entry at the last visits. -/
  entry : Array σ
  /-- The states at the ends; a later visit replaces one only if it found more. -/
  exit : Array σ
  visits : Array Nat
  /-- Whether the iteration ran until nothing was left to do. -/
  converged : Bool
  /-- How many blocks were taken from the worklist. -/
  iterations : Nat

variable {σ : Type} [AbstractDomain σ]

open AbstractDomain

namespace Solution

def entryOf (s : Solution σ) (b : Nat) : σ := s.entry.getD b bottom

def exitOf (s : Solution σ) (b : Nat) : σ := s.exit.getD b bottom

/-- The state with which a graph is left: the one on entry to its exit block. That block holds no
items, and still the state at its end can be an older one. -/
def final (s : Solution σ) (g : FlowGraph) : σ := s.entryOf g.exit

def visitsOf (s : Solution σ) (b : Nat) : Nat := s.visits.getD b 0

def isReachable (s : Solution σ) (b : Nat) : Bool := !isBottom (s.entryOf b)

def initial (g : FlowGraph) : Solution σ :=
  ⟨.replicate g.size bottom, .replicate g.size bottom, .replicate g.size 0, true, 0⟩

end Solution

/-- The blocks that wait for a visit, each with its place in the reverse postorder. -/
abbrev Worklist := SortedSet (Nat × Nat)

/-- Runs the items of a block unless no state reaches it. -/
def runItems (t : Transfer σ) (items : List BlockItem) (state : σ) : σ :=
  if isBottom state then state else items.foldl (fun s item => t.item item s) state

/-- The join of what flows into a block. -/
def inflow (g : FlowGraph) (t : Transfer σ) (start : σ) (s : Solution σ) (b : Nat) : σ :=
  (g.incoming b).foldl
    (fun joined e =>
      let source := s.exitOf e.source
      if isBottom source then joined else join joined (t.edge e (g.block e.source) source))
    (if b = g.entry then start else bottom)

/-- Visits a block, whose visit is already counted, and returns the blocks to visit next. -/
def visit (g : FlowGraph) (t : Transfer σ) (limits : Limits) (start : σ) (s : Solution σ)
    (b : Nat) : Solution σ × List Nat :=
  let visits := s.visitsOf b
  let joined := inflow g t start s b
  let entry :=
    if g.isLoopHeader b && limits.wideningThreshold < visits then widen (s.entryOf b) joined visits
    else joined
  let exit := runItems t (g.block b).items entry
  let grew := !leq exit (s.exitOf b)
  let s := { s with entry := s.entry.setIfInBounds b entry }
  if visits = 1 || grew then
    ({ s with exit := s.exit.setIfInBounds b exit }, g.successors b)
  else (s, [])

def count (s : Solution σ) (b : Nat) : Solution σ :=
  { s with iterations := s.iterations + 1, visits := s.visits.modify b (· + 1) }

/-- Takes blocks from the worklist until it is empty or a block was visited too often. The number
bounds how many blocks are taken. -/
def iterate (g : FlowGraph) (t : Transfer σ) (limits : Limits) (start : σ) :
    Nat → Worklist → Solution σ → Solution σ
  | 0, _, s => s
  | n + 1, work, s =>
      match work.toList with
      | [] => s
      | (place, b) :: _ =>
          let s := count s b
          if limits.maxBlockVisits < s.visitsOf b then { s with converged := false }
          else
            let (s, next) := visit g t limits start s b
            let rest := next.foldl (fun w c => w.insert (g.position c, c)) (work.erase (place, b))
            iterate g t limits start n rest s

/-- Runs the iteration from a state at the entry. Every block is taken at most once more than it
may be visited, and only the last one that often. -/
def solve (g : FlowGraph) (t : Transfer σ) (limits : Limits) (start : σ) : Solution σ :=
  iterate g t limits start (g.size * limits.maxBlockVisits + 1)
    (.singleton (g.position g.entry, g.entry)) (.initial g)

end Fixpoint

end ValueFlow
