import ValueFlow.Data.Search
import ValueFlow.Data.StackSearch
import ValueFlow.FlowGraph.Basic
import ValueFlow.FlowGraph.Malformed
import ValueFlow.Program.Index
/-!
Lowering of function bodies to flow graphs.

A conditional ends its block with the condition and gets a block for each arm and a join. A
`while` loop has its condition in the header; a `for` loop evaluates its iterable before the
header and binds its target at the start of the body. Code after a jump gets a block of its own;
blocks that the entry does not reach are dropped in the end, except for the exit.
-/

namespace ValueFlow

namespace FlowGraph

structure Draft where
  blocks : Array (BlockKind × List BlockItem)
  edges : Array Edge

namespace Draft

/-- The entry and the exit without code. -/
def initial : Draft := ⟨#[(.entry, []), (.exit, [])], #[]⟩

/-- Adds an empty block; its number is the number of blocks before. -/
def addBlock (d : Draft) (kind : BlockKind) : Draft := { d with blocks := d.blocks.push (kind, []) }

def addEdge (d : Draft) (source target : Nat) (kind : EdgeKind) : Draft :=
  { d with edges := d.edges.push ⟨source, target, kind⟩ }

def addItem (d : Draft) (block : Nat) (item : BlockItem) : Draft :=
  { d with blocks := d.blocks.modify block fun b => (b.1, b.2 ++ [item]) }

end Draft

def entryId : Nat := 0

def exitId : Nat := 1

/-- The innermost loop around a statement. -/
structure LoopFrame where
  header : Nat
  after : Nat

namespace Draft

/-- The frame of a loop whose body gets the next block. -/
def loopFrame (d : Draft) (header : Nat) : LoopFrame := ⟨header, d.blocks.size + 1⟩

/-- Adds the blocks of the body of a loop, which starts with the given items, and of what comes
after it. -/
def openLoop (d : Draft) (frame : LoopFrame) (first : List BlockItem) : Draft :=
  let body := d.blocks.size
  let d := (d.addBlock .statement).addBlock .statement
  let d := (d.addEdge frame.header body .trueBranch).addEdge frame.header frame.after .falseBranch
  first.foldl (fun d item => d.addItem body item) d

/-- Leads the end of the body of a loop back to its header. -/
def closeLoop (d : Draft) (frame : LoopFrame) (last : Option Nat) : Draft :=
  last.toList.foldl (fun d b => d.addEdge b frame.header .loopBack) d

end Draft

/-- The function whose body is lowered. -/
structure Owner where
  function : String
  mayReturn : Bool

def Owner.misplaced (u : Owner) (node : Nat) (cause : Misplaced) : MalformedBody :=
  ⟨u.function, node, cause⟩

mutual

/-- Lowers a statement into a block. The result holds the block in which control goes on, if it
does. -/
def lowerStmt (u : Owner) (loop : Option LoopFrame) (s : Stmt) (current : Nat) (d : Draft) :
    Except MalformedBody (Draft × Option Nat) :=
  match s with
  | .assign _ _ _ | .expr _ _ | .pass _ | .functionDef _ _ _ _ _ =>
      .ok (d.addItem current (.statement s), some current)
  | .classDef _ _ name _ body =>
      match (Stmt.walkAll body).find? Stmt.isReturn with
      | some r => .error (u.misplaced r.id (.returnInClass name))
      | none => .ok (d.addItem current (.statement s), some current)
  | .ret id _ =>
      if u.mayReturn then
        .ok ((d.addItem current (.statement s)).addEdge current exitId .returnOut, none)
      else .error (u.misplaced id .returnOutsideFunction)
  | .brk id =>
      match loop with
      | some frame => .ok (d.addEdge current frame.after .breakOut, none)
      | none => .error (u.misplaced id .breakOutsideLoop)
  | .cont id =>
      match loop with
      | some frame => .ok (d.addEdge current frame.header .loopBack, none)
      | none => .error (u.misplaced id .continueOutsideLoop)
  | .ifElse _ test body orelse => do
      let d := d.addItem current (.condition test)
      let thenBlock := d.blocks.size
      let elseBlock := thenBlock + 1
      let d := (d.addBlock .statement).addBlock .statement
      let d := (d.addEdge current thenBlock .trueBranch).addEdge current elseBlock .falseBranch
      let (d, thenEnd) ← lowerBody u loop body (some thenBlock) d
      let (d, elseEnd) ← lowerBody u loop orelse (some elseBlock) d
      let join := d.blocks.size
      let d := d.addBlock .join
      let d := (thenEnd.toList ++ elseEnd.toList).foldl
        (fun d last => d.addEdge last join .sequential) d
      .ok (d, some join)
  | .whileLoop _ test body => do
      let header := d.blocks.size
      let d := ((d.addBlock .loopHeader).addEdge current header .sequential).addItem header
        (.condition test)
      let frame := d.loopFrame header
      let (d, last) ← lowerBody u (some frame) body (some d.blocks.size) (d.openLoop frame [])
      .ok (d.closeLoop frame last, some frame.after)
  | .forLoop id target iter body => do
      let d := d.addItem current (.evaluate iter)
      let header := d.blocks.size
      let d := (d.addBlock .loopHeader).addEdge current header .sequential
      let frame := d.loopFrame header
      let (d, last) ← lowerBody u (some frame) body (some d.blocks.size)
        (d.openLoop frame [.bind id target iter])
      .ok (d.closeLoop frame last, some frame.after)

/-- Lowers statements one after the other; code after a jump starts a new block. -/
def lowerBody (u : Owner) (loop : Option LoopFrame) (body : List Stmt) (current : Option Nat)
    (d : Draft) : Except MalformedBody (Draft × Option Nat) :=
  match body with
  | [] => .ok (d, current)
  | s :: rest => do
      let (block, d) :=
        match current with
        | some block => (block, d)
        | none => (d.blocks.size, d.addBlock .statement)
      let (d, current) ← lowerStmt u loop s block d
      lowerBody u loop rest current d

end

/-- The blocks of a draft that stay: those the entry reaches, and the exit. -/
def Draft.kept (d : Draft) : List Nat :=
  let next (b : Nat) : List Nat :=
    d.edges.toList.filterMap fun e => if e.source = b then some e.target else none
  let search := Search.visitAll next (d.blocks.size + 1) [entryId]
  (List.range d.blocks.size).filter fun b => search.entered.contains b || b = exitId

/-- Drops the blocks that are not kept, numbers the others anew and orders them. -/
def Draft.finish (d : Draft) (function : String) : FlowGraph :=
  let kept := d.kept
  let edges := (d.edges.toList.filter fun e => kept.contains e.source && kept.contains e.target).map
    fun e => { e with source := kept.idxOf e.source, target := kept.idxOf e.target }
  let idsWhere (test : Edge → Bool) : List Nat :=
    edges.zipIdx.filterMap fun p => if test p.1 then some p.2 else none
  let blocks := kept.zipIdx.map fun p =>
    let raw := d.blocks.getD p.1 (.statement, [])
    { id := p.2, kind := raw.1, items := raw.2, incoming := idsWhere fun e => e.target = p.2,
      outgoing := idsWhere fun e => e.source = p.2 : Block }
  let graph : FlowGraph :=
    { function, blocks := blocks.toArray, edges := edges.toArray, entry := kept.idxOf entryId,
      exit := kept.idxOf exitId, reversePostorder := [] }
  let search := StackSearch.search graph.successors (List.range graph.size) graph.entry
  let unreached := (List.range graph.size).filter fun b => !search.entered.contains b
  { graph with reversePostorder := search.left ++ unreached }

def build (u : Owner) (body : List Stmt) : Except MalformedBody FlowGraph := do
  let (d, last) ← lowerBody u none body (some entryId) Draft.initial
  let d := last.toList.foldl (fun d b => d.addEdge b exitId .sequential) d
  return d.finish u.function

/-- The flow graph of a numbered function; only the module cannot return. -/
def ofFunction (id : Nat) (f : FunctionInfo) : Except MalformedBody FlowGraph :=
  build ⟨f.name, id ≠ moduleId⟩ f.body

end FlowGraph

end ValueFlow
