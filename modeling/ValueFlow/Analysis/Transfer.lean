import ValueFlow.Analysis.Evaluate
/-!
What the items and edges of a flow graph do to the state.
-/

namespace ValueFlow

namespace Expr

/-- Whether the value of an expression hangs on the state of the program. -/
def readsState (e : Expr) : Bool :=
  e.walk.any fun
    | .name _ _ | .attr _ _ _ | .subscript _ _ _ | .call _ _ _ => true
    | _ => false

end Expr

namespace BlockItem

/-- The expression whose value an item is about. -/
def subject? : BlockItem → Option Expr
  | condition e | evaluate e => some e
  | statement (.assign _ _ e) | statement (.expr _ e) => some e
  | statement (.ret _ e) => e
  | _ => none

end BlockItem

namespace FunctionScope

variable (scope : FunctionScope)

open Run (report current changeHeap)

def assign (x : String) (v : Value) : Eval Unit := Run.bind x v scope.domains

/-- Writes a value that an expression gave to a target. -/
def writeTarget (target : Target) (source : Expr) (v : Value) : Eval Unit := do
  match target with
  | .name _ x => scope.assign x v
  | .attr node base field =>
      let b ← scope.eval base
      scope.checkAccess node base b s!"attribute '{field}'"
      changeHeap (·.store scope.pointsTo base.id (.attr field) v (some source.id))
  | .subscript node base index =>
      let b ← scope.eval base
      let i ← scope.eval index
      scope.checkAccess node base b "subscript"
      scope.checkIndex node base.id i
      changeHeap (·.storeElement scope.pointsTo base.id v (some source.id))

/-- Runs a statement that has no control flow of its own. -/
def runStmt : Stmt → Eval Unit
  | .assign _ target value => do
      let v ← scope.eval value
      if (← current).isReachable then scope.writeTarget target value v
  | .expr _ e => discard (scope.eval e)
  | .ret _ value => do
      let v ← match value with
        | some e => scope.eval e
        | none => pure .none
      if (← current).isReachable then scope.assign returnSlot v
  | .functionDef _ _ x _ _ | .classDef _ _ x _ _ => scope.assign x .notNull
  | .ifElse _ _ _ _ | .whileLoop _ _ _ | .forLoop _ _ _ _ | .brk _ | .cont _ | .pass _ => pure ()

/-- Evaluates a condition and reports an outcome that never changes. -/
def runCondition (cond : Expr) : Eval Unit := do
  let v ← scope.eval cond
  if scope.facts.config.reportUnreachableBranches && cond.readsState then
    match v.truthiness with
    | some outcome => report (.unreachableBranch cond.id scope.name outcome)
    | none => pure ()

/-- The arguments of a call of the builtin `range`. -/
def rangeArgs? : Expr → Option (List Expr)
  | .call node func args =>
      let unknown : Bool := match (scope.facts.calls.site? node).map CallSite.kind with
        | none | some (.unknown _) => true
        | _ => false
      if func.name? = some "range" && unknown then some args else none
  | _ => none

/-- The values that a loop over an iterable binds. -/
def elementOf (iter : Expr) (s : ProgramState) : Value :=
  match scope.rangeArgs? iter with
  | some args => Builtin.rangeElement (args.map fun a => scope.look a s)
  | none => s.heap.load scope.pointsTo iter.id .elements

def runItem (item : BlockItem) : Eval Unit := do
  let s ← current
  if s.isReachable then
    match item with
    | .statement stmt => scope.runStmt stmt
    | .condition cond => scope.runCondition cond
    | .evaluate e => discard (scope.eval e)
    | .bind _ target iter => scope.assign target (scope.elementOf iter s)

/-- The state along an edge. A body that ends without a `return` returns `None`. -/
def followEdge (e : Edge) (source : Block) (s : ProgramState) : ProgramState :=
  if e.target = scope.exit && e.kind = .sequential then
    { s with env := s.env.set returnSlot .none scope.domains }
  else
    match e.kind.outcome?, source.condition? with
    | some outcome, some cond => s.assume scope.look scope.domains cond outcome
    | _, _ => s

/-- The transfer functions of the function, unobserved. -/
def transfer : Transfer ProgramState where
  item := fun item s => (scope.runItem item ⟨s, none⟩).2.state
  edge := scope.followEdge

/-- One item of a block with the value of its expression before it and the state after it. -/
structure TraceStep where
  item : BlockItem
  value : Option Value
  state : ProgramState

/-- Runs the items of a block, noting the value of each and the state after it. -/
def trace (items : List BlockItem) : Eval (List TraceStep) :=
  items.mapM fun item => do
    let before ← current
    scope.runItem item
    return ⟨item, item.subject?.map (scope.look · before), ← current⟩

/-- Runs every block that is reached once more from its entry state and collects what is seen. -/
def replay (g : FlowGraph) (solution : Fixpoint.Solution ProgramState) : Observations :=
  (List.range g.size).foldl (fun seen b =>
    if solution.isReachable b then
      let start : Run := ⟨solution.entryOf b, some seen⟩
      let (_, final) := ((g.block b).items.forM scope.runItem) start
      final.seen.getD seen
    else seen) .empty

end FunctionScope

end ValueFlow
