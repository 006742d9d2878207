import ValueFlow.Analysis.Builtin
import ValueFlow.Analysis.Condition
import ValueFlow.Analysis.Facts
import ValueFlow.Analysis.Observation
import ValueFlow.Analysis.Summary
import ValueFlow.Domain.IndexCheck
import ValueFlow.Heap.Access
/-!
The abstract value of an expression, and what its evaluation does to the state.

Parts are evaluated in the order of a run, each in the state that the one before it left. Calls
apply the summaries of the functions they may reach. An evaluation that is observed also records
findings and the inputs of calls; an evaluation that only looks at a value runs unobserved on a
state of its own.
-/

namespace ValueFlow

abbrev SummaryTable := SortedMap Nat FunctionSummary

/-- The function under analysis and what is known around it. -/
structure FunctionScope where
  facts : ProgramFacts
  name : String
  /-- The exit block of its flow graph. -/
  exit : Nat
  summaries : SummaryTable

/-- A state on its way through a function, and what was seen so far if somebody looks. -/
structure Run where
  state : ProgramState
  seen : Option Observations

abbrev Eval := StateM Run

namespace Run

/-- Changes what was seen, if somebody looks. -/
def observe (f : Observations → Observations) : Eval Unit :=
  modify fun r => { r with seen := r.seen.map f }

def report (d : Diagnostic) : Eval Unit := observe (·.report d)

def current : Eval ProgramState := return (← get).state

def become (s : ProgramState) : Eval Unit := modify fun r => { r with state := s }

def changeHeap (f : Heap → Heap) : Eval Unit :=
  modify fun r => { r with state := { r.state with heap := f r.state.heap } }

def bind (x : String) (v : Value) (domains : DomainSet) : Eval Unit :=
  modify fun r => { r with state := { r.state with env := r.state.env.set x v domains } }

end Run

namespace Literal

def value : Literal → Value
  | int n => .constant n
  | bool b => .ofBool b
  | str _ => .notNull
  | none => .none

end Literal

namespace Value

/-- The truth value that is known, or any. -/
def ofTruth (b : Option Bool) : Value := b.elim anyBool ofBool

def unary (op : UnaryOp) (v : Value) : Value :=
  if v.isBottom then v
  else
    match op with
    | .not => ofTruth (v.truthiness.map not)
    | .neg => v.negate
    | .pos => if v.isNumeric then v else anyInt

def comparison (op : CompOp) (l r : Value) : Value :=
  if l.isBottom || r.isBottom then bottom else ofTruth (compare? op l r)

end Value

namespace FunctionScope

variable (scope : FunctionScope)

open Run (observe report current become changeHeap)

def domains : DomainSet := scope.facts.domains

def pointsTo : PointsTo := scope.facts.pointsTo

/-- Reports an access on a value that is or may be `None`. After an access on a value that may be
`None`, the variable it was read from is not. -/
def checkAccess (location : Nat) (receiver : Expr) (value : Value) (access : String) :
    Eval Unit := do
  match value.nullability with
  | .definitelyNull => report (.nullDeref .definite location scope.name access)
  | .nullable =>
      report (.nullDeref .possible location scope.name access)
      match receiver.name? with
      | some x => become ((← current).refine x .notNull scope.domains)
      | none => pure ()
  | _ => pure ()

/-- Whether an expression can only be a list or a tuple. -/
def isSequence (node : Nat) : Bool :=
  let objects := scope.pointsTo.ofNode node
  !objects.isEmpty && objects.toList.all fun o =>
    (scope.pointsTo.object? o).any fun o => o.kind.isSequence

/-- Reports an index that is or may be out of bounds. -/
def checkIndex (location base : Nat) (index : Value) : Eval Unit := do
  let length := (← current).heap.lengthOf scope.pointsTo base
  let found (c : Certainty) : Eval Unit :=
    report (.outOfBounds c location scope.name index.range.render length.range.render)
  if scope.isSequence base then
    match IndexCheck.check length index with
    | .inBounds => pure ()
    | .possible => found .possible
    | .definite => found .definite

/-- Records what a call passes to a function. -/
def recordCall (function : Nat) (args : List Value) (heap : Heap) : Eval Unit :=
  let params := scope.facts.index.params function
  let args := (List.range params.length).map fun i => args.getD i .top
  observe fun o => { o with calls := o.calls.record function ⟨args, heap.entryView⟩ }

def recordTargets (site : CallSite) : Eval Unit :=
  let names := SortedSet.ofList (site.targets.toList.map scope.facts.index.name)
  observe fun o => { o with callTargets := o.callTargets.insert site.node names }

/-- What a call of a function returns and leaves on the heap. A function without a summary never
returns; one without a flow graph may do anything to what it is passed. -/
def outcomeOf (argNodes : List Nat) (heap : Heap) (function : Nat) : Value × Heap :=
  if scope.facts.isMalformed function then
    (.top, heap.invalidateEscaping scope.pointsTo argNodes)
  else
    match scope.summaries.get? function with
    | some s => (s.returnValue, s.effects.apply heap)
    | none => (.bottom, heap)

/-- Calls one of several functions; those that never return do not matter. -/
def callTargets (site : CallSite) (args : List Value) (argNodes : List Nat) : Eval Value := do
  let before := (← current).heap
  site.targets.toList.forM fun f => scope.recordCall f args before
  let outcomes := (site.targets.toList.map (scope.outcomeOf argNodes before)).filter
    fun r => !r.1.isBottom
  if outcomes.isEmpty then
    become .bottom
    return .bottom
  else
    changeHeap fun _ => AbstractDomain.joinAll (outcomes.map Prod.snd)
    return AbstractDomain.joinAll (outcomes.map Prod.fst)

/-- Passes values to code that cannot be seen. -/
def callUnknown (argNodes : List Nat) : Eval Value := do
  changeHeap (·.invalidateEscaping scope.pointsTo argNodes)
  return .top

/-- Calls a method that no class of the program defines. -/
def callMethod (receiver : Nat) (method : String) (args : List Value) (argNodes : List Nat) :
    Eval Value := do
  let elements := (← current).heap.load scope.pointsTo receiver .elements
  match ContainerMethod.ofName? method with
  | some m =>
      changeHeap (·.mutate scope.pointsTo receiver (some m) args)
      return if m = .pop || m = .setdefault then elements else .none
  | none =>
      if isPureMethod method then return if method = "get" then elements.join .none else .top
      else scope.callUnknown argNodes

/-- Calls a builtin function, or else a function that cannot be seen. -/
def callNamed (name : Option String) (args : List Value) (argNodes : List Nat) : Eval Value := do
  match name.bind Builtin.ofName? with
  | some b =>
      let heap := (← current).heap
      let length :=
        if b = .len then argNodes.head?.map (heap.lengthOf scope.pointsTo) else none
      return b.call args length
  | none => scope.callUnknown argNodes

/-- Calls the function of a call site, whose receiver and arguments are evaluated. -/
def callSite (node : Nat) (func : Expr) (receiver : Option (Nat × Value)) (args : List Value)
    (argNodes : List Nat) : Eval Value := do
  let passed := argNodes ++ (receiver.map Prod.fst).toList
  let site := scope.facts.calls.site? node
  let known := site.filter fun s => !s.targets.isEmpty
  if let some s := known then scope.recordTargets s
  match site.map CallSite.kind, known with
  | some (.construct _), _ =>
      changeHeap (·.allocateAt scope.pointsTo node)
      if let some s := known then
        let _ ← scope.callTargets s (.notNull :: args) passed
      return if (← current).isReachable then .notNull else .bottom
  | some .direct, some s => scope.callTargets s args passed
  | some (.virtual _ _), some s =>
      let self := ((receiver.map fun r => r.2.meet .notNull).filter fun v => !v.isBottom).getD
        .notNull
      scope.callTargets s (self :: args) passed
  | some (.virtual method object), none => scope.callMethod object method args passed
  | _, _ => scope.callNamed (if receiver.isNone then func.name? else none) args passed

/-- Evaluates an expression with at most the given number of levels of parts. -/
def evalWithin : Nat → Expr → Eval Value
  | 0, _ => return .bottom
  | n + 1, e => do
      if !(← current).isReachable then return .bottom
      else
        match e with
        | .literal _ literal => return literal.value
        | .name _ x => return (← current).env.get x
        | .binOp _ op left right =>
            let l ← evalWithin n left
            let r ← evalWithin n right
            return .binary op l r
        | .boolOp _ op left right =>
            let l ← evalWithin n left
            let goesOn := decide (op = .and)
            if l.isBottom || l.truthiness = some (!goesOn) then return l
            else if l.truthiness = some goesOn then evalWithin n right
            else
              let s ← current
              let look (e : Expr) (s : ProgramState) : Value := (evalWithin n e ⟨s, none⟩).1
              become (s.assume look scope.domains left goesOn)
              let r ← evalWithin n right
              become (s.join (← current))
              return l.join r
        | .unaryOp _ op operand => return .unary op (← evalWithin n operand)
        | .compare _ op left right =>
            let l ← evalWithin n left
            let r ← evalWithin n right
            return .comparison op l r
        | .attr node value field =>
            let base ← evalWithin n value
            scope.checkAccess node value base s!"attribute '{field}'"
            return (← current).heap.load scope.pointsTo value.id (.attr field)
        | .subscript node value index =>
            let base ← evalWithin n value
            let i ← evalWithin n index
            scope.checkAccess node value base "subscript"
            scope.checkIndex node value.id i
            return (← current).heap.load scope.pointsTo value.id .elements
        | .call node func args =>
            let receiver ← match func with
              | .attr id value method => do
                  let v ← evalWithin n value
                  scope.checkAccess id value v s!"method '{method}'"
                  pure (some (value.id, v))
              | _ => pure none
            let values ← args.mapM (evalWithin n)
            if (← current).isReachable then
              scope.callSite node func receiver values (args.map Expr.id)
            else return .bottom
        | .collection node _ elements =>
            let values ← elements.mapM (evalWithin n)
            if (← current).isReachable then
              changeHeap (·.initCollection scope.pointsTo node values)
              return .notNull
            else return .bottom
        | .unsupported _ _ => return .top

def eval (e : Expr) : Eval Value := evalWithin scope e.height e

/-- The value of an expression in a state, which stays as it is. -/
def look (e : Expr) (s : ProgramState) : Value := (scope.eval e ⟨s, none⟩).1

end FunctionScope

end ValueFlow
