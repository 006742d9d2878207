import ValueFlow.PointsTo.Graph
/-!
Which references a program may make, as the least set of facts closed under rules.

Contexts are call paths and objects are known by the expression and the context that create them,
so nothing is numbered here and nothing hangs on an order. `FlowProgram.Derives` is the least set
of facts: every function is reached from outside, every function that is reached makes its flows,
and every call that finds a function reaches it, passes its arguments and takes its result.
-/

namespace ValueFlow

/-- A place that may refer to objects, on a call path. -/
inductive Place where
  | named (function : Nat) (context : List Nat) (name : String)
  | value (node : Nat) (context : List Nat)
  | result (function : Nat) (context : List Nat)
deriving DecidableEq

/-- All objects that an expression creates on a call path. -/
structure Creation where
  site : Nat
  context : List Nat
  function : Nat
  kind : ObjectKind
deriving DecidableEq

/-- How a call finds the functions it runs. -/
inductive FlowTarget where
  | static (functions : List Nat)
  | construct (object : Creation) (constructor : Option Nat)
  | dispatch (method : String) (receiver : Place)

/-- A call on a call path. -/
structure FlowCall where
  site : Nat
  context : List Nat
  target : FlowTarget
  args : List Place
  result : Place

/-- What a piece of a program does with references. -/
inductive Flow where
  | alloc (object : Creation) (dest : Place)
  | copy (source dest : Place)
  | load (base : Place) (field : PointerField) (dest : Place)
  | store (base : Place) (field : PointerField) (source : Place)
  | call (call : FlowCall)

namespace Flow

def creation? : Flow → Option Creation
  | alloc object _ => some object
  | call ⟨_, _, .construct object _, _, _⟩ => some object
  | _ => none

end Flow

/-- A function on a call path. -/
structure Frame where
  function : Nat
  context : List Nat
  /-- The call path of the module's own variables. -/
  moduleContext : List Nat
  bound : SortedSet String

namespace Frame

variable (s : Frame)

def var (name : String) : Place :=
  if s.function = moduleId || s.bound.contains name then .named s.function s.context name
  else .named moduleId s.moduleContext name

def value (node : Nat) : Place := .value node s.context

def creation (site : Nat) (kind : ObjectKind) : Creation := ⟨site, s.context, s.function, kind⟩

end Frame

def ElementFlow.flows (receiver : Place) (args : List Place) (result : Place) :
    ElementFlow → List Flow
  | storing position => (args[position]?.map (.store receiver .elements ·)).toList
  | extending =>
      match args with
      | source :: _ => [.load source .elements result, .store receiver .elements result]
      | [] => []
  | loading fallback =>
      .load receiver .elements result ::
        (fallback.bind (args[·]?)).toList.map (.store receiver .elements ·)

namespace Frame

variable (calls : CallGraph) (s : Frame)

/-- The flows of a call whose receiver and arguments have theirs. -/
def callFlows (node : Nat) (receiver : Option Place) (args : List Place) : List Flow :=
  let finish (target : FlowTarget) : Flow := .call ⟨node, s.context, target, args, s.value node⟩
  match calls.site? node with
  | none => []
  | some site =>
      match site.kind, receiver with
      | .direct, _ => [finish (.static site.targets.toList)]
      | .construct className, _ =>
          [finish (.construct (s.creation node (.ofClass className)) site.targets.toList.head?)]
      | .virtual method _, some receiver =>
          (ElementFlow.ofName? method).elim [] (ElementFlow.flows receiver args (s.value node)) ++
            [finish (.dispatch method receiver)]
      | _, _ => []

mutual

def exprFlows : Expr → List Flow
  | .literal _ _ | .unsupported _ _ => []
  | .name node name => [.copy (s.var name) (s.value node)]
  | .collection node kind elements =>
      .alloc (s.creation node (.collection kind)) (s.value node) ::
        elementFlows (s.value node) elements
  | .attr node value name =>
      exprFlows value ++ [.load (s.value value.id) (.attr name) (s.value node)]
  | .subscript node value index =>
      exprFlows value ++ (exprFlows index ++ [.load (s.value value.id) .elements (s.value node)])
  | .boolOp node _ left right =>
      exprFlows left ++ ([.copy (s.value left.id) (s.value node)] ++
        (exprFlows right ++ [.copy (s.value right.id) (s.value node)]))
  | .call node (.attr _ value _) args =>
      exprFlows value ++ (allFlows args ++
        s.callFlows calls node (some (s.value value.id)) (args.map (s.value ·.id)))
  | .call node _ args => allFlows args ++ s.callFlows calls node none (args.map (s.value ·.id))
  | .binOp _ _ left right | .compare _ _ left right => exprFlows left ++ exprFlows right
  | .unaryOp _ _ operand => exprFlows operand

def allFlows : List Expr → List Flow
  | [] => []
  | e :: rest => exprFlows e ++ allFlows rest

/-- The flows of the elements of a collection. -/
def elementFlows (collection : Place) : List Expr → List Flow
  | [] => []
  | e :: rest =>
      exprFlows e ++ ([.store collection .elements (s.value e.id)] ++ elementFlows collection rest)

end

/-- The flows of a statement, without the bodies it controls. -/
def stmtFlows : Stmt → List Flow
  | .assign _ target value =>
      let source := s.value value.id
      s.exprFlows calls value ++
        match target with
        | .name _ name => [.copy source (s.var name)]
        | .attr _ base name =>
            s.exprFlows calls base ++ [.store (s.value base.id) (.attr name) source]
        | .subscript _ base index =>
            s.exprFlows calls base ++ (s.exprFlows calls index ++
              [.store (s.value base.id) .elements source])
  | .expr _ e | .ifElse _ e _ _ | .whileLoop _ e _ => s.exprFlows calls e
  | .forLoop _ target iter _ =>
      s.exprFlows calls iter ++ [.load (s.value iter.id) .elements (s.var target)]
  | .ret _ (some e) =>
      s.exprFlows calls e ++ [.copy (s.value e.id) (.result s.function s.context)]
  | .ret _ none | .brk _ | .cont _ | .pass _ | .functionDef _ _ _ _ _ | .classDef _ _ _ _ _ => []

def bodyFlows (body : List Stmt) : List Flow := (Stmt.walkAll body).flatMap (s.stmtFlows calls)

end Frame

/-- A program whose references are asked for, with contexts of a depth. -/
structure FlowProgram where
  index : ProgramIndex
  classes : ClassTable
  calls : CallGraph
  depth : Nat

/-- A fact about a run of a program. -/
inductive FlowFact where
  /-- A function may run on a call path. -/
  | reached (function : Nat) (context : List Nat)
  /-- A place may refer to an object. -/
  | refers (place : Place) (object : Creation)
  /-- A field of an object may refer to an object. -/
  | holds (base : Creation) (field : PointerField) (object : Creation)
  /-- A call of a method may run a function. -/
  | runs (site function : Nat)
  /-- A call may enter a function, with a receiver and some skipped parameters. -/
  | enters (call : FlowCall) (receiver : Option Creation) (skip function : Nat)

namespace FlowProgram

variable (P : FlowProgram)

def root (function : Nat) : List Nat := ContextTable.limit P.depth [function]

/-- The context of a function called from another context. -/
def push (context : List Nat) (function : Nat) : List Nat :=
  ContextTable.limit P.depth (context ++ [function])

def frame (function : Nat) (context : List Nat) : Frame where
  function := function
  context := context
  moduleContext := P.root moduleId
  bound := ((P.index.function? function).map FunctionInfo.boundNames).getD ∅

def flows (function : Nat) (context : List Nat) : List Flow :=
  (P.frame function context).bodyFlows P.calls
    (((P.index.function? function).map FunctionInfo.body).getD [])

/-- The method that a call runs on an object. -/
def method? (method : String) (object : Creation) : Option Nat := do
  P.classes.lookup? (← object.kind.class?) method

/-- The facts that can be derived. -/
inductive Derives : FlowFact → Prop
  | root {f} (hf : f < P.index.functions.size) : Derives (.reached f (P.root f))
  | alloc {f κ o dest} (hr : Derives (.reached f κ)) (hflow : .alloc o dest ∈ P.flows f κ) :
      Derives (.refers dest o)
  | copy {f κ source dest o} (hr : Derives (.reached f κ))
      (hflow : .copy source dest ∈ P.flows f κ) (ho : Derives (.refers source o)) :
      Derives (.refers dest o)
  | load {f κ base field dest a o} (hr : Derives (.reached f κ))
      (hflow : .load base field dest ∈ P.flows f κ) (ha : Derives (.refers base a))
      (ho : Derives (.holds a field o)) : Derives (.refers dest o)
  | store {f κ base field source a o} (hr : Derives (.reached f κ))
      (hflow : .store base field source ∈ P.flows f κ) (ha : Derives (.refers base a))
      (ho : Derives (.refers source o)) : Derives (.holds a field o)
  | static {f κ c functions t} (hr : Derives (.reached f κ)) (hflow : .call c ∈ P.flows f κ)
      (htarget : c.target = .static functions) (ht : t ∈ functions) :
      Derives (.enters c none 0 t)
  | construct {f κ c o constructor} (hr : Derives (.reached f κ)) (hflow : .call c ∈ P.flows f κ)
      (htarget : c.target = .construct o constructor) : Derives (.refers c.result o)
  | init {f κ c o t} (hr : Derives (.reached f κ)) (hflow : .call c ∈ P.flows f κ)
      (htarget : c.target = .construct o (some t)) : Derives (.enters c (some o) 1 t)
  | dispatch {f κ c method receiver o t} (hr : Derives (.reached f κ))
      (hflow : .call c ∈ P.flows f κ) (htarget : c.target = .dispatch method receiver)
      (ho : Derives (.refers receiver o)) (ht : P.method? method o = some t) :
      Derives (.enters c (some o) 1 t)
  | target {f κ c method receiver o t} (hr : Derives (.reached f κ))
      (hflow : .call c ∈ P.flows f κ) (htarget : c.target = .dispatch method receiver)
      (ho : Derives (.refers receiver o)) (ht : P.method? method o = some t) :
      Derives (.runs c.site t)
  | reach {c receiver skip t} (h : Derives (.enters c receiver skip t)) :
      Derives (.reached t (P.push c.context t))
  | receiver {c o skip t self rest} (h : Derives (.enters c (some o) skip t))
      (hparams : P.index.params t = self :: rest) :
      Derives (.refers (.named t (P.push c.context t) self) o)
  | arg {c receiver skip t a x o} (h : Derives (.enters c receiver skip t))
      (hpair : (a, x) ∈ c.args.zip ((P.index.params t).drop skip))
      (ho : Derives (.refers a o)) : Derives (.refers (.named t (P.push c.context t) x) o)
  | result {c receiver skip t o} (h : Derives (.enters c receiver skip t))
      (ho : Derives (.refers (.result t (P.push c.context t)) o)) : Derives (.refers c.result o)

end FlowProgram

end ValueFlow
