import ValueFlow.Proofs.Analysis.Findings
import ValueFlow.Proofs.Fixpoint.Invariants
/-!
Observation does not change the analysis.

The analysis looks at values on runs of their own that nobody observes. Here the evaluation runs
once more beside one observer, who is muted while a value is only looked at and hears again what
was to be heard before: looks may stand inside of looks. Whatever is evaluated, the two agree
(`follows_watchWithin`), so the observer only sees (`observation_neutral`).
-/

namespace ValueFlow

/-- A state on its way through a function, what an observer saw if there is one, and whether the
observer is muted. -/
structure Watch where
  state : ProgramState
  seen : Option Observations
  muted : Bool

abbrev Watched := StateM Watch

namespace Watch

/-- The run as far as somebody observes it. -/
def run (w : Watch) : Run := ⟨w.state, if w.muted then none else w.seen⟩

/-- The watched run once a step is made; what the observer saw only grows if it was not muted. -/
def after (w : Watch) (r : Run) : Watch :=
  { w with state := r.state, seen := if w.muted then w.seen else r.seen }

end Watch

namespace Watched

variable {α β : Type}

theorem bind_apply (x : Watched α) (f : α → Watched β) (w : Watch) :
    (x >>= f) w = f (x w).1 (x w).2 := rfl

/-- Makes a step that looks at no value aside. -/
def perform (m : Eval α) : Watched α := fun w => ((m w.run).1, w.after (m w.run).2)

/-- Makes steps from a state of their own with the observer muted. Afterwards the state is the one
before, and the observer is muted if it was before. -/
def aside (x : Watched α) (s : ProgramState) : Watched α := do
  let before ← get
  set { before with state := s, muted := true }
  let a ← x
  modify fun w => { w with state := before.state, muted := before.muted }
  return a

section Conditions

variable (eval : Expr → ProgramState → Watched Value) (domains : DomainSet)

def compareWith (op : CompOp) (side other : Expr) (s : ProgramState) : Watched ProgramState :=
  match side.name? with
  | some x => do return s.refine x ((s.env.get x).restrict op (← eval other s)) domains
  | none => return s

def narrow : Expr → Bool → ProgramState → Watched ProgramState
  | .unaryOp _ .not operand, outcome, s => narrow operand (!outcome) s
  | .boolOp _ op left right, outcome, s => do
      if decide (op = .and) = outcome then narrow right outcome (← narrow left outcome s)
      else return s
  | .compare _ op left right, outcome, s => do
      let op := if outcome then op else op.negate
      compareWith eval domains op.flip right left (← compareWith eval domains op left right s)
  | .name _ x, outcome, s =>
      let v := s.env.get x
      return s.refine x (if outcome then v.truthy else v.falsy) domains
  | _, _, s => return s

/-- The state once a condition has turned out one way, where values are found in steps. -/
def assume (s : ProgramState) (cond : Expr) (outcome : Bool) : Watched ProgramState := do
  if !s.isReachable then return s
  else if (← eval cond s).truthiness = some (!outcome) then return .bottom
  else
    let narrowed ← narrow eval domains cond outcome s
    return if narrowed.env.reachable then narrowed else .bottom

end Conditions

end Watched

namespace FunctionScope

variable (scope : FunctionScope)

open Run (report current become changeHeap)
open Watched (perform aside)

/-- Evaluates an expression with at most the given number of levels of parts, beside an
observer. -/
def watchWithin : Nat → Expr → Watched Value
  | 0, _ => return .bottom
  | n + 1, e => do
      if !(← perform current).isReachable then return .bottom
      else
        match e with
        | .literal _ literal => return literal.value
        | .name _ x => return (← perform current).env.get x
        | .binOp _ op left right =>
            let l ← watchWithin n left
            let r ← watchWithin n right
            return .binary op l r
        | .boolOp _ op left right =>
            let l ← watchWithin n left
            let goesOn := decide (op = .and)
            if l.isBottom || l.truthiness = some (!goesOn) then return l
            else if l.truthiness = some goesOn then watchWithin n right
            else
              let s ← perform current
              -- the observer may be muted already, where this is part of what is looked at
              let look (e : Expr) (s : ProgramState) : Watched Value := aside (watchWithin n e) s
              let taken ← Watched.assume look scope.domains s left goesOn
              perform (become taken)
              let r ← watchWithin n right
              let after ← perform current
              perform (become (s.join after))
              return l.join r
        | .unaryOp _ op operand => return .unary op (← watchWithin n operand)
        | .compare _ op left right =>
            let l ← watchWithin n left
            let r ← watchWithin n right
            return .comparison op l r
        | .attr node value field =>
            let base ← watchWithin n value
            perform (scope.checkAccess node value base s!"attribute '{field}'")
            return (← perform current).heap.load scope.pointsTo value.id (.attr field)
        | .subscript node value index =>
            let base ← watchWithin n value
            let i ← watchWithin n index
            perform (scope.checkAccess node value base "subscript")
            perform (scope.checkIndex node value.id i)
            return (← perform current).heap.load scope.pointsTo value.id .elements
        | .call node func args =>
            let receiver ← match func with
              | .attr id value method => do
                  let v ← watchWithin n value
                  perform (scope.checkAccess id value v s!"method '{method}'")
                  pure (some (value.id, v))
              | _ => pure none
            let values ← args.mapM (watchWithin n)
            if (← perform current).isReachable then
              perform (scope.callSite node func receiver values (args.map Expr.id))
            else return .bottom
        | .collection node _ elements =>
            let values ← elements.mapM (watchWithin n)
            if (← perform current).isReachable then
              perform (changeHeap (·.initCollection scope.pointsTo node values))
              return .notNull
            else return .bottom
        | .unsupported _ _ => return .top

def watchEval (e : Expr) : Watched Value := watchWithin scope e.height e

def watchAside (e : Expr) (s : ProgramState) : Watched Value := aside (scope.watchEval e) s

def watchTarget (target : Target) (source : Expr) (v : Value) : Watched Unit := do
  match target with
  | .name _ x => perform (scope.assign x v)
  | .attr node base field =>
      let b ← scope.watchEval base
      perform (scope.checkAccess node base b s!"attribute '{field}'")
      perform (changeHeap (·.store scope.pointsTo base.id (.attr field) v (some source.id)))
  | .subscript node base index =>
      let b ← scope.watchEval base
      let i ← scope.watchEval index
      perform (scope.checkAccess node base b "subscript")
      perform (scope.checkIndex node base.id i)
      perform (changeHeap (·.storeElement scope.pointsTo base.id v (some source.id)))

def watchStmt : Stmt → Watched Unit
  | .assign _ target value => do
      let v ← scope.watchEval value
      if (← perform current).isReachable then scope.watchTarget target value v
  | .expr _ e => discard (scope.watchEval e)
  | .ret _ value => do
      let v ← match value with
        | some e => scope.watchEval e
        | none => pure .none
      if (← perform current).isReachable then perform (scope.assign returnSlot v)
  | .functionDef _ _ x _ _ | .classDef _ _ x _ _ => perform (scope.assign x .notNull)
  | .ifElse _ _ _ _ | .whileLoop _ _ _ | .forLoop _ _ _ _ | .brk _ | .cont _ | .pass _ => pure ()

def watchCondition (cond : Expr) : Watched Unit := do
  let v ← scope.watchEval cond
  if scope.facts.config.reportUnreachableBranches && cond.readsState then
    match v.truthiness with
    | some outcome => perform (report (.unreachableBranch cond.id scope.name outcome))
    | none => pure ()

/-- The values that a loop over an iterable binds; the bounds of a range are only looked at. -/
def watchElement (iter : Expr) (s : ProgramState) : Watched Value := do
  match scope.rangeArgs? iter with
  | some args => return Builtin.rangeElement (← args.mapM fun a => scope.watchAside a s)
  | none => return s.heap.load scope.pointsTo iter.id .elements

def watchItem (item : BlockItem) : Watched Unit := do
  let s ← perform current
  if s.isReachable then
    match item with
    | .statement stmt => scope.watchStmt stmt
    | .condition cond => scope.watchCondition cond
    | .evaluate e => discard (scope.watchEval e)
    | .bind _ target iter => do perform (scope.assign target (← scope.watchElement iter s))

/-- The state along an edge, where the values of conditions are only looked at. -/
def watchEdge (e : Edge) (source : Block) (s : ProgramState) : Watched ProgramState :=
  if e.target = scope.exit && e.kind = .sequential then
    return { s with env := s.env.set returnSlot .none scope.domains }
  else
    match e.kind.outcome?, source.condition? with
    | some outcome, some cond => Watched.assume scope.watchAside scope.domains s cond outcome
    | _, _ => return s

def watchBlock (items : List BlockItem) (s : ProgramState) : Watched Unit := do
  modify fun w => { w with state := s }
  items.forM scope.watchItem

/-- Runs every block that is reached once more from its entry state beside an observer. -/
def watchReplay (g : FlowGraph) (solution : Fixpoint.Solution ProgramState) : Watched Unit :=
  (List.range g.size).forM fun b => do
    if solution.isReachable b then
      scope.watchBlock (g.block b).items (solution.entryOf b)

end FunctionScope

namespace Watched

variable {α β : Type}

/-- A step that is watched is done with what the observer may see, and observing it changes
nothing but what is seen. -/
structure Follows (x : Watched α) (m : Eval α) : Prop where
  eq : x = perform m
  finds : Finds (fun _ => True) m

namespace Follows

variable {x x' : Watched α} {m m' : Eval α} {g : α → Watched β} {f : α → Eval β}

theorem perform (hm : Finds (fun _ => True) m) : Follows (perform m) m := ⟨rfl, hm⟩

theorem pure (a : α) : Follows (pure a) (pure a) := by
  refine ⟨funext fun w => ?_, .silent fun _ _ => rfl⟩
  obtain ⟨s, seen, muted⟩ := w
  cases muted <;> rfl

/-- What a muted observer misses in the first step it also misses in the second. -/
theorem bind (hm : Follows x m) (hf : ∀ a, Follows (g a) (f a)) : Follows (x >>= g) (m >>= f) := by
  refine ⟨?_, hm.finds.bind fun a => (hf a).finds⟩
  have hg : g = fun a => Watched.perform (f a) := funext fun a => (hf a).eq
  rw [hm.eq, hg]
  funext w
  obtain ⟨s, seen, muted⟩ := w
  cases muted with
  | false => rfl
  | true =>
      show Watched.perform (f (m ⟨s, none⟩).1) ⟨(m ⟨s, none⟩).2.state, seen, true⟩ =
        (((m >>= f) ⟨s, none⟩).1, ⟨((m >>= f) ⟨s, none⟩).2.state, seen, true⟩)
      rw [(hm.finds s).bind_run]
      rfl

theorem current : Follows (Watched.perform Run.current) Run.current :=
  .perform (.silent fun _ _ => rfl)

theorem become (s : ProgramState) : Follows (Watched.perform (Run.become s)) (Run.become s) :=
  .perform (.silent fun _ _ => rfl)

theorem changeHeap (f : Heap → Heap) :
    Follows (Watched.perform (Run.changeHeap f)) (Run.changeHeap f) :=
  .perform (.silent fun _ _ => rfl)

theorem ite {c : Prop} [Decidable c] (h : Follows x m) (h' : Follows x' m') :
    Follows (if c then x else x') (if c then m else m') := by
  split
  · exact h
  · exact h'

theorem reachable {x : Watched Value} {m : Eval Value} (h : Follows x m) : Follows (do
    if !(← Watched.perform Run.current).isReachable then return .bottom else x) (do
    if !(← Run.current).isReachable then return .bottom else m) :=
  current.bind fun _ => ite (pure _) h

theorem mapM (hf : ∀ a, Follows (g a) (f a)) (l : List α) : Follows (l.mapM g) (l.mapM f) := by
  induction l with
  | nil => exact pure _
  | cons a rest ih =>
      rw [List.mapM_cons, List.mapM_cons]
      exact (hf a).bind fun _ => ih.bind fun _ => pure _

theorem forM {g : α → Watched PUnit} {f : α → Eval PUnit} (hf : ∀ a, Follows (g a) (f a))
    (l : List α) : Follows (l.forM g) (l.forM f) := by
  induction l with
  | nil => exact pure _
  | cons a rest ih => exact (hf a).bind fun _ => ih

end Follows

end Watched

/-- What a step gives and the state after it are the same with an observer and without one. -/
theorem Finds.perform_apply {α : Type} {P : Diagnostic → Prop} {m : Eval α} (hm : Finds P m)
    (s : ProgramState) (seen : Option Observations) (muted : Bool) :
    (Watched.perform m ⟨s, seen, muted⟩).1 = (m ⟨s, none⟩).1 ∧
      (Watched.perform m ⟨s, seen, muted⟩).2.state = (m ⟨s, none⟩).2.state := by
  cases muted with
  | true => exact ⟨rfl, rfl⟩
  | false =>
      cases seen with
      | none => exact ⟨rfl, rfl⟩
      | some o =>
          obtain ⟨-, o', heq, -⟩ := hm s o
          show (m ⟨s, some o⟩).1 = _ ∧ (m ⟨s, some o⟩).2.state = _
          rw [heq]
          exact ⟨rfl, rfl⟩

namespace Watched

/-- What there is to see is asked of an observer who is not muted, and of no other. -/
theorem perform_observe (f : Observations → Observations) : perform (Run.observe f) =
    modify fun w => { w with seen := if w.muted then w.seen else w.seen.map f } := by
  funext w
  obtain ⟨s, seen, muted⟩ := w
  cases muted <;> rfl

/-- Whether an observer only sees. What is given and the state after it are the same with any
observer and with none, muted or not; who is muted stays so and sees nothing. -/
structure Neutral {α : Type} (x : Watched α) : Prop where
  value_eq : ∀ s seen seen' muted muted',
    (x ⟨s, seen, muted⟩).1 = (x ⟨s, seen', muted'⟩).1
  state_eq : ∀ s seen seen' muted muted',
    (x ⟨s, seen, muted⟩).2.state = (x ⟨s, seen', muted'⟩).2.state
  muted_eq : ∀ w, (x w).2.muted = w.muted
  muted_seen : ∀ s seen, (x ⟨s, seen, true⟩).2.seen = seen
  unobserved : ∀ s muted, (x ⟨s, none, muted⟩).2.seen = none

theorem Follows.neutral {α : Type} {x : Watched α} {m : Eval α} (h : Follows x m) : Neutral x := by
  rw [h.eq]
  constructor
  · intro s seen seen' muted muted'
    rw [(h.finds.perform_apply s seen muted).1, (h.finds.perform_apply s seen' muted').1]
  · intro s seen seen' muted muted'
    rw [(h.finds.perform_apply s seen muted).2, (h.finds.perform_apply s seen' muted').2]
  · intro w
    rfl
  · intro s seen
    rfl
  · intro s muted
    cases muted with
    | true => rfl
    | false => exact congrArg Run.seen (h.finds s).run_eq

/-- What is looked at aside is its value on a run that nobody observes, and the watched run is the
one before. -/
theorem aside_perform (m : Eval α) (s : ProgramState) :
    aside (perform m) s = pure (m ⟨s, none⟩).1 := rfl

section Conditions

variable {eval : Expr → ProgramState → Watched Value} {look : Expr → ProgramState → Value}
  (heval : ∀ e s, eval e s = pure (look e s)) (domains : DomainSet)
include heval

theorem compareWith_eq (op : CompOp) (side other : Expr) (s : ProgramState) :
    compareWith eval domains op side other s =
      pure (s.compareWith look domains op side other) := by
  unfold compareWith ProgramState.compareWith
  cases side.name? with
  | none => rfl
  | some x =>
      dsimp only
      rw [heval]
      rfl

theorem narrow_eq (cond : Expr) (outcome : Bool) (s : ProgramState) :
    narrow eval domains cond outcome s = pure (ProgramState.narrow look domains cond outcome s) := by
  fun_induction ProgramState.narrow look domains cond outcome s with
  | case1 id operand outcome s ih => exact ih
  | case2 id op left right s ihl ihr =>
      rw [narrow, if_pos rfl, ihl, pure_bind, ihr]
  | case3 id op left right outcome s h => rw [narrow, if_neg h]
  | case4 id op left right outcome s =>
      rw [narrow, compareWith_eq heval, pure_bind, compareWith_eq heval]
  | case5 => rfl
  | case6 cond outcome s hnot hbool hcompare hname =>
      rw [narrow] <;> assumption

theorem assume_eq (s : ProgramState) (cond : Expr) (outcome : Bool) :
    assume eval domains s cond outcome = pure (s.assume look domains cond outcome) := by
  unfold assume ProgramState.assume
  split
  · rfl
  · rw [heval, pure_bind]
    split
    · rfl
    · rw [narrow_eq heval, pure_bind]

end Conditions

end Watched

namespace FunctionScope

variable (scope : FunctionScope)

section Evaluation

open Watched (Follows perform)

theorem everything : scope.Hereditary (fun _ => True) fun _ => Finds (fun _ => True) :=
  scope.hereditary_finds _

theorem follows_checkAccess (location : Nat) (receiver : Expr) (value : Value) (access : String) :
    Follows (perform (scope.checkAccess location receiver value access))
      (scope.checkAccess location receiver value access) :=
  .perform (scope.everything.elementary.checkAccess (fun _ _ _ => trivial) _ _ _ _)

theorem follows_checkIndex (location base : Nat) (index : Value) :
    Follows (perform (scope.checkIndex location base index))
      (scope.checkIndex location base index) :=
  .perform (scope.everything.elementary.checkIndex (fun _ _ _ => trivial) _ _ _)

/-- By induction on the levels: what is looked at inside of a condition is an evaluation of fewer
levels, which follows whether or not the observer is muted. -/
theorem follows_watchWithin (n : Nat) (e : Expr) :
    Follows (scope.watchWithin n e) (scope.evalWithin n e) := by
  induction n generalizing e with
  | zero => exact .pure _
  | succ n ih =>
      cases e with
      | literal | unsupported =>
          rw [watchWithin, evalWithin]
          exact .reachable (.pure _)
      | name =>
          rw [watchWithin, evalWithin]
          exact .reachable (Follows.current.bind fun _ => .pure _)
      | binOp id op left right | compare id op left right =>
          rw [watchWithin, evalWithin]
          exact .reachable ((ih left).bind fun _ => (ih right).bind fun _ => .pure _)
      | boolOp id op left right =>
          have look (e : Expr) (s : ProgramState) : Watched.aside (scope.watchWithin n e) s =
              pure (scope.evalWithin n e ⟨s, none⟩).1 := by
            rw [(ih e).eq, Watched.aside_perform]
          rw [watchWithin, evalWithin]
          refine .reachable ((ih left).bind fun l => ?_)
          refine .ite (.pure _) (.ite (ih right) ?_)
          refine Follows.current.bind fun s => ?_
          dsimp only
          rw [Watched.assume_eq look, pure_bind]
          refine (Follows.become _).bind fun _ => (ih right).bind fun r => ?_
          exact Follows.current.bind fun _ => (Follows.become _).bind fun _ => .pure _
      | unaryOp id op operand =>
          rw [watchWithin, evalWithin]
          exact .reachable ((ih operand).bind fun _ => .pure _)
      | attr id value field =>
          rw [watchWithin, evalWithin]
          refine .reachable ((ih value).bind fun _ => ?_)
          exact (scope.follows_checkAccess _ _ _ _).bind fun _ =>
            Follows.current.bind fun _ => .pure _
      | subscript id value index =>
          rw [watchWithin, evalWithin]
          refine .reachable ((ih value).bind fun _ => (ih index).bind fun _ => ?_)
          exact (scope.follows_checkAccess _ _ _ _).bind fun _ =>
            (scope.follows_checkIndex _ _ _).bind fun _ =>
              Follows.current.bind fun _ => .pure _
      | call node func args =>
          have finish (receiver : Option (Nat × Value)) : Follows (do
              let values ← args.mapM (scope.watchWithin n)
              if (← perform Run.current).isReachable then
                perform (scope.callSite node func receiver values (args.map Expr.id))
              else return .bottom) (do
              let values ← args.mapM (scope.evalWithin n)
              if (← Run.current).isReachable then
                scope.callSite node func receiver values (args.map Expr.id)
              else return .bottom) :=
            (Follows.mapM ih args).bind fun _ => Follows.current.bind fun _ =>
              .ite (.perform (scope.everything.callSite _ _ _ _ _)) (.pure _)
          rw [watchWithin, evalWithin]
          refine .reachable ?_
          cases func with
          | attr id value method =>
              exact (ih value).bind fun _ =>
                (scope.follows_checkAccess _ _ _ _).bind fun _ => finish _
          | literal | name | binOp | boolOp | unaryOp | compare | subscript | call | collection
          | unsupported => exact finish none
      | collection node kind elements =>
          rw [watchWithin, evalWithin]
          refine .reachable ((Follows.mapM ih elements).bind fun _ => ?_)
          exact Follows.current.bind fun _ =>
            .ite ((Follows.changeHeap _).bind fun _ => .pure _) (.pure _)

theorem follows_watchEval (e : Expr) : Follows (scope.watchEval e) (scope.eval e) :=
  scope.follows_watchWithin _ e

/-- What is looked at aside is the value that the analysis looks at, with nothing left behind. -/
theorem watchAside_eq (e : Expr) (s : ProgramState) :
    scope.watchAside e s = pure (scope.look e s) := by
  rw [watchAside, (scope.follows_watchEval e).eq]
  exact Watched.aside_perform _ s

theorem watchEdge_eq (e : Edge) (source : Block) (s : ProgramState) :
    scope.watchEdge e source s = pure (scope.followEdge e source s) := by
  unfold watchEdge followEdge
  split
  · rfl
  · cases e.kind.outcome? with
    | none => rfl
    | some outcome =>
        cases source.condition? with
        | none => rfl
        | some cond => exact Watched.assume_eq scope.watchAside_eq _ _ _ _

theorem watchElement_eq (iter : Expr) (s : ProgramState) :
    scope.watchElement iter s = pure (scope.elementOf iter s) := by
  have hargs (args : List Expr) : args.mapM (fun a => scope.watchAside a s) =
      (pure (args.map fun a => scope.look a s) : Watched (List Value)) := by
    induction args with
    | nil => rfl
    | cons a rest ih =>
        rw [List.mapM_cons, scope.watchAside_eq, pure_bind, ih, pure_bind]
        rfl
  unfold watchElement elementOf
  cases scope.rangeArgs? iter with
  | none => rfl
  | some args =>
      dsimp only
      rw [hargs, pure_bind]

theorem follows_watchTarget (target : Target) (source : Expr) (v : Value) :
    Follows (scope.watchTarget target source v) (scope.writeTarget target source v) := by
  cases target with
  | name => exact .perform (scope.everything.assign _ _)
  | attr node base field =>
      exact (scope.follows_watchEval base).bind fun _ =>
        (scope.follows_checkAccess _ _ _ _).bind fun _ => .changeHeap _
  | subscript node base index =>
      exact (scope.follows_watchEval base).bind fun _ =>
        (scope.follows_watchEval index).bind fun _ =>
          (scope.follows_checkAccess _ _ _ _).bind fun _ =>
            (scope.follows_checkIndex _ _ _).bind fun _ => .changeHeap _

theorem follows_watchStmt (s : Stmt) : Follows (scope.watchStmt s) (scope.runStmt s) := by
  have hassign (x : String) (v : Value) :
      Follows (perform (scope.assign x v)) (scope.assign x v) :=
    .perform (scope.everything.assign x v)
  have hreturn (v : Value) : Follows (do
      if (← perform Run.current).isReachable then perform (scope.assign returnSlot v)) (do
      if (← Run.current).isReachable then scope.assign returnSlot v) :=
    Follows.current.bind fun _ => .ite (hassign _ _) (.pure _)
  cases s with
  | assign id target value =>
      exact (scope.follows_watchEval value).bind fun _ => Follows.current.bind fun _ =>
        .ite (scope.follows_watchTarget _ _ _) (.pure _)
  | expr id e => exact (scope.follows_watchEval e).bind fun _ => .pure _
  | ret id value =>
      cases value with
      | none => exact hreturn .none
      | some e => exact (scope.follows_watchEval e).bind hreturn
  | functionDef | classDef => exact hassign _ _
  | ifElse | whileLoop | forLoop | brk | cont | pass => exact .pure _

theorem follows_watchItem (item : BlockItem) :
    Follows (scope.watchItem item) (scope.runItem item) := by
  refine Follows.current.bind fun s => .ite ?_ (.pure _)
  cases item with
  | statement stmt => exact scope.follows_watchStmt stmt
  | condition cond =>
      refine (scope.follows_watchEval cond).bind fun v => .ite ?_ (.pure _)
      cases v.truthiness with
      | none => exact .pure _
      | some outcome => exact .perform (scope.everything.report trivial)
  | evaluate e => exact (scope.follows_watchEval e).bind fun _ => .pure _
  | bind node target iter =>
      dsimp only
      rw [scope.watchElement_eq, pure_bind]
      exact .perform (scope.everything.assign _ _)

end Evaluation

section Replay

open Watched (Follows)

theorem follows_forM_watchItem (items : List BlockItem) :
    Follows (items.forM scope.watchItem) (items.forM scope.runItem) :=
  .forM scope.follows_watchItem items

/-- By induction on the items: none of them is observed, so each is what the solver makes of it. -/
theorem forM_runItem_state (items : List BlockItem) (s : ProgramState) :
    (items.forM scope.runItem ⟨s, none⟩).2.state =
      Fixpoint.runItems scope.transfer items s := by
  rw [runItems_eq]
  induction items generalizing s with
  | nil => rfl
  | cons item rest ih =>
      have hnone : (scope.runItem item ⟨s, none⟩).2 = ⟨scope.transfer.item item s, none⟩ :=
        (scope.finds_runItem item s).run_eq
      show (rest.forM scope.runItem (scope.runItem item ⟨s, none⟩).2).2.state = _
      rw [hnone, ih, List.foldl_cons]

theorem watchBlock_apply (items : List BlockItem) (s s' : ProgramState)
    (seen : Option Observations) : scope.watchBlock items s ⟨s', seen, false⟩ =
      let final := (items.forM scope.runItem ⟨s, seen⟩).2
      (⟨⟩, ⟨final.state, final.seen, false⟩) := by
  show items.forM scope.watchItem ⟨s, seen, false⟩ = _
  rw [(scope.follows_forM_watchItem items).eq]
  rfl

theorem watchBlock_state (items : List BlockItem) (s : ProgramState) (w : Watch) :
    (scope.watchBlock items s w).2.state = Fixpoint.runItems scope.transfer items s := by
  show (items.forM scope.watchItem { w with state := s }).2.state = _
  rw [(scope.follows_forM_watchItem items).eq, ← forM_runItem_state]
  exact ((scope.follows_forM_watchItem items).finds.perform_apply s w.seen w.muted).2

/-- By induction on the blocks: the observer, who is not muted, sees what a run of each shows. -/
theorem watchReplay_seen (g : FlowGraph) (solution : Fixpoint.Solution ProgramState)
    (s : ProgramState) :
    (scope.watchReplay g solution ⟨s, some .empty, false⟩).2.seen =
      some (scope.replay g solution) := by
  unfold watchReplay replay
  generalize Observations.empty = seen
  induction List.range g.size generalizing s seen with
  | nil => rfl
  | cons b rest ih =>
      rw [List.foldl_cons, List.forM, Watched.bind_apply]
      cases solution.isReachable b with
      | false => exact ih s seen
      | true =>
          obtain ⟨o, hseen, -⟩ := scope.found_runItems (g.block b).items (solution.entryOf b) seen
          rw [if_pos rfl, if_pos rfl, scope.watchBlock_apply]
          rcases hfinal : (g.block b).items.forM scope.runItem ⟨solution.entryOf b, some seen⟩ with
            ⟨⟨⟩, t, seen'⟩
          rw [hfinal] at hseen
          cases hseen
          dsimp only
          rw [hfinal]
          exact ih t o

/-- What observation leaves as it is in the analysis of a function. -/
structure ObservationNeutral : Prop where
  observe_eq : ∀ f, Watched.perform (Run.observe f) =
    modify fun w => { w with seen := if w.muted then w.seen else w.seen.map f }
  /-- The evaluation beside an observer who can be muted is the one that runs. -/
  eval_eq : ∀ e, scope.watchEval e = Watched.perform (scope.eval e)
  item_eq : ∀ item, scope.watchItem item = Watched.perform (scope.runItem item)
  eval_neutral : ∀ e, (scope.watchEval e).Neutral
  item_neutral : ∀ item, (scope.watchItem item).Neutral
  /-- However deep it stands, looking at a value leaves nothing behind. -/
  aside_eq : ∀ n e s w, Watched.aside (scope.watchWithin n e) s w =
    ((scope.evalWithin n e ⟨s, none⟩).1, w)
  look_eq : ∀ e s w, scope.watchAside e s w = (scope.look e s, w)
  edge_eq : ∀ e source s w, scope.watchEdge e source s w = (scope.followEdge e source s, w)
  /-- Replaying a block gives what the solver made of its entry state; the state that the solver
  has at its end is that one, or an older one above it. -/
  block_state : ∀ g limits start b w,
    let solution := Fixpoint.solve g scope.transfer limits start
    let replayed := (scope.watchBlock (g.block b).items (solution.entryOf b) w).2.state
    replayed = Fixpoint.runItems scope.transfer (g.block b).items (solution.entryOf b) ∧
      (solution.exitOf b = replayed ∨ AbstractDomain.leq replayed (solution.exitOf b) = true)
  replay_seen : ∀ g solution s, (scope.watchReplay g solution ⟨s, some .empty, false⟩).2.seen =
    some (scope.replay g solution)

/-- Observation does not change the analysis of a function. -/
theorem observation_neutral : scope.ObservationNeutral where
  observe_eq := Watched.perform_observe
  eval_eq e := (scope.follows_watchEval e).eq
  item_eq item := (scope.follows_watchItem item).eq
  eval_neutral e := (scope.follows_watchEval e).neutral
  item_neutral item := (scope.follows_watchItem item).neutral
  aside_eq n e s w := by
    rw [(scope.follows_watchWithin n e).eq, Watched.aside_perform]
    rfl
  look_eq e s w := by
    rw [scope.watchAside_eq]
    rfl
  edge_eq e source s w := by
    rw [scope.watchEdge_eq]
    rfl
  block_state g limits start b w := by
    intro solution replayed
    have hreplayed : replayed = Fixpoint.runItems scope.transfer (g.block b).items
        (solution.entryOf b) := scope.watchBlock_state _ _ w
    refine ⟨hreplayed, ?_⟩
    rw [hreplayed]
    exact (Fixpoint.ends_solve rfl).end_eq b
  replay_seen := scope.watchReplay_seen

end Replay

end FunctionScope

end ValueFlow
