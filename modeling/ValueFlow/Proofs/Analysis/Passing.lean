import ValueFlow.Proofs.Analysis.Findings
import ValueFlow.Proofs.Analysis.Locality
/-!
What evaluations pass to functions.

The calls that an evaluation makes are listed along the structure of the expression: first those of
its parts, each in the state in which it is evaluated, then its own. Main statements: an observed
pass records just the calls of this list (`calls_replay`), and all of them are of functions that
call expressions of the function name (`exists_of_mem_passedIn`).
-/

namespace ValueFlow

namespace CallInputs

def recordAll (m : CallInputs) (calls : List (Nat × CallInput)) : CallInputs :=
  calls.foldl (fun m c => m.record c.1 c.2) m

theorem recordAll_append (m : CallInputs) (calls more : List (Nat × CallInput)) :
    m.recordAll (calls ++ more) = (m.recordAll calls).recordAll more := List.foldl_append

end CallInputs

namespace FunctionScope

variable (scope : FunctionScope)

/-- The value of an expression evaluated with a bound on its parts. -/
def valueWithin (n : Nat) (e : Expr) (s : ProgramState) : Value := (scope.evalWithin n e ⟨s, none⟩).1

/-- The state after the evaluation of an expression. -/
def after (n : Nat) (e : Expr) (s : ProgramState) : ProgramState :=
  (scope.evalWithin n e ⟨s, none⟩).2.state

/-- Expressions that are evaluated in turn, each with the state that the ones before it left. -/
def inTurn (n : Nat) : List Expr → ProgramState → List (Expr × ProgramState)
  | [], _ => []
  | e :: rest, s => (e, s) :: inTurn n rest (scope.after n e s)

def receiver (n : Nat) : Expr → Eval (Option (Nat × Value))
  | .attr id value method => do
      let v ← scope.evalWithin n value
      scope.checkAccess id value v s!"method '{method}'"
      return some (value.id, v)
  | _ => return none

/-- The part of what is called that is evaluated. -/
def receiverParts : Expr → ProgramState → List (Expr × ProgramState)
  | .attr _ value _, s => [(value, s)]
  | _, _ => []

/-- The parts of an expression that are evaluated, with the states in which they are. -/
def partsWithin (n : Nat) (e : Expr) (s : ProgramState) : List (Expr × ProgramState) :=
  match e with
  | .binOp _ _ left right | .compare _ _ left right => scope.inTurn n [left, right] s
  | .subscript _ value index => scope.inTurn n [value, index] s
  | .unaryOp _ _ e | .attr _ e _ => [(e, s)]
  | .boolOp _ op left right =>
      let l := scope.valueWithin n left s
      let goesOn := decide (op = .and)
      let s' := scope.after n left s
      (left, s) ::
        if l.isBottom || l.truthiness = some (!goesOn) then []
        else if l.truthiness = some goesOn then [(right, s')]
        else [(right, s'.assume (scope.valueWithin n) scope.domains left goesOn)]
  | .call _ func args =>
      receiverParts func s ++ scope.inTurn n args (scope.receiver n func ⟨s, none⟩).2.state
  | .collection _ _ elements => scope.inTurn n elements s
  | .literal _ _ | .name _ _ | .unsupported _ _ => []

/-- The input that a call makes for a function: one value for each parameter, any value where an
argument is missing, and the heap. -/
def inputFor (function : Nat) (args : List Value) (heap : Heap) : CallInput :=
  let params := scope.facts.index.params function
  ⟨(List.range params.length).map fun i => args.getD i .top, heap.entryView⟩

/-- The calls of the targets of a site. -/
def callsOf (site : CallSite) (args : List Value) (heap : Heap) : List (Nat × CallInput) :=
  site.targets.toList.map fun f => (f, scope.inputFor f args heap)

/-- The calls that a call expression makes once its receiver and arguments are evaluated. -/
def callsAt (node : Nat) (receiver : Option (Nat × Value)) (args : List Value) (heap : Heap) :
    List (Nat × CallInput) :=
  match scope.facts.calls.site? node with
  | none => []
  | some site =>
      match site.kind with
      | .construct _ =>
          scope.callsOf site (.notNull :: args) (heap.allocateAt scope.pointsTo node)
      | .direct => scope.callsOf site args heap
      | .virtual _ _ =>
          let self := ((receiver.map fun r => r.2.meet .notNull).filter fun v => !v.isBottom).getD
            .notNull
          scope.callsOf site (self :: args) heap
      | .unknown _ => []

/-- The calls that an expression makes besides those of its parts. -/
def ownCalls (n : Nat) (e : Expr) (s : ProgramState) : List (Nat × CallInput) :=
  match e with
  | .call node func args =>
      let called := scope.receiver n func ⟨s, none⟩
      let passed := args.mapM (scope.evalWithin n) ⟨called.2.state, none⟩
      if passed.2.state.isReachable then scope.callsAt node called.1 passed.1 passed.2.state.heap
      else []
  | _ => []

/-- The calls that the evaluation of an expression in a state makes. -/
def passedWithin : Nat → Expr → ProgramState → List (Nat × CallInput)
  | 0, _, _ => []
  | n + 1, e, s =>
      if s.isReachable then
        (scope.partsWithin n e s).flatMap (fun p => passedWithin n p.1 p.2) ++ scope.ownCalls n e s
      else []

/-- The calls that the evaluation of an expression makes. -/
def passed (e : Expr) (s : ProgramState) : List (Nat × CallInput) := scope.passedWithin e.height e s

/-- The calls that the evaluation of expressions in turn makes. -/
def passedInTurn : List Expr → ProgramState → List (Nat × CallInput)
  | [], _ => []
  | e :: rest, s => scope.passed e s ++ passedInTurn rest (scope.eval e ⟨s, none⟩).2.state

/-- The expressions that an item evaluates one after the other, as long as the state is
reachable. -/
def evaluated : BlockItem → List Expr
  | .statement (.assign _ target value) => value :: target.exprs
  | .statement (.expr _ e) | .condition e | .evaluate e => [e]
  | .statement (.ret _ value) => value.toList
  | _ => []

/-- The calls that the run of an item makes. -/
def passedBy (item : BlockItem) (s : ProgramState) : List (Nat × CallInput) :=
  if s.isReachable then scope.passedInTurn (evaluated item) s else []

/-- The calls that the run of several items makes. -/
def passedThrough : List BlockItem → ProgramState → List (Nat × CallInput)
  | [], _ => []
  | i :: rest, s => scope.passedBy i s ++ passedThrough rest (scope.transfer.item i s)

/-- The calls that a pass over a solution makes. -/
def passedIn (g : FlowGraph) (solution : Fixpoint.Solution ProgramState) : List (Nat × CallInput) :=
  (List.range g.size).flatMap fun b =>
    if solution.isReachable b then scope.passedThrough (g.block b).items (solution.entryOf b)
    else []

end FunctionScope

/-- Whether observing a step from a state changes nothing but what is seen, and the inputs seen are
those of given calls. -/
structure PassesAt {α : Type} (m : Eval α) (s : ProgramState) (calls : List (Nat × CallInput)) :
    Prop where
  found : FindsAt (fun _ => True) m s
  recorded : ∀ {o o'}, (m ⟨s, some o⟩).2.seen = some o' → o'.calls = o.calls.recordAll calls

namespace PassesAt

variable {α β : Type} {m : Eval α} {f : α → Eval β} {s : ProgramState}
  {calls more : List (Nat × CallInput)}

theorem bind (hm : PassesAt m s calls)
    (hf : PassesAt (f (m ⟨s, none⟩).1) (m ⟨s, none⟩).2.state more) :
    PassesAt (m >>= f) s (calls ++ more) := by
  refine ⟨hm.found.bind hf.found, fun {o o'} ho => ?_⟩
  obtain ⟨-, o₁, heq, -⟩ := hm.found o
  have hseen : (m >>= f) ⟨s, some o⟩ = f (m ⟨s, none⟩).1 ⟨(m ⟨s, none⟩).2.state, some o₁⟩ := by
    show f (m ⟨s, some o⟩).1 (m ⟨s, some o⟩).2 = _
    rw [heq]
  rw [hseen] at ho
  have hrecorded := hm.recorded (congrArg (fun r => r.2.seen) heq)
  rw [CallInputs.recordAll_append, ← hrecorded]
  exact hf.recorded ho

/-- A step that makes no calls, before or after others. -/
theorem bind_quiet (hm : PassesAt m s calls)
    (hf : PassesAt (f (m ⟨s, none⟩).1) (m ⟨s, none⟩).2.state []) : PassesAt (m >>= f) s calls := by
  have h := hm.bind hf
  rwa [List.append_nil] at h

theorem observe {f : Observations → Observations} (hf : ∀ o, (f o).calls = o.calls.recordAll calls) :
    PassesAt (Run.observe f) s calls :=
  ⟨fun o => ⟨rfl, f o, rfl, fun _ _ => .inr trivial⟩, fun {o _} h => Option.some.inj h ▸ hf o⟩

theorem ite {c : Prop} [Decidable c] {m' : Eval α} (hm : PassesAt m s calls)
    (hm' : PassesAt m' s more) :
    PassesAt (if c then m else m') s (if c then calls else more) := by
  split
  · exact hm
  · exact hm'

end PassesAt

/-- Whether a step makes no calls. -/
def Quiet {α : Type} (m : Eval α) : Prop := ∀ s, PassesAt m s []

namespace Quiet

variable {α β : Type} {m : Eval α} {f : α → Eval β}

theorem bind (hm : Quiet m) (hf : ∀ a, Quiet (f a)) : Quiet (m >>= f) :=
  fun s => (hm s).bind (hf _ _)

theorem ite {c : Prop} [Decidable c] {m' : Eval α} (hm : Quiet m) (hm' : Quiet m') :
    Quiet (if c then m else m') := by
  split
  · exact hm
  · exact hm'

theorem andThen {s : ProgramState} {calls : List (Nat × CallInput)} (hm : Quiet m)
    (hf : PassesAt (f (m ⟨s, none⟩).1) (m ⟨s, none⟩).2.state calls) : PassesAt (m >>= f) s calls :=
  (hm s).bind hf

theorem of_eq {m : Eval α} (value : ProgramState → α) (state : ProgramState → ProgramState)
    (h : ∀ s seen, m ⟨s, seen⟩ = (value s, ⟨state s, seen⟩)) : Quiet m := by
  intro s
  refine ⟨fun o => ⟨?_, o, ?_, fun _ _ => .inr trivial⟩, fun {o o'} ho => ?_⟩
  · rw [h]
  · rw [h, h]
  · rw [h] at ho
    exact Option.some.inj ho ▸ rfl

theorem pure (a : α) : Quiet (pure a : Eval α) := of_eq _ id fun _ _ => rfl

theorem current : Quiet Run.current := of_eq _ id fun _ _ => rfl

theorem become (s : ProgramState) : Quiet (Run.become s) := of_eq _ (fun _ => s) fun _ _ => rfl

theorem changeHeap (f : Heap → Heap) : Quiet (Run.changeHeap f) :=
  of_eq _ (fun s => { s with heap := f s.heap }) fun _ _ => rfl

theorem observe {f : Observations → Observations} (hf : ∀ o, (f o).calls = o.calls) :
    Quiet (Run.observe f) := fun _ => PassesAt.observe hf

theorem report (d : Diagnostic) : Quiet (Run.report d) := observe fun _ => rfl

end Quiet

namespace FunctionScope

variable (scope : FunctionScope)

theorem elementary_quiet : Elementary (fun _ => True) fun _ => Quiet where
  pure := .pure
  bind := .bind
  current := .current
  become := .become
  changeHeap := .changeHeap
  report := fun _ => .report _

theorem quiet_checkAccess (location : Nat) (receiver : Expr) (value : Value) (access : String) :
    Quiet (scope.checkAccess location receiver value access) :=
  elementary_quiet.checkAccess (fun _ _ _ => trivial) _ _ _ _

theorem quiet_checkIndex (location base : Nat) (index : Value) :
    Quiet (scope.checkIndex location base index) :=
  elementary_quiet.checkIndex (fun _ _ _ => trivial) _ _ _

theorem quiet_recordTargets (site : CallSite) : Quiet (scope.recordTargets site) :=
  .observe fun _ => rfl

theorem quiet_assign (x : String) (v : Value) : Quiet (scope.assign x v) :=
  .of_eq _ (fun s => { s with env := s.env.set x v scope.domains }) fun _ _ => rfl

theorem passes_recordCall (f : Nat) (args : List Value) (heap : Heap) (s : ProgramState) :
    PassesAt (scope.recordCall f args heap) s [(f, scope.inputFor f args heap)] :=
  .observe fun _ => rfl

theorem passes_callTargets (site : CallSite) (args : List Value) (argNodes : List Nat)
    (s : ProgramState) :
    PassesAt (scope.callTargets site args argNodes) s (scope.callsOf site args s.heap) := by
  have hrecord : ∀ targets : List Nat, ∀ s' : ProgramState,
      PassesAt (targets.forM fun f => scope.recordCall f args s.heap) s'
        (targets.map fun f => (f, scope.inputFor f args s.heap)) := by
    intro targets
    induction targets with
    | nil => exact Quiet.pure _
    | cons f rest ih =>
        intro s'
        exact (scope.passes_recordCall f args s.heap s').bind (ih s')
  unfold callTargets
  refine Quiet.current.andThen (PassesAt.bind_quiet (hrecord _ s) ?_)
  refine Quiet.ite ?_ ?_ _
  · exact .bind (.become _) fun _ => .pure _
  · exact .bind (.changeHeap _) fun _ => .pure _

theorem passes_callSite (node : Nat) (func : Expr) (receiver : Option (Nat × Value))
    (args : List Value) (argNodes : List Nat) (s : ProgramState) :
    PassesAt (scope.callSite node func receiver args argNodes) s
      (scope.callsAt node receiver args s.heap) := by
  have finish : Quiet (do return if (← Run.current).isReachable then Value.notNull else .bottom) :=
    .bind .current fun _ => .pure _
  have hknown : ∀ {site}, scope.facts.calls.site? node = some site →
      (scope.facts.calls.site? node).filter (fun s => !s.targets.isEmpty) =
        if site.targets.isEmpty then none else some site := by
    intro site hsite
    rw [hsite, Option.filter_some]
    cases site.targets.isEmpty <;> rfl
  rw [callSite, callsAt]
  cases hsite : scope.facts.calls.site? node with
  | none => exact elementary_quiet.callNamed _ _ _ s
  | some site =>
      have hknown := hknown hsite
      rw [hsite] at hknown
      by_cases htargets : site.targets.isEmpty = true
      · rw [hknown, if_pos htargets]
        have hnone : ∀ args heap, scope.callsOf site args heap = [] := by
          intro args heap
          have hnil : site.targets.toList = [] := List.isEmpty_iff.1 htargets
          rw [callsOf, hnil, List.map_nil]
        simp only [hnone, Option.map_some]
        cases site.kind with
        | construct => exact Quiet.bind (.changeHeap _) (fun _ => finish) s
        | direct => exact elementary_quiet.callNamed _ _ _ s
        | virtual => exact elementary_quiet.callMethod _ _ _ _ s
        | unknown => exact elementary_quiet.callNamed _ _ _ s
      · rw [hknown, if_neg htargets]
        dsimp only [Option.map_some]
        refine (scope.quiet_recordTargets site).andThen ?_
        cases site.kind with
        | construct =>
            refine (Quiet.changeHeap _).andThen ?_
            exact PassesAt.bind_quiet (scope.passes_callTargets _ _ _ _) (finish _)
        | direct => exact scope.passes_callTargets _ _ _ s
        | virtual => exact scope.passes_callTargets _ _ _ s
        | unknown => exact elementary_quiet.callNamed _ _ _ s

theorem guarded {m : Eval Value} {s : ProgramState} {calls : List (Nat × CallInput)}
    (hm : PassesAt m s calls) :
    PassesAt (do if !(← Run.current).isReachable then return .bottom else m) s
      (if s.isReachable then calls else []) := by
  refine Quiet.current.andThen ?_
  show PassesAt (if !s.isReachable then pure .bottom else m) s _
  cases s.isReachable with
  | true => exact hm
  | false => exact Quiet.pure _ s

def passedParts (n : Nat) (parts : List (Expr × ProgramState)) : List (Nat × CallInput) :=
  parts.flatMap fun p => scope.passedWithin n p.1 p.2

theorem passedParts_cons (n : Nat) (e : Expr) (s : ProgramState)
    (rest : List (Expr × ProgramState)) : scope.passedParts n ((e, s) :: rest) =
      scope.passedWithin n e s ++ scope.passedParts n rest := List.flatMap_cons

theorem passedParts_one (n : Nat) (e : Expr) (s : ProgramState) :
    scope.passedParts n [(e, s)] = scope.passedWithin n e s := List.append_nil _

theorem passedWithin_succ (n : Nat) (e : Expr) (s : ProgramState) : scope.passedWithin (n + 1) e s =
    if s.isReachable then scope.passedParts n (scope.partsWithin n e s) ++ scope.ownCalls n e s
    else [] := rfl

theorem passes_mapM {n : Nat}
    (h : ∀ e s, PassesAt (scope.evalWithin n e) s (scope.passedWithin n e s)) (l : List Expr)
    (s : ProgramState) :
    PassesAt (l.mapM (scope.evalWithin n)) s (scope.passedParts n (scope.inTurn n l s)) := by
  induction l generalizing s with
  | nil => exact Quiet.pure _ s
  | cons e rest ih =>
      rw [List.mapM_cons]
      refine (h e s).bind ?_
      exact (ih (scope.after n e s)).bind_quiet (Quiet.pure _ _)

theorem passes_receiver {n : Nat}
    (h : ∀ e s, PassesAt (scope.evalWithin n e) s (scope.passedWithin n e s)) (func : Expr)
    (s : ProgramState) :
    PassesAt (scope.receiver n func) s (scope.passedParts n (receiverParts func s)) := by
  cases func with
  | attr id value method =>
      rw [receiverParts, passedParts_one]
      refine (h value s).bind_quiet ?_
      exact Quiet.bind (scope.quiet_checkAccess _ _ _ _) (fun _ => .pure _) _
  | literal | name | binOp | boolOp | unaryOp | compare | subscript | call | collection
  | unsupported => exact Quiet.pure _ s

theorem passes_pair {n : Nat}
    (h : ∀ e s, PassesAt (scope.evalWithin n e) s (scope.passedWithin n e s)) (left right : Expr)
    {f : Value → Value → Eval Value} (hf : ∀ l r, Quiet (f l r)) (s : ProgramState) :
    PassesAt (do
      let l ← scope.evalWithin n left
      let r ← scope.evalWithin n right
      f l r) s (scope.passedParts n (scope.inTurn n [left, right] s)) := by
  rw [inTurn, passedParts_cons]
  refine (h left s).bind ?_
  rw [inTurn, inTurn, passedParts_one]
  exact (h right _).bind_quiet (hf _ _ _)

/-- An observed evaluation records the calls that it makes, and changes nothing else. -/
theorem passes_evalWithin (n : Nat) (e : Expr) (s : ProgramState) :
    PassesAt (scope.evalWithin n e) s (scope.passedWithin n e s) := by
  induction n generalizing e s with
  | zero => exact Quiet.pure _ s
  | succ n ih =>
      have parts (l : List (Expr × ProgramState)) {m : Eval Value}
          (hm : PassesAt m s (scope.passedParts n l)) (hl : scope.partsWithin n e s = l)
          (hown : scope.ownCalls n e s = []) :
          PassesAt (do if !(← Run.current).isReachable then return .bottom else m) s
            (scope.passedWithin (n + 1) e s) := by
        rw [passedWithin_succ, hl, hown, List.append_nil]
        exact guarded hm
      cases e with
      | literal | unsupported =>
          rw [evalWithin]
          exact parts [] (Quiet.pure _ s) rfl rfl
      | name =>
          rw [evalWithin]
          exact parts [] (Quiet.bind .current (fun _ => .pure _) s) rfl rfl
      | binOp id op left right | compare id op left right =>
          rw [evalWithin]
          exact parts _ (scope.passes_pair ih left right (fun _ _ => .pure _) s) rfl rfl
      | boolOp id op left right =>
          rw [evalWithin]
          refine parts _ ?_ rfl rfl
          rw [partsWithin, passedParts_cons]
          refine (ih left s).bind ?_
          have hvalue : scope.valueWithin n left s = (scope.evalWithin n left ⟨s, none⟩).1 := rfl
          have hafter : scope.after n left s = (scope.evalWithin n left ⟨s, none⟩).2.state := rfl
          rw [hvalue, hafter]
          generalize scope.evalWithin n left ⟨s, none⟩ = l
          dsimp only
          by_cases hstop : (l.1.isBottom || decide (l.1.truthiness = some !decide (op = .and))) = true
          · rw [if_pos hstop, if_pos hstop]
            exact Quiet.pure _ _
          · rw [if_neg hstop, if_neg hstop]
            by_cases hon : l.1.truthiness = some (decide (op = .and))
            · rw [if_pos hon, if_pos hon, passedParts_one]
              exact ih right _
            · rw [if_neg hon, if_neg hon, passedParts_one]
              refine Quiet.current.andThen ?_
              refine (Quiet.become _).andThen ?_
              refine (ih right _).bind_quiet ?_
              exact Quiet.bind .current (fun _ => .bind (.become _) fun _ => .pure _) _
      | unaryOp id op operand =>
          rw [evalWithin]
          refine parts [(operand, s)] ?_ rfl rfl
          rw [passedParts_one]
          exact (ih operand s).bind_quiet (Quiet.pure _ _)
      | attr id value field =>
          rw [evalWithin]
          refine parts [(value, s)] ?_ rfl rfl
          rw [passedParts_one]
          refine (ih value s).bind_quiet ?_
          exact Quiet.bind (scope.quiet_checkAccess _ _ _ _)
            (fun _ => .bind .current fun _ => .pure _) _
      | subscript id value index =>
          rw [evalWithin]
          refine parts _ (scope.passes_pair ih value index (fun _ _ => ?_) s) rfl rfl
          refine .bind (scope.quiet_checkAccess _ _ _ _) fun _ => ?_
          exact .bind (scope.quiet_checkIndex _ _ _) fun _ => .bind .current fun _ => .pure _
      | call node func args =>
          have hcall : PassesAt (do
              let receiver ← scope.receiver n func
              let values ← args.mapM (scope.evalWithin n)
              if (← Run.current).isReachable then
                scope.callSite node func receiver values (args.map Expr.id)
              else return .bottom) s (scope.passedParts n (scope.partsWithin n (.call node func args) s)
                ++ scope.ownCalls n (.call node func args) s) := by
            rw [partsWithin, passedParts, List.flatMap_append, List.append_assoc]
            refine (scope.passes_receiver ih func s).bind ?_
            refine (scope.passes_mapM ih args _).bind ?_
            refine Quiet.current.andThen ?_
            exact PassesAt.ite (scope.passes_callSite _ _ _ _ _ _) (Quiet.pure _ _)
          rw [passedWithin_succ, evalWithin]
          refine guarded ?_
          cases func with
          | attr =>
              simp only [receiver, bind_assoc, pure_bind] at hcall
              exact hcall
          | literal | name | binOp | boolOp | unaryOp | compare | subscript | call | collection
          | unsupported => exact hcall
      | collection node kind elements =>
          rw [evalWithin]
          refine parts _ ?_ rfl rfl
          refine (scope.passes_mapM ih elements s).bind_quiet ?_
          refine Quiet.bind .current (fun _ => .ite ?_ (.pure _)) _
          exact .bind (.changeHeap _) fun _ => .pure _

theorem passes_eval (e : Expr) (s : ProgramState) : PassesAt (scope.eval e) s (scope.passed e s) :=
  scope.passes_evalWithin e.height e s

variable {scope} in
theorem passedWithin_of_unreachable {s : ProgramState} (hs : s.isReachable = false) (n : Nat)
    (e : Expr) : scope.passedWithin n e s = [] := by
  cases n with
  | zero => rfl
  | succ n => rw [passedWithin_succ, hs, if_neg Bool.false_ne_true]

variable {scope} in
theorem passedInTurn_of_unreachable {s : ProgramState} (hs : s.isReachable = false)
    (l : List Expr) : scope.passedInTurn l s = [] := by
  induction l with
  | nil => rfl
  | cons e rest ih =>
      rw [passedInTurn, passed, passedWithin_of_unreachable hs, eval, evalWithin_of_unreachable hs]
      exact ih

theorem passedInTurn_one (e : Expr) (s : ProgramState) : scope.passedInTurn [e] s = scope.passed e s :=
  List.append_nil _

/-- A step that is made only in a reachable state. -/
theorem passes_reached {m : Eval Unit} {s : ProgramState} {l : List Expr}
    (hm : PassesAt m s (scope.passedInTurn l s)) :
    PassesAt (do if (← Run.current).isReachable then m) s (scope.passedInTurn l s) := by
  refine Quiet.current.andThen ?_
  show PassesAt (if s.isReachable then m else pure ⟨⟩) s _
  cases hs : s.isReachable with
  | true => exact hm
  | false =>
      rw [passedInTurn_of_unreachable hs]
      exact Quiet.pure _ s

theorem passes_writeTarget (target : Target) (source : Expr) (v : Value) (s : ProgramState) :
    PassesAt (scope.writeTarget target source v) s (scope.passedInTurn target.exprs s) := by
  cases target with
  | name => exact scope.quiet_assign _ _ s
  | attr node base field =>
      rw [Target.exprs, passedInTurn_one]
      refine (scope.passes_eval base s).bind_quiet ?_
      exact Quiet.bind (scope.quiet_checkAccess _ _ _ _) (fun _ => .changeHeap _) _
  | subscript node base index =>
      rw [Target.exprs, passedInTurn, passedInTurn_one]
      refine (scope.passes_eval base s).bind ((scope.passes_eval index _).bind_quiet ?_)
      refine Quiet.bind (scope.quiet_checkAccess _ _ _ _) (fun _ => ?_) _
      exact .bind (scope.quiet_checkIndex _ _ _) fun _ => .changeHeap _

theorem quiet_reached_assign (x : String) (v : Value) :
    Quiet (do if (← Run.current).isReachable then scope.assign x v) :=
  .bind .current fun _ => .ite (scope.quiet_assign _ _) (.pure _)

theorem passes_runStmt (stmt : Stmt) (s : ProgramState) :
    PassesAt (scope.runStmt stmt) s (scope.passedInTurn (evaluated (.statement stmt)) s) := by
  cases stmt with
  | assign id target value =>
      rw [evaluated, passedInTurn]
      refine (scope.passes_eval value s).bind ?_
      exact scope.passes_reached (scope.passes_writeTarget target value _ _)
  | expr id e =>
      rw [evaluated, passedInTurn_one]
      exact PassesAt.bind_quiet (f := fun _ => pure ()) (scope.passes_eval e s) (Quiet.pure () _)
  | ret id value =>
      cases value with
      | none => exact scope.quiet_reached_assign _ _ s
      | some e =>
          rw [evaluated, Option.toList_some, passedInTurn_one]
          exact (scope.passes_eval e s).bind_quiet (scope.quiet_reached_assign _ _ _)
  | functionDef | classDef => exact scope.quiet_assign _ _ s
  | ifElse | whileLoop | forLoop | brk | cont | pass => exact Quiet.pure _ s

theorem passes_runItem (item : BlockItem) (s : ProgramState) :
    PassesAt (scope.runItem item) s (scope.passedBy item s) := by
  refine Quiet.current.andThen ?_
  refine PassesAt.ite ?_ (Quiet.pure _ s)
  cases item with
  | statement stmt => exact scope.passes_runStmt stmt s
  | condition cond =>
      rw [evaluated, passedInTurn_one]
      refine (scope.passes_eval cond s).bind_quiet (Quiet.ite ?_ (.pure _) _)
      split
      · exact .report _
      · exact .pure _
  | evaluate e =>
      rw [evaluated, passedInTurn_one]
      exact PassesAt.bind_quiet (f := fun _ => pure ()) (scope.passes_eval e s) (Quiet.pure () _)
  | bind id target iter => exact scope.quiet_assign _ _ s

theorem passes_runItems (items : List BlockItem) (s : ProgramState) :
    PassesAt (items.forM scope.runItem) s (scope.passedThrough items s) := by
  induction items generalizing s with
  | nil => exact Quiet.pure _ s
  | cons i rest ih => exact (scope.passes_runItem i s).bind (ih _)

/-- A pass over a solution records the calls that it makes, in order. -/
theorem calls_replay (g : FlowGraph) (solution : Fixpoint.Solution ProgramState) :
    (scope.replay g solution).calls = CallInputs.recordAll ∅ (scope.passedIn g solution) := by
  have hempty : Observations.empty.calls = ∅ := rfl
  rw [replay, passedIn, ← hempty]
  generalize Observations.empty = seen
  induction List.range g.size generalizing seen with
  | nil => rfl
  | cons b rest ih =>
      rw [List.foldl_cons, ih, List.flatMap_cons, CallInputs.recordAll_append]
      refine congrArg (CallInputs.recordAll · _) ?_
      split
      · have hpass := scope.passes_runItems (g.block b).items (solution.entryOf b)
        obtain ⟨-, o, heq, -⟩ := hpass.found seen
        have hseen := congrArg (fun r => r.2.seen) heq
        show ((((g.block b).items.forM scope.runItem) ⟨solution.entryOf b, some seen⟩).2.seen.getD
          seen).calls = _
        rw [hseen]
        exact hpass.recorded hseen
      · rfl

section Names

variable {scope}

/-- Whether a call expression among the parts of an expression may run a function. -/
def MayCall (scope : FunctionScope) (e : Expr) (f : Nat) : Prop :=
  ∃ node func args site, .call node func args ∈ e.walk ∧
    scope.facts.calls.site? node = some site ∧ f ∈ site.targets.toList

/-- Whether what is passed to a function has a value for each of its parameters. -/
def Fills (scope : FunctionScope) (c : Nat × CallInput) : Prop :=
  ∃ args heap, c.2 = scope.inputFor c.1 args heap

theorem MayCall.mono {e c : Expr} {f : Nat} (h : scope.MayCall c f) (hc : c.walk ⊆ e.walk) :
    scope.MayCall e f := by
  obtain ⟨node, func, args, site, hmem, hsite, hf⟩ := h
  exact ⟨node, func, args, site, hc hmem, hsite, hf⟩

theorem mem_of_mem_inTurn {n : Nat} {l : List Expr} {s : ProgramState} {q : Expr × ProgramState}
    (h : q ∈ scope.inTurn n l s) : q.1 ∈ l := by
  induction l generalizing s with
  | nil => cases h
  | cons e rest ih =>
      rcases List.mem_cons.1 h with rfl | h
      · exact List.mem_cons_self
      · exact List.mem_cons_of_mem _ (ih h)

theorem walk_subset_of_mem_parts {n : Nat} {e : Expr} {s : ProgramState} {q : Expr × ProgramState}
    (h : q ∈ scope.partsWithin n e s) : q.1.walk ⊆ e.walk := by
  cases e with
  | literal | name | unsupported => cases h
  | binOp | compare | subscript | collection =>
      exact Expr.walk_subset_of_mem_children (mem_of_mem_inTurn h)
  | unaryOp | attr =>
      rw [List.mem_singleton.1 h]
      exact Expr.walk_subset_of_mem_children List.mem_cons_self
  | boolOp id op left right =>
      have hright : right ∈ (Expr.boolOp id op left right).children :=
        List.mem_cons_of_mem _ List.mem_cons_self
      rcases List.mem_cons.1 h with rfl | h
      · exact Expr.walk_subset_of_mem_children List.mem_cons_self
      · split at h
        · cases h
        · split at h <;>
          · rw [List.mem_singleton.1 h]
            exact Expr.walk_subset_of_mem_children hright
  | call node func args =>
      rcases List.mem_append.1 h with h | h
      · have hfunc : func.walk ⊆ (Expr.call node func args).walk :=
          Expr.walk_subset_of_mem_children List.mem_cons_self
        cases func with
        | attr id value method =>
            rw [List.mem_singleton.1 h]
            exact List.Subset.trans (Expr.walk_subset_of_mem_children List.mem_cons_self) hfunc
        | literal | name | binOp | boolOp | unaryOp | compare | subscript | call | collection
        | unsupported => cases h
      · exact Expr.walk_subset_of_mem_children (List.mem_cons_of_mem _ (mem_of_mem_inTurn h))

theorem named_of_mem_callsAt {node : Nat} {receiver : Option (Nat × Value)} {args : List Value}
    {heap : Heap} {c : Nat × CallInput} (h : c ∈ scope.callsAt node receiver args heap) :
    (∃ site, scope.facts.calls.site? node = some site ∧ c.1 ∈ site.targets.toList) ∧
      scope.Fills c := by
  have hcalls : ∀ {site args heap}, c ∈ scope.callsOf site args heap →
      c.1 ∈ site.targets.toList ∧ scope.Fills c := by
    intro site args heap hc
    obtain ⟨f, hf, rfl⟩ := List.mem_map.1 hc
    exact ⟨hf, args, heap, rfl⟩
  rw [callsAt] at h
  cases hsite : scope.facts.calls.site? node with
  | none =>
      rw [hsite] at h
      cases h
  | some site =>
      rw [hsite] at h
      dsimp only at h
      have hnamed : c.1 ∈ site.targets.toList ∧ scope.Fills c := by
        split at h
        · exact hcalls h
        · exact hcalls h
        · exact hcalls h
        · cases h
      exact ⟨⟨site, rfl, hnamed.1⟩, hnamed.2⟩

/-- An evaluation passes something only to functions that its call expressions may run. -/
theorem named_of_mem_passedWithin {n : Nat} {e : Expr} {s : ProgramState} {c : Nat × CallInput}
    (h : c ∈ scope.passedWithin n e s) : scope.MayCall e c.1 ∧ scope.Fills c := by
  induction n generalizing e s with
  | zero => cases h
  | succ n ih =>
      rw [passedWithin_succ] at h
      split at h
      · rcases List.mem_append.1 h with h | h
        · obtain ⟨q, hq, hc⟩ := List.mem_flatMap.1 h
          obtain ⟨hcall, hfills⟩ := ih hc
          exact ⟨hcall.mono (walk_subset_of_mem_parts hq), hfills⟩
        · cases e with
          | call node func args =>
              rw [ownCalls] at h
              split at h
              · obtain ⟨⟨site, hsite, hf⟩, hfills⟩ := named_of_mem_callsAt h
                exact ⟨⟨node, func, args, site, Expr.mem_walk_self _, hsite, hf⟩, hfills⟩
              · cases h
          | literal | name | binOp | boolOp | unaryOp | compare | attr | subscript | collection
          | unsupported => cases h
      · cases h

theorem exists_of_mem_passedInTurn {l : List Expr} {s : ProgramState} {c : Nat × CallInput}
    (h : c ∈ scope.passedInTurn l s) : ∃ e ∈ l, scope.MayCall e c.1 ∧ scope.Fills c := by
  induction l generalizing s with
  | nil => cases h
  | cons e rest ih =>
      rcases List.mem_append.1 h with h | h
      · exact ⟨e, List.mem_cons_self, named_of_mem_passedWithin h⟩
      · obtain ⟨e', he, hnamed⟩ := ih h
        exact ⟨e', List.mem_cons_of_mem _ he, hnamed⟩

theorem evaluated_subset (item : BlockItem) : evaluated item ⊆ item.exprs := by
  intro e he
  cases item with
  | statement stmt =>
      cases stmt with
      | assign id target value =>
          rcases List.mem_cons.1 he with rfl | he
          · exact List.mem_append_right _ List.mem_cons_self
          · exact List.mem_append_left _ he
      | expr => exact he
      | ret => exact he
      | functionDef | classDef | ifElse | whileLoop | forLoop | brk | cont | pass => cases he
  | condition | evaluate => exact he
  | bind => cases he

theorem exists_of_mem_passedThrough {items : List BlockItem} {s : ProgramState}
    {c : Nat × CallInput} (h : c ∈ scope.passedThrough items s) :
    ∃ item ∈ items, ∃ e ∈ item.exprs, scope.MayCall e c.1 ∧ scope.Fills c := by
  induction items generalizing s with
  | nil => cases h
  | cons i rest ih =>
      rcases List.mem_append.1 h with h | h
      · rw [passedBy] at h
        split at h
        · obtain ⟨e, he, hnamed⟩ := exists_of_mem_passedInTurn h
          exact ⟨i, List.mem_cons_self, e, evaluated_subset i he, hnamed⟩
        · cases h
      · obtain ⟨item, hitem, hnamed⟩ := ih h
        exact ⟨item, List.mem_cons_of_mem _ hitem, hnamed⟩

/-- Whatever a pass passes to a function was given to a call expression of an item. -/
theorem exists_of_mem_passedIn {g : FlowGraph} {solution : Fixpoint.Solution ProgramState}
    {c : Nat × CallInput} (h : c ∈ scope.passedIn g solution) :
    ∃ b, ∃ item ∈ (g.block b).items, ∃ e ∈ item.exprs, scope.MayCall e c.1 ∧ scope.Fills c := by
  obtain ⟨b, -, hb⟩ := List.mem_flatMap.1 h
  split at hb
  · exact ⟨b, exists_of_mem_passedThrough hb⟩
  · cases hb

end Names

end FunctionScope

end ValueFlow
