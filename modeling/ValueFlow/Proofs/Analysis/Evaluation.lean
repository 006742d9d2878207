import ValueFlow.Proofs.Analysis.Narrowing
/-!
Evaluation over-approximates the values of runs.

An evaluation that starts in a state that describes a store gives a description of the value in
that store, and leaves a state that still describes it. The state stays above the store even where
conditions narrow it, because what they narrow was evaluated. Calls are taken to be covered: what
a call returns in the run is described by the summary of the function that the call site names.
-/

namespace ValueFlow

/-- Whether a step of an evaluation keeps a store described and gives a result that is right. -/
def Yields {α : Type} (domains : DomainSet) (σ : Store) (m : Eval α) (right : α → Prop) : Prop :=
  ∀ r : Run, r.state.Describes domains σ →
    right (m r).1 ∧ (m r).2.state.Describes domains σ

namespace Yields

variable {α β : Type} {domains : DomainSet} {σ : Store} {right : α → Prop} {right' : β → Prop}

theorem pure {a : α} (h : right a) : Yields domains σ (pure a) right := fun _ hr => ⟨h, hr⟩

theorem bind {m : Eval α} {f : α → Eval β} (hm : Yields domains σ m right)
    (hf : ∀ a, right a → Yields domains σ (f a) right') : Yields domains σ (m >>= f) right' :=
  fun r hr => hf _ (hm r hr).1 _ (hm r hr).2

theorem current : Yields domains σ Run.current fun s => s.Describes domains σ :=
  fun _ hr => ⟨hr, hr⟩

theorem become {s : ProgramState} (h : s.Describes domains σ) :
    Yields domains σ (Run.become s) fun _ => True := fun _ _ => ⟨trivial, h⟩

theorem observe (f : Observations → Observations) :
    Yields domains σ (Run.observe f) fun _ => True := fun _ hr => ⟨trivial, hr⟩

theorem changeHeap {f : Heap → Heap} (hf : ∀ h, h.reachable = true → (f h).reachable = true) :
    Yields domains σ (Run.changeHeap f) fun _ => True :=
  fun _ hr => ⟨trivial, hr.env, hf _ hr.heap⟩

/-- In a state that describes a store, something is reached. -/
theorem reachable {m : Eval Value} {right : Value → Prop} (h : Yields domains σ m right) :
    Yields domains σ (do
      if !(← Run.current).isReachable then return .bottom else m) right := by
  refine current.bind fun s hs => ?_
  rw [hs.isReachable]
  exact h

theorem forM {f : α → Eval PUnit} (hf : ∀ a, Yields domains σ (f a) fun _ => True)
    (l : List α) : Yields domains σ (l.forM f) fun _ => True := by
  induction l with
  | nil => exact pure trivial
  | cons a rest ih => exact (hf a).bind fun _ _ => ih

end Yields

namespace Literal

theorem describes_value {l : Literal} {u : Scalar} (h : Scalar.ofLiteral? l = some u) :
    l.value.describes u = true := by
  cases l with
  | int n =>
      cases h
      exact Value.describes_constant n
  | bool b =>
      cases h
      exact Value.describes_ofBool b
  | none =>
      cases h
      rfl
  | str => cases h

end Literal

def ProgramFacts.returnOf (facts : ProgramFacts) (summaries : SummaryTable) (function : Nat) :
    Value :=
  if facts.isMalformed function then .top
  else ((summaries.get? function).map FunctionSummary.returnValue).getD .bottom

namespace FunctionScope

variable (scope : FunctionScope) (call : String → List Scalar → Option Scalar)

/-- Where something is reached, evaluation goes on. -/
theorem guard_eq {t : ProgramState} (ht : t.isReachable = true) (m : Eval Value)
    (seen : Option Observations) :
    (do if !(← Run.current).isReachable then return .bottom else m : Eval Value) ⟨t, seen⟩ =
      m ⟨t, seen⟩ := by
  show (if !t.isReachable then pure .bottom else m : Eval Value) ⟨t, seen⟩ = _
  rw [ht]
  rfl

/-- Whether a call site names one function, of which the summaries describe all that is returned
by calls of a name. -/
def Answers (node : Nat) (f : String) : Prop :=
  ∃ site target, scope.facts.calls.site? node = some site ∧ site.kind = .direct ∧
    site.targets.toList = [target] ∧
    ∀ {vs u}, call f vs = some u →
      (scope.facts.returnOf scope.summaries target).describes u = true

/-- Whether an expression can be evaluated within a number of levels and all calls in it that
return are covered. -/
structure Ready (n : Nat) (e : Expr) : Prop where
  height : e.height ≤ n
  answers : ∀ {node func args f vs u}, .call node func args ∈ e.walk → func.name? = some f →
    call f vs = some u → scope.Answers call node f

variable {scope call} {n : Nat} {e c : Expr} {σ : Store} {u : Scalar}

theorem Ready.mono {m : Nat} (h : scope.Ready call n e) (hnm : n ≤ m) : scope.Ready call m e :=
  ⟨Nat.le_trans h.height hnm, h.answers⟩

theorem Ready.below (h : scope.Ready call (n + 1) e) (hc : c ∈ e.children) :
    scope.Ready call n c :=
  ⟨Nat.le_of_lt_succ (Nat.lt_of_lt_of_le (Expr.height_lt_of_mem_children hc) h.height),
    fun hmem => h.answers (Expr.walk_subset_of_mem_children hc hmem)⟩

theorem Ready.child (h : scope.Ready call n e) (hc : c ∈ e.children) : scope.Ready call n c :=
  (h.mono (Nat.le_succ n)).below hc

/-- Whether looking at expressions of some height gives descriptions of their values. -/
def Sound (scope : FunctionScope) (call : String → List Scalar → Option Scalar) (σ : Store)
    (n : Nat) (look : Expr → ProgramState → Value) : Prop :=
  ∀ {e s u}, scope.Ready call n e → s.Describes scope.domains σ → e.eval? call σ = some u →
    (look e s).describes u = true

section Conditions

variable {look : Expr → ProgramState → Value} {s : ProgramState}

/-- Assuming how a condition turns out keeps a store in which it does. -/
theorem describes_assume {cond : Expr} {outcome : Bool} (hlook : scope.Sound call σ n look)
    (hs : s.Describes scope.domains σ) (hcond : scope.Ready call n cond)
    (hu : cond.eval? call σ = some u) (ho : u.truth = outcome) :
    (s.assume look scope.domains cond outcome).Describes scope.domains σ :=
  (ProgramState.narrows_describes scope.domains σ).assume Ready.child hlook hs hcond hu ho

end Conditions

section Calls

theorem outcomeOf_fst (argNodes : List Nat) (heap : Heap) (target : Nat) :
    (scope.outcomeOf argNodes heap target).1 = scope.facts.returnOf scope.summaries target := by
  rw [outcomeOf, ProgramFacts.returnOf]
  split
  · rfl
  · cases scope.summaries.get? target <;> rfl

theorem reachable_outcomeOf (argNodes : List Nat) (heap : Heap) (target : Nat) :
    (scope.outcomeOf argNodes heap target).2.reachable = heap.reachable := by
  rw [outcomeOf]
  split
  · exact Heap.reachable_invalidateEscaping heap _ _
  · cases scope.summaries.get? target with
    | none => rfl
    | some s => exact Heap.reachable_apply _ heap

/-- A call of one function gives what the summary of the function returns. -/
theorem yields_callTargets {site : CallSite} {target : Nat}
    (htargets : site.targets.toList = [target])
    (hu : (scope.facts.returnOf scope.summaries target).describes u = true) (args : List Value)
    (argNodes : List Nat) : Yields scope.domains σ (scope.callTargets site args argNodes)
      fun v => v.describes u = true := by
  refine Yields.current.bind fun s hs => ?_
  refine (Yields.forM (fun f => Yields.observe _) _).bind fun _ _ => ?_
  have hreturns : [scope.outcomeOf argNodes s.heap target].filter (fun r => !r.1.isBottom) =
      [scope.outcomeOf argNodes s.heap target] := by
    refine List.filter_eq_self.2 fun r hr => ?_
    rw [List.mem_singleton.1 hr, outcomeOf_fst, Value.not_isBottom_of_describes hu]
    rfl
  rw [htargets, List.map_singleton, hreturns]
  refine (Yields.changeHeap fun _ _ => ?_).bind fun _ _ => Yields.pure ?_
  · exact (reachable_outcomeOf argNodes s.heap target).trans hs.heap
  · show ((scope.outcomeOf argNodes s.heap target).1).describes u = true
    rw [outcomeOf_fst]
    exact hu

theorem yields_callSite {node : Nat} {f : String} {vs : List Scalar} {id : Nat}
    (h : scope.Answers call node f) (hu : call f vs = some u) (args : List Value)
    (argNodes : List Nat) :
    Yields scope.domains σ (scope.callSite node (.name id f) none args argNodes)
      fun v => v.describes u = true := by
  obtain ⟨site, target, hsite, hkind, htargets, hreturn⟩ := h
  have hopen : (!site.targets.isEmpty) = true := by
    rw [SortedSet.isEmpty, htargets]
    rfl
  rw [callSite, hsite, Option.filter_some, if_pos hopen, Option.map_some, hkind]
  exact (Yields.observe _).bind fun _ _ => yields_callTargets htargets (hreturn hu) _ _

end Calls

section Evaluation

/-- An evaluation with the store described yields a description of the value. -/
def EvaluatesWithin (scope : FunctionScope) (call : String → List Scalar → Option Scalar)
    (σ : Store) (n : Nat) : Prop :=
  ∀ {e u}, scope.Ready call n e → e.eval? call σ = some u →
    Yields scope.domains σ (scope.evalWithin n e) fun v => v.describes u = true

theorem EvaluatesWithin.sound (h : scope.EvaluatesWithin call σ n) :
    scope.Sound call σ n fun e s => (scope.evalWithin n e ⟨s, none⟩).1 :=
  fun hready hs hu => (h hready hu ⟨_, none⟩ hs).1

theorem EvaluatesWithin.all (h : scope.EvaluatesWithin call σ n) {es : List Expr}
    {us : List Scalar} (hready : ∀ e ∈ es, scope.Ready call n e)
    (hus : Expr.evalAll? call σ es = some us) :
    Yields scope.domains σ (es.mapM (scope.evalWithin n))
      (List.Forall₂ (fun v u => v.describes u = true) · us) := by
  induction es generalizing us with
  | nil =>
      rw [Expr.evalAll?] at hus
      cases hus
      exact Yields.pure .nil
  | cons e rest ih =>
      obtain ⟨u, us, hu, hrest, rfl⟩ := Expr.evalAll?_cons hus
      rw [List.mapM_cons]
      refine (h (hready e List.mem_cons_self) hu).bind fun v hv => ?_
      refine (ih (fun e he => hready e (List.mem_cons_of_mem _ he)) hrest).bind fun vs hvs => ?_
      exact Yields.pure (.cons hv hvs)

/-- Whatever the right side does, the state before it is kept. -/
theorem yields_skipped {l : Value} {s : ProgramState} (hs : s.Describes scope.domains σ)
    (hl : l.describes u = true) (m : Eval Value) (s' : ProgramState) :
    Yields scope.domains σ (do
      Run.become s'
      let r ← m
      Run.become (s.join (← Run.current))
      return l.join r) fun v => v.describes u = true := by
  intro r _
  exact ⟨Value.describes_join_left hl _, hs.join_left _⟩

/-- The right side of a conjunction or disjunction is evaluated where the left side let it. -/
theorem EvaluatesWithin.shortcut (ih : scope.EvaluatesWithin call σ n) {left right : Expr}
    {l : Value} {v : Scalar} {goesOn : Bool} (hleft : scope.Ready call n left)
    (hright : scope.Ready call n right) (hv : left.eval? call σ = some v)
    (hl : l.describes v = true)
    (h : v.truth = goesOn ∧ right.eval? call σ = some u ∨ v.truth ≠ goesOn ∧ u = v) :
    Yields scope.domains σ (
      if l.isBottom || l.truthiness = some (!goesOn) then return l
      else if l.truthiness = some goesOn then scope.evalWithin n right
      else do
        let s ← Run.current
        Run.become (s.assume (fun e s => (scope.evalWithin n e ⟨s, none⟩).1) scope.domains left
          goesOn)
        let r ← scope.evalWithin n right
        Run.become (s.join (← Run.current))
        return l.join r) fun v => v.describes u = true := by
  rw [Value.not_isBottom_of_describes hl, Bool.false_or]
  split
  · next hstop =>
      have hvo := Value.truth_of_truthiness hl (of_decide_eq_true hstop)
      rcases h with ⟨ht, -⟩ | ⟨-, rfl⟩
      · rw [ht] at hvo
        cases goesOn <;> cases hvo
      · exact Yields.pure hl
  · split
    · next hgo =>
        have hvo := Value.truth_of_truthiness hl hgo
        rcases h with ⟨-, hr⟩ | ⟨ht, -⟩
        · exact ih hright hr
        · exact absurd hvo ht
    · refine Yields.current.bind fun s hs => ?_
      rcases h with ⟨ht, hr⟩ | ⟨-, rfl⟩
      · refine (Yields.become (describes_assume ih.sound hs hleft hv ht)).bind fun _ _ => ?_
        refine (ih hright hr).bind fun r hr => ?_
        refine Yields.current.bind fun t _ => ?_
        refine (Yields.become (hs.join_left t)).bind fun _ _ => ?_
        exact Yields.pure (Value.describes_join_right hr l)
      · exact yields_skipped hs hl _ _

/-- Evaluating an expression describes its value, however its parts nest. -/
theorem evaluatesWithin (scope : FunctionScope) (call : String → List Scalar → Option Scalar)
    (σ : Store) (n : Nat) : scope.EvaluatesWithin call σ n := by
  induction n with
  | zero => exact fun {e _} h _ => absurd h.height (Nat.not_le_of_lt e.height_pos)
  | succ n ih =>
      intro e u hready hu
      cases e with
      | literal id l =>
          rw [Expr.eval?] at hu
          rw [evalWithin]
          refine Yields.reachable ?_
          exact Yields.pure (Literal.describes_value hu)
      | name id x =>
          rw [Expr.eval?] at hu
          rw [evalWithin]
          refine Yields.reachable ?_
          exact Yields.current.bind fun t ht => Yields.pure (ht.env.get hu)
      | binOp id op left right =>
          obtain ⟨v, w, hv, hw, h⟩ := Expr.eval?_binOp hu
          rw [evalWithin]
          refine Yields.reachable ?_
          refine (ih (hready.below List.mem_cons_self) hv).bind fun a ha => ?_
          refine (ih (hready.below (List.mem_cons_of_mem _ List.mem_cons_self)) hw).bind
            fun b hb => ?_
          exact Yields.pure (Value.describes_binary h ha hb)
      | unaryOp id op operand =>
          obtain ⟨v, hv, h⟩ := Expr.eval?_unaryOp hu
          rw [evalWithin]
          refine Yields.reachable ?_
          refine (ih (hready.below List.mem_cons_self) hv).bind fun a ha => ?_
          exact Yields.pure (Value.describes_unary h ha)
      | compare id op left right =>
          obtain ⟨v, w, o, hv, hw, h, rfl⟩ := Expr.eval?_compare hu
          rw [evalWithin]
          refine Yields.reachable ?_
          refine (ih (hready.below List.mem_cons_self) hv).bind fun a ha => ?_
          refine (ih (hready.below (List.mem_cons_of_mem _ List.mem_cons_self)) hw).bind
            fun b hb => ?_
          exact Yields.pure (Value.describes_comparison ha hb h)
      | boolOp id op left right =>
          obtain ⟨v, hv, h⟩ := Expr.eval?_boolOp hu
          have hleft := hready.below List.mem_cons_self
          rw [evalWithin]
          refine Yields.reachable ((ih hleft hv).bind fun l hl => ?_)
          exact ih.shortcut hleft (hready.below (List.mem_cons_of_mem _ List.mem_cons_self)) hv hl h
      | call id func args =>
          obtain ⟨f, vs, hf, hvs, h⟩ := Expr.eval?_call hu
          cases func with
          | name i g =>
              cases hf
              rw [evalWithin]
              refine Yields.reachable ?_
              simp only [pure_bind]
              refine (ih.all (fun e he => hready.below (List.mem_cons_of_mem _ he)) hvs).bind
                fun values _ => ?_
              refine Yields.current.bind fun s hs => ?_
              rw [if_pos hs.isReachable]
              exact yields_callSite (hready.answers (by rw [Expr.walk]; exact List.mem_cons_self)
                rfl h) h _ _
          | literal | binOp | boolOp | unaryOp | compare | attr | subscript | call | collection
          | unsupported => cases hf
      | attr | subscript | collection | unsupported =>
          rw [Expr.eval?] at hu
          cases hu

end Evaluation

end FunctionScope

end ValueFlow
