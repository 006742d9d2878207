import ValueFlow.Proofs.Analysis.Narrowing
import ValueFlow.Proofs.Analysis.Presence
import ValueFlow.Proofs.Fixpoint.Invariants
import ValueFlow.Proofs.Heap.Canonical
/-!
All values that an analysis meets are canonical.

Every evaluation from a canonical heap gives a canonical value and leaves a canonical heap, so the
states of a function, its summary and all that it passes on hold nothing but canonical values.
-/

namespace ValueFlow

/-- Whether callers are told nothing but canonical values by a summary. -/
structure FunctionSummary.Canonical (s : FunctionSummary) : Prop where
  returnValue : s.returnValue.Canonical
  effects : s.effects.Canonical

/-- Whether an input is made of canonical values and a heap that is reached. -/
structure CallInput.Canonical (c : CallInput) : Prop where
  args : ∀ v ∈ c.args, v.Canonical
  heap : c.heap.Canonical
  reachable : c.heap.reachable = true

theorem Environment.canonical_get (e : Environment) (x : String) : (e.get x).Canonical :=
  .ite (Value.canonical_make _ _ _) Value.canonical_bottom

namespace FunctionScope

variable {scope : FunctionScope}

section Evaluation

theorem preserves_checkIndex (location base : Nat) (index : Value) :
    Preserves Heap.Canonical (fun _ => True) (scope.checkIndex location base index) := by
  unfold checkIndex
  refine Preserves.current.bind fun s _ => .ite ?_ (.pure trivial)
  split
  · exact .pure trivial
  · exact .report _
  · exact .report _

variable (hsummaries : ∀ f s, scope.summaries.get? f = some s → s.Canonical)
include hsummaries

theorem canonical_outcomeOf {heap : Heap} (hheap : heap.Canonical) (argNodes : List Nat) (f : Nat) :
    (scope.outcomeOf argNodes heap f).1.Canonical ∧ (scope.outcomeOf argNodes heap f).2.Canonical := by
  unfold outcomeOf
  split
  · exact ⟨Value.canonical_top, hheap.invalidateEscaping _ _⟩
  · split
    · next hs =>
        have hs := hsummaries _ _ hs
        exact ⟨hs.returnValue, hs.effects.apply hheap⟩
    · exact ⟨Value.canonical_bottom, hheap⟩

theorem preserves_callTargets (site : CallSite) (args : List Value) (argNodes : List Nat) :
    Preserves Heap.Canonical Value.Canonical (scope.callTargets site args argNodes) := by
  unfold callTargets
  refine Preserves.current.bind fun s hs => ?_
  refine (Preserves.forM fun f _ => .observe _).bind fun _ _ => ?_
  have houtcomes : ∀ r ∈ (site.targets.toList.map (scope.outcomeOf argNodes s.heap)).filter
      (fun r => !r.1.isBottom), r.1.Canonical ∧ r.2.Canonical := by
    intro r hr
    obtain ⟨f, -, rfl⟩ := List.mem_map.1 (List.mem_of_mem_filter hr)
    exact canonical_outcomeOf hsummaries hs argNodes f
  refine .ite ?_ ?_
  · exact (Preserves.become Heap.canonical_bottom).bind fun _ _ =>
      .pure Value.canonical_bottom
  · refine (Preserves.changeHeap fun _ _ => Heap.canonical_joinAll fun h hh => ?_).bind fun _ _ =>
      .pure (Value.canonical_joinAll fun v hv => ?_)
    · obtain ⟨r, hr, rfl⟩ := List.mem_map.1 hh
      exact (houtcomes r hr).2
    · obtain ⟨r, hr, rfl⟩ := List.mem_map.1 hv
      exact (houtcomes r hr).1

omit hsummaries in
theorem preserves_callUnknown (argNodes : List Nat) :
    Preserves Heap.Canonical Value.Canonical (scope.callUnknown argNodes) :=
  (Preserves.changeHeap fun _ hh => hh.invalidateEscaping _ _).bind fun _ _ =>
    .pure Value.canonical_top

omit hsummaries in
theorem preserves_callMethod (receiver : Nat) (method : String) {args : List Value}
    (hargs : ∀ v ∈ args, v.Canonical) (argNodes : List Nat) :
    Preserves Heap.Canonical Value.Canonical (scope.callMethod receiver method args argNodes) := by
  unfold callMethod
  refine Preserves.current.bind fun s hs => ?_
  have helements := Heap.canonical_load scope.pointsTo hs receiver .elements
  dsimp only
  split
  · refine (Preserves.changeHeap fun _ hh => hh.mutate _ _ _ hargs).bind fun _ _ => .pure ?_
    exact .ite helements Value.canonical_none
  · refine .ite (.pure ?_) (preserves_callUnknown argNodes)
    exact .ite (helements.join Value.canonical_none) Value.canonical_top

omit hsummaries in
theorem canonical_builtin (b : Builtin) (args : List Value) {length : Option Value}
    (hlength : ∀ v ∈ length, v.Canonical) : (b.call args length).Canonical := by
  cases b with
  | len =>
      cases length with
      | none =>
          show Value.nonNegative.Canonical
          exact Value.canonical_intIn _
      | some v => exact hlength v rfl
  | range | str => exact Value.canonical_notNull
  | print => exact Value.canonical_none
  | abs =>
      cases args with
      | nil => exact Value.canonical_top
      | cons v rest => exact .ite (Value.canonical_intIn _) Value.canonical_top
  | min | max =>
      cases args with
      | nil => exact Value.canonical_top
      | cons v rest => exact .ite (Value.canonical_intIn _) Value.canonical_top
  | int => exact Value.canonical_anyInt
  | bool | isinstance => exact Value.canonical_intIn _

omit hsummaries in
theorem preserves_callNamed (name : Option String) (args : List Value) (argNodes : List Nat) :
    Preserves Heap.Canonical Value.Canonical (scope.callNamed name args argNodes) := by
  unfold callNamed
  split
  · refine Preserves.current.bind fun s hs => .pure (canonical_builtin _ _ fun v hv => ?_)
    split at hv
    · obtain ⟨node, -, rfl⟩ := Option.map_eq_some_iff.1 hv
      exact Heap.canonical_lengthOf _ _ _
    · cases hv
  · exact preserves_callUnknown argNodes

theorem preserves_callSite (node : Nat) (func : Expr) (receiver : Option (Nat × Value))
    {args : List Value} (hargs : ∀ v ∈ args, v.Canonical) (argNodes : List Nat) :
    Preserves Heap.Canonical Value.Canonical (scope.callSite node func receiver args argNodes) := by
  have finish : Preserves Heap.Canonical Value.Canonical (do
      return if (← Run.current).isReachable then Value.notNull else .bottom) :=
    Preserves.current.bind fun _ _ => .pure (.ite Value.canonical_notNull Value.canonical_bottom)
  rw [callSite]
  generalize (scope.facts.calls.site? node).filter (fun s => !s.targets.isEmpty) = known
  cases known with
  | none =>
      dsimp only
      split
      · exact (Preserves.changeHeap fun _ hh => hh.allocateAt _ _).bind fun _ _ => finish
      · next heq => cases heq
      · next heq => cases heq
      · exact preserves_callMethod _ _ hargs _
      · exact preserves_callNamed _ _ _
  | some s =>
      refine (Preserves.observe _).bind fun _ _ => ?_
      dsimp only
      split
      · refine (Preserves.changeHeap fun _ hh => hh.allocateAt _ _).bind fun _ _ => ?_
        exact (preserves_callTargets hsummaries _ _ _).bind fun _ _ => finish
      · exact preserves_callTargets hsummaries _ _ _
      · exact preserves_callTargets hsummaries _ _ _
      · next heq => cases heq
      · exact preserves_callNamed _ _ _

theorem preserves_evalWithin (n : Nat) (e : Expr) :
    Preserves Heap.Canonical Value.Canonical (scope.evalWithin n e) := by
  induction n generalizing e with
  | zero => exact .pure Value.canonical_bottom
  | succ n ih =>
      cases e with
      | literal id literal =>
          rw [evalWithin]
          refine .reachable Value.canonical_bottom (.pure ?_)
          cases literal with
          | int | bool => exact Value.canonical_constant _
          | str => exact Value.canonical_notNull
          | none => exact Value.canonical_none
      | unsupported =>
          rw [evalWithin]
          exact .reachable Value.canonical_bottom (.pure Value.canonical_top)
      | name =>
          rw [evalWithin]
          exact .reachable Value.canonical_bottom
            (Preserves.current.bind fun s _ => .pure (s.env.canonical_get _))
      | binOp id op left right =>
          rw [evalWithin]
          exact .reachable Value.canonical_bottom ((ih left).bind fun _ _ => (ih right).bind fun _ _ =>
            .pure (Value.canonical_binary _ _ _))
      | compare id op left right =>
          rw [evalWithin]
          exact .reachable Value.canonical_bottom ((ih left).bind fun _ _ => (ih right).bind fun _ _ =>
            .pure (Value.canonical_comparison _ _ _))
      | boolOp id op left right =>
          rw [evalWithin]
          refine .reachable Value.canonical_bottom ((ih left).bind fun l hl => ?_)
          refine .ite (.pure hl) (.ite (ih right) ?_)
          refine Preserves.current.bind fun s hs => ?_
          refine (Preserves.become
            (ProgramState.heap_assume Heap.canonical_bottom _ _ hs _ _)).bind fun _ _ => ?_
          refine (ih right).bind fun r hr => Preserves.current.bind fun s' hs' => ?_
          exact (Preserves.become
            (ProgramState.heap_join Heap.canonical_bottom Heap.Canonical.join hs hs')).bind fun _ _ =>
            .pure (hl.join hr)
      | unaryOp id op operand =>
          rw [evalWithin]
          exact .reachable Value.canonical_bottom
            ((ih operand).bind fun _ hv => .pure (Value.canonical_unary op hv))
      | attr id value field =>
          rw [evalWithin]
          refine .reachable Value.canonical_bottom ((ih value).bind fun _ _ => ?_)
          exact (preserves_checkAccess _ _ _ _).bind fun _ _ => Preserves.current.bind fun s hs =>
            .pure (Heap.canonical_load _ hs _ _)
      | subscript id value index =>
          rw [evalWithin]
          refine .reachable Value.canonical_bottom
            ((ih value).bind fun _ _ => (ih index).bind fun _ _ => ?_)
          refine (preserves_checkAccess _ _ _ _).bind fun _ _ => ?_
          exact (preserves_checkIndex _ _ _).bind fun _ _ => Preserves.current.bind fun s hs =>
            .pure (Heap.canonical_load _ hs _ _)
      | call node func args =>
          have finish (receiver : Option (Nat × Value)) : Preserves Heap.Canonical Value.Canonical (do
              let values ← args.mapM (scope.evalWithin n)
              if (← Run.current).isReachable then
                scope.callSite node func receiver values (args.map Expr.id)
              else return .bottom) :=
            (Preserves.mapM fun a _ => ih a).bind fun _ hvalues => Preserves.current.bind fun _ _ =>
              .ite (preserves_callSite hsummaries _ _ _ hvalues _) (.pure Value.canonical_bottom)
          rw [evalWithin]
          refine .reachable Value.canonical_bottom ?_
          cases func with
          | attr id value method =>
              exact (ih value).bind fun _ _ => (preserves_checkAccess _ _ _ _).bind fun _ _ =>
                finish _
          | literal | name | binOp | boolOp | unaryOp | compare | subscript | call | collection
          | unsupported => exact finish none
      | collection node kind elements =>
          rw [evalWithin]
          refine .reachable Value.canonical_bottom
            ((Preserves.mapM fun a _ => ih a).bind fun values hvalues => ?_)
          refine Preserves.current.bind fun _ _ => .ite ?_ (.pure Value.canonical_bottom)
          exact (Preserves.changeHeap fun _ hh => hh.initCollection _ _ hvalues).bind fun _ _ =>
            .pure Value.canonical_notNull

theorem preserves_eval (e : Expr) : Preserves Heap.Canonical Value.Canonical (scope.eval e) :=
  preserves_evalWithin hsummaries _ e

theorem preserves_writeTarget (target : Target) (source : Expr) {v : Value} (hv : v.Canonical) :
    Preserves Heap.Canonical (fun _ => True) (scope.writeTarget target source v) := by
  cases target with
  | name => exact preserves_assign _ _
  | attr node base field =>
      exact (preserves_eval hsummaries base).bind fun _ _ =>
        (preserves_checkAccess _ _ _ _).bind fun _ _ => .changeHeap fun _ hh => hh.store _ _ _ hv _
  | subscript node base index =>
      exact (preserves_eval hsummaries base).bind fun _ _ =>
        (preserves_eval hsummaries index).bind fun _ _ =>
          (preserves_checkAccess _ _ _ _).bind fun _ _ =>
            (preserves_checkIndex _ _ _).bind fun _ _ =>
              .changeHeap fun _ hh => hh.storeElement _ _ hv _

theorem preserves_runStmt (s : Stmt) :
    Preserves Heap.Canonical (fun _ => True) (scope.runStmt s) := by
  have assign (v : Value) : Preserves Heap.Canonical (fun _ => True) (do
      if (← Run.current).isReachable then scope.assign returnSlot v) :=
    Preserves.current.bind fun _ _ => .ite (preserves_assign _ _) (.pure trivial)
  cases s with
  | assign id target value =>
      exact (preserves_eval hsummaries value).bind fun _ hv => Preserves.current.bind fun _ _ =>
        .ite (preserves_writeTarget hsummaries _ _ hv) (.pure trivial)
  | expr id e => exact (preserves_eval hsummaries e).bind fun _ _ => .pure trivial
  | ret id value =>
      cases value with
      | none => exact assign .none
      | some e => exact (preserves_eval hsummaries e).bind fun v _ => assign v
  | functionDef | classDef => exact preserves_assign _ _
  | ifElse | whileLoop | forLoop | brk | cont | pass => exact .pure trivial

theorem preserves_runItem (item : BlockItem) :
    Preserves Heap.Canonical (fun _ => True) (scope.runItem item) := by
  refine Preserves.current.bind fun s _ => .ite ?_ (.pure trivial)
  cases item with
  | statement stmt => exact preserves_runStmt hsummaries stmt
  | condition cond =>
      refine (preserves_eval hsummaries cond).bind fun v _ => .ite ?_ (.pure trivial)
      split
      · exact .report _
      · exact .pure trivial
  | evaluate e => exact (preserves_eval hsummaries e).bind fun _ _ => .pure trivial
  | bind => exact preserves_assign _ _

/-- The transfer functions of a scope keep heaps canonical. -/
theorem lasting_canonical (g : FlowGraph) :
    Fixpoint.Lasting g scope.transfer fun s => s.heap.Canonical :=
  lasting_heap Heap.canonical_bottom Heap.Canonical.join Heap.Canonical.widen
    fun _ i _ => preserves_runItem hsummaries i

section Passed

theorem canonical_after (n : Nat) (e : Expr) {s : ProgramState} (hs : s.heap.Canonical) :
    (scope.after n e s).heap.Canonical := (preserves_evalWithin hsummaries n e ⟨s, none⟩ hs).2

theorem canonical_of_mem_inTurn {n : Nat} {l : List Expr} {s : ProgramState}
    (hs : s.heap.Canonical) {q : Expr × ProgramState} (hq : q ∈ scope.inTurn n l s) :
    q.2.heap.Canonical := by
  induction l generalizing s with
  | nil => cases hq
  | cons e rest ih =>
      rcases List.mem_cons.1 hq with rfl | hq
      · exact hs
      · exact ih (canonical_after hsummaries n e hs) hq

theorem preserves_receiver (n : Nat) (func : Expr) :
    Preserves Heap.Canonical (fun _ => True) (scope.receiver n func) := by
  cases func with
  | attr id value method =>
      exact (preserves_evalWithin hsummaries n value).bind fun _ _ =>
        (preserves_checkAccess _ _ _ _).bind fun _ _ => .pure trivial
  | literal | name | binOp | boolOp | unaryOp | compare | subscript | call | collection
  | unsupported => exact .pure trivial

theorem canonical_of_mem_parts {n : Nat} {e : Expr} {s : ProgramState} (hs : s.heap.Canonical)
    {q : Expr × ProgramState} (hq : q ∈ scope.partsWithin n e s) : q.2.heap.Canonical := by
  cases e with
  | literal | name | unsupported => cases hq
  | binOp | compare | subscript | collection => exact canonical_of_mem_inTurn hsummaries hs hq
  | unaryOp | attr =>
      rw [List.mem_singleton.1 hq]
      exact hs
  | boolOp id op left right =>
      have hleft := canonical_after hsummaries n left hs
      rcases List.mem_cons.1 hq with rfl | hq
      · exact hs
      · split at hq
        · cases hq
        · split at hq
          · rw [List.mem_singleton.1 hq]
            exact hleft
          · rw [List.mem_singleton.1 hq]
            exact ProgramState.heap_assume Heap.canonical_bottom _ _ hleft _ _
  | call node func args =>
      rcases List.mem_append.1 hq with hq | hq
      · cases func with
        | attr id value method =>
            rw [List.mem_singleton.1 hq]
            exact hs
        | literal | name | binOp | boolOp | unaryOp | compare | subscript | call | collection
        | unsupported => cases hq
      · exact canonical_of_mem_inTurn hsummaries (preserves_receiver hsummaries n func ⟨s, none⟩ hs).2 hq

omit hsummaries in
theorem canonical_inputFor (f : Nat) {args : List Value} (hargs : ∀ v ∈ args, v.Canonical)
    {heap : Heap} (hheap : heap.Canonical) (hreach : heap.reachable = true) :
    (scope.inputFor f args heap).Canonical := by
  refine ⟨fun v hv => ?_, hheap.entryView, hreach⟩
  obtain ⟨k, -, rfl⟩ := List.mem_map.1 hv
  rw [List.getD_eq_getElem?_getD]
  cases hk : args[k]? with
  | none => exact Value.canonical_top
  | some v => exact hargs v (List.mem_of_getElem? hk)

omit hsummaries in
theorem canonical_of_mem_callsAt {node : Nat} {receiver : Option (Nat × Value)} {args : List Value}
    (hargs : ∀ v ∈ args, v.Canonical) {heap : Heap} (hheap : heap.Canonical)
    (hreach : heap.reachable = true) {c : Nat × CallInput}
    (hc : c ∈ scope.callsAt node receiver args heap) : c.2.Canonical := by
  have hcalls : ∀ {site args heap}, (∀ v ∈ args, v.Canonical) → heap.Canonical →
      heap.reachable = true → c ∈ scope.callsOf site args heap → c.2.Canonical := by
    intro site args heap hargs hheap hreach hc
    obtain ⟨f, -, rfl⟩ := List.mem_map.1 hc
    exact canonical_inputFor f hargs hheap hreach
  have hcons : ∀ {v : Value}, v.Canonical → ∀ w ∈ v :: args, w.Canonical := by
    intro v hv w hw
    rcases List.mem_cons.1 hw with rfl | hw
    · exact hv
    · exact hargs w hw
  rw [callsAt] at hc
  split at hc
  · cases hc
  · split at hc
    · refine hcalls (hcons Value.canonical_notNull) (hheap.allocateAt _ _) ?_ hc
      rw [Heap.allocateAt, Heap.reachable_foldl Heap.reachable_allocate, hreach]
    · exact hcalls hargs hheap hreach hc
    · refine hcalls (hcons ?_) hheap hreach hc
      cases hself : (receiver.map fun r => r.2.meet .notNull).filter fun v => !v.isBottom with
      | none => exact Value.canonical_notNull
      | some v =>
          obtain ⟨r, -, rfl⟩ := Option.map_eq_some_iff.1 (Option.filter_eq_some_iff.1 hself).1
          exact Value.canonical_meet _ _
    · cases hc

/-- Whatever an evaluation passes to a function is canonical. -/
theorem canonical_of_mem_passedWithin {n : Nat} {e : Expr} {s : ProgramState}
    (hs : s.heap.Canonical) {c : Nat × CallInput} (hc : c ∈ scope.passedWithin n e s) :
    c.2.Canonical := by
  induction n generalizing e s with
  | zero => cases hc
  | succ n ih =>
      rw [passedWithin_succ] at hc
      split at hc
      · rcases List.mem_append.1 hc with hc | hc
        · obtain ⟨q, hq, hc⟩ := List.mem_flatMap.1 hc
          exact ih (canonical_of_mem_parts hsummaries hs hq) hc
        · cases e with
          | call node func args =>
              have hreceiver := (preserves_receiver hsummaries n func ⟨s, none⟩ hs).2
              have hargs := Preserves.mapM (l := args)
                (fun e _ => preserves_evalWithin hsummaries n e)
                ⟨(scope.receiver n func ⟨s, none⟩).2.state, none⟩ hreceiver
              rw [ownCalls] at hc
              split at hc
              · next hreach =>
                  rw [ProgramState.isReachable, Bool.and_eq_true] at hreach
                  exact canonical_of_mem_callsAt hargs.1 hargs.2 hreach.2 hc
              · cases hc
          | literal | name | binOp | boolOp | unaryOp | compare | attr | subscript | collection
          | unsupported => cases hc
      · cases hc

theorem canonical_of_mem_passedInTurn {l : List Expr} {s : ProgramState} (hs : s.heap.Canonical)
    {c : Nat × CallInput} (hc : c ∈ scope.passedInTurn l s) : c.2.Canonical := by
  induction l generalizing s with
  | nil => cases hc
  | cons e rest ih =>
      rcases List.mem_append.1 hc with hc | hc
      · exact canonical_of_mem_passedWithin hsummaries hs hc
      · exact ih (preserves_eval hsummaries e ⟨s, none⟩ hs).2 hc

theorem canonical_of_mem_passedThrough {items : List BlockItem} {s : ProgramState}
    (hs : s.heap.Canonical) {c : Nat × CallInput} (hc : c ∈ scope.passedThrough items s) :
    c.2.Canonical := by
  induction items generalizing s with
  | nil => cases hc
  | cons i rest ih =>
      rcases List.mem_append.1 hc with hc | hc
      · rw [passedBy] at hc
        split at hc
        · exact canonical_of_mem_passedInTurn hsummaries hs hc
        · cases hc
      · exact ih (preserves_runItem hsummaries i ⟨s, none⟩ hs).2 hc

/-- Whatever a pass over canonical states passes to a function is canonical. -/
theorem canonical_of_mem_passedIn {g : FlowGraph} {solution : Fixpoint.Solution ProgramState}
    (hsolution : solution.Forall fun s => s.heap.Canonical) {c : Nat × CallInput}
    (hc : c ∈ scope.passedIn g solution) : c.2.Canonical := by
  obtain ⟨b, -, hb⟩ := List.mem_flatMap.1 hc
  split at hb
  · exact canonical_of_mem_passedThrough hsummaries (hsolution.entry b) hb
  · cases hb

end Passed

end Evaluation

end FunctionScope

namespace ProgramFacts

variable {facts : ProgramFacts} {T : SummaryTable} {i : Nat} {g : FlowGraph}

/-- Whether a table tells callers nothing but canonical values. -/
def Canonical (T : SummaryTable) : Prop := ∀ f s, T.get? f = some s → s.Canonical

theorem canonical_make_state (env : Environment) {heap : Heap} (hheap : heap.Canonical) :
    (ProgramState.make env heap).heap.Canonical :=
  ProgramState.heap_normalize Heap.canonical_bottom hheap

theorem canonical_entryState {input : Option CallInput} (hinput : ∀ c ∈ input, c.Canonical) :
    (facts.entryState i input).heap.Canonical := by
  cases input with
  | none => exact canonical_make_state _ Heap.canonical_top
  | some c => exact canonical_make_state _ (hinput c rfl).heap.entryView

theorem canonical_solve (hT : Canonical T) {input : Option CallInput}
    (hinput : ∀ c ∈ input, c.Canonical) :
    (facts.solve T i g input).Forall fun s => s.heap.Canonical := by
  have hsummaries : ∀ f s, (facts.scope T i g).summaries.get? f = some s → s.Canonical := hT
  exact (FunctionScope.lasting_canonical hsummaries g).solve (canonical_entryState hinput)

theorem canonical_degrade (reason : String) (s : FunctionSummary) :
    (facts.degrade i reason s).Canonical :=
  ⟨Value.canonical_top, HeapEffects.canonical_unknown _⟩

variable (facts) in
theorem canonical_summarize (hT : Canonical T) (i : Nat) : (facts.summarize T i).1.Canonical := by
  unfold summarize
  cases facts.graph? i with
  | none => exact ⟨Value.canonical_top, HeapEffects.canonical_unknown _⟩
  | some g =>
      have hsolve : (facts.solve T i g none).Forall fun s => s.heap.Canonical :=
        canonical_solve hT fun _ hc => nomatch hc
      have hreturned : (returned ((facts.solve T i g none).final g)).Canonical :=
        .ite (Environment.canonical_get _ _) Value.canonical_bottom
      have hexit : ((facts.solve T i g none).final g).heap.Canonical := hsolve.entry g.exit
      have heffects := HeapEffects.canonical_ofExit hexit .top
      dsimp only
      split
      · exact ⟨hreturned, heffects⟩
      · exact canonical_degrade _ _

theorem canonical_overlay (hT : Canonical T) {l : List (Nat × FunctionSummary)}
    (hl : ∀ q ∈ l, q.2.Canonical) : Canonical (overlay T l) := by
  intro f s hs
  rcases get?_overlay hs with hs | hs
  · exact hl _ hs
  · exact hT f s hs

theorem canonical_initialSummary : (facts.initialSummary i).Canonical :=
  ⟨Value.canonical_bottom, HeapEffects.canonical_none⟩

variable (facts) in
theorem canonical_nextRound (hT : Canonical T) (members : List Nat) (round : Nat)
    {old : Nat → FunctionSummary} (hold : ∀ f, (old f).Canonical) (f : Nat) :
    (facts.nextRound T members round old f).Canonical := by
  have htable : Canonical (overlay T (members.map fun f => (f, old f))) := by
    refine canonical_overlay hT fun q hq => ?_
    obtain ⟨f, -, rfl⟩ := List.mem_map.1 hq
    exact hold f
  have hround := facts.canonical_summarize htable f
  rw [nextRound]
  split
  · exact ⟨(hold f).returnValue.widen hround.returnValue, (hold f).effects.widen hround.effects _⟩
  · exact hround

variable (facts) in
theorem canonical_bottomUp : Canonical facts.bottomUp.table :=
  Sustains.bottomUp (Q := fun _ => FunctionSummary.Canonical) fun _ hT =>
    { initial := fun _ => canonical_initialSummary
      summarize := facts.canonical_summarize hT
      nextRound := fun members round _ hold => facts.canonical_nextRound hT members round hold
      degrade := fun _ reason s _ => canonical_degrade reason s
      withRounds := fun _ _ _ hs => ⟨hs.returnValue, hs.effects⟩ }

end ProgramFacts

end ValueFlow
