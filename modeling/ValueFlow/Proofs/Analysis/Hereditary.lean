import ValueFlow.Analysis.Transfer
import ValueFlow.Proofs.Analysis.Narrowing
import ValueFlow.Proofs.Fixpoint.Invariants
/-!
Properties of basic steps that all evaluations have.

A property that holds of reading and changing the state, of reporting and of recording, and that
passes on from step to step, holds of the evaluation of every expression and of the run of every
item. One induction over the evaluation serves all such properties. One that does not hold of
recording still holds of what checks and calls do besides (`Elementary`). What the items of a body
preserve of the heap holds of all its states (`lasting_heap`).
-/

namespace ValueFlow

/-- Whether a step started on a heap with a property leaves one, with a result that has another. -/
def Preserves {α : Type} (P : Heap → Prop) (R : α → Prop) (m : Eval α) : Prop :=
  ∀ r : Run, P r.state.heap → R (m r).1 ∧ P (m r).2.state.heap

namespace Preserves

variable {α β : Type} {P : Heap → Prop} {R : α → Prop} {S : β → Prop} {m : Eval α} {f : α → Eval β}

theorem bind (hm : Preserves P R m) (hf : ∀ a, R a → Preserves P S (f a)) :
    Preserves P S (m >>= f) := by
  intro r hr
  obtain ⟨ha, hr'⟩ := hm r hr
  exact hf _ ha _ hr'

theorem pure {a : α} (ha : R a) : Preserves P R (pure a : Eval α) := fun _ hr => ⟨ha, hr⟩

theorem ite {c : Prop} [Decidable c] {m' : Eval α} (hm : Preserves P R m)
    (hm' : Preserves P R m') : Preserves P R (if c then m else m') := by
  split
  · exact hm
  · exact hm'

theorem current : Preserves P (fun s : ProgramState => P s.heap) Run.current :=
  fun _ hr => ⟨hr, hr⟩

theorem become {s : ProgramState} (hs : P s.heap) :
    Preserves P (fun _ => True) (Run.become s) :=
  fun _ _ => ⟨trivial, hs⟩

theorem changeHeap {f : Heap → Heap} (hf : ∀ h : Heap, P h → P (f h)) :
    Preserves P (fun _ => True) (Run.changeHeap f) := fun _ hr => ⟨trivial, hf _ hr⟩

theorem observe (f : Observations → Observations) : Preserves P (fun _ => True) (Run.observe f) :=
  fun _ hr => ⟨trivial, hr⟩

theorem report (d : Diagnostic) : Preserves P (fun _ => True) (Run.report d) := observe _

theorem reachable {R : Value → Prop} {m : Eval Value} (hbottom : R .bottom)
    (hm : Preserves P R m) :
    Preserves P R (do if !(← Run.current).isReachable then return .bottom else m) :=
  current.bind fun _ _ => ite (pure hbottom) hm

theorem forM {f : α → Eval PUnit} {l : List α} (hf : ∀ a ∈ l, Preserves P (fun _ => True) (f a)) :
    Preserves P (fun _ => True) (l.forM f) := by
  induction l with
  | nil => exact pure trivial
  | cons a rest ih =>
      exact (hf a List.mem_cons_self).bind fun _ _ => ih fun b hb => hf b (List.mem_cons_of_mem _ hb)

theorem mapM {f : α → Eval β} {l : List α} (hf : ∀ a ∈ l, Preserves P S (f a)) :
    Preserves P (fun bs : List β => ∀ b ∈ bs, S b) (l.mapM f) := by
  induction l with
  | nil => exact pure fun _ hb => nomatch hb
  | cons a rest ih =>
      rw [List.mapM_cons]
      refine (hf a List.mem_cons_self).bind fun b hb =>
        (ih fun c hc => hf c (List.mem_cons_of_mem _ hc)).bind fun bs hbs => pure fun c hc => ?_
      rcases List.mem_cons.1 hc with rfl | hc
      · exact hb
      · exact hbs c hc

end Preserves

namespace FunctionScope

variable {scope : FunctionScope} {P : Heap → Prop}

theorem preserves_checkAccess (location : Nat) (receiver : Expr) (value : Value) (access : String) :
    Preserves P (fun _ => True) (scope.checkAccess location receiver value access) := by
  unfold checkAccess
  split
  · exact .report _
  · refine (Preserves.report _).bind fun _ _ => ?_
    split
    · exact Preserves.current.bind fun s hs => .become hs
    · exact .pure trivial
  · exact .pure trivial

theorem preserves_assign (x : String) (v : Value) :
    Preserves P (fun _ => True) (scope.assign x v) := fun _ hr => ⟨trivial, hr⟩

theorem heap_followEdge (hbottom : P .bottom) (e : Edge) (source : Block) {s : ProgramState}
    (hs : P s.heap) : P (scope.followEdge e source s).heap := by
  unfold followEdge
  split
  · exact hs
  · split
    · exact ProgramState.heap_assume hbottom _ _ hs _ _
    · exact hs

/-- What items preserve of the heap, and joins and widening too, lasts. -/
theorem lasting_heap {g : FlowGraph} (hbottom : P .bottom)
    (hjoin : ∀ {h k : Heap}, P h → P k → P (h.join k))
    (hwiden : ∀ {h k : Heap}, P h → P k → ∀ n, P (h.widen k n))
    (hitem : ∀ b, ∀ i ∈ (g.block b).items, Preserves P (fun _ => True) (scope.runItem i)) :
    Fixpoint.Lasting g scope.transfer fun s => P s.heap where
  bottom := hbottom
  join hs ht := ProgramState.heap_join hbottom hjoin hs ht
  widen hs ht n := ProgramState.heap_widen hbottom (fun hh hk => hwiden hh hk n) hs ht
  item b i hi _ hs := (hitem b i hi ⟨_, none⟩ hs).2
  edge e _ hs := heap_followEdge hbottom e _ hs

end FunctionScope

namespace FunctionScope

/-- Whether a property of steps holds of those that look at the state, change it or report, and
passes on to what is made of them. Of the findings, only the admitted ones need to have it. -/
structure Elementary (admitted : Diagnostic → Prop) (Q : (α : Type) → Eval α → Prop) : Prop where
  pure : ∀ {α : Type} (a : α), Q α (pure a)
  bind : ∀ {α β : Type} {m : Eval α} {f : α → Eval β}, Q α m → (∀ a, Q β (f a)) → Q β (m >>= f)
  current : Q ProgramState Run.current
  become : ∀ s, Q Unit (Run.become s)
  changeHeap : ∀ f, Q Unit (Run.changeHeap f)
  report : ∀ {d}, admitted d → Q Unit (Run.report d)

/-- Whether all findings about accesses are admitted. -/
def AdmitsAccesses (admitted : Diagnostic → Prop) : Prop :=
  ∀ d : Diagnostic, d.kind ≠ .unreachableBranch → d.kind ≠ .analysisDegraded → admitted d

namespace Elementary

variable {scope : FunctionScope} {admitted : Diagnostic → Prop} {Q : (α : Type) → Eval α → Prop}
  (h : Elementary admitted Q)

theorem ite {α : Type} {c : Prop} [Decidable c] {m m' : Eval α} (hm : Q α m) (hm' : Q α m') :
    Q α (if c then m else m') := by
  split
  · exact hm
  · exact hm'

include h

theorem forM {α : Type} {f : α → Eval PUnit} {l : List α} (hf : ∀ a ∈ l, Q PUnit (f a)) :
    Q PUnit (l.forM f) := by
  induction l with
  | nil => exact h.pure _
  | cons a rest ih =>
      exact h.bind (hf a List.mem_cons_self) fun _ =>
        ih fun b hb => hf b (List.mem_cons_of_mem _ hb)

/-- Calls of targets, where recording each of them has the property. -/
theorem callTargets {site : CallSite} {args : List Value}
    (hrecord : ∀ f ∈ site.targets.toList, ∀ heap, Q Unit (scope.recordCall f args heap))
    (argNodes : List Nat) : Q Value (scope.callTargets site args argNodes) := by
  unfold FunctionScope.callTargets
  refine h.bind h.current fun s => ?_
  refine h.bind (h.forM fun f hf => hrecord f hf s.heap) fun _ => ite ?_ ?_
  · exact h.bind (h.become _) fun _ => h.pure _
  · exact h.bind (h.changeHeap _) fun _ => h.pure _

theorem callUnknown (argNodes : List Nat) : Q Value (scope.callUnknown argNodes) :=
  h.bind (h.changeHeap _) fun _ => h.pure _

theorem callMethod (receiver : Nat) (method : String) (args : List Value) (argNodes : List Nat) :
    Q Value (scope.callMethod receiver method args argNodes) := by
  unfold FunctionScope.callMethod
  refine h.bind h.current fun s => ?_
  dsimp only
  split
  · exact h.bind (h.changeHeap _) fun _ => h.pure _
  · exact ite (h.pure _) (h.callUnknown argNodes)

theorem callNamed (name : Option String) (args : List Value) (argNodes : List Nat) :
    Q Value (scope.callNamed name args argNodes) := by
  unfold FunctionScope.callNamed
  split
  · exact h.bind h.current fun _ => h.pure _
  · exact h.callUnknown argNodes

section Accesses

variable (hadmitted : AdmitsAccesses admitted)
include hadmitted

theorem checkAccess (location : Nat) (receiver : Expr) (value : Value) (access : String) :
    Q Unit (scope.checkAccess location receiver value access) := by
  have hreport : ∀ certainty, Q Unit (Run.report
      (.nullDeref certainty location scope.name access)) := by
    intro certainty
    cases certainty <;> exact h.report (hadmitted _ nofun nofun)
  unfold FunctionScope.checkAccess
  split
  · exact hreport .definite
  · refine h.bind (hreport .possible) fun _ => ?_
    split
    · exact h.bind h.current fun _ => h.become _
    · exact h.pure _
  · exact h.pure _

theorem checkIndex (location base : Nat) (index : Value) :
    Q Unit (scope.checkIndex location base index) := by
  unfold FunctionScope.checkIndex
  refine h.bind h.current fun s => ite ?_ (h.pure _)
  split
  · exact h.pure _
  · exact h.report (hadmitted _ nofun nofun)
  · exact h.report (hadmitted _ nofun nofun)

end Accesses

end Elementary

/-- Whether a property of steps holds of the basic steps of a scope and passes on to what is made
of them. Of the findings, only the admitted ones need to have it. -/
structure Hereditary (scope : FunctionScope) (admitted : Diagnostic → Prop)
    (Q : (α : Type) → Eval α → Prop) : Prop where
  pure : ∀ {α : Type} (a : α), Q α (pure a)
  bind : ∀ {α β : Type} {m : Eval α} {f : α → Eval β}, Q α m → (∀ a, Q β (f a)) → Q β (m >>= f)
  current : Q ProgramState Run.current
  become : ∀ s, Q Unit (Run.become s)
  changeHeap : ∀ f, Q Unit (Run.changeHeap f)
  assign : ∀ x v, Q Unit (scope.assign x v)
  report : ∀ {d}, admitted d → Q Unit (Run.report d)
  recordTargets : ∀ site, Q Unit (scope.recordTargets site)
  recordCall : ∀ {node site f}, scope.facts.calls.site? node = some site →
    f ∈ site.targets.toList → ∀ args heap, Q Unit (scope.recordCall f args heap)

namespace Hereditary

variable {scope : FunctionScope} {admitted : Diagnostic → Prop} {Q : (α : Type) → Eval α → Prop}
  (h : scope.Hereditary admitted Q)
include h

theorem elementary : Elementary admitted Q where
  pure := h.pure
  bind := h.bind
  current := h.current
  become := h.become
  changeHeap := h.changeHeap
  report := h.report

section Combinators

theorem reachable {m : Eval Value} (hm : Q Value m) : Q Value (do
    if !(← Run.current).isReachable then return .bottom else m) :=
  h.bind h.current fun _ => Elementary.ite (h.pure _) hm

theorem mapM {α β : Type} {f : α → Eval β} (hf : ∀ a, Q β (f a)) (l : List α) :
    Q (List β) (l.mapM f) := by
  induction l with
  | nil => exact h.pure _
  | cons a rest ih =>
      rw [List.mapM_cons]
      exact h.bind (hf a) fun _ => h.bind ih fun _ => h.pure _

end Combinators

section Calls

theorem callTargets {node : Nat} {site : CallSite}
    (hsite : scope.facts.calls.site? node = some site) (args : List Value) (argNodes : List Nat) :
    Q Value (scope.callTargets site args argNodes) :=
  h.elementary.callTargets (fun _ hf heap => h.recordCall hsite hf args heap) argNodes

theorem callSite (node : Nat) (func : Expr) (receiver : Option (Nat × Value)) (args : List Value)
    (argNodes : List Nat) : Q Value (scope.callSite node func receiver args argNodes) := by
  have hknown : ∀ {s}, s ∈ (scope.facts.calls.site? node).filter (fun s => !s.targets.isEmpty) →
      scope.facts.calls.site? node = some s :=
    fun hs => (Option.mem_filter_iff.1 hs).1
  have finish : Q Value (do return if (← Run.current).isReachable then Value.notNull
      else .bottom) := h.bind h.current fun _ => h.pure _
  rw [FunctionScope.callSite]
  generalize (scope.facts.calls.site? node).filter (fun s => !s.targets.isEmpty) = known at hknown
  cases known with
  | none =>
      dsimp only
      split
      · exact h.bind (h.changeHeap _) fun _ => finish
      · next heq => cases heq
      · next heq => cases heq
      · exact h.elementary.callMethod _ _ _ _
      · exact h.elementary.callNamed _ _ _
  | some s =>
      have hs := hknown rfl
      refine h.bind (h.recordTargets s) fun _ => ?_
      dsimp only
      split
      · refine h.bind (h.changeHeap _) fun _ => ?_
        exact h.bind (h.callTargets hs _ _) fun _ => finish
      · next heq => exact h.callTargets (Option.some.inj heq ▸ hs) _ _
      · next heq => exact h.callTargets (Option.some.inj heq ▸ hs) _ _
      · next heq => cases heq
      · exact h.elementary.callNamed _ _ _

end Calls

section Evaluation

variable (hadmitted : AdmitsAccesses admitted)
include hadmitted

theorem evalWithin (n : Nat) (e : Expr) : Q Value (scope.evalWithin n e) := by
  induction n generalizing e with
  | zero => exact h.pure _
  | succ n ih =>
      cases e with
      | literal | unsupported =>
          rw [FunctionScope.evalWithin]
          exact h.reachable (h.pure _)
      | name =>
          rw [FunctionScope.evalWithin]
          exact h.reachable (h.bind h.current fun _ => h.pure _)
      | binOp id op left right | compare id op left right =>
          rw [FunctionScope.evalWithin]
          exact h.reachable (h.bind (ih left) fun _ => h.bind (ih right) fun _ => h.pure _)
      | boolOp id op left right =>
          rw [FunctionScope.evalWithin]
          refine h.reachable (h.bind (ih left) fun _ => ?_)
          refine Elementary.ite (h.pure _) (Elementary.ite (ih right) ?_)
          refine h.bind h.current fun _ => h.bind (h.become _) fun _ => ?_
          exact h.bind (ih right) fun _ => h.bind h.current fun _ => h.bind (h.become _) fun _ =>
            h.pure _
      | unaryOp id op operand =>
          rw [FunctionScope.evalWithin]
          exact h.reachable (h.bind (ih operand) fun _ => h.pure _)
      | attr id value field =>
          rw [FunctionScope.evalWithin]
          refine h.reachable (h.bind (ih value) fun _ => ?_)
          exact h.bind (h.elementary.checkAccess hadmitted _ _ _ _) fun _ =>
            h.bind h.current fun _ => h.pure _
      | subscript id value index =>
          rw [FunctionScope.evalWithin]
          refine h.reachable (h.bind (ih value) fun _ => h.bind (ih index) fun _ => ?_)
          exact h.bind (h.elementary.checkAccess hadmitted _ _ _ _) fun _ =>
            h.bind (h.elementary.checkIndex hadmitted _ _ _) fun _ =>
              h.bind h.current fun _ => h.pure _
      | call node func args =>
          have finish (receiver : Option (Nat × Value)) : Q Value (do
              let values ← args.mapM (scope.evalWithin n)
              if (← Run.current).isReachable then
                scope.callSite node func receiver values (args.map Expr.id)
              else return .bottom) :=
            h.bind (h.mapM ih args) fun _ => h.bind h.current fun _ =>
              Elementary.ite (h.callSite _ _ _ _ _) (h.pure _)
          rw [FunctionScope.evalWithin]
          refine h.reachable ?_
          cases func with
          | attr id value method =>
              exact h.bind (ih value) fun _ =>
                h.bind (h.elementary.checkAccess hadmitted _ _ _ _) fun _ => finish _
          | literal | name | binOp | boolOp | unaryOp | compare | subscript | call | collection
          | unsupported => exact finish none
      | collection node kind elements =>
          rw [FunctionScope.evalWithin]
          refine h.reachable (h.bind (h.mapM ih elements) fun _ => ?_)
          exact h.bind h.current fun _ =>
            Elementary.ite (h.bind (h.changeHeap _) fun _ => h.pure _) (h.pure _)

theorem eval (e : Expr) : Q Value (scope.eval e) := h.evalWithin hadmitted _ e

theorem writeTarget (target : Target) (source : Expr) (v : Value) :
    Q Unit (scope.writeTarget target source v) := by
  cases target with
  | name => exact h.assign _ _
  | attr node base field =>
      exact h.bind (h.eval hadmitted base) fun _ =>
        h.bind (h.elementary.checkAccess hadmitted _ _ _ _) fun _ => h.changeHeap _
  | subscript node base index =>
      exact h.bind (h.eval hadmitted base) fun _ => h.bind (h.eval hadmitted index) fun _ =>
        h.bind (h.elementary.checkAccess hadmitted _ _ _ _) fun _ =>
          h.bind (h.elementary.checkIndex hadmitted _ _ _) fun _ => h.changeHeap _

theorem runStmt (s : Stmt) : Q Unit (scope.runStmt s) := by
  have assign (v : Value) : Q Unit (do
      if (← Run.current).isReachable then scope.assign returnSlot v) :=
    h.bind h.current fun _ => Elementary.ite (h.assign _ _) (h.pure _)
  cases s with
  | assign id target value =>
      exact h.bind (h.eval hadmitted value) fun _ => h.bind h.current fun _ =>
        Elementary.ite (h.writeTarget hadmitted _ _ _) (h.pure _)
  | expr id e => exact h.bind (h.eval hadmitted e) fun _ => h.pure _
  | ret id value =>
      cases value with
      | none => exact assign .none
      | some e => exact h.bind (h.eval hadmitted e) fun v => assign v
  | functionDef | classDef => exact h.assign _ _
  | ifElse | whileLoop | forLoop | brk | cont | pass => exact h.pure _

/-- Besides what evaluations find, an item reports only that the outcome of its condition never
changes. -/
theorem runItem {item : BlockItem}
    (hbranch : ∀ {cond}, item = .condition cond → ∀ outcome,
      admitted (.unreachableBranch cond.id scope.name outcome)) : Q Unit (scope.runItem item) := by
  refine h.bind h.current fun s => Elementary.ite ?_ (h.pure _)
  cases item with
  | statement stmt => exact h.runStmt hadmitted stmt
  | condition cond =>
      refine h.bind (h.eval hadmitted cond) fun v => Elementary.ite ?_ (h.pure _)
      split
      · exact h.report (hbranch rfl _)
      · exact h.pure _
  | evaluate e => exact h.bind (h.eval hadmitted e) fun _ => h.pure _
  | bind => exact h.assign _ _

end Evaluation

end Hereditary

end FunctionScope

end ValueFlow
