import ValueFlow.Proofs.PointsTo.Derivation
import ValueFlow.Proofs.Trees
/-!
The flows of a function, one evaluated expression after the other.

An expression that is called by its name is looked up and not evaluated, so it has no flows. Main
statements: `mem_exprFlows`, the flows of an expression are those of the parts it evaluates, and
`exists_of_dest?`, a flow goes to the value of the expression it belongs to, to a variable or to the
result.
-/

namespace ValueFlow

namespace Expr

/-- The expressions that an expression evaluates directly. Of a callee that is the receiver of a
method, if there is one. -/
def operands : Expr → List Expr
  | .call _ (.attr _ value _) args => value :: args
  | .call _ _ args => args
  | e => e.children

/-- Whether an expression evaluates another, which may be the expression itself. -/
inductive Evaluates : Expr → Expr → Prop
  | self (e : Expr) : e.Evaluates e
  | operand {e c part : Expr} (hc : c ∈ e.operands) (h : c.Evaluates part) : e.Evaluates part

theorem mem_operands_of_mem_args {node : Nat} {func e : Expr} {args : List Expr} (h : e ∈ args) :
    e ∈ (call node func args).operands := by
  cases func with
  | attr => exact List.mem_cons_of_mem _ h
  | literal | name | binOp | boolOp | unaryOp | compare | subscript | call | collection
  | unsupported => exact h

theorem walk_subset_of_mem_operands {e c : Expr} (h : c ∈ e.operands) : c.walk ⊆ e.walk := by
  cases e with
  | call id func args =>
      cases func with
      | attr id' value method =>
          rcases List.mem_cons.1 h with rfl | h
          · exact List.Subset.trans
              (walk_subset_of_mem_children (e := .attr id' c method) List.mem_cons_self)
              (walk_subset_of_mem_children List.mem_cons_self)
          · exact walk_subset_of_mem_children (List.mem_cons_of_mem _ h)
      | literal | name | binOp | boolOp | unaryOp | compare | subscript | call | collection
      | unsupported => exact walk_subset_of_mem_children (List.mem_cons_of_mem _ h)
  | literal | name | binOp | boolOp | unaryOp | compare | attr | subscript | collection
  | unsupported => exact walk_subset_of_mem_children h

theorem height_lt_of_mem_operands {e c : Expr} (h : c ∈ e.operands) : c.height < e.height := by
  cases e with
  | call id func args =>
      cases func with
      | attr id' value method =>
          rcases List.mem_cons.1 h with rfl | h
          · exact Nat.lt_trans
              (height_lt_of_mem_children (e := .attr id' c method) List.mem_cons_self)
              (height_lt_of_mem_children List.mem_cons_self)
          · exact height_lt_of_mem_children (List.mem_cons_of_mem _ h)
      | literal | name | binOp | boolOp | unaryOp | compare | subscript | call | collection
      | unsupported => exact height_lt_of_mem_children (List.mem_cons_of_mem _ h)
  | literal | name | binOp | boolOp | unaryOp | compare | attr | subscript | collection
  | unsupported => exact height_lt_of_mem_children h

theorem Evaluates.mem_walk {e part : Expr} (h : e.Evaluates part) : part ∈ e.walk := by
  induction h with
  | self e => exact mem_walk_self e
  | operand hc _ ih => exact walk_subset_of_mem_operands hc ih

end Expr

/-- Whether the run of a function may evaluate an expression. -/
def FunctionInfo.Evaluates (f : FunctionInfo) (part : Expr) : Prop :=
  ∃ stmt ∈ Stmt.walkAll f.body, ∃ e ∈ stmt.ownExprs, e.Evaluates part

theorem FunctionInfo.Evaluates.operand {f : FunctionInfo} {e c : Expr} (h : f.Evaluates e)
    (hc : c ∈ e.operands) : f.Evaluates c := by
  obtain ⟨stmt, hstmt, a, hown, ha⟩ := h
  refine ⟨stmt, hstmt, a, hown, ?_⟩
  clear hown
  induction ha with
  | self => exact .operand hc (.self c)
  | operand hd _ ih => exact .operand hd (ih hc)

/-- The place that a flow adds objects to. -/
def Flow.dest? : Flow → Option Place
  | alloc _ dest | copy _ dest | load _ _ dest => some dest
  | store _ _ _ => none
  | call c => some c.result

def Flow.call? : Flow → Option FlowCall
  | call c => some c
  | alloc _ _ | copy _ _ | load _ _ _ | store _ _ _ => none

namespace Frame

variable (calls : CallGraph) (s : Frame)

/-- The flows of an expression apart from those of its operands. -/
def ownFlows : Expr → List Flow
  | .name node name => [.copy (s.var name) (s.value node)]
  | .collection node kind elements =>
      .alloc (s.creation node (.collection kind)) (s.value node) ::
        elements.map fun e => .store (s.value node) .elements (s.value e.id)
  | .attr node value name => [.load (s.value value.id) (.attr name) (s.value node)]
  | .subscript node value _ => [.load (s.value value.id) .elements (s.value node)]
  | .boolOp node _ left right =>
      [.copy (s.value left.id) (s.value node), .copy (s.value right.id) (s.value node)]
  | .call node (.attr _ value _) args =>
      s.callFlows calls node (some (s.value value.id)) (args.map (s.value ·.id))
  | .call node _ args => s.callFlows calls node none (args.map (s.value ·.id))
  | .literal _ _ | .unsupported _ _ | .binOp _ _ _ _ | .compare _ _ _ _ | .unaryOp _ _ _ => []

variable {calls s} {flow : Flow}

theorem mem_allFlows {l : List Expr} :
    flow ∈ s.allFlows calls l ↔ ∃ e ∈ l, flow ∈ s.exprFlows calls e := by
  induction l with
  | nil => simp [allFlows]
  | cons e rest ih => simp [allFlows, ih]

theorem mem_elementFlows {collection : Place} {l : List Expr} :
    flow ∈ s.elementFlows calls collection l ↔
      (∃ e ∈ l, flow = .store collection .elements (s.value e.id)) ∨
        ∃ e ∈ l, flow ∈ s.exprFlows calls e := by
  induction l with
  | nil => simp [elementFlows]
  | cons e rest ih =>
      simp only [elementFlows, List.mem_append, List.mem_singleton, ih, List.exists_mem_cons_iff]
      grind

/-- The flows of an expression are its own and those of its operands. -/
theorem mem_exprFlows_iff {e : Expr} : flow ∈ s.exprFlows calls e ↔
    flow ∈ s.ownFlows calls e ∨ ∃ c ∈ e.operands, flow ∈ s.exprFlows calls c := by
  cases e with
  | literal | name | unsupported => simp [exprFlows, ownFlows, Expr.operands, Expr.children]
  | unaryOp => simp [exprFlows, ownFlows, Expr.operands, Expr.children]
  | binOp | compare => simp [exprFlows, ownFlows, Expr.operands, Expr.children]
  | attr | subscript | boolOp =>
      simp only [exprFlows, ownFlows, Expr.operands, Expr.children, List.mem_append, List.mem_cons,
        List.not_mem_nil, exists_eq_or_imp, exists_eq_left, or_false]
      grind
  | collection =>
      simp only [exprFlows, ownFlows, Expr.operands, Expr.children, List.mem_cons, List.mem_map,
        mem_elementFlows, or_assoc, eq_comm]
  | call node func args =>
      cases func with
      | attr =>
          simp only [exprFlows, ownFlows, Expr.operands, List.mem_append, mem_allFlows,
            List.exists_mem_cons_iff]
          grind
      | literal | name | binOp | boolOp | unaryOp | compare | subscript | call | collection
      | unsupported =>
          simp only [exprFlows, ownFlows, Expr.operands, List.mem_append, mem_allFlows]
          grind

/-- The flows of an expression are those of the expressions that it evaluates. -/
theorem mem_exprFlows {e : Expr} : flow ∈ s.exprFlows calls e ↔
    ∃ part, e.Evaluates part ∧ flow ∈ s.ownFlows calls part := by
  constructor
  · intro h
    generalize hn : e.height = n
    induction n using Nat.strongRecOn generalizing e with
    | ind n ih =>
        rcases mem_exprFlows_iff.1 h with hown | ⟨c, hc, hflow⟩
        · exact ⟨e, .self e, hown⟩
        · obtain ⟨part, hpart, hown⟩ :=
            ih c.height (hn ▸ Expr.height_lt_of_mem_operands hc) hflow rfl
          exact ⟨part, .operand hc hpart, hown⟩
  · rintro ⟨part, hpart, hown⟩
    induction hpart with
    | self => exact mem_exprFlows_iff.2 (.inl hown)
    | operand hc _ ih => exact mem_exprFlows_iff.2 (.inr ⟨_, hc, ih hown⟩)

/-- A statement has the flows of its expressions. -/
theorem mem_stmtFlows_of_mem {stmt : Stmt} {e : Expr} (he : e ∈ stmt.ownExprs)
    (hflow : flow ∈ s.exprFlows calls e) : flow ∈ s.stmtFlows calls stmt := by
  cases stmt with
  | assign id target value =>
      rcases List.mem_append.1 he with he | he
      · refine List.mem_append_right _ ?_
        cases target with
        | name => cases he
        | attr =>
            rw [List.mem_singleton.1 he] at hflow
            exact List.mem_append_left _ hflow
        | subscript =>
            rcases List.mem_pair.1 he with rfl | rfl
            · exact List.mem_append_left _ hflow
            · exact List.mem_append_right _ (List.mem_append_left _ hflow)
      · rw [List.mem_singleton.1 he] at hflow
        exact List.mem_append_left _ hflow
  | expr | ifElse | whileLoop =>
      rw [List.mem_singleton.1 he] at hflow
      exact hflow
  | forLoop =>
      rw [List.mem_singleton.1 he] at hflow
      exact List.mem_append_left _ hflow
  | ret id value =>
      cases value with
      | none => cases he
      | some v =>
          rw [List.mem_singleton.1 he] at hflow
          exact List.mem_append_left _ hflow
  | brk | cont | pass | functionDef | classDef => cases he

/-- Any other flow of a statement is no call and goes to a variable or to the result. -/
theorem exists_of_mem_stmtFlows {stmt : Stmt} (hflow : flow ∈ s.stmtFlows calls stmt) :
    (∃ e ∈ stmt.ownExprs, flow ∈ s.exprFlows calls e) ∨
      (flow.call? = none ∧ ∀ place, flow.dest? = some place →
        (∃ x, place = s.var x) ∨ place = .result s.function s.context) := by
  cases stmt with
  | assign id target value =>
      rcases List.mem_append.1 hflow with hflow | hflow
      · exact .inl ⟨value, List.mem_append_right _ List.mem_cons_self, hflow⟩
      · cases target with
        | name node x =>
            rw [List.mem_singleton.1 hflow]
            exact .inr ⟨rfl, fun _ hdest => .inl ⟨x, (Option.some.inj hdest).symm⟩⟩
        | attr node base x =>
            rcases List.mem_append.1 hflow with hflow | hflow
            · exact .inl ⟨base, List.mem_cons_self, hflow⟩
            · rw [List.mem_singleton.1 hflow]
              exact .inr ⟨rfl, fun _ hdest => by cases hdest⟩
        | subscript node base index =>
            rcases List.mem_append.1 hflow with hflow | hflow
            · exact .inl ⟨base, List.mem_cons_self, hflow⟩
            · rcases List.mem_append.1 hflow with hflow | hflow
              · exact .inl ⟨index, List.mem_cons_of_mem _ List.mem_cons_self, hflow⟩
              · rw [List.mem_singleton.1 hflow]
                exact .inr ⟨rfl, fun _ hdest => by cases hdest⟩
  | expr | ifElse | whileLoop => exact .inl ⟨_, List.mem_cons_self, hflow⟩
  | forLoop id target iter body =>
      rcases List.mem_append.1 hflow with hflow | hflow
      · exact .inl ⟨iter, List.mem_cons_self, hflow⟩
      · rw [List.mem_singleton.1 hflow]
        exact .inr ⟨rfl, fun _ hdest => .inl ⟨target, (Option.some.inj hdest).symm⟩⟩
  | ret id value =>
      cases value with
      | none => cases hflow
      | some e =>
          rcases List.mem_append.1 hflow with hflow | hflow
          · exact .inl ⟨e, List.mem_cons_self, hflow⟩
          · rw [List.mem_singleton.1 hflow]
            exact .inr ⟨rfl, fun _ hdest => .inr (Option.some.inj hdest).symm⟩
  | brk | cont | pass | functionDef | classDef => cases hflow

theorem dest?_of_mem_elementFlows {receiver result place : Place} {args : List Place}
    {m : ElementFlow} (hflow : flow ∈ m.flows receiver args result)
    (hdest : flow.dest? = some place) : place = result := by
  cases m with
  | storing position =>
      rw [ElementFlow.flows, Option.toList_map] at hflow
      obtain ⟨a, -, rfl⟩ := List.mem_map.1 hflow
      cases hdest
  | extending =>
      cases args with
      | nil => cases hflow
      | cons source rest =>
          rcases List.mem_pair.1 hflow with rfl | rfl <;> cases hdest
          rfl
  | loading fallback =>
      rcases List.mem_cons.1 hflow with rfl | hflow
      · cases hdest
        rfl
      · obtain ⟨a, -, rfl⟩ := List.mem_map.1 hflow
        cases hdest

theorem dest?_of_mem_callFlows {node : Nat} {receiver : Option Place} {args : List Place}
    {place : Place} (hflow : flow ∈ s.callFlows calls node receiver args)
    (hdest : flow.dest? = some place) : place = s.value node := by
  unfold callFlows at hflow
  dsimp only at hflow
  split at hflow
  · cases hflow
  · split at hflow
    · rw [List.mem_singleton.1 hflow] at hdest
      exact (Option.some.inj hdest).symm
    · rw [List.mem_singleton.1 hflow] at hdest
      exact (Option.some.inj hdest).symm
    · next method _ _ _ =>
      rcases List.mem_append.1 hflow with hflow | hflow
      · cases hm : ElementFlow.ofName? method with
        | none =>
            rw [hm] at hflow
            cases hflow
        | some m =>
            rw [hm] at hflow
            exact dest?_of_mem_elementFlows hflow hdest
      · rw [List.mem_singleton.1 hflow] at hdest
        exact (Option.some.inj hdest).symm
    · cases hflow

/-- The flows of an expression that lead to a place lead to its value. -/
theorem dest?_of_mem_ownFlows {e : Expr} {place : Place} (hflow : flow ∈ s.ownFlows calls e)
    (hdest : flow.dest? = some place) : place = s.value e.id := by
  cases e with
  | literal | unsupported | binOp | compare | unaryOp => cases hflow
  | name | attr | subscript =>
      rw [List.mem_singleton.1 hflow] at hdest
      exact (Option.some.inj hdest).symm
  | boolOp =>
      rcases List.mem_pair.1 hflow with rfl | rfl <;> exact (Option.some.inj hdest).symm
  | collection =>
      rcases List.mem_cons.1 hflow with rfl | hflow
      · exact (Option.some.inj hdest).symm
      · obtain ⟨a, -, rfl⟩ := List.mem_map.1 hflow
        cases hdest
  | call node func args =>
      cases func with
      | attr => exact dest?_of_mem_callFlows hflow hdest
      | literal | name | binOp | boolOp | unaryOp | compare | subscript | call | collection
      | unsupported => exact dest?_of_mem_callFlows hflow hdest

end Frame

namespace FlowProgram

variable {P : FlowProgram} {f : Nat} {κ : List Nat} {flow : Flow}

/-- The flows of an expression that a function evaluates are flows of the function. -/
theorem mem_flows_of_evaluates {info : FunctionInfo} (hf : P.index.function? f = some info)
    {part : Expr} (hpart : info.Evaluates part)
    (hflow : flow ∈ (P.frame f κ).ownFlows P.calls part) : flow ∈ P.flows f κ := by
  obtain ⟨stmt, hstmt, e, he, hpart⟩ := hpart
  rw [flows, hf]
  exact List.mem_flatMap.2 ⟨stmt, hstmt,
    Frame.mem_stmtFlows_of_mem he (Frame.mem_exprFlows.2 ⟨part, hpart, hflow⟩)⟩

/-- The flows of a function are those of the expressions it evaluates, and some that are no calls
and go to a variable or to the result. -/
theorem exists_of_mem_flows (hflow : flow ∈ P.flows f κ) :
    (∃ info part, P.index.function? f = some info ∧ info.Evaluates part ∧
        flow ∈ (P.frame f κ).ownFlows P.calls part) ∨
      (flow.call? = none ∧ ∀ place, flow.dest? = some place →
        (∃ x, place = (P.frame f κ).var x) ∨ place = .result f κ) := by
  rw [flows] at hflow
  cases hf : P.index.function? f with
  | none =>
      rw [hf] at hflow
      cases hflow
  | some info =>
      rw [hf] at hflow
      obtain ⟨stmt, hstmt, hflow⟩ := List.mem_flatMap.1 hflow
      refine (Frame.exists_of_mem_stmtFlows hflow).imp_left ?_
      rintro ⟨e, he, hflow⟩
      obtain ⟨part, hpart, hown⟩ := Frame.mem_exprFlows.1 hflow
      exact ⟨info, part, rfl, ⟨stmt, hstmt, e, he, hpart⟩, hown⟩

/-- What the flows of a function lead to. -/
theorem exists_of_dest? (hflow : flow ∈ P.flows f κ) {place : Place}
    (hdest : flow.dest? = some place) :
    (∃ info part, P.index.function? f = some info ∧ info.Evaluates part ∧
        place = .value part.id κ) ∨ (∃ x, place = (P.frame f κ).var x) ∨ place = .result f κ := by
  refine (exists_of_mem_flows hflow).imp ?_ fun h => h.2 place hdest
  rintro ⟨info, part, hf, hpart, hown⟩
  exact ⟨info, part, hf, hpart, Frame.dest?_of_mem_ownFlows hown hdest⟩

end FlowProgram

end ValueFlow
