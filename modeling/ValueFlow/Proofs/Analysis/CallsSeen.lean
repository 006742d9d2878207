import ValueFlow.Proofs.Analysis.Passing
import ValueFlow.Proofs.Analysis.Summaries
import ValueFlow.Proofs.PointsTo.Binding
import ValueFlow.Proofs.State.Keeping
/-!
Which calls an observed evaluation sees.

Without conjunctions and disjunctions, an expression has all its operands evaluated, unless some
call does not return. An observed evaluation then notes the targets of just the calls it comes to
(`noted_evalWithin`). What is called is an operand only as the receiver of a method, so calls inside
any other callee are never seen, although the call graph has them. Main statement:
`callTargets_eval`.
-/

namespace ValueFlow

namespace Expr

/-- Whether an expression is a conjunction or a disjunction. -/
def isBoolOp : Expr → Bool
  | boolOp _ _ _ _ => true
  | _ => false

def callNode? : Expr → Option Nat
  | call node _ _ => some node
  | _ => none

/-- The calls that an expression evaluates, as far as the given number of levels of parts. -/
def callsWithin : Nat → Expr → List Nat
  | 0, _ => []
  | n + 1, e => e.operands.flatMap (callsWithin n) ++ e.callNode?.toList

variable {e part : Expr} {node : Nat}

theorem Evaluates.cases (h : e.Evaluates part) :
    part = e ∨ ∃ c ∈ e.operands, c.Evaluates part := by
  cases h with
  | self => exact .inl rfl
  | operand hc h => exact .inr ⟨_, hc, h⟩

/-- With enough levels the calls are those of the expressions that are evaluated. -/
theorem mem_callsWithin {n : Nat} (hn : e.height ≤ n) :
    node ∈ callsWithin n e ↔ ∃ part, e.Evaluates part ∧ part.callNode? = some node := by
  induction n generalizing e with
  | zero => exact absurd e.height_pos (Nat.not_lt.2 hn)
  | succ n ih =>
      have hoperand {c : Expr} (hc : c ∈ e.operands) : c.height ≤ n :=
        Nat.le_of_lt_succ (Nat.lt_of_lt_of_le (height_lt_of_mem_operands hc) hn)
      rw [callsWithin, List.mem_append, List.mem_flatMap, Option.mem_toList]
      constructor
      · rintro (⟨c, hc, hnode⟩ | hnode)
        · obtain ⟨part, hpart, hcall⟩ := (ih (hoperand hc)).1 hnode
          exact ⟨part, .operand hc hpart, hcall⟩
        · exact ⟨e, .self e, hnode⟩
      · rintro ⟨part, hpart, hcall⟩
        rcases hpart.cases with rfl | ⟨c, hc, hpart⟩
        · exact .inr hcall
        · exact .inl ⟨c, hc, (ih (hoperand hc)).2 ⟨part, hpart, hcall⟩⟩

end Expr

namespace FunctionScope

variable (scope : FunctionScope)

/-- The names of the functions that a call may run, if any are known. -/
def calleeNames? (node : Nat) : Option (SortedSet String) :=
  ((scope.facts.calls.site? node).filter fun s => !s.targets.isEmpty).map fun s =>
    .ofList (s.targets.toList.map scope.facts.index.name)

/-- What the calls of some nodes add to the targets seen. -/
def added (nodes : List Nat) (node : Nat) : Option (SortedSet String) :=
  if node ∈ nodes then scope.calleeNames? node else none

/-- Between two runs an observer saw the targets of the calls of some nodes, and of no others. -/
def Marked (nodes : List Nat) (r r' : Run) : Prop :=
  ∀ o, r.seen = some o → ∃ o', r'.seen = some o' ∧ ∀ node,
    o'.callTargets.get? node = (scope.added nodes node).or (o.callTargets.get? node)

namespace Marked

variable {scope} {nodes more : List Nat} {r r' r'' : Run}

theorem of_seen_eq (h : r'.seen = r.seen) : scope.Marked [] r r' :=
  fun o ho => ⟨o, h.trans ho, fun _ => rfl⟩

theorem trans (h : scope.Marked nodes r r') (k : scope.Marked more r' r'') :
    scope.Marked (nodes ++ more) r r'' := by
  intro o ho
  obtain ⟨o₁, ho₁, h⟩ := h o ho
  obtain ⟨o₂, ho₂, k⟩ := k o₁ ho₁
  refine ⟨o₂, ho₂, fun node => ?_⟩
  rw [k, h, ← Option.or_assoc]
  refine congrArg (Option.or · _) ?_
  rw [added, added, added]
  by_cases hmore : node ∈ more <;> by_cases hnodes : node ∈ nodes <;>
    simp [hmore, hnodes]

/-- Of a call that is not known to run anything nothing is noted. -/
theorem of_unknown {node : Nat} (hnode : scope.calleeNames? node = none)
    (h : scope.Marked [] r r') : scope.Marked [node] r r' := by
  intro o ho
  obtain ⟨o', ho', hget⟩ := h o ho
  refine ⟨o', ho', fun k => ?_⟩
  rw [hget, added, added]
  by_cases hk : k ∈ [node]
  · rw [if_pos hk, List.mem_singleton.1 hk, hnode]
    rfl
  · rw [if_neg hk, if_neg List.not_mem_nil]

end Marked

/-- Whether a step notes the targets of the calls of some nodes, however it ends. -/
def Marks {α : Type} (m : Eval α) (nodes : List Nat) : Prop := ∀ r, scope.Marked nodes r (m r).2

namespace Marks

variable {scope} {α β : Type} {m : Eval α} {f : α → Eval β} {nodes : List Nat}

theorem of_seen_eq (h : ∀ r, (m r).2.seen = r.seen) : scope.Marks m [] := fun r => .of_seen_eq (h r)

theorem pure (a : α) : scope.Marks (pure a) [] := of_seen_eq fun _ => rfl

theorem current : scope.Marks Run.current [] := of_seen_eq fun _ => rfl

theorem become (s : ProgramState) : scope.Marks (Run.become s) [] := of_seen_eq fun _ => rfl

theorem changeHeap (g : Heap → Heap) : scope.Marks (Run.changeHeap g) [] := of_seen_eq fun _ => rfl

theorem observe {g : Observations → Observations} (hg : ∀ o, (g o).callTargets = o.callTargets) :
    scope.Marks (Run.observe g) [] := by
  intro r o ho
  refine ⟨g o, ?_, fun node => by rw [hg]; rfl⟩
  show r.seen.map g = some (g o)
  rw [ho]
  rfl

/-- A step that notes nothing, and then others. -/
theorem andThen (hm : scope.Marks m []) (hf : ∀ a, scope.Marks (f a) nodes) :
    scope.Marks (m >>= f) nodes := fun r => (hm r).trans (hf _ _)

/-- A step, and then others that note nothing. -/
theorem followed (hm : scope.Marks m nodes) (hf : ∀ a, scope.Marks (f a) []) :
    scope.Marks (m >>= f) nodes := fun r => by
  have h := (hm r).trans (hf (m r).1 (m r).2)
  rwa [List.append_nil] at h

end Marks

theorem elementary_marks : Elementary (fun _ => True) fun _ m => scope.Marks m [] where
  pure := .pure
  bind := .andThen
  current := .current
  become := .become
  changeHeap := .changeHeap
  report := fun _ => .observe fun _ => rfl

theorem marks_callTargets (site : CallSite) (args : List Value) (argNodes : List Nat) :
    scope.Marks (scope.callTargets site args argNodes) [] :=
  scope.elementary_marks.callTargets (fun _ _ _ => .observe fun _ => rfl) argNodes

/-- What the site of a call with known targets records. -/
theorem marks_recordTargets {node : Nat} {site : CallSite}
    (hsite : scope.facts.calls.site? node = some site) (hnode : site.node = node)
    (htargets : site.targets.isEmpty = false) : scope.Marks (scope.recordTargets site) [node] := by
  have hnames : scope.calleeNames? node =
      some (.ofList (site.targets.toList.map scope.facts.index.name)) := by
    rw [calleeNames?, hsite, Option.filter_some, htargets]
    rfl
  intro r o ho
  refine ⟨_, congrArg (Option.map _) ho, fun k => ?_⟩
  dsimp only
  rw [SortedMap.get?_insert, hnode, added]
  by_cases hk : k = node
  · rw [if_pos hk, if_pos (List.mem_singleton.2 hk), hk, hnames]
    rfl
  · rw [if_neg hk, if_neg fun h => hk (List.mem_singleton.1 h)]
    rfl

/-- The targets of a call are noted, if any are known, and the call itself notes nothing. -/
theorem marks_callSite (hkeys : ∀ node s, scope.facts.calls.site? node = some s → s.node = node)
    (node : Nat) (func : Expr) (receiver : Option (Nat × Value)) (args : List Value)
    (argNodes : List Nat) :
    scope.Marks (scope.callSite node func receiver args argNodes) [node] := by
  have finish : scope.Marks
      (do return if (← Run.current).isReachable then Value.notNull else .bottom) [] :=
    .andThen .current fun _ => .pure _
  rw [callSite]
  cases hsite : scope.facts.calls.site? node with
  | none =>
      have hnone : scope.calleeNames? node = none := by
        rw [calleeNames?, hsite]
        rfl
      exact fun r => .of_unknown hnone (scope.elementary_marks.callNamed _ _ _ r)
  | some site =>
      rw [Option.filter_some]
      cases htargets : site.targets.isEmpty with
      | true =>
          have hnone : scope.calleeNames? node = none := by
            rw [calleeNames?, hsite, Option.filter_some, htargets]
            rfl
          refine fun r => .of_unknown hnone ?_
          simp only [Option.map_some]
          cases site.kind with
          | construct => exact Marks.andThen (.changeHeap _) (fun _ => finish) r
          | direct => exact scope.elementary_marks.callNamed _ _ _ r
          | virtual => exact scope.elementary_marks.callMethod _ _ _ _ r
          | unknown => exact scope.elementary_marks.callNamed _ _ _ r
      | false =>
          refine .followed (scope.marks_recordTargets hsite (hkeys _ _ hsite) htargets) fun _ => ?_
          simp only [Option.map_some]
          cases site.kind with
          | construct =>
              exact .andThen (.changeHeap _) fun _ =>
                .andThen (scope.marks_callTargets _ _ _) fun _ => finish
          | direct => exact scope.marks_callTargets _ _ _
          | virtual => exact scope.marks_callTargets _ _ _
          | unknown => exact scope.elementary_marks.callNamed _ _ _

/-- Between two runs, of which the second is reachable only if the first is, an observer of the
second saw the targets of the calls of some nodes, and of no others. -/
structure Noted (nodes : List Nat) (r r' : Run) : Prop where
  alive : r'.state.isReachable = true → r.state.isReachable = true
  marked : r'.state.isReachable = true → scope.Marked nodes r r'

namespace Noted

variable {scope} {nodes more : List Nat} {r r' r'' : Run}

theorem refl (r : Run) : scope.Noted [] r r := ⟨id, fun _ => .of_seen_eq rfl⟩

theorem trans (h : scope.Noted nodes r r') (k : scope.Noted more r' r'') :
    scope.Noted (nodes ++ more) r r'' :=
  ⟨fun hr => h.alive (k.alive hr), fun hr => (h.marked (k.alive hr)).trans (k.marked hr)⟩

theorem of_unreachable (h : r'.state.isReachable = false) : scope.Noted nodes r r' := by
  constructor <;> exact fun hr => absurd (h.symm.trans hr) Bool.false_ne_true

/-- Nothing is noted at the end. -/
theorem followed (h : scope.Noted nodes r r') (k : scope.Noted [] r' r'') :
    scope.Noted nodes r r'' := by
  have hboth := h.trans k
  rwa [List.append_nil] at hboth

/-- A step that is taken in reachable states only. -/
theorem guarded {m : Eval Value} (h : r.state.isReachable = true → scope.Noted nodes r (m r).2) :
    scope.Noted nodes r
      ((do if !(← Run.current).isReachable then return .bottom else m : Eval Value) r).2 := by
  show scope.Noted nodes r ((if !r.state.isReachable then pure .bottom else m : Eval Value) r).2
  cases hr : r.state.isReachable with
  | true => exact h hr
  | false => exact .of_unreachable hr

/-- What is done where the parts of an expression return. -/
theorem goesOn {m : Eval Value} (h : r.state.isReachable = true → scope.Marked nodes r (m r).2) :
    scope.Noted nodes r
      ((do if (← Run.current).isReachable then m else return .bottom : Eval Value) r).2 := by
  show scope.Noted nodes r ((if r.state.isReachable then m else pure .bottom : Eval Value) r).2
  cases hr : r.state.isReachable with
  | true => exact ⟨fun _ => hr, fun _ => h hr⟩
  | false => exact .of_unreachable hr

end Noted

/-- An access makes no state reachable. -/
theorem noted_checkAccess (location : Nat) (receiver : Expr) (value : Value) (access : String)
    (r : Run) : scope.Noted [] r (scope.checkAccess location receiver value access r).2 := by
  have hmarks : scope.Marks (scope.checkAccess location receiver value access) [] :=
    scope.elementary_marks.checkAccess (fun _ _ _ => trivial) _ _ _ _
  refine ⟨?_, fun _ => hmarks r⟩
  unfold checkAccess
  cases value.nullability with
  | bottom | notNull | top | definitelyNull => exact id
  | nullable =>
      cases receiver.name? with
      | none => exact id
      | some x => exact ProgramState.isReachable_of_leq (Environment.refine_leq ..) rfl

theorem noted_checkIndex (location base : Nat) (index : Value) (r : Run) :
    scope.Noted [] r (scope.checkIndex location base index r).2 := by
  have hmarks : scope.Marks (scope.checkIndex location base index) [] :=
    scope.elementary_marks.checkIndex (fun _ _ _ => trivial) _ _ _
  have hstate : (scope.checkIndex location base index r).2.state = r.state := by
    unfold checkIndex
    show ((if scope.isSequence base then _ else pure () : Eval Unit) r).2.state = r.state
    split
    · cases IndexCheck.check (r.state.heap.lengthOf scope.pointsTo base) index <;> rfl
    · rfl
  exact ⟨fun hr => hstate ▸ hr, fun _ => hmarks r⟩

section Evaluation

variable {scope} {n : Nat} (ih : ∀ e r, (∀ a ∈ e.walk, a.isBoolOp = false) →
  scope.Noted (e.callsWithin n) r (scope.evalWithin n e r).2)
include ih

/-- Expressions that are evaluated one after the other. -/
theorem noted_mapM {l : List Expr} (hl : ∀ e ∈ l, ∀ a ∈ e.walk, a.isBoolOp = false) (r : Run) :
    scope.Noted (l.flatMap (Expr.callsWithin n)) r (l.mapM (scope.evalWithin n) r).2 := by
  induction l generalizing r with
  | nil => exact .refl r
  | cons e rest ih' =>
      rw [List.mapM_cons, List.flatMap_cons]
      have hrest := ih' (fun e he => hl e (List.mem_cons_of_mem _ he))
        (scope.evalWithin n e r).2
      exact (ih e r (hl e List.mem_cons_self)).trans (hrest.followed (.refl _))

end Evaluation

/-- An evaluation of an expression without conjunctions and disjunctions notes the calls that it
evaluates. -/
theorem noted_evalWithin
    (hkeys : ∀ node s, scope.facts.calls.site? node = some s → s.node = node) (n : Nat) (e : Expr)
    (r : Run) (he : ∀ a ∈ e.walk, a.isBoolOp = false) :
    scope.Noted (e.callsWithin n) r (scope.evalWithin n e r).2 := by
  induction n generalizing e r with
  | zero => exact .refl r
  | succ n ih =>
      have hoperand {c : Expr} (hc : c ∈ e.operands) (a : Expr) (ha : a ∈ c.walk) :
          a.isBoolOp = false := he a (Expr.walk_subset_of_mem_operands hc ha)
      rw [Expr.callsWithin]
      cases e with
      | literal | unsupported =>
          rw [evalWithin]
          exact .guarded fun _ => .refl r
      | name =>
          rw [evalWithin]
          exact .guarded fun _ => .refl r
      | binOp id op left right | compare id op left right =>
          rw [evalWithin]
          have hleft := ih left r (hoperand List.mem_cons_self)
          have hright := ih right (scope.evalWithin n left r).2
            (hoperand (List.mem_cons_of_mem _ List.mem_cons_self))
          exact .guarded fun _ => (hleft.trans (hright.trans (.refl _))).trans (.refl _)
      | boolOp id op left right => cases he _ (Expr.mem_walk_self _)
      | unaryOp id op operand =>
          rw [evalWithin]
          have hpart := ih operand r (hoperand List.mem_cons_self)
          exact .guarded fun _ => (hpart.trans (.refl _)).trans (.refl _)
      | attr id value field =>
          rw [evalWithin]
          have hvalue := ih value r (hoperand List.mem_cons_self)
          exact .guarded fun _ => (hvalue.trans (scope.noted_checkAccess ..)).trans (.refl _)
      | subscript id value index =>
          rw [evalWithin]
          have hvalue := ih value r (hoperand List.mem_cons_self)
          have hindex := ih index (scope.evalWithin n value r).2
            (hoperand (List.mem_cons_of_mem _ List.mem_cons_self))
          exact .guarded fun _ => (hvalue.trans (hindex.trans (scope.noted_checkAccess ..))).trans
            (scope.noted_checkIndex ..)
      | call node func args =>
          have hargs (r : Run) := noted_mapM ih (l := args)
            (fun a ha => hoperand (Expr.mem_operands_of_mem_args ha)) r
          have hcall (receiver : Option (Nat × Value)) (values : List Value) (r : Run) :=
            Noted.goesOn (r := r) fun _ =>
              scope.marks_callSite hkeys node func receiver values (args.map Expr.id) r
          cases func with
          | attr id value method =>
              rw [evalWithin]
              have hvalue := ih value r (hoperand List.mem_cons_self)
              have hreceiver (v : Value) := hvalue.followed
                (scope.noted_checkAccess id value v s!"method '{method}'" _)
              exact .guarded fun _ => ((hreceiver _).trans (hargs _)).trans (hcall _ _ _)
          | literal | name | binOp | boolOp | unaryOp | compare | subscript | call | collection
          | unsupported =>
              rw [evalWithin]
              exact .guarded fun _ => (hargs _).trans (hcall _ _ _)
      | collection id kind elements =>
          rw [evalWithin]
          have hparts := noted_mapM ih (l := elements) (fun a ha => hoperand ha) r
          exact .guarded fun _ => hparts.trans (.goesOn fun _ => .of_seen_eq rfl)

end FunctionScope

namespace Program

variable {p : Program} {config : Config} {scope : FunctionScope} {e : Expr}

/-- Where nodes have different identifiers, the parts of every expression have. -/
theorem nodup_ids_of_mem (hids : (ProgramIndex.build p).nodeIds.Nodup) {i : Nat} {f : FunctionInfo}
    (hf : (ProgramIndex.build p).function? i = some f) {stmt : Stmt}
    (he : (stmt, e) ∈ walkExprs f.body) : (e.walk.map Expr.id).Nodup := by
  obtain ⟨hstmt, he⟩ := mem_walkExprs.1 he
  obtain ⟨own, hown, he⟩ := Expr.mem_walkAll.1 he
  have hparts : e.walk.Sublist (Expr.walkAll stmt.ownExprs) :=
    (Expr.walk_sublist_of_mem_walk he).trans (Expr.walk_sublist_walkAll hown)
  have hbody : (Stmt.idsOf f.body).Nodup :=
    (List.nodup_flatMap.1 hids).1 f (Array.mem_toList_iff.2 (Array.mem_of_getElem? hf))
  have hnode := (List.nodup_flatMap.1 hbody).1 stmt hstmt
  exact ((List.nodup_append.1 hnode).2.1).sublist (hparts.map Expr.id)

theorem node_of_site? {node : Nat} {s : CallSite}
    (hs : (p.facts config).calls.site? node = some s) : s.node = node :=
  CallGraph.forall_site?_refine (P := fun node s => s.node = node)
    (fun hs => (CallGraph.mem_allSites_of_site? hs).2) (fun _ _ h => h) hs

/-- An observed evaluation that returns has noted the targets of every call that it evaluates,
wherever the call stands: in a receiver, an argument, an index, an operand or an element. It has not
noted those of the calls inside a callee that is no method, which are not evaluated. The expression
may be any of a program with distinct identifiers. -/
theorem callTargets_eval (hscope : scope.facts = p.facts config)
    (hids : (e.walk.map Expr.id).Nodup) (hbool : ∀ a ∈ e.walk, a.isBoolOp = false)
    (s : ProgramState) (o : Observations)
    (hend : (scope.eval e ⟨s, some o⟩).2.state.isReachable = true) :
    ∃ o', (scope.eval e ⟨s, some o⟩).2.seen = some o' ∧
      ∀ node func args site, .call node func args ∈ e.walk →
        (p.facts config).calls.site? node = some site → site.targets.isEmpty = false →
          (e.Evaluates (.call node func args) → o'.callTargets.get? node =
            some (.ofList (site.targets.toList.map (p.facts config).index.name))) ∧
          (¬ e.Evaluates (.call node func args) →
            o'.callTargets.get? node = o.callTargets.get? node) := by
  have hkeys : ∀ node s, scope.facts.calls.site? node = some s → s.node = node := by
    rw [hscope]
    exact fun _ _ => node_of_site?
  have noted := scope.noted_evalWithin hkeys e.height e ⟨s, some o⟩ hbool
  obtain ⟨o', ho', hget⟩ := noted.marked hend o rfl
  refine ⟨o', ho', fun node func args site hmem hsite htargets => ⟨fun h => ?_, fun h => ?_⟩⟩
  · have hcalled : node ∈ e.callsWithin e.height :=
      (Expr.mem_callsWithin (Nat.le_refl _)).2 ⟨_, h, rfl⟩
    rw [hget, FunctionScope.added, if_pos hcalled, FunctionScope.calleeNames?, hscope, hsite,
      Option.filter_some, htargets]
    rfl
  · have hcalled : node ∉ e.callsWithin e.height := by
      intro hcalled
      obtain ⟨part, hpart, hnode⟩ := (Expr.mem_callsWithin (Nat.le_refl _)).1 hcalled
      cases part with
      | call id func' args' =>
          cases hnode
          have heq := List.inj_on_of_nodup_map hids hpart.mem_walk hmem rfl
          exact h (heq ▸ hpart)
      | literal | name | binOp | boolOp | unaryOp | compare | attr | subscript | collection
      | unsupported => cases hnode
    rw [hget, FunctionScope.added, if_neg hcalled]
    rfl

/-- Calls a function in a receiver, an element, an index and an argument. -/
def nestedCall : Expr :=
  .call 6 (.attr 7 (.call 8 (.name 9 "id")
    [.subscript 10 (.collection 11 .list [.call 12 (.name 13 "id") [.literal 14 (.int 1)]])
      (.call 15 (.name 16 "id") [.literal 17 (.int 0)])]) "append")
    [.call 18 (.name 19 "id") [.literal 20 (.int 2)]]

def nestedCalls : Program where
  body := [.functionDef 1 2 "id" ["v"] [.ret 3 (some (.name 4 "v"))], .expr 5 nestedCall]

/-- The module of a program whose first function may return anything. -/
def moduleScope (p : Program) : FunctionScope where
  facts := p.facts (.ofPreset .standard)
  name := "<module>"
  exit := 1
  summaries := SortedMap.empty.insert 1 { FunctionSummary.initial "" [] with returnValue := .top }

set_option maxRecDepth 10000 in
theorem callTargets_eval_nestedCall :
    (ProgramIndex.build nestedCalls).nodeIds.Nodup ∧
    ∃ o, (nestedCalls.moduleScope.eval nestedCall ⟨.top, some .empty⟩).2.seen = some o ∧
      ∀ node ∈ [8, 12, 15, 18], o.callTargets.get? node = some (.ofList ["id"]) := by
  have hids : (ProgramIndex.build nestedCalls).nodeIds.Nodup := by decide
  have hmem : (.expr 5 nestedCall, nestedCall) ∈ walkExprs nestedCalls.body := List.mem_cons_self
  have hsites : ([8, 12, 15, 18].all fun node =>
      ((nestedCalls.facts (.ofPreset .standard)).calls.site? node).any fun site =>
        !site.targets.isEmpty && decide (site.targets.toList.map
          (nestedCalls.facts (.ofPreset .standard)).index.name = ["id"])) = true := by
    decide +kernel
  have hscope : nestedCalls.moduleScope.facts = nestedCalls.facts (.ofPreset .standard) := rfl
  obtain ⟨o, ho, hnoted⟩ := callTargets_eval hscope (nodup_ids_of_mem hids (i := 0) rfl hmem)
    (by decide) .top .empty (by decide +kernel)
  refine ⟨hids, o, ho, fun node hnode => ?_⟩
  obtain ⟨site, hsite, hnames⟩ := (Option.any_eq_true ..).1 (List.all_eq_true.1 hsites node hnode)
  rw [Bool.and_eq_true, Bool.not_eq_true', decide_eq_true_eq] at hnames
  have hcalled : ∀ node ∈ [8, 12, 15, 18],
      node ∈ nestedCall.callsWithin nestedCall.height := by decide
  obtain ⟨part, hpart, hcall⟩ := (Expr.mem_callsWithin (Nat.le_refl _)).1 (hcalled node hnode)
  cases part with
  | call id func args =>
      cases hcall
      rw [← hnames.2]
      exact (hnoted node func args site hpart.mem_walk hsite hnames.1).1 hpart
  | literal | name | binOp | boolOp | unaryOp | compare | attr | subscript | collection
  | unsupported => cases hcall

/-- Whether an observed evaluation that returns has noted every call in an expression of a program
that is known to run something. -/
def NotesAllCalls (p : Program) (config : Config) : Prop :=
  ∀ i f, (ProgramIndex.build p).function? i = some f → ∀ stmt e, (stmt, e) ∈ walkExprs f.body →
    (∀ a ∈ e.walk, a.isBoolOp = false) → ∀ scope : FunctionScope, scope.facts = p.facts config →
    ∀ s o, s.isReachable = true → (scope.eval e ⟨s, some o⟩).2.state.isReachable = true →
    ∀ node func args site, .call node func args ∈ e.walk →
      (p.facts config).calls.site? node = some site → site.targets.isEmpty = false →
      ∃ o', (scope.eval e ⟨s, some o⟩).2.seen = some o' ∧ (o'.callTargets.get? node).isSome = true

set_option maxRecDepth 10000 in
/-- A call whose result is called is not evaluated. -/
theorem not_notesAllCalls : (ProgramIndex.build calledResult).nodeIds.Nodup ∧
    ¬ calledResult.NotesAllCalls (.ofPreset .standard) := by
  refine ⟨by decide, fun h => ?_⟩
  have hknown : ∃ site, (calledResult.facts (.ofPreset .standard)).calls.site? 7 = some site ∧
      site.targets.isEmpty = false := ⟨_, rfl, rfl⟩
  obtain ⟨site, hsite, htargets⟩ := hknown
  obtain ⟨o, ho, hsome⟩ := h 0 _ rfl (.expr 5 _) _ (List.mem_cons_self) (by decide)
    calledResult.moduleScope rfl .top .empty (by decide) (by decide +kernel) 7 _ _ site
    (List.mem_cons_of_mem _ List.mem_cons_self) hsite htargets
  have hnone : ((calledResult.moduleScope.eval (.call 6 (.call 7 (.name 8 "make") []) [])
      ⟨.top, some .empty⟩).2.seen.map fun o => (o.callTargets.get? 7).isSome) = some false := by
    decide +kernel
  rw [ho, Option.map_some, hsome] at hnone
  cases hnone

end Program

end ValueFlow
