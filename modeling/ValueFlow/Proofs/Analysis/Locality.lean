import ValueFlow.Analysis.Summarize
import ValueFlow.Proofs.Analysis.Steps
import ValueFlow.Proofs.Trees
/-!
A function is summarized from the summaries of the functions that it calls.

The analysis of a function reads the table of summaries only where a call site of its body names a
function, and of that function only the return value and the effects. Two tables that agree there
lead to the same states, so to the same summary.
-/

namespace ValueFlow

def FunctionSummary.interface (s : FunctionSummary) : Value × HeapEffects :=
  (s.returnValue, s.effects)

/-- Whether two tables tell the callers of a function the same. -/
def SummaryTable.SameFor (S T : SummaryTable) (f : Nat) : Prop :=
  (S.get? f).map FunctionSummary.interface = (T.get? f).map FunctionSummary.interface

theorem mapM_congr {α β : Type} {f g : α → Eval β} {l : List α}
    (h : ∀ a ∈ l, f a = g a) : l.mapM f = l.mapM g := by
  induction l with
  | nil => rfl
  | cons a rest ih =>
      rw [List.mapM_cons, List.mapM_cons, h a List.mem_cons_self,
        ih fun b hb => h b (List.mem_cons_of_mem _ hb)]

namespace ProgramState

variable {eval eval' : Expr → ProgramState → Value} {domains : DomainSet} {P : Expr → Prop}

theorem compareWith_congr {other : Expr} (h : eval other = eval' other) (op : CompOp) (side : Expr)
    (s : ProgramState) :
    compareWith eval domains op side other s = compareWith eval' domains op side other s := by
  unfold compareWith
  rw [h]

/-- Narrowing evaluates nothing but parts of the condition. -/
theorem narrow_congr (hchild : ∀ {e c : Expr}, P e → c ∈ e.children → P c)
    (heval : ∀ {e}, P e → eval e = eval' e) {cond : Expr} (h : P cond) (outcome : Bool)
    (s : ProgramState) :
    narrow eval domains cond outcome s = narrow eval' domains cond outcome s := by
  fun_induction narrow eval domains cond outcome s with
  | case1 id operand outcome s ih =>
      rw [narrow]
      exact ih (hchild h List.mem_cons_self)
  | case2 id op left right s ihl ihr =>
      rw [narrow, if_pos rfl, ← ihl (hchild h List.mem_cons_self)]
      exact ihr (hchild h (List.mem_cons_of_mem _ List.mem_cons_self))
  | case3 id op left right outcome s hop => rw [narrow, if_neg hop]
  | case4 id op left right outcome s =>
      have hleft : eval left = eval' left := heval (hchild h List.mem_cons_self)
      have hright : eval right = eval' right :=
        heval (hchild h (List.mem_cons_of_mem _ List.mem_cons_self))
      rw [narrow, compareWith_congr hright, compareWith_congr hleft]
  | case5 id x outcome s => rw [narrow]
  | case6 cond outcome s hnot hbool hcompare hname => rw [narrow] <;> assumption

theorem assume_congr (hchild : ∀ {e c : Expr}, P e → c ∈ e.children → P c)
    (heval : ∀ {e}, P e → eval e = eval' e) {cond : Expr} (h : P cond) (outcome : Bool)
    (s : ProgramState) :
    assume eval domains s cond outcome = assume eval' domains s cond outcome := by
  unfold assume
  rw [heval h, narrow_congr hchild heval h]

end ProgramState

namespace FunctionScope

/-- The scope of the same function with other summaries. -/
def withSummaries (scope : FunctionScope) (T : SummaryTable) : FunctionScope :=
  { scope with summaries := T }

/-- Whether a table tells the same about all functions that an expression may call. -/
def Agrees (scope : FunctionScope) (T : SummaryTable) (e : Expr) : Prop :=
  ∀ ⦃node func args site f⦄, .call node func args ∈ e.walk →
    scope.facts.calls.site? node = some site → f ∈ site.targets.toList →
    scope.summaries.SameFor T f

variable {scope : FunctionScope} {T : SummaryTable} {e : Expr}

theorem Agrees.child (h : scope.Agrees T e) {c : Expr} (hc : c ∈ e.children) : scope.Agrees T c :=
  fun _ _ _ _ _ hmem => h (Expr.walk_subset_of_mem_children hc hmem)

theorem outcomeOf_congr {f : Nat} (h : scope.summaries.SameFor T f) (argNodes : List Nat)
    (heap : Heap) :
    (scope.withSummaries T).outcomeOf argNodes heap f = scope.outcomeOf argNodes heap f := by
  have htable : (scope.withSummaries T).summaries = T := rfl
  unfold outcomeOf
  refine ite_congr rfl (fun _ => rfl) fun _ => ?_
  rw [htable]
  unfold SummaryTable.SameFor at h
  cases hS : scope.summaries.get? f with
  | none =>
      rw [hS, Option.map_none, eq_comm, Option.map_eq_none_iff] at h
      rw [h]
  | some s =>
      rw [hS, Option.map_some, eq_comm, Option.map_eq_some_iff] at h
      obtain ⟨t, ht, he⟩ := h
      obtain ⟨hreturn, heffects⟩ := Prod.mk.inj he
      rw [ht]
      show (t.returnValue, t.effects.apply heap) = (s.returnValue, s.effects.apply heap)
      rw [hreturn, heffects]

theorem callTargets_congr {site : CallSite}
    (h : ∀ f ∈ site.targets.toList, scope.summaries.SameFor T f) (args : List Value)
    (argNodes : List Nat) :
    (scope.withSummaries T).callTargets site args argNodes = scope.callTargets site args argNodes := by
  have hmap : ∀ heap : Heap,
      site.targets.toList.map ((scope.withSummaries T).outcomeOf argNodes heap) =
        site.targets.toList.map (scope.outcomeOf argNodes heap) := by
    intro heap
    exact List.map_congr_left fun f hf => outcomeOf_congr (h f hf) argNodes heap
  unfold callTargets
  simp only [hmap]
  rfl

theorem callSite_congr {node : Nat}
    (h : ∀ {site}, scope.facts.calls.site? node = some site → ∀ f ∈ site.targets.toList,
      scope.summaries.SameFor T f)
    (func : Expr) (receiver : Option (Nat × Value)) (args : List Value) (argNodes : List Nat) :
    (scope.withSummaries T).callSite node func receiver args argNodes =
      scope.callSite node func receiver args argNodes := by
  have hknown : ∀ {site}, (scope.facts.calls.site? node).filter (fun s => !s.targets.isEmpty) =
      some site → ∀ args argNodes, (scope.withSummaries T).callTargets site args argNodes =
        scope.callTargets site args argNodes := by
    intro site hsite
    exact callTargets_congr (h (Option.filter_eq_some_iff.1 hsite).1)
  have hfacts : (scope.withSummaries T).facts = scope.facts := rfl
  unfold callSite
  rw [hfacts]
  dsimp only
  cases hsite : (scope.facts.calls.site? node).filter (fun s => !s.targets.isEmpty) with
  | none =>
      cases (scope.facts.calls.site? node).map CallSite.kind with
      | none => rfl
      | some kind => cases kind <;> rfl
  | some site =>
      cases (scope.facts.calls.site? node).map CallSite.kind with
      | none => rfl
      | some kind =>
          cases kind <;> simp only [hknown hsite] <;> rfl

/-- Nothing is evaluated where nothing is reached. -/
theorem evalWithin_of_unreachable {s : ProgramState} (hs : s.isReachable = false) (n : Nat)
    (e : Expr) (seen : Option Observations) :
    scope.evalWithin n e ⟨s, seen⟩ = (.bottom, ⟨s, seen⟩) := by
  cases n with
  | zero => rfl
  | succ n =>
      unfold evalWithin
      show (if !s.isReachable then pure .bottom else _ : Eval Value) ⟨s, seen⟩ = _
      rw [hs]
      rfl

/-- Tables that tell the same lead to the same evaluation, and how deep it may go makes no
difference once all parts are reached. -/
theorem evalWithin_congr {n m : Nat} (hn : e.height ≤ n) (hm : e.height ≤ m)
    (h : scope.Agrees T e) : (scope.withSummaries T).evalWithin n e = scope.evalWithin m e := by
  induction n generalizing m e with
  | zero => exact absurd hn (Nat.not_le_of_lt e.height_pos)
  | succ n ih =>
      obtain ⟨m, rfl⟩ := Nat.exists_eq_add_of_lt (Nat.lt_of_lt_of_le e.height_pos hm)
      rw [Nat.zero_add] at hm ⊢
      have below {c : Expr} {k : Nat} (hc : c ∈ e.children) (hk : e.height ≤ k + 1) :
          c.height ≤ k :=
        Nat.le_of_lt_succ (Nat.lt_of_lt_of_le (Expr.height_lt_of_mem_children hc) hk)
      have part {c : Expr} (hc : c ∈ e.children) :
          (scope.withSummaries T).evalWithin n c = scope.evalWithin m c :=
        ih (below hc hn) (below hc hm) (h.child hc)
      cases e with
      | literal | name | unsupported => rfl
      | binOp id op left right | compare id op left right =>
          have hleft := part List.mem_cons_self
          have hright := part (List.mem_cons_of_mem _ List.mem_cons_self)
          rw [evalWithin, evalWithin, hleft, hright]
      | unaryOp id op operand => rw [evalWithin, evalWithin, part List.mem_cons_self]
      | attr id value field =>
          rw [evalWithin, evalWithin, part List.mem_cons_self]
          rfl
      | subscript id value index =>
          have hvalue := part List.mem_cons_self
          have hindex := part (List.mem_cons_of_mem _ List.mem_cons_self)
          rw [evalWithin, evalWithin, hvalue, hindex]
          rfl
      | collection id kind elements =>
          have helements : elements.mapM ((scope.withSummaries T).evalWithin n) =
              elements.mapM (scope.evalWithin m) := mapM_congr fun a ha => part ha
          rw [evalWithin, evalWithin, helements]
          rfl
      | boolOp id op left right =>
          have hleft := part List.mem_cons_self
          have hright := part (List.mem_cons_of_mem _ List.mem_cons_self)
          have hassume : ∀ s outcome,
              ProgramState.assume (fun e s => ((scope.withSummaries T).evalWithin n e ⟨s, none⟩).1)
                (scope.withSummaries T).domains s left outcome =
              ProgramState.assume (fun e s => (scope.evalWithin m e ⟨s, none⟩).1) scope.domains s
                left outcome := by
            intro s outcome
            refine ProgramState.assume_congr
              (P := fun e => e.height ≤ n ∧ e.height ≤ m ∧ scope.Agrees T e)
              (fun he hc => ?_) (fun he => ?_) ⟨below List.mem_cons_self hn,
                below List.mem_cons_self hm, h.child List.mem_cons_self⟩ outcome s
            · have hlt := Nat.le_of_lt (Expr.height_lt_of_mem_children hc)
              exact ⟨Nat.le_trans hlt he.1, Nat.le_trans hlt he.2.1, he.2.2.child hc⟩
            · rw [ih he.1 he.2.1 he.2.2]
          rw [evalWithin, evalWithin, hleft, hright]
          simp only [hassume]
      | call node func args =>
          have hargs : args.mapM ((scope.withSummaries T).evalWithin n) =
              args.mapM (scope.evalWithin m) :=
            mapM_congr fun a ha => part (List.mem_cons_of_mem _ ha)
          have hsite : ∀ receiver values argNodes,
              (scope.withSummaries T).callSite node func receiver values argNodes =
                scope.callSite node func receiver values argNodes := by
            intro receiver values argNodes
            exact callSite_congr (fun hsite f hf => h (Expr.mem_walk_self _) hsite hf) func receiver
              values argNodes
          rw [evalWithin, evalWithin, hargs]
          simp only [hsite]
          cases func with
          | attr id value method =>
              have hlt : ∀ {k}, (Expr.attr id value method).height ≤ k → value.height ≤ k :=
                fun hk => Nat.le_of_lt (Nat.lt_of_lt_of_le
                  (Expr.height_lt_of_mem_children List.mem_cons_self) hk)
              have hvalue : (scope.withSummaries T).evalWithin n value = scope.evalWithin m value :=
                ih (hlt (below List.mem_cons_self hn)) (hlt (below List.mem_cons_self hm))
                  ((h.child List.mem_cons_self).child List.mem_cons_self)
              simp only [hvalue]
              rfl
          | literal | name | binOp | boolOp | unaryOp | compare | subscript | call | collection
          | unsupported => rfl

theorem evalWithin_eq {n m : Nat} (hn : e.height ≤ n) (hm : e.height ≤ m) :
    scope.evalWithin n e = scope.evalWithin m e :=
  evalWithin_congr (T := scope.summaries) hn hm fun _ _ _ _ _ _ _ _ => rfl

theorem eval_congr (h : scope.Agrees T e) : (scope.withSummaries T).eval e = scope.eval e :=
  evalWithin_congr (Nat.le_refl _) (Nat.le_refl _) h

theorem look_congr (h : scope.Agrees T e) : (scope.withSummaries T).look e = scope.look e := by
  funext s
  unfold look
  rw [eval_congr h]

/-- Whether a table tells the same about all functions that an item may call. -/
def AgreesItem (scope : FunctionScope) (T : SummaryTable) (item : BlockItem) : Prop :=
  ∀ e ∈ item.exprs, scope.Agrees T e

theorem writeTarget_congr {target : Target} (h : ∀ e ∈ target.exprs, scope.Agrees T e)
    (source : Expr) (v : Value) :
    (scope.withSummaries T).writeTarget target source v = scope.writeTarget target source v := by
  cases target with
  | name id x => rfl
  | attr id base field =>
      rw [writeTarget, writeTarget, eval_congr (h base List.mem_cons_self)]
      rfl
  | subscript id base index =>
      have hbase := eval_congr (h base List.mem_cons_self)
      have hindex := eval_congr (h index (List.mem_cons_of_mem _ List.mem_cons_self))
      rw [writeTarget, writeTarget, hbase, hindex]
      rfl

theorem runStmt_congr {s : Stmt} (h : ∀ e ∈ s.ownExprs, scope.Agrees T e) :
    (scope.withSummaries T).runStmt s = scope.runStmt s := by
  cases s with
  | assign id target value =>
      have hvalue := eval_congr (h value (List.mem_append_right _ List.mem_cons_self))
      have htarget := writeTarget_congr fun e he => h e (List.mem_append_left _ he)
      rw [runStmt, runStmt, hvalue]
      simp only [htarget]
  | expr id value => rw [runStmt, runStmt, eval_congr (h value List.mem_cons_self)]
  | ret id value =>
      cases value with
      | none => rfl
      | some e =>
          rw [runStmt, runStmt, eval_congr (h e List.mem_cons_self)]
          rfl
  | functionDef | classDef | ifElse | whileLoop | forLoop | brk | cont | pass => rfl

theorem elementOf_congr (h : scope.Agrees T e) (s : ProgramState) :
    (scope.withSummaries T).elementOf e s = scope.elementOf e s := by
  cases e with
  | call node func args =>
      have hargs : args.map (fun a => (scope.withSummaries T).look a s) =
          args.map (fun a => scope.look a s) := by
        refine List.map_congr_left fun a ha => ?_
        rw [look_congr (h.child (List.mem_cons_of_mem _ ha))]
      have hrange : (scope.withSummaries T).rangeArgs? (.call node func args) =
          scope.rangeArgs? (.call node func args) := rfl
      unfold elementOf
      rw [hrange]
      cases hr : scope.rangeArgs? (.call node func args) with
      | none => rfl
      | some args' =>
          have hsame : args' = args := by
            unfold rangeArgs? at hr
            simp only [Option.ite_none_right_eq_some, Option.some.injEq] at hr
            exact hr.2.symm
          simp only [hsame, hargs]
  | literal | name | binOp | boolOp | unaryOp | compare | attr | subscript | collection
  | unsupported => rfl

theorem runItem_congr {item : BlockItem} (h : scope.AgreesItem T item) :
    (scope.withSummaries T).runItem item = scope.runItem item := by
  unfold runItem
  cases item with
  | statement s => simp only [runStmt_congr h]
  | condition cond =>
      have hcond : (scope.withSummaries T).runCondition cond = scope.runCondition cond := by
        rw [runCondition, runCondition, eval_congr (h cond List.mem_cons_self)]
        rfl
      simp only [hcond]
  | evaluate e => simp only [eval_congr (h e List.mem_cons_self)]
  | bind id target iter =>
      simp only [elementOf_congr (h iter List.mem_cons_self)]
      rfl

theorem followEdge_congr {source : Block} (h : ∀ item ∈ source.items, scope.AgreesItem T item)
    (e : Edge) (s : ProgramState) :
    (scope.withSummaries T).followEdge e source s = scope.followEdge e source s := by
  unfold followEdge
  refine ite_congr rfl (fun _ => rfl) fun _ => ?_
  cases hcond : source.condition? with
  | none => cases e.kind.outcome? <;> rfl
  | some cond =>
      have hitem : BlockItem.condition cond ∈ source.items := by
        unfold Block.condition? at hcond
        split at hcond
        · next hlast =>
            cases hcond
            exact List.mem_of_getLast? hlast
        · cases hcond
      cases e.kind.outcome? with
      | none => rfl
      | some outcome =>
          exact ProgramState.assume_congr (P := scope.Agrees T) (fun he hc => he.child hc)
            (fun he => look_congr he) (h _ hitem cond List.mem_cons_self) outcome s

theorem runItems_congr {items : List BlockItem} (h : ∀ item ∈ items, scope.AgreesItem T item) :
    items.forM (scope.withSummaries T).runItem = items.forM scope.runItem := by
  induction items with
  | nil => rw [List.forM, List.forM]
  | cons i rest ih =>
      have hrest := ih fun j hj => h j (List.mem_cons_of_mem _ hj)
      rw [List.forM, List.forM, runItem_congr (h i List.mem_cons_self), hrest]

theorem replay_congr {g : FlowGraph} (h : ∀ b, ∀ item ∈ (g.block b).items, scope.AgreesItem T item)
    (solution : Fixpoint.Solution ProgramState) :
    (scope.withSummaries T).replay g solution = scope.replay g solution := by
  unfold replay
  simp only [runItems_congr (h _)]

end FunctionScope

namespace Fixpoint

variable {σ : Type} [AbstractDomain σ] {g : FlowGraph} {t t' : Transfer σ}

/-- Whether two transfer functions do the same in a graph. -/
structure SameIn (g : FlowGraph) (t t' : Transfer σ) : Prop where
  item : ∀ b, ∀ i ∈ (g.block b).items, t.item i = t'.item i
  edge : ∀ e, t.edge e (g.block e.source) = t'.edge e (g.block e.source)

theorem SameIn.runItems (h : SameIn g t t') (b : Nat) (s : σ) :
    runItems t (g.block b).items s = runItems t' (g.block b).items s := by
  have fold : ∀ (l : List BlockItem), (∀ i ∈ l, t.item i = t'.item i) → ∀ s : σ,
      l.foldl (fun s i => t.item i s) s = l.foldl (fun s i => t'.item i s) s := by
    intro l hl
    induction l with
    | nil => exact fun _ => rfl
    | cons i rest ih =>
        intro s
        rw [List.foldl_cons, List.foldl_cons, hl i List.mem_cons_self]
        exact ih (fun j hj => hl j (List.mem_cons_of_mem _ hj)) _
  unfold Fixpoint.runItems
  rw [fold _ (h.item b)]

theorem SameIn.inflow (h : SameIn g t t') (start : σ) (s : Solution σ) (b : Nat) :
    inflow g t start s b = inflow g t' start s b := by
  unfold Fixpoint.inflow
  simp only [h.edge]

theorem SameIn.visit (h : SameIn g t t') (limits : Limits) (start : σ) (s : Solution σ) (b : Nat) :
    visit g t limits start s b = visit g t' limits start s b := by
  unfold Fixpoint.visit
  simp only [h.inflow, h.runItems]

theorem SameIn.iterate (h : SameIn g t t') (limits : Limits) (start : σ) (n : Nat)
    (work : Worklist) (s : Solution σ) :
    iterate g t limits start n work s = iterate g t' limits start n work s := by
  induction n generalizing work s with
  | zero => rfl
  | succ n ih =>
      rw [Fixpoint.iterate, Fixpoint.iterate]
      simp only [h.visit, ih]

end Fixpoint

namespace ProgramFacts

/-- Tables that agree about the functions called lead to the same states. -/
theorem solve_congr (facts : ProgramFacts) {S T : SummaryTable} {i : Nat} {g : FlowGraph}
    (h : ∀ b, ∀ item ∈ (g.block b).items, (facts.scope S i g).AgreesItem T item)
    (input : Option CallInput) : facts.solve T i g input = facts.solve S i g input := by
  have hsame : Fixpoint.SameIn g (facts.scope T i g).transfer (facts.scope S i g).transfer := by
    constructor
    · intro b item hitem
      funext s
      show ((facts.scope T i g).runItem item ⟨s, none⟩).2.state =
        ((facts.scope S i g).runItem item ⟨s, none⟩).2.state
      have := FunctionScope.runItem_congr (h b item hitem)
      rw [← this]
      rfl
    · intro e
      funext s
      exact FunctionScope.followEdge_congr (h e.source) e s
  exact hsame.iterate _ _ _ _ _

/-- Summaries made from tables that agree about the functions called are the same. -/
theorem summarize_congr (facts : ProgramFacts) {S T : SummaryTable} {i : Nat}
    (h : ∀ {g}, facts.graph? i = some g → ∀ b, ∀ item ∈ (g.block b).items,
      (facts.scope S i g).AgreesItem T item) :
    facts.summarize T i = facts.summarize S i := by
  unfold summarize
  cases hg : facts.graph? i with
  | none => rfl
  | some g => simp only [facts.solve_congr (h hg) none]

end ProgramFacts

end ValueFlow
