import ValueFlow.Analysis.Transfer
import ValueFlow.Proofs.Analysis.Evaluation
/-!
Items and edges over-approximate the steps of runs.

Where a state describes a store, the state after an item describes the store after it, and the
state along an edge describes the store of every run that takes the edge.
-/

namespace ValueFlow

namespace BlockItem

def exprs : BlockItem → List Expr
  | statement s => s.ownExprs
  | condition e | evaluate e => [e]
  | bind _ _ iter => [iter]

def iter? : BlockItem → Option Expr
  | evaluate e | bind _ _ e => some e
  | statement _ | condition _ => none

end BlockItem

/-- Whether a step leads from the description of one store to that of another. -/
def Moves {α : Type} (domains : DomainSet) (σ σ' : Store) (m : Eval α) : Prop :=
  ∀ r : Run, r.state.Describes domains σ → (m r).2.state.Describes domains σ'

namespace Moves

variable {α β : Type} {domains : DomainSet} {σ σ' : Store}

theorem pure (a : α) : Moves domains σ σ (pure a) := fun _ hr => hr

theorem bind {x : String} {v : Value} {u : Scalar} (hv : v.describes u = true) :
    Moves domains σ (σ.set x (.scalar u)) (Run.bind x v domains) :=
  fun _ hr => ⟨hr.env.set hv, hr.heap⟩

theorem define {x : String} {v : Value} (hv : v.isBottom = false) :
    Moves domains σ (σ.set x .function) (Run.bind x v domains) :=
  fun _ hr => ⟨hr.env.define hv, hr.heap⟩

/-- In a state that describes a store, something is reached. -/
theorem reachable {m : Eval PUnit} (h : Moves domains σ σ' m) :
    Moves domains σ σ' (do
      if (← Run.current).isReachable then m) := by
  intro r hr
  have hm := h r hr
  have hreach : (Bind.bind Run.current fun s => if s.isReachable then m else Pure.pure ⟨⟩) r = m r := by
    show (if r.state.isReachable then m else Pure.pure ⟨⟩) r = m r
    rw [if_pos hr.isReachable]
  exact hreach ▸ hm

end Moves

/-- A step after an evaluation. -/
theorem Yields.moves {α β : Type} {domains : DomainSet} {σ σ' : Store} {m : Eval α}
    {right : α → Prop} {f : α → Eval β} (hm : Yields domains σ m right)
    (hf : ∀ a, right a → Moves domains σ σ' (f a)) : Moves domains σ σ' (m >>= f) :=
  fun r hr => hf _ (hm r hr).1 _ (hm r hr).2

namespace FunctionScope

variable {scope : FunctionScope} {call : Store → String → List Scalar → Option Scalar} {σ σ' : Store}
  {e : Expr} {u : Scalar} {s : ProgramState}

section Evaluating

variable {returns : String → List Scalar → Option Scalar}

theorem yields_eval (he : scope.Ready returns e.height e) (hu : e.eval? returns σ = some u) :
    Yields scope.domains σ (scope.eval e) fun v => v.describes u = true :=
  evaluatesWithin scope returns σ e.height he hu

theorem sound_look (scope : FunctionScope) (returns : String → List Scalar → Option Scalar)
    (σ : Store) (n : Nat) : scope.Sound returns σ n scope.look :=
  fun he hs hu => (yields_eval ⟨Nat.le_refl _, he.answers⟩ hu ⟨_, none⟩ hs).1

end Evaluating

section Ranges

variable {returns : String → List Scalar → Option Scalar} {iter : Expr} {args : List Expr}

/-- A call that reaches no function of the program is a call of a builtin. -/
theorem yields_callSite_builtin {node id : Nat} {b : Builtin} {f : String}
    (hf : Builtin.ofName? f = some b)
    (hsite : ∀ site, scope.facts.calls.site? node = some site → ∃ callee, site.kind = .unknown callee)
    (values : List Value) (argNodes : List Nat) :
    Yields scope.domains σ (scope.callSite node (.name id f) none values argNodes)
      fun _ => True := by
  have hnamed : Yields scope.domains σ
      (scope.callNamed (some f) values (argNodes ++ [])) fun _ => True := by
    rw [callNamed, Option.bind_some, hf]
    exact Yields.current.bind fun _ _ => Yields.pure trivial
  rw [callSite]
  cases h : scope.facts.calls.site? node with
  | none => exact hnamed
  | some site =>
      obtain ⟨callee, hkind⟩ := hsite site h
      rw [Option.map_some, hkind]
      dsimp only
      cases Option.filter (fun s => !s.targets.isEmpty) (some site) with
      | none => exact hnamed
      | some s => exact (Yields.observe _).bind fun _ _ => hnamed

/-- The iterable of a loop over a range is a call of the builtin. -/
theorem rangeArgs?_eq_some (h : scope.rangeArgs? iter = some args) :
    ∃ node id, iter = .call node (.name id Expr.rangeName) args ∧
      ∀ site, scope.facts.calls.site? node = some site → ∃ callee, site.kind = .unknown callee := by
  cases iter with
  | call node func args' =>
      rw [rangeArgs?] at h
      obtain ⟨hunknown, he⟩ := Option.ite_none_right_eq_some.1 h
      cases he
      rw [Bool.and_eq_true, decide_eq_true_eq] at hunknown
      cases func with
      | name id x =>
          cases hunknown.1
          refine ⟨node, id, rfl, fun site hsite => ?_⟩
          have hkind := hunknown.2
          rw [hsite, Option.map_some] at hkind
          cases hk : site.kind with
          | unknown callee => exact ⟨callee, rfl⟩
          | direct | construct | virtual =>
              rw [hk] at hkind
              cases hkind
      | literal | binOp | boolOp | unaryOp | compare | attr | subscript | call | collection
      | unsupported => exact nomatch hunknown.1
  | literal | name | binOp | boolOp | unaryOp | compare | attr | subscript | collection
  | unsupported => cases h

theorem yields_eval_range (hargs : scope.rangeArgs? iter = some args)
    (hready : scope.Ready returns iter.height iter) {vs : List Scalar}
    (hvs : Expr.evalAll? returns σ args = some vs) :
    Yields scope.domains σ (scope.eval iter) fun _ => True := by
  obtain ⟨node, id, rfl, hsite⟩ := rangeArgs?_eq_some hargs
  rw [Expr.height] at hready
  rw [eval, Expr.height, evalWithin]
  refine Yields.reachable ?_
  simp only [pure_bind]
  refine (EvaluatesWithin.all (evaluatesWithin scope returns σ _)
    (fun e he => hready.below (List.mem_cons_of_mem _ he)) hvs).bind fun values _ => ?_
  refine Yields.current.bind fun s hs => ?_
  rw [if_pos hs.isReachable]
  exact yields_callSite_builtin rfl hsite _ _

theorem describes_lookAll {n : Nat} {es : List Expr} {us : List Scalar}
    (hready : ∀ e ∈ es, scope.Ready returns n e) (hs : s.Describes scope.domains σ)
    (hus : Expr.evalAll? returns σ es = some us) :
    List.Forall₂ (fun v u => v.describes u = true) (es.map fun e => scope.look e s) us := by
  induction es generalizing us with
  | nil =>
      rw [Expr.evalAll?] at hus
      cases hus
      exact .nil
  | cons e rest ih =>
      obtain ⟨u, us, hu, hrest, rfl⟩ := Expr.evalAll?_cons hus
      exact .cons (sound_look scope returns σ n (hready e List.mem_cons_self) hs hu)
        (ih (fun e he => hready e (List.mem_cons_of_mem _ he)) hrest)

/-- What a loop over a range binds, from any state that describes the store in which the range was
evaluated. -/
theorem describes_elementOf
    (hrange : ∀ {args}, iter.rangeArgs? = some args → scope.rangeArgs? iter = some args)
    (hready : scope.Ready returns iter.height iter) (hs : s.Describes scope.domains σ)
    {ks : List Int} (hks : iter.elements? returns σ = some ks) {k : Int} (hk : k ∈ ks)
    (hu : Scalar.ofInt? k = some u) : (scope.elementOf iter s).describes u = true := by
  obtain ⟨args, vs, hargs, hvs, hvalues⟩ := Expr.elements?_eq_some hks
  rw [elementOf, hrange hargs]
  obtain ⟨node, id, rfl, -⟩ := rangeArgs?_eq_some (hrange hargs)
  have hready : ∀ e ∈ args, scope.Ready returns _ e := fun e he =>
    hready.child (List.mem_cons_of_mem _ he)
  exact Value.describes_rangeElement (describes_lookAll hready hs hvs) hvalues hk hu

end Ranges

/-- Whether all expressions of an item can be evaluated in every store, and the ranges among them
are ranges to the analysis. -/
structure ReadyItem (scope : FunctionScope) (call : Store → String → List Scalar → Option Scalar)
    (i : BlockItem) : Prop where
  exprs : ∀ e ∈ i.exprs, ∀ σ, scope.Ready (call σ) e.height e
  range : ∀ iter ∈ i.iter?, ∀ {args}, iter.rangeArgs? = some args →
    scope.rangeArgs? iter = some args

section Items

theorem moves_statement {stmt : Stmt} (hready : scope.ReadyItem call (.statement stmt))
    (h : Meaning.statement? call stmt σ = some σ') :
    Moves scope.domains σ σ' (scope.runStmt stmt) := by
  cases stmt with
  | assign id target value =>
      cases target with
      | name i x =>
          obtain ⟨u, hu, rfl⟩ := Option.map_eq_some_iff.1 h
          rw [runStmt]
          refine (yields_eval (hready.exprs value List.mem_cons_self σ) hu).moves fun v hv => ?_
          exact (Moves.bind hv).reachable
      | attr | subscript => cases h
  | expr id e =>
      obtain ⟨u, hu, rfl⟩ := Option.map_eq_some_iff.1 h
      rw [runStmt]
      exact (yields_eval (hready.exprs e List.mem_cons_self _) hu).moves fun _ _ => Moves.pure _
  | ret id value =>
      cases value with
      | none =>
          cases h
          rw [runStmt]
          exact (Moves.bind (u := .none) rfl).reachable
      | some e =>
          obtain ⟨u, hu, rfl⟩ := Option.map_eq_some_iff.1 h
          rw [runStmt]
          refine (yields_eval (hready.exprs e List.mem_cons_self σ) hu).moves fun v hv => ?_
          exact (Moves.bind hv).reachable
  | functionDef id defId f params body =>
      cases h
      rw [runStmt]
      exact Moves.define rfl
  | pass id =>
      cases h
      rw [runStmt]
      exact Moves.pure _
  | ifElse | whileLoop | forLoop | brk | cont | classDef => cases h

theorem moves_condition {returns : String → List Scalar → Option Scalar} {cond : Expr}
    (hready : scope.Ready returns cond.height cond) (hu : cond.eval? returns σ = some u) :
    Moves scope.domains σ σ (scope.runCondition cond) := by
  refine (yields_eval hready hu).moves fun v _ => ?_
  split
  · split
    · exact fun r hr => (Yields.observe _ r hr).2
    · exact Moves.pure _
  · exact Moves.pure _

theorem runItem_eq (hs : s.isReachable = true) (i : BlockItem) (seen : Option Observations) :
    scope.runItem i ⟨s, seen⟩ =
      (match i with
        | .statement stmt => scope.runStmt stmt
        | .condition cond => scope.runCondition cond
        | .evaluate e => discard (scope.eval e)
        | .bind _ target iter => scope.assign target (scope.elementOf iter s)) ⟨s, seen⟩ := by
  show (if s.isReachable then _ else _ : Eval PUnit) _ = _
  exact congrFun (if_pos hs) _

theorem runItem_of_unreachable (hs : s.isReachable = false) (i : BlockItem)
    (seen : Option Observations) : scope.runItem i ⟨s, seen⟩ = (⟨⟩, ⟨s, seen⟩) := by
  show (if s.isReachable then _ else pure ⟨⟩ : Eval PUnit) _ = _
  rw [hs]
  rfl

/-- The items of a block that no state reaches would leave the state as it is. -/
theorem runItems_eq (items : List BlockItem) (s : ProgramState) :
    Fixpoint.runItems scope.transfer items s =
      items.foldl (fun s i => scope.transfer.item i s) s := by
  unfold Fixpoint.runItems
  split
  · next hbottom =>
      have hs : s.isReachable = false := by
        rw [← Bool.not_eq_true']
        exact hbottom
      have hitem (i : BlockItem) : scope.transfer.item i s = s :=
        congrArg (fun r => r.2.state) (runItem_of_unreachable hs i none)
      induction items with
      | nil => rfl
      | cons i rest ih => rw [List.foldl_cons, hitem, ← ih]
  · rfl

/-- The state after an item describes the store after it. -/
theorem describes_item {i : BlockItem} (hready : scope.ReadyItem call i)
    (hs : s.Describes scope.domains σ) (h : (Meaning.scalar call).item i σ = some σ') :
    (scope.transfer.item i s).Describes scope.domains σ' := by
  show (scope.runItem i ⟨s, none⟩).2.state.Describes scope.domains σ'
  rw [runItem_eq hs.isReachable]
  cases i with
  | statement stmt => exact moves_statement hready h ⟨s, none⟩ hs
  | condition cond =>
      obtain ⟨u, hu, rfl⟩ := Option.map_eq_some_iff.1 h
      exact moves_condition (hready.exprs cond List.mem_cons_self _) hu ⟨s, none⟩ hs
  | evaluate iter =>
      obtain ⟨ks, hks, rfl⟩ := Option.map_eq_some_iff.1 h
      obtain ⟨args, vs, hargs, hvs, -⟩ := Expr.elements?_eq_some hks
      exact (yields_eval_range (hready.range iter rfl hargs)
        (hready.exprs iter List.mem_cons_self _) hvs ⟨s, none⟩ hs).2
  | bind => cases h

/-- At the start of a round the target of a loop is bound. -/
theorem describes_bind {σ₀ : Store} {node : Nat} {x : String} {iter : Expr} {k : Int} {ks : List Int}
    (hready : scope.ReadyItem call (.bind node x iter)) (hs : s.Describes scope.domains σ)
    (hs₀ : s.Describes scope.domains σ₀) (hks : iter.elements? (call σ₀) σ₀ = some ks) (hk : k ∈ ks)
    (hu : Scalar.ofInt? k = some u) :
    (scope.transfer.item (.bind node x iter) s).Describes scope.domains (σ.set x (.scalar u)) := by
  show (scope.runItem (.bind node x iter) ⟨s, none⟩).2.state.Describes scope.domains _
  rw [runItem_eq hs.isReachable]
  exact Moves.bind (describes_elementOf (hready.range iter rfl)
    (hready.exprs iter List.mem_cons_self σ₀) hs₀ hks hk hu) ⟨s, none⟩ hs

end Items

section Edges

variable {edge : Edge} {source : Block}

/-- Along an edge that the condition of a block chooses, its outcome is assumed. -/
theorem followEdge_eq_assume {cond : Expr} {o : Bool} (hkind : edge.kind.outcome? = some o)
    (hcond : source.condition? = some cond) :
    scope.followEdge edge source s = s.assume scope.look scope.domains cond o := by
  rw [followEdge, if_neg, hkind, hcond]
  rw [Bool.and_eq_true, decide_eq_true_eq, decide_eq_true_eq]
  rintro ⟨-, h⟩
  rw [h] at hkind
  cases hkind

theorem describes_followEdge_condition {returns : String → List Scalar → Option Scalar}
    {cond : Expr} {o : Bool} (hkind : edge.kind.outcome? = some o)
    (hcond : source.condition? = some cond) (hready : scope.Ready returns cond.height cond)
    (hu : cond.eval? returns σ = some u) (ho : u.truth = o) (hs : s.Describes scope.domains σ) :
    (scope.followEdge edge source s).Describes scope.domains σ := by
  rw [followEdge_eq_assume hkind hcond]
  exact describes_assume (sound_look scope returns σ cond.height) hs hready hu ho

/-- Along an edge that no condition chooses and that does not end the body, nothing changes. -/
theorem followEdge_eq_self
    (hplain : edge.kind.outcome? = none ∨ source.condition? = none)
    (hexit : edge.target = scope.exit → edge.kind ≠ .sequential) :
    scope.followEdge edge source s = s := by
  rw [followEdge, if_neg]
  · rcases hplain with h | h
    · rw [h]
    · rw [h]
      cases edge.kind.outcome? <;> rfl
  · rw [Bool.and_eq_true, decide_eq_true_eq, decide_eq_true_eq]
    exact fun h => hexit h.1 h.2

/-- A body that ends without a `return` returns `None`. -/
theorem describes_followEdge_end (htarget : edge.target = scope.exit) (hkind : edge.kind = .sequential)
    (hs : s.Describes scope.domains σ) :
    (scope.followEdge edge source s).Describes scope.domains (σ.set returnSlot (.scalar .none)) := by
  rw [followEdge, if_pos (by rw [htarget, hkind]; simp)]
  exact ⟨hs.env.set rfl, hs.heap⟩

end Edges

end FunctionScope

end ValueFlow
