import ValueFlow.Proofs.Analysis.Steps
import ValueFlow.Proofs.Objects.Evaluation
/-!
Items and edges keep up with runs.

Where a condition decides, the state along the edge still covers the run: the condition was
evaluated at an earlier point, and since then the run has done nothing but make objects.
-/

namespace ValueFlow

namespace FunctionScope

variable {scope : FunctionScope} {p : Program} {config : Config} {a : Activation} {n : Nat}
  {fine : Nat × Datum → Prop} {passes : Nat × CallInput → Prop} {precise : Prop} {t : ProgramState}
  {σ σ' : World}

section Conditions

/-- Whether a condition was evaluated a short while ago, with the outcome that is noted. -/
def Decided (p : Program) (config : Config) (a : Activation) (n : Nat) (cond : Expr) (σ : World) :
    Prop :=
  ∃ σ₀ d σ₁, (p.references config).Admits a σ₀ ∧ cond.exec (a.call p n) σ₀ = (some d, σ₁) ∧
    σ₁.Extends σ ∧ σ.verdict = d.truth

/-- Comparing narrows the variable that was compared. -/
theorem covers_compareWith {look : Expr → ProgramState → Value} (op : CompOp) (side : Expr)
    {other : Expr} {d e : Datum} (ht : scope.Covers precise t σ)
    (hside : ∀ {x}, side.name? = some x → σ.datum? x = some d)
    (hother : (look other t).Covers e) (h : Datum.compare? op d e = some true) :
    scope.Covers precise (t.compareWith look scope.domains op side other) σ := by
  unfold ProgramState.compareWith
  split
  · next x hx => exact ht.refine (hside hx) ((ht.env.get (hside hx)).restrict hother h)
  · exact ht

theorem datum?_of_exec {e : Expr} {d : Datum} {σ₁ : World}
    (hd : e.exec (a.call p n) σ = (some d, σ₁)) (hext : σ.Extends σ') {x : String}
    (hx : e.name? = some x) : σ'.datum? x = some d := by
  cases e with
  | name id y =>
      cases hx
      rw [Expr.exec] at hd
      rw [hext.datum?]
      exact congrArg Prod.fst hd
  | literal | binOp | boolOp | unaryOp | compare | attr | subscript | call | collection
  | unsupported => cases hx

variable (h : scope.Tracks p config a n fine passes)
include h

/-- Narrowing keeps a point of a run at which the condition turned out as it is assumed to. -/
theorem covers_narrow {cond : Expr} {d : Datum} {σ₀ σ₁ : World} (hcond : Traced p config a cond)
    (hadmits : (p.references config).Admits a σ₀)
    (hd : cond.exec (a.call p n) σ₀ = (some d, σ₁)) (hext : σ₁.Extends σ)
    (ht : scope.Covers (a.function = moduleId) t σ) :
    scope.Covers (a.function = moduleId) (t.narrow scope.look scope.domains cond d.truth) σ := by
  cases cond with
  | name id x =>
      have hx := datum?_of_exec hd ((h.leads hcond hadmits hd).1.extended.trans hext) rfl
      rw [ProgramState.narrow]
      refine ht.refine hx ?_
      split
      · next htrue => exact (ht.env.get hx).truthy htrue
      · next hfalse => exact (ht.env.get hx).falsy (Bool.eq_false_iff.2 hfalse)
  | compare id op left right =>
      obtain ⟨hleft, hright, -⟩ := hcond.compare
      rw [Expr.exec] at hd
      obtain ⟨u, σ₂, hu, hd⟩ := Exec.bind_eq_some hd
      obtain ⟨v, σ₃, hv, hd⟩ := Exec.bind_eq_some hd
      obtain ⟨o, ho, rfl⟩ := Option.map_eq_some_iff.1 (congrArg Prod.fst hd)
      cases congrArg Prod.snd hd
      -- both sides were evaluated at points from which the run only made objects
      have hl := (h.leads hleft hadmits hu).1
      have hext₂ : σ₂.Extends σ := (h.leads hright hl.admits hv).1.extended.trans hext
      have hext₀ : σ₀.Extends σ := hl.extended.trans hext₂
      have holds : Datum.compare? (if o then op else op.negate) u v = some true := by
        cases o with
        | true => exact ho
        | false =>
            rw [if_neg Bool.false_ne_true, Datum.compare?_negate, ho]
            rfl
      have hnarrowed := covers_compareWith (if o then op else op.negate) left ht
        (datum?_of_exec hu hext₀) (covers_look h hright hl.admits ht hext₂ hv) holds
      have hboth := covers_compareWith (if o then op else op.negate).flip right hnarrowed
        (datum?_of_exec hv hext₂) (covers_look h hleft hadmits hnarrowed hext₀ hu)
        ((Datum.compare?_flip _ u v).trans holds)
      rw [ProgramState.narrow, show (Datum.scalar (.ofBool o)).truth = o from Scalar.truth_ofBool o]
      exact hboth
  | literal | binOp | attr | call =>
      simp only [ProgramState.narrow]
      exact ht
  | boolOp | unaryOp | subscript | collection | unsupported => cases hcond.plain

/-- Assuming the outcome of a condition keeps a point of a run at which it had that outcome. -/
theorem covers_assume {cond : Expr} (hcond : Traced p config a cond)
    (hdecided : Decided p config a n cond σ) (ht : scope.Covers (a.function = moduleId) t σ) :
    scope.Covers (a.function = moduleId) (t.assume scope.look scope.domains cond σ.verdict) σ := by
  obtain ⟨σ₀, d, σ₁, hadmits, hd, hext, hverdict⟩ := hdecided
  have hnarrow := covers_narrow h hcond hadmits hd hext ht
  have hlook := covers_look h hcond hadmits ht
    ((h.leads hcond hadmits hd).1.extended.trans hext) hd
  have hpossible : (scope.look cond t).truthiness ≠ some (!d.truth) := by
    intro hother
    have htruth := hlook.truth_eq hother
    cases hd : d.truth <;> rw [hd] at htruth <;> cases htruth
  rw [hverdict, ProgramState.assume, ht.isReachable, if_neg hpossible]
  dsimp only
  rw [if_pos hnarrow.env.kept.reachable]
  exact hnarrow

end Conditions

section Items

variable {i : BlockItem} {stmt : Stmt} {cond base value e : Expr} {id node : Nat} {x : String}
  {v : Value} {d : Datum}

section Nodes

theorem nodes_assign_name : (BlockItem.statement (.assign id (.name node x) value)).nodes =
    [id, node] ++ value.nodes := by
  simp [BlockItem.nodes, Stmt.ownIds, Stmt.ownExprs, Target.exprs, Target.id, Expr.walkAll,
    Expr.nodes]

theorem nodes_assign_attr : (BlockItem.statement (.assign id (.attr node base x) value)).nodes =
    id :: node :: (base.nodes ++ value.nodes) := by
  simp [BlockItem.nodes, Stmt.ownIds, Stmt.ownExprs, Target.exprs, Target.id, Expr.walkAll,
    Expr.nodes]

/-- The nodes of a write to a field, in the order in which they are evaluated. -/
theorem nodes_subset_assign_attr : value.nodes ++ (base.nodes ++ [node]) ⊆
    (BlockItem.statement (.assign id (.attr node base x) value)).nodes := by
  rw [nodes_assign_attr]
  intro n hn
  simp only [List.mem_append, List.mem_cons] at hn ⊢
  tauto

theorem nodes_expr : (BlockItem.statement (.expr id e)).nodes = id :: e.nodes := by
  simp [BlockItem.nodes, Stmt.ownIds, Stmt.ownExprs, Stmt.id, Expr.walkAll, Expr.nodes]

theorem nodes_ret : (BlockItem.statement (.ret id (some e))).nodes = id :: e.nodes := by
  simp [BlockItem.nodes, Stmt.ownIds, Stmt.ownExprs, Stmt.id, Expr.walkAll, Expr.nodes]

end Nodes

section Parts

variable {P : FlowProgram}

theorem traced_assign_name
    (h : (p.references config).ItemOf p a (.statement (.assign id (.name node x) value))) :
    Traced p config a value := by
  have hids := h.ids
  rw [nodes_assign_name, List.nodup_append] at hids
  exact ⟨h.plain value List.mem_cons_self, hids.2.1, h.flows value List.mem_cons_self⟩

theorem traced_assign_attr
    (h : (p.references config).ItemOf p a (.statement (.assign id (.attr node base x) value))) :
    Traced p config a value ∧ Traced p config a base ∧
      value.nodes.Disjoint (base.nodes ++ [node]) ∧ base.nodes.Disjoint [node] := by
  have hids := h.ids
  rw [nodes_assign_attr, List.nodup_cons, List.nodup_cons, List.nodup_append', List.mem_append,
    not_or] at hids
  obtain ⟨-, ⟨hbase, hvalue⟩, hbaseIds, hvalueIds, hapart⟩ := hids
  have hmem : value ∈ (BlockItem.statement (.assign id (.attr node base x) value)).exprs :=
    List.mem_append_right _ List.mem_cons_self
  have hmem' : base ∈ (BlockItem.statement (.assign id (.attr node base x) value)).exprs :=
    List.mem_append_left _ List.mem_cons_self
  refine ⟨⟨h.plain _ hmem, hvalueIds, h.flows _ hmem⟩, ⟨h.plain _ hmem', hbaseIds, h.flows _ hmem'⟩,
    ?_, ?_⟩
  · exact List.disjoint_append_right.2 ⟨hapart.symm, List.disjoint_singleton.2 hvalue⟩
  · exact List.disjoint_singleton.2 hbase

theorem traced_expr (h : (p.references config).ItemOf p a (.statement (.expr id e))) :
    Traced p config a e := by
  have hids := h.ids
  rw [nodes_expr, List.nodup_cons] at hids
  exact ⟨h.plain e List.mem_cons_self, hids.2, h.flows e List.mem_cons_self⟩

theorem traced_ret (h : (p.references config).ItemOf p a (.statement (.ret id (some e)))) :
    Traced p config a e := by
  have hids := h.ids
  rw [nodes_ret, List.nodup_cons] at hids
  exact ⟨h.plain e List.mem_cons_self, hids.2, h.flows e List.mem_cons_self⟩

theorem traced_condition (h : (p.references config).ItemOf p a (.condition cond)) :
    Traced p config a cond :=
  ⟨h.plain cond List.mem_cons_self, h.ids, h.flows cond List.mem_cons_self⟩

end Parts

section Findings

theorem finds_reached (scope : FunctionScope) {P : Diagnostic → Prop} {m : Eval PUnit}
    (hm : Finds P m) : Finds P (do if (← Run.current).isReachable then m) := by
  have h := scope.hereditary_finds P
  refine h.bind h.current fun _ => ?_
  split
  · exact hm
  · exact h.pure _

/-- What writing a field reports about accesses is about nodes of the target. -/
theorem finds_writeAttr {makes : Prop} (hbase : base.IsPlain p makes) (node : Nat) (x : String)
    (source : Expr) (v : Value) :
    Finds (Diagnostic.Within (base.nodes ++ [node]))
      (scope.writeTarget (.attr node base x) source v) := by
  have h := scope.hereditary_finds (Diagnostic.Within (base.nodes ++ [node]))
  refine h.bind ?_ fun b => h.bind ?_ fun _ => h.changeHeap _
  · exact finds_mono (List.subset_append_left _ _) (finds_evalWithin hbase _)
  · exact finds_mono (List.subset_append_right _ _) (finds_checkAccess node base b _)

theorem finds_stmt (hi : (p.references config).ItemOf p a (.statement stmt)) :
    Finds (Diagnostic.Within (BlockItem.statement stmt).nodes) (scope.runStmt stmt) := by
  obtain ⟨hkind, -⟩ := hi.kind
  have h := scope.hereditary_finds (Diagnostic.Within (BlockItem.statement stmt).nodes)
  cases stmt with
  | assign id target value =>
      cases target with
      | name node x =>
          refine h.bind (finds_mono ?_ (finds_evalWithin (traced_assign_name hi).plain _)) fun v => ?_
          · rw [nodes_assign_name]
            exact List.subset_append_right _ _
          · exact scope.finds_reached (h.assign x v)
      | attr node base x =>
          obtain ⟨hvalue, hbase, -⟩ := traced_assign_attr hi
          refine h.bind (finds_mono ?_ (finds_evalWithin hvalue.plain _)) fun v =>
            scope.finds_reached (finds_mono ?_ (finds_writeAttr hbase.plain node x value v))
          · exact (List.append_subset.1 nodes_subset_assign_attr).1
          · exact (List.append_subset.1 nodes_subset_assign_attr).2
      | subscript => rcases hkind with hkind | hkind <;> cases hkind
  | expr id e =>
      refine h.bind (finds_mono ?_ (finds_evalWithin (traced_expr hi).plain _)) fun _ => h.pure _
      rw [nodes_expr]
      exact List.subset_cons_self _ _
  | ret id value =>
      cases value with
      | none => exact scope.finds_reached (h.assign _ _)
      | some e =>
          refine h.bind (finds_mono ?_ (finds_evalWithin (traced_ret hi).plain _)) fun v =>
            scope.finds_reached (h.assign _ v)
          rw [nodes_ret]
          exact List.subset_cons_self _ _
  | functionDef | classDef => exact h.assign _ _
  | pass | ifElse | whileLoop | forLoop | brk | cont => exact h.pure _

/-- What is reported about the outcome of a condition is not about accesses. -/
theorem finds_outcome {P : Diagnostic → Prop} (hP : ∀ d, d.kind ≠ .definiteNullDeref → P d)
    (scope : FunctionScope) (cond : Expr) (v : Value) :
    Finds P (if scope.facts.config.reportUnreachableBranches && cond.readsState then
      match v.truthiness with
      | some outcome => Run.report (.unreachableBranch cond.id scope.name outcome)
      | none => pure ()
    else pure ()) := by
  have h := scope.hereditary_finds P
  split
  · split
    · exact h.report (hP _ nofun)
    · exact h.pure _
  · exact h.pure _

theorem finds_condition {makes : Prop} (hcond : cond.IsPlain p makes) :
    Finds (Diagnostic.Within cond.nodes) (scope.runCondition cond) :=
  Finds.bind (finds_evalWithin hcond _) (finds_outcome (fun _ hd hkind => absurd hkind hd) scope cond)

/-- What an item reports about accesses is about its nodes. -/
theorem finds_item (hi : (p.references config).ItemOf p a i) :
    Finds (Diagnostic.Within i.nodes) (scope.runItem i) := by
  have h := scope.hereditary_finds (Diagnostic.Within i.nodes)
  refine h.bind h.current fun t => ?_
  split
  · cases i with
    | statement stmt => exact finds_stmt hi
    | condition cond => exact finds_condition (traced_condition hi).plain
    | evaluate | bind => exact absurd hi.kind id
  · exact h.pure _

end Findings

/-- Where something is reached, a step is taken. -/
theorem reached_eq (ht : t.isReachable = true) (m : Eval PUnit) (seen : Option Observations) :
    (do if (← Run.current).isReachable then m : Eval PUnit) ⟨t, seen⟩ = m ⟨t, seen⟩ := by
  show (if t.isReachable then m else pure ⟨⟩ : Eval PUnit) ⟨t, seen⟩ = _
  rw [if_pos ht]

theorem follows_assign (hcovers : scope.Covers precise t σ) (hv : v.Covers d) :
    scope.Follows precise fine [] (scope.assign x v) (modify (·.set x (.datum d)) : Exec Unit)
      (fun _ _ _ => True) t σ := by
  refine ⟨[], nofun, fun q hq => .inl hq, (scope.hereditary_finds _).assign x v t, fun _ _ => ?_⟩
  exact ⟨⟨hcovers.env.set hv, hcovers.shows.congr rfl rfl,
    fun hp => (hcovers.heap hp).congr rfl rfl⟩, trivial⟩

theorem follows_define (hcovers : scope.Covers precise t σ) (hv : v.isBottom = false) :
    scope.Follows precise fine [] (scope.assign x v) (modify (·.set x .callable) : Exec Unit)
      (fun _ _ _ => True) t σ := by
  refine ⟨[], nofun, fun q hq => .inl hq, (scope.hereditary_finds _).assign x v t, fun _ _ => ?_⟩
  exact ⟨⟨hcovers.env.define hv, hcovers.shows.congr rfl rfl,
    fun hp => (hcovers.heap hp).congr rfl rfl⟩, trivial⟩

variable (h : scope.Tracks p config a n fine passes)
include h

/-- A statement keeps up with its run. -/
theorem follows_stmt (hi : (p.references config).ItemOf p a (.statement stmt))
    (hcovers : scope.Covers (a.function = moduleId) t σ)
    (hadmits : (p.references config).Admits a σ)
    (hpass : ∀ q ∈ scope.passedInTurn (evaluated (.statement stmt)) t, passes q) :
    scope.Follows (a.function = moduleId) fine (BlockItem.statement stmt).nodes
      (scope.runStmt stmt) (Meaning.execStmt (a.call p n) stmt) (fun _ _ _ => True) t σ := by
  obtain ⟨hkind, hwrites, -⟩ := hi.kind
  cases stmt with
  | assign id target value =>
      cases target with
      | name node x =>
          have hvalue := traced_assign_name hi
          rw [nodes_assign_name]
          refine .mono ?_ (show value.nodes ++ [] ⊆ [id, node] ++ value.nodes by simp)
          refine (follows_eval h hvalue hcovers hadmits fun q hq => hpass q ?_).bind
            (List.disjoint_nil_right _) ?_ ?_
          · exact List.mem_append_left _ hq
          · exact fun v => scope.finds_reached ((scope.hereditary_finds _).assign x v)
          · intro d σ' _ hcovers' hv
            refine .congr ?_ (reached_eq hcovers'.isReachable _)
            exact follows_assign hcovers' hv.covers
      | attr node base x =>
          obtain ⟨hvalue, hbase, hapart, hnode⟩ := traced_assign_attr hi
          have hmodule : a.function = moduleId := by
            by_contra hne
            cases hwrites hne
          refine .mono ?_ nodes_subset_assign_attr
          refine (follows_eval h hvalue hcovers hadmits fun q hq => hpass q ?_).bind hapart ?_ ?_
          · exact List.mem_append_left _ hq
          · exact fun v => scope.finds_reached (finds_writeAttr hbase.plain node x value v)
          · intro d σ₁ hd hcovers₁ hv
            have hadmits₁ := (h.leads hvalue hadmits hd).1.admits
            refine .congr ?_ (reached_eq hcovers₁.isReachable _)
            refine (follows_eval h hbase hcovers₁ hadmits₁ fun q hq => hpass q ?_).bind hnode ?_ ?_
            · exact List.mem_append_right _ (List.mem_append_left _ hq)
            · have h := scope.hereditary_finds (Diagnostic.Within [node])
              exact fun w => h.bind (finds_checkAccess node base w _) fun _ => h.changeHeap _
            · intro b σ₂ hb hcovers₂ hw
              have hrefers := (h.leads hbase hadmits₁ hb).2.mono fun _ => h.label_mem
              exact follows_store hmodule hcovers₂ hw hrefers hv.covers value.id _
      | subscript => rcases hkind with hkind | hkind <;> cases hkind
  | expr id e =>
      rw [nodes_expr]
      refine .mono ?_ (show e.nodes ++ [] ⊆ id :: e.nodes by simp)
      refine (follows_eval h (traced_expr hi) hcovers hadmits fun q hq => hpass q ?_).bind
        (g := fun _ => pure ()) (y := fun _ => pure ()) (List.disjoint_nil_right _) ?_ ?_
      · exact List.mem_append_left _ hq
      · exact fun _ => (scope.hereditary_finds _).pure _
      · intro d σ' _ hcovers' _
        exact .steady hcovers' (fun _ => rfl) rfl fun _ _ => trivial
  | ret id value =>
      cases value with
      | none =>
          refine .mono (.congr ?_ (reached_eq hcovers.isReachable _)) (List.nil_subset _)
          exact follows_assign hcovers rfl
      | some e =>
          rw [nodes_ret]
          refine .mono ?_ (show e.nodes ++ [] ⊆ id :: e.nodes by simp)
          refine (follows_eval h (traced_ret hi) hcovers hadmits fun q hq => hpass q ?_).bind
            (List.disjoint_nil_right _) ?_ ?_
          · exact List.mem_append_left _ hq
          · exact fun v => scope.finds_reached ((scope.hereditary_finds _).assign _ v)
          · intro d σ' _ hcovers' hv
            refine .congr ?_ (reached_eq hcovers'.isReachable _)
            exact follows_assign hcovers' hv.covers
  | pass id => exact .steady hcovers (fun _ => rfl) rfl fun _ _ => trivial
  | functionDef | classDef => exact (follows_define hcovers rfl).mono (List.nil_subset _)
  | ifElse | whileLoop | forLoop | brk | cont => exact .steady hcovers (fun _ => rfl) rfl nofun

/-- A condition keeps up with its run, and its outcome is noted. -/
theorem follows_condition (hcond : Traced p config a cond)
    (hcovers : scope.Covers (a.function = moduleId) t σ)
    (hadmits : (p.references config).Admits a σ) (hpass : ∀ q ∈ scope.passed cond t, passes q) :
    scope.Follows (a.function = moduleId) fine cond.nodes (scope.runCondition cond)
      (Meaning.execItem (a.call p n) (.condition cond))
      (fun _ _ τ => Decided p config a n cond τ) t σ := by
  rw [← List.append_nil cond.nodes]
  refine (follows_eval h hcond hcovers hadmits hpass).bind (List.disjoint_nil_right _) ?_ ?_
  · exact finds_outcome (fun _ hd hkind => absurd hkind hd) scope cond
  · intro d σ' hd hcovers' _
    refine ⟨[], nofun, fun q hq => .inl hq,
      finds_outcome (fun _ hd hkind => absurd hkind hd) scope cond _ _,
      fun _ _ => ⟨?_, σ, d, σ', hadmits, hd, ⟨rfl, List.prefix_rfl, fun _ _ => rfl⟩, rfl⟩⟩
    split
    · cases (scope.eval cond ⟨t, none⟩).1.truthiness <;> exact hcovers'.congr rfl rfl rfl
    · exact hcovers'.congr rfl rfl rfl

/-- An item keeps up with its run. -/
theorem follows_item (hi : (p.references config).ItemOf p a i)
    (hcovers : scope.Covers (a.function = moduleId) t σ)
    (hadmits : (p.references config).Admits a σ) (hpass : ∀ q ∈ scope.passedBy i t, passes q) :
    scope.Follows (a.function = moduleId) fine i.nodes (scope.runItem i)
      (Meaning.execItem (a.call p n) i)
      (fun _ _ τ => ∀ cond, i = .condition cond → Decided p config a n cond τ) t σ := by
  rw [passedBy, if_pos hcovers.isReachable] at hpass
  refine .congr ?_ (runItem_eq hcovers.isReachable i)
  cases i with
  | statement stmt =>
      refine (follows_stmt h hi hcovers hadmits hpass).imp fun _ _ _ hi => ?_
      cases hi
  | condition cond =>
      rw [evaluated, passedInTurn_one] at hpass
      refine (follows_condition h (traced_condition hi) hcovers hadmits hpass).imp
        fun _ hdecided _ hi => ?_
      cases hi
      exact hdecided
  | evaluate | bind => exact absurd hi.kind id

end Items

section Edges

variable {edge : Edge} {source : Block} {cond : Expr} (h : scope.Tracks p config a n fine passes)
include h

/-- Along an edge that the condition of a block chooses, the condition is known. -/
theorem covers_followEdge (hkind : edge.kind.outcome? = some σ.verdict)
    (hcond : source.condition? = some cond) (htraced : Traced p config a cond)
    (hdecided : Decided p config a n cond σ) (hcovers : scope.Covers (a.function = moduleId) t σ) :
    scope.Covers (a.function = moduleId) (scope.followEdge edge source t) σ := by
  rw [followEdge_eq_assume hkind hcond]
  exact covers_assume h htraced hdecided hcovers

end Edges

end FunctionScope

end ValueFlow
