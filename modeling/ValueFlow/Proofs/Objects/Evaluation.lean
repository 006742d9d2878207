import ValueFlow.Proofs.Analysis.Passing
import ValueFlow.Proofs.Objects.Tracking
/-!
Evaluations of expressions keep up with runs.

Main statement: `follows_eval`. The value of an expression is covered, and every access on the way
agrees with what is reported about it. Of the functions that are called it is asked that their
summaries cover what they return, and that the accesses in their bodies are fine if what the call
passes on is known.
-/

namespace ValueFlow

namespace Expr

def nodes (e : Expr) : List Nat := e.walk.map Expr.id

variable {left right value : Expr}

theorem nodes_binOp (id : Nat) (op : BinOp) :
    (binOp id op left right).nodes = id :: (left.nodes ++ right.nodes) := by
  rw [nodes, walk, List.map_cons, List.map_append]
  rfl

theorem nodes_compare (id : Nat) (op : CompOp) :
    (compare id op left right).nodes = id :: (left.nodes ++ right.nodes) := by
  rw [nodes, walk, List.map_cons, List.map_append]
  rfl

theorem nodes_attr (id : Nat) (x : String) : (attr id value x).nodes = id :: value.nodes := by
  rw [nodes, walk, List.map_cons]
  rfl

theorem nodes_call (node id : Nat) (x : String) (args : List Expr) :
    (call node (.name id x) args).nodes = node :: id :: args.flatMap nodes := by
  rw [nodes, walk_eq, children, walkAll, walk, walkAll_eq, List.map_cons, List.map_append,
    List.map_flatMap]
  rfl

end Expr

/-- Contents cover what their value covers. -/
theorem Heap.covers_contents {v : Value} {d : Datum} (hv : v.Covers d) (pt : PointsTo)
    (node : Option Nat) : (Heap.contents pt v node).abstraction.Covers d := by
  unfold Heap.contents HeapValue.ofValue
  split
  · next hnull =>
      rw [hv.eq_null hnull]
      rfl
  · next hnull _ =>
      split
      · exact hv
      · exact Value.covers_notNull (hv.ne_null hnull)
  · exact hv

/-- Whether effects make no objects and write no fields. -/
structure HeapEffects.Quiet (e : HeapEffects) : Prop where
  allocations : e.allocations = []
  mustWrites : e.mustWrites = []
  mayWrites : e.mayWrites = []

namespace HeapEffects

variable {label : Nat → Nat} {e : HeapEffects} {h : Heap} {σ : World}

theorem Quiet.apply_eq (he : e.Quiet) (hr : h.reachable = true) :
    e.apply h = e.invalidated.toList.foldl Heap.invalidate h := by
  rw [apply, hr, he.allocations, he.mustWrites, he.mayWrites]
  rfl

theorem Quiet.shows (he : e.Quiet) (hh : h.Shows label σ) : (e.apply h).Shows label σ := by
  rw [he.apply_eq hh.reachable]
  exact List.foldlRecOn (motive := fun k => Heap.Shows label k σ) _ _ hh
    fun k hk o _ => hk.invalidate rfl fun _ _ _ _ => rfl

theorem Quiet.covers (he : e.Quiet) (hh : h.Covers label σ) : (e.apply h).Covers label σ := by
  rw [he.apply_eq hh.reachable]
  exact List.foldlRecOn (motive := fun k => Heap.Covers label k σ) _ _ hh
    fun k hk o _ => hk.invalidate rfl fun _ _ _ _ => rfl

end HeapEffects

namespace FunctionScope

/-- What is needed of the functions that a body calls: their summaries cover what they return and
leave all objects as they are, and the accesses in their bodies are fine if what calls pass to them
is as it should be. -/
structure CoversCalls (scope : FunctionScope) (p : Program) (config : Config) (a : Activation)
    (n : Nat) (fine : Nat × Datum → Prop) (passes : Nat × CallInput → Prop) : Prop where
  returns : ∀ {node name j f places result ds σ u},
    (p.references config).Calls p a node name j f places result ds σ →
    (a.call p n node name ds σ).1 = some u → (scope.facts.returnOf scope.summaries j).Covers u
  accesses : ∀ {node name j f places result ds σ vs heap},
    (p.references config).Calls p a node name j f places result ds σ →
    List.Forall₂ Value.Covers vs ds → heap.Shows scope.pointsTo.label σ →
    passes (j, scope.inputFor j vs heap) →
    ∀ q ∈ (a.call p n node name ds σ).2.accesses, q ∈ σ.accesses ∨ fine q
  quiet : ∀ {node name j f s}, p.Runs node name j f → scope.summaries.get? j = some s →
    s.effects.Quiet

/-- What is needed of a scope to keep up with the runs of a body where they are. -/
structure Tracks (scope : FunctionScope) (p : Program) (config : Config) (a : Activation) (n : Nat)
    (fine : Nat × Datum → Prop) (passes : Nat × CallInput → Prop) : Prop where
  facts : scope.facts = p.facts config
  objectual : p.IsObjectual
  reads : p.FunctionsOnlyRead
  graph : ∀ {i f}, (ProgramIndex.build p).functions[i]? = some f →
    ∃ g, (p.facts config).graph? i = some g
  placed : (p.references config).Places a
  calls : scope.CoversCalls p config a n fine passes

/-- What is needed of an expression: its calls make objects, if they may, or run functions, its nodes
have identifiers of their own, and its references are known. -/
structure Traced (p : Program) (config : Config) (a : Activation) (e : Expr) : Prop where
  plain : e.IsPlain p (a.function = moduleId)
  ids : e.nodes.Nodup
  flows : (p.references config).HasFlows p a e

/-- Whether the value of an expression is covered, and where the expression is a variable it is the
value of the variable. -/
structure Evaluates (e : Expr) (v : Value) (d : Datum) (σ : World) : Prop where
  covers : v.Covers d
  var : ∀ {x}, e.name? = some x → σ.datum? x = some d

variable {scope : FunctionScope} {p : Program} {config : Config} {a : Activation} {n m : Nat}
  {fine : Nat × Datum → Prop} {passes : Nat × CallInput → Prop} {e : Expr} {t : ProgramState}
  {σ σ' : World} {precise : Prop}

namespace Tracks

/-- Where nobody asks for accesses. -/
theorem relax (h : scope.Tracks p config a n fine passes) :
    scope.Tracks p config a n (fun _ => True) (fun _ => True) where
  facts := h.facts
  objectual := h.objectual
  reads := h.reads
  graph := h.graph
  placed := h.placed
  calls :=
    { returns := h.calls.returns
      accesses := fun _ _ _ _ _ _ => .inr trivial
      quiet := h.calls.quiet }

variable (h : scope.Tracks p config a n fine passes)
include h

theorem callsLead : (p.references config).CallsLead p n a :=
  h.objectual.callsLead h.reads h.graph n a

/-- Where an expression was evaluated, all references are known, also those of its value. -/
theorem leads {d : Datum} (he : Traced p config a e) (hσ : (p.references config).Admits a σ)
    (hd : e.exec (a.call p n) σ = (some d, σ')) : (p.references config).Leads a σ σ' ∧
      σ'.Among ((p.references config).MayRefer (((p.references config).at_ a).value e.id)) d :=
  FlowProgram.leads_exec h.placed h.callsLead (h.objectual.made_unique h.reads) he.plain he.flows hσ
    hd

/-- The label of what an expression refers to is among the objects of the expression. -/
theorem label_mem {site node : Nat} (hrefers : (p.references config).MayRefer
    (((p.references config).at_ a).value node) site) :
    scope.pointsTo.label site ∈ scope.pointsTo.ofNode node := by
  rw [pointsTo, h.facts]
  exact h.objectual.label_mem_ofNode h.reads config hrefers

end Tracks

section Findings

theorem finds_checkAccess (node : Nat) (receiver : Expr) (v : Value) (access : String) :
    Finds (Diagnostic.Within [node]) (scope.checkAccess node receiver v access) := by
  have h := scope.hereditary_finds (Diagnostic.Within [node])
  have hreport : ∀ certainty, Finds (Diagnostic.Within [node])
      (Run.report (.nullDeref certainty node scope.name access)) := by
    intro certainty
    cases certainty <;> exact h.report fun _ => List.mem_cons_self
  unfold checkAccess
  split
  · exact hreport .definite
  · refine h.bind (hreport .possible) fun _ => ?_
    split
    · exact h.bind h.current fun _ => h.become _
    · exact h.pure _
  · exact h.pure _

theorem finds_mono {α : Type} {ids ids' : List Nat} {m : Eval α} (hsub : ids ⊆ ids')
    (h : Finds (Diagnostic.Within ids) m) : Finds (Diagnostic.Within ids') m :=
  fun t => (h t).imp fun _ hd hkind => hsub (hd hkind)

/-- What the call of a site reports is not about accesses. -/
theorem finds_called (ids : List Nat) (node : Nat) (func : Expr)
    (receiver : Option (Nat × Value)) (values : List Value) (argNodes : List Nat) :
    Finds (Diagnostic.Within ids) (do
      if (← Run.current).isReachable then scope.callSite node func receiver values argNodes
      else return .bottom) := by
  have h := scope.hereditary_finds (Diagnostic.Within ids)
  refine h.bind h.current fun _ => ?_
  split
  · exact h.callSite _ _ _ _ _
  · exact h.pure _

theorem finds_mapM {es : List Expr}
    (hes : ∀ e ∈ es, Finds (Diagnostic.Within e.nodes) (scope.evalWithin m e)) :
    Finds (Diagnostic.Within (es.flatMap Expr.nodes)) (es.mapM (scope.evalWithin m)) := by
  have h := fun ids => scope.hereditary_finds (Diagnostic.Within ids)
  induction es with
  | nil => exact (h _).pure _
  | cons e rest ih =>
      rw [List.mapM_cons, List.flatMap_cons]
      refine (h _).bind (finds_mono (List.subset_append_left _ _) (hes e List.mem_cons_self))
        fun _ => (h _).bind (finds_mono (List.subset_append_right _ _) ?_) fun _ => (h _).pure _
      exact ih fun e he => hes e (List.mem_cons_of_mem _ he)

theorem finds_call {node id : Nat} {g : String} {args : List Expr}
    (hargs : ∀ e ∈ args, Finds (Diagnostic.Within e.nodes) (scope.evalWithin m e)) :
    Finds (Diagnostic.Within (Expr.call node (.name id g) args).nodes)
      (scope.evalWithin (m + 1) (.call node (.name id g) args)) := by
  have h := fun ids => scope.hereditary_finds (Diagnostic.Within ids)
  rw [evalWithin, Expr.nodes_call]
  refine (h _).reachable ?_
  refine (h _).bind ((h _).pure none) fun _ => (h _).bind ?_ fun _ => finds_called _ _ _ _ _ _
  refine finds_mono ?_ (finds_mapM hargs)
  exact List.subset_cons_of_subset _ (List.subset_cons_self _ _)

/-- What an evaluation reports about accesses is about nodes of the expression. -/
theorem finds_evalWithin {makes : Prop} (he : e.IsPlain p makes) (m : Nat) :
    Finds (Diagnostic.Within e.nodes) (scope.evalWithin m e) := by
  have h := fun ids => scope.hereditary_finds (Diagnostic.Within ids)
  induction m generalizing e with
  | zero => exact (h _).pure _
  | succ m ih =>
      cases he with
      | literal id value =>
          rw [evalWithin]
          exact (h _).reachable ((h _).pure _)
      | name id x =>
          rw [evalWithin]
          exact (h _).reachable ((h _).bind (h _).current fun _ => (h _).pure _)
      | binOp id op hleft hright =>
          rw [evalWithin, Expr.nodes_binOp]
          refine (h _).reachable ((h _).bind (finds_mono ?_ (ih hleft)) fun _ =>
            (h _).bind (finds_mono ?_ (ih hright)) fun _ => (h _).pure _)
          · exact List.subset_cons_of_subset _ (List.subset_append_left _ _)
          · exact List.subset_cons_of_subset _ (List.subset_append_right _ _)
      | compare id op hleft hright =>
          rw [evalWithin, Expr.nodes_compare]
          refine (h _).reachable ((h _).bind (finds_mono ?_ (ih hleft)) fun _ =>
            (h _).bind (finds_mono ?_ (ih hright)) fun _ => (h _).pure _)
          · exact List.subset_cons_of_subset _ (List.subset_append_left _ _)
          · exact List.subset_cons_of_subset _ (List.subset_append_right _ _)
      | @attr value id x hvalue =>
          rw [evalWithin, Expr.nodes_attr]
          refine (h _).reachable ((h _).bind (finds_mono ?_ (ih hvalue)) fun v => (h _).bind
            (finds_mono ?_ (finds_checkAccess id value v _)) fun _ =>
              (h _).bind (h _).current fun _ => (h _).pure _)
          · exact List.subset_cons_self _ _
          · exact List.cons_subset_cons _ (List.nil_subset _)
      | create id hmakes hsite hclass => exact finds_call fun e he => absurd he List.not_mem_nil
      | run id hruns hargs => exact finds_call fun e he => ih (hargs e he)

end Findings

section Accesses

variable {receiver : Expr} {v w : Value} {b d : Datum} {x : String} {node : Nat}

/-- What is reported about an access agrees with the access. -/
theorem finds_checkAccess_agrees (hv : v.Covers d) (node : Nat) (receiver : Expr)
    (access : String) :
    Finds (Diagnostic.Agrees [node] [(node, d)]) (scope.checkAccess node receiver v access) := by
  have h := scope.hereditary_finds (Diagnostic.Agrees [node] [(node, d)])
  unfold checkAccess
  split
  · next hnull =>
      refine h.report fun _ => ⟨List.mem_cons_self, fun u hu => ?_⟩
      cases List.mem_singleton.1 hu
      exact hv.eq_null hnull
  · refine h.bind (h.report fun hkind => nomatch hkind) fun _ => ?_
    split
    · exact h.bind h.current fun _ => h.become _
    · exact h.pure _
  · exact h.pure _

/-- After an access on an object, the variable that it was read from is not `None`. -/
theorem covers_checkAccess (hcovers : scope.Covers precise t σ)
    (hvar : ∀ {x}, receiver.name? = some x → σ.datum? x = some d) (hd : d ≠ .null) (node : Nat)
    (v : Value) (access : String) :
    scope.Covers precise (scope.checkAccess node receiver v access ⟨t, none⟩).2.state σ := by
  unfold checkAccess
  cases v.nullability with
  | nullable =>
      cases hname : receiver.name? with
      | none => exact hcovers
      | some x => exact hcovers.refine (hvar hname) (Value.covers_notNull hd)
  | bottom | definitelyNull | notNull | top => exact hcovers

/-- Reading a field of what an expression refers to. -/
theorem follows_load (hcovers : scope.Covers precise t σ) (hreceiver : Evaluates receiver v d σ)
    (hrefers : σ.Among
      (fun site => scope.pointsTo.label site ∈ scope.pointsTo.ofNode receiver.id) d)
    (access : String) :
    scope.Follows precise fine [node] (do
        scope.checkAccess node receiver v access
        return (← Run.current).heap.load scope.pointsTo receiver.id (.attr x))
      (Exec.load node d x) (fun w e _ => w.Covers e) t σ := by
  have hexec : Exec.load node d x σ =
      (σ.field? d x, { σ with accesses := (node, d) :: σ.accesses }) := rfl
  refine ⟨[(node, d)], ?_, ?_, ?_, fun e he => ?_⟩
  · intro q hq
    rw [List.mem_singleton.1 hq]
    exact List.mem_cons_self
  · intro q hq
    rw [hexec] at hq
    rcases List.mem_cons.1 hq with rfl | hq
    · exact .inr (.inl List.mem_cons_self)
    · exact .inl hq
  · refine (finds_checkAccess_agrees hreceiver.covers node receiver access t).bind ?_
    have h := scope.hereditary_finds (Diagnostic.Agrees [node] [(node, d)])
    exact h.bind h.current (fun _ => h.pure _) _
  · rw [hexec] at he ⊢
    cases d with
    | scalar => cases he
    | object l =>
        obtain ⟨site, hl, hmem⟩ := hrefers l rfl
        have hchecked := covers_checkAccess hcovers hreceiver.var nofun node v access
        exact ⟨hchecked.congr rfl rfl rfl, hchecked.shows.getFieldOf hl hmem he⟩

/-- Writing a field of what an expression refers to. -/
theorem follows_store (hprecise : precise) (hcovers : scope.Covers precise t σ)
    (hreceiver : Evaluates receiver v b σ)
    (hrefers : σ.Among
      (fun site => scope.pointsTo.label site ∈ scope.pointsTo.ofNode receiver.id) b)
    (hw : w.Covers d) (source : Nat) (access : String) :
    scope.Follows precise fine [node] (do
        scope.checkAccess node receiver v access
        Run.changeHeap (·.store scope.pointsTo receiver.id (.attr x) w (some source)))
      (Exec.store node b x d) (fun _ _ _ => True) t σ := by
  refine ⟨[(node, b)], ?_, ?_, ?_, fun e he => ?_⟩
  · intro q hq
    rw [List.mem_singleton.1 hq]
    exact List.mem_cons_self
  · intro q hq
    have hq : q ∈ (node, b) :: σ.accesses := by cases b <;> exact hq
    rcases List.mem_cons.1 hq with rfl | hq
    · exact .inr (.inl List.mem_cons_self)
    · exact .inl hq
  · refine (finds_checkAccess_agrees hreceiver.covers node receiver access t).bind ?_
    exact (scope.hereditary_finds _).changeHeap _ _
  · cases b with
    | scalar => cases he
    | object l =>
        obtain ⟨site, hl, hmem⟩ := hrefers l rfl
        have hchecked := covers_checkAccess hcovers hreceiver.var nofun node v access
        have hwritten := (hchecked.heap hprecise).setField hl hmem
          (Heap.covers_contents hw scope.pointsTo (some source)) x
        have hstored : scope.Covers precise
            { (scope.checkAccess node receiver v access ⟨t, none⟩).2.state with
              heap := (scope.checkAccess node receiver v access ⟨t, none⟩).2.state.heap.store
                scope.pointsTo receiver.id (.attr x) w (some source) } (σ.setField l x d) :=
          ⟨hchecked.env.congr rfl, hwritten.shows, fun _ => hwritten⟩
        exact ⟨hstored.congr rfl rfl rfl, trivial⟩

end Accesses

section Calls

variable {node id j : Nat} {g : String} {f : FunctionDef} {places : List Place} {result : Place}
  {ds : List Datum} {vs : List Value}

/-- The call of a function with a summary, when nobody looks. -/
theorem called_eq {site : CallSite} {s : FunctionSummary}
    (hsite : scope.facts.calls.site? node = some site) (hkind : site.kind = .direct)
    (htargets : site.targets.toList = [j]) (hformed : scope.facts.isMalformed j = false)
    (hs : scope.summaries.get? j = some s) (hreturns : s.returnValue.isBottom = false)
    (ht : t.isReachable = true) (func : Expr) (argNodes : List Nat) :
    (do
      if (← Run.current).isReachable then scope.callSite node func none vs argNodes
      else return .bottom : Eval Value) ⟨t, none⟩ =
      (s.returnValue, ⟨{ t with heap := s.effects.apply t.heap }, none⟩) := by
  have hknown : (!site.targets.isEmpty) = true := by
    rw [SortedSet.isEmpty, htargets]
    rfl
  have houtcome : scope.outcomeOf (argNodes ++ ((none : Option (Nat × Value)).map
      Prod.fst).toList) t.heap j = (s.returnValue, s.effects.apply t.heap) := by
    rw [outcomeOf, hformed, hs]
    rfl
  show (if t.isReachable then scope.callSite node func none vs argNodes else pure .bottom :
    Eval Value) ⟨t, none⟩ = _
  rw [if_pos ht, callSite, hsite, Option.filter_some, if_pos hknown, Option.map_some, hkind]
  show scope.callTargets site vs _ ⟨t, none⟩ = _
  have hreturned : [scope.outcomeOf (argNodes ++ ((none : Option (Nat × Value)).map
      Prod.fst).toList) t.heap j].filter (fun r => !r.1.isBottom) =
      [(s.returnValue, s.effects.apply t.heap)] := by
    rw [houtcome, List.filter_singleton, hreturns]
    rfl
  unfold callTargets
  rw [htargets]
  show (if ([scope.outcomeOf _ t.heap j].filter fun r => !r.1.isBottom).isEmpty then
    do Run.become .bottom; return .bottom
    else do
      Run.changeHeap fun _ => AbstractDomain.joinAll
        (([scope.outcomeOf _ t.heap j].filter fun r => !r.1.isBottom).map Prod.snd)
      return AbstractDomain.joinAll
        (([scope.outcomeOf _ t.heap j].filter fun r => !r.1.isBottom).map Prod.fst) :
    Eval Value) ⟨t, none⟩ = _
  rw [hreturned]
  rfl

variable (h : scope.Tracks p config a n fine passes)
include h

theorem Tracks.site (hruns : p.Runs node g j f) : ∃ site,
    scope.facts.calls.site? node = some site ∧ site.kind = .direct ∧
      site.targets.toList = [j] := by
  rw [h.facts, h.objectual.calls_facts]
  exact hruns.site

theorem Tracks.formed (hruns : p.Runs node g j f) : scope.facts.isMalformed j = false := by
  obtain ⟨graph, hgraph⟩ := h.graph hruns.number
  rw [h.facts, ProgramFacts.isMalformed, hgraph]
  rfl

/-- The call of a function whose arguments are evaluated. -/
theorem follows_called
    (hcall : (p.references config).Calls p a node g j f places result ds σ)
    (hcovers : scope.Covers precise t σ) (hvs : List.Forall₂ Value.Covers vs ds)
    (hpass : ∀ q ∈ scope.callsAt node none vs t.heap, passes q) (func : Expr)
    (argNodes : List Nat) :
    scope.Follows precise fine [] (do
        if (← Run.current).isReachable then scope.callSite node func none vs argNodes
        else return .bottom) (a.call p n node g ds) (fun v d _ => v.Covers d) t σ := by
  obtain ⟨site, hsite, hkind, htargets⟩ := h.site hcall.runs
  refine ⟨[], nofun, fun q hq => ?_, ?_, fun u hu => ?_⟩
  · have hpassed : passes (j, scope.inputFor j vs t.heap) := by
      apply hpass
      rw [callsAt, hsite]
      dsimp only
      rw [hkind]
      dsimp only
      rw [callsOf, htargets]
      exact List.mem_cons_self
    exact (h.calls.accesses hcall hvs hcovers.shows hpassed q hq).imp_right .inr
  · exact (finds_called [] node func none vs argNodes t).imp fun d hd hkind =>
      absurd (hd hkind) List.not_mem_nil
  · have hreturned := h.calls.returns hcall hu
    have hformed := h.formed hcall.runs
    rw [ProgramFacts.returnOf, hformed, if_neg Bool.false_ne_true] at hreturned
    cases hs : scope.summaries.get? j with
    | none =>
        rw [hs] at hreturned
        exact absurd hreturned.not_isBottom Bool.noConfusion
    | some s =>
        rw [hs] at hreturned
        have hquiet := h.calls.quiet hcall.runs hs
        rw [called_eq hsite hkind htargets hformed hs hreturned.not_isBottom hcovers.isReachable]
        obtain ⟨⟨hvars, hsame⟩, -⟩ := h.callsLead hcall (Prod.ext hu rfl)
        have hafter : scope.Covers precise { t with heap := s.effects.apply t.heap } σ :=
          ⟨hcovers.env, hquiet.shows hcovers.shows, fun hp => hquiet.covers (hcovers.heap hp)⟩
        exact ⟨hafter.congr hvars hsame.sites hsame.fields, hreturned⟩

/-- A constructor call has one object that stands for all that it makes. -/
theorem Tracks.allocatedAt_eq (hsite : p.calls.Creates node)
    (hflows : (p.references config).HasFlows p a (.call node (.name id g) [])) :
    scope.pointsTo.allocatedAt node = [scope.pointsTo.label node] := by
  obtain ⟨className, -, hown⟩ := ((p.references config).at_ a).callFlows_creates hsite []
  have hflow : _ ∈ (p.references config).flows a.function a.context :=
    hflows.own (show _ ∈ ((p.references config).at_ a).callFlows p.calls node none [] by
      rw [hown]
      exact List.mem_cons_self)
  obtain ⟨object, hobject, -⟩ := h.objectual.exists_object h.reads config
    ⟨_, ⟨_, _, h.placed.reached, hflow⟩, rfl⟩
  have hobject : scope.pointsTo.allocatedAt node = [object] := by
    rw [pointsTo, h.facts]
    exact hobject
  rw [PointsTo.label, hobject]
  rfl

/-- A constructor call makes the object that stands for it. -/
theorem follows_created (hprecise : precise) (hsite : p.calls.Creates node)
    (hclass : g ∈ p.classes.map ClassDef.name)
    (hflows : (p.references config).HasFlows p a (.call node (.name id g) []))
    (hcovers : scope.Covers precise t σ) (func : Expr) :
    scope.Follows precise fine [] (do
        if (← Run.current).isReachable then scope.callSite node func none [] []
        else return .bottom) (a.call p n node g []) (fun v d _ => v.Covers d) t σ := by
  have hmade := h.allocatedAt_eq hsite hflows
  obtain ⟨site, className, hsite, hkind, htargets⟩ := hsite
  rw [← h.objectual.calls_facts config, ← h.facts] at hsite
  have hunknown : (!site.targets.isEmpty) = false := by
    rw [SortedSet.isEmpty, htargets]
    rfl
  have hcalled : (do
      if (← Run.current).isReachable then scope.callSite node func none [] []
      else return .bottom : Eval Value) ⟨t, none⟩ =
      (.notNull, ⟨{ t with heap := t.heap.allocate (scope.pointsTo.label node) }, none⟩) := by
    have hreach : ({ t with heap := t.heap.allocate (scope.pointsTo.label node) } :
        ProgramState).isReachable = true := by
      have ht := hcovers.isReachable
      rw [ProgramState.isReachable] at ht ⊢
      dsimp only
      rwa [Heap.reachable_allocate]
    have hallocate : t.heap.allocateAt scope.pointsTo node =
        t.heap.allocate (scope.pointsTo.label node) := by
      rw [Heap.allocateAt, hmade]
      rfl
    show (if t.isReachable then scope.callSite node func none [] [] else pure .bottom :
      Eval Value) ⟨t, none⟩ = _
    rw [if_pos hcovers.isReachable, callSite, hsite, Option.filter_some,
      if_neg (by rw [hunknown]; exact Bool.false_ne_true), Option.map_some, hkind]
    show (if ({ t with heap := t.heap.allocateAt scope.pointsTo node } : ProgramState).isReachable
      then Value.notNull else .bottom,
        Run.mk { t with heap := t.heap.allocateAt scope.pointsTo node } none) = _
    rw [hallocate, if_pos hreach]
  have hfinds : FindsAt (Diagnostic.Agrees [] []) (do
      if (← Run.current).isReachable then scope.callSite node func none [] []
      else return .bottom) t :=
    (finds_called [] node func none [] [] t).imp fun d hd hkind =>
      absurd (hd hkind) List.not_mem_nil
  have hinvoke : a.call p n node g [] σ = (none, σ) ∨
      a.call p n node g [] σ = (some (.object σ.sites.length), σ.create node) :=
    Program.invoke_class hclass
  refine ⟨[], fun q hq => absurd hq List.not_mem_nil, ?_, hfinds, ?_⟩
  · intro q hq
    rcases hinvoke with heq | heq <;> exact .inl (by rwa [heq] at hq)
  intro u hu
  rcases hinvoke with heq | heq
  · rw [heq] at hu
    cases hu
  · rw [heq] at hu ⊢
    cases hu
    rw [hcalled]
    have hcreated := (hcovers.heap hprecise).create node
    exact ⟨⟨hcovers.env.congr rfl, hcreated.shows, fun _ => hcreated⟩,
      Value.covers_notNull (fun h => by cases h)⟩

end Calls

section Expressions

variable {left right value : Expr} {id node : Nat} {x : String}

theorem Traced.binOp {op : BinOp} (h : Traced p config a (.binOp id op left right)) :
    Traced p config a left ∧ Traced p config a right ∧ left.nodes.Disjoint right.nodes := by
  obtain ⟨_ | _ | ⟨_, _, hleft, hright⟩, hids, hflows⟩ := h
  rw [Expr.nodes_binOp, List.nodup_cons, List.nodup_append'] at hids
  exact ⟨⟨hleft, hids.2.1, hflows.operand List.mem_cons_self⟩,
    ⟨hright, hids.2.2.1, hflows.operand (List.mem_cons_of_mem _ List.mem_cons_self)⟩, hids.2.2.2⟩

theorem Traced.compare {op : CompOp} (h : Traced p config a (.compare id op left right)) :
    Traced p config a left ∧ Traced p config a right ∧ left.nodes.Disjoint right.nodes := by
  obtain ⟨_ | _ | _ | ⟨_, _, hleft, hright⟩, hids, hflows⟩ := h
  rw [Expr.nodes_compare, List.nodup_cons, List.nodup_append'] at hids
  exact ⟨⟨hleft, hids.2.1, hflows.operand List.mem_cons_self⟩,
    ⟨hright, hids.2.2.1, hflows.operand (List.mem_cons_of_mem _ List.mem_cons_self)⟩, hids.2.2.2⟩

theorem Traced.attr (h : Traced p config a (.attr id value x)) :
    Traced p config a value ∧ id ∉ value.nodes := by
  obtain ⟨_ | _ | _ | _ | ⟨_, _, hvalue⟩, hids, hflows⟩ := h
  rw [Expr.nodes_attr, List.nodup_cons] at hids
  exact ⟨⟨hvalue, hids.2, hflows.operand List.mem_cons_self⟩, hids.1⟩

theorem Traced.args {args : List Expr} (h : Traced p config a (.call node (.name id x) args)) :
    (∀ e ∈ args, Traced p config a e) ∧ (args.flatMap Expr.nodes).Nodup := by
  have hids := h.ids
  rw [Expr.nodes_call, List.nodup_cons, List.nodup_cons] at hids
  have hplain : ∀ e ∈ args, e.IsPlain p (a.function = moduleId) := by
    cases h.plain with
    | create => exact nofun
    | run _ _ hargs => exact hargs
  exact ⟨fun e he => ⟨hplain e he, (List.nodup_flatMap.1 hids.2.2).1 e he, h.flows.operand he⟩,
    hids.2.2⟩

/-- Whether the evaluation of an expression keeps up with its run wherever both start together and
what calls pass on is as it should be. -/
def KeepsUp (scope : FunctionScope) (p : Program) (config : Config) (a : Activation) (n : Nat)
    (fine : Nat × Datum → Prop) (passes : Nat × CallInput → Prop) (m : Nat) (e : Expr) : Prop :=
  ∀ {t σ}, scope.Covers (a.function = moduleId) t σ → (p.references config).Admits a σ →
    (∀ q ∈ scope.passedWithin m e t, passes q) →
    scope.Follows (a.function = moduleId) fine e.nodes (scope.evalWithin m e)
      (e.exec (a.call p n)) (Evaluates e) t σ

section Lists

variable (h : scope.Tracks p config a n fine passes)
include h

/-- Expressions that are evaluated in turn. -/
theorem follows_mapM {es : List Expr} (hes : ∀ e ∈ es, Traced p config a e)
    (hids : (es.flatMap Expr.nodes).Nodup)
    (hkeeps : ∀ e ∈ es, scope.KeepsUp p config a n fine passes m e)
    (hcovers : scope.Covers (a.function = moduleId) t σ)
    (hadmits : (p.references config).Admits a σ)
    (hpass : ∀ q ∈ scope.passedParts m (scope.inTurn m es t), passes q) :
    scope.Follows (a.function = moduleId) fine (es.flatMap Expr.nodes)
      (es.mapM (scope.evalWithin m)) (Expr.execAll (a.call p n) es)
      (fun vs ds _ => List.Forall₂ Value.Covers vs ds) t σ := by
  induction es generalizing t σ with
  | nil =>
      rw [Expr.execAll]
      refine .steady hcovers (fun _ => rfl) rfl fun ds hds => ?_
      cases hds
      exact .nil
  | cons e rest ih =>
      have hrest : ∀ c ∈ rest, Traced p config a c := fun c hc => hes c (List.mem_cons_of_mem _ hc)
      rw [List.flatMap_cons, List.nodup_append'] at hids
      rw [List.mapM_cons, Expr.execAll, List.flatMap_cons]
      refine (hkeeps e List.mem_cons_self hcovers hadmits fun q hq => hpass q ?_).bind
        hids.2.2 (fun _ => Finds.bind (finds_mapM fun c hc => ?_) fun _ => ?_) ?_
      · exact List.mem_append_left _ hq
      · exact finds_evalWithin (hrest c hc).plain m
      · exact (scope.hereditary_finds _).pure _
      · intro d σ₁ hd hcovers₁ hv
        have hadmits₁ := (h.leads (hes e List.mem_cons_self) hadmits hd).1.admits
        rw [← List.append_nil (rest.flatMap Expr.nodes)]
        refine (ih hrest hids.2.1 (fun c hc => hkeeps c (List.mem_cons_of_mem _ hc)) hcovers₁
          hadmits₁ fun q hq => hpass q (List.mem_append_right _ hq)).bind
            (List.disjoint_nil_right _) (fun _ => (scope.hereditary_finds _).pure _) ?_
        intro ds σ₂ _ hcovers₂ hvs
        refine .steady hcovers₂ (fun _ => rfl) rfl fun ds' hds' => ?_
        cases hds'
        exact .cons hv.covers hvs

/-- Two parts one after the other, and a scalar made of their values. -/
theorem follows_pair {whole : Expr} {op : Value → Value → Value}
    {op' : Datum → Datum → Option Datum} (hleft : Traced p config a left)
    (hright : Traced p config a right) (hdisjoint : left.nodes.Disjoint right.nodes)
    (hkeepsLeft : scope.KeepsUp p config a n fine passes m left)
    (hkeepsRight : scope.KeepsUp p config a n fine passes m right)
    (hcovers : scope.Covers (a.function = moduleId) t σ)
    (hadmits : (p.references config).Admits a σ)
    (hpass : ∀ q ∈ scope.passedParts m (scope.inTurn m [left, right] t), passes q)
    (hop : ∀ {l r d e c}, l.Covers d → r.Covers e → op' d e = some c →
      (op l r).Covers c) (hwhole : whole.name? = none) :
    scope.Follows (a.function = moduleId) fine (left.nodes ++ right.nodes) (do
        let l ← scope.evalWithin m left
        let r ← scope.evalWithin m right
        return op l r) (do
        let d ← left.exec (a.call p n)
        let e ← right.exec (a.call p n)
        Exec.require (op' d e)) (Evaluates whole) t σ := by
  have hpure := fun (ids : List Nat) (v : Value) =>
    (scope.hereditary_finds (Diagnostic.Within ids)).pure v
  refine (hkeepsLeft hcovers hadmits fun q hq => hpass q (List.mem_append_left _ hq)).bind
    hdisjoint (fun l => Finds.bind (finds_evalWithin hright.plain m) fun r => hpure _ _) ?_
  intro d σ₁ hd hcovers₁ hl
  have hadmits₁ := (h.leads hleft hadmits hd).1.admits
  rw [← List.append_nil right.nodes]
  refine (hkeepsRight hcovers₁ hadmits₁ fun q hq => hpass q ?_).bind (List.disjoint_nil_right _)
    (fun r => hpure _ _) ?_
  · exact List.mem_append_right _ (List.mem_append_left _ hq)
  · intro e σ₂ _ hcovers₂ hr
    refine .steady hcovers₂ (fun _ => rfl) rfl fun c hc => ?_
    exact ⟨hop hl.covers hr.covers hc, fun hx => nomatch hwhole.symm.trans hx⟩

/-- A call, after its arguments. -/
theorem follows_call {g : String} {args : List Expr}
    (hcall : Traced p config a (.call node (.name id g) args))
    (hkeeps : ∀ e ∈ args, scope.KeepsUp p config a n fine passes m e)
    (hcovers : scope.Covers (a.function = moduleId) t σ)
    (hadmits : (p.references config).Admits a σ)
    (hpass : ∀ q ∈ scope.passedWithin (m + 1) (.call node (.name id g) args) t, passes q) :
    scope.Follows (a.function = moduleId) fine (Expr.call node (.name id g) args).nodes
      (scope.evalWithin (m + 1) (.call node (.name id g) args))
      ((Expr.call node (.name id g) args).exec (a.call p n))
      (Evaluates (.call node (.name id g) args)) t σ := by
  have ht := hcovers.isReachable
  obtain ⟨hargs, hids⟩ := hcall.args
  rw [passedWithin_succ, if_pos ht] at hpass
  have hnodes : args.flatMap Expr.nodes ++ [] ⊆ node :: id :: args.flatMap Expr.nodes := by
    rw [List.append_nil]
    exact List.subset_cons_of_subset _ (List.subset_cons_self _ _)
  rw [evalWithin, Expr.exec, Expr.nodes_call]
  refine .mono (.congr ?_ (guard_eq ht _)) hnodes
  have hlist := follows_mapM h hargs hids hkeeps hcovers hadmits fun q hq =>
    hpass q (List.mem_append_left _ hq)
  refine Follows.bind (m := args.mapM (scope.evalWithin m)) (g := fun values => do
    if (← Run.current).isReachable then
      scope.callSite node (.name id g) none values (args.map Expr.id)
    else return .bottom) (y := fun ds => a.call p n node g ds) hlist (List.disjoint_nil_right _)
      (fun _ => finds_called _ _ _ _ _ _) ?_
  intro ds σ₁ hds hcovers₁ hvs
  obtain ⟨hleads, hamong⟩ := FlowProgram.leads_execAll
    (fun e he {_ _ _} => h.leads (hargs e he)) hadmits hds
  cases hcall.plain with
  | create _ hmakes hsite hclass =>
      rw [Expr.execAll] at hds
      cases hds
      refine (follows_created h hmakes hsite hclass hcall.flows hcovers₁ _).imp fun _ hv => ?_
      exact ⟨hv, fun hx => by cases hx⟩
  | run _ hruns hargs =>
      have hcalled := FlowProgram.Calls.of_exec h.placed hruns hcall.flows hleads.admits hamong
      refine (follows_called h hcalled hcovers₁ hvs (fun q hq => ?_) _ _).imp fun _ hv => ?_
      · refine hpass q (List.mem_append_right _ ?_)
        show q ∈ if ((args.mapM (scope.evalWithin m)) ⟨t, none⟩).2.state.isReachable then _ else _
        rw [if_pos hcovers₁.isReachable]
        exact hq
      · exact ⟨hv, fun hx => by cases hx⟩

end Lists

variable (h : scope.Tracks p config a n fine passes)
include h

/-- An evaluation keeps up with the run of an expression. -/
theorem follows_evalWithin (hm : e.height ≤ m) (he : Traced p config a e) :
    scope.KeepsUp p config a n fine passes m e := by
  induction m generalizing e with
  | zero => exact absurd hm (Nat.not_le_of_lt e.height_pos)
  | succ m ih =>
      intro t σ hcovers hadmits hpass
      have ht := hcovers.isReachable
      have hheight : ∀ c ∈ e.children, c.height ≤ m := fun c hc =>
        Nat.le_of_lt_succ (Nat.lt_of_lt_of_le (Expr.height_lt_of_mem_children hc) hm)
      have hpassed := hpass
      rw [passedWithin_succ, if_pos ht] at hpass
      cases e with
      | literal id value =>
          rw [evalWithin, Expr.exec]
          refine .steady hcovers (guard_eq ht (pure value.value)) rfl fun d hd => ?_
          obtain ⟨u, hu, rfl⟩ := Option.map_eq_some_iff.1 hd
          exact ⟨Literal.describes_value hu, fun hx => by cases hx⟩
      | name id x =>
          rw [evalWithin, Expr.exec]
          refine .congr ?_ (guard_eq ht _)
          refine .steady (a := t.env.get x) (r := σ.datum? x) hcovers (fun _ => rfl) rfl
            fun d hd => ?_
          refine ⟨hcovers.env.get hd, fun hx => ?_⟩
          cases hx
          exact hd
      | binOp id op left right =>
          obtain ⟨hleft, hright, hdisjoint⟩ := he.binOp
          rw [evalWithin, Expr.exec, Expr.nodes_binOp]
          refine .mono (.congr ?_ (guard_eq ht _)) (List.subset_cons_self _ _)
          exact follows_pair h hleft hright hdisjoint (ih (hheight left List.mem_cons_self) hleft)
            (ih (hheight right (List.mem_cons_of_mem _ List.mem_cons_self)) hright) hcovers hadmits
            (fun q hq => hpass q (List.mem_append_left _ hq)) (fun hl hr hc => hl.binary hr hc) rfl
      | compare id op left right =>
          obtain ⟨hleft, hright, hdisjoint⟩ := he.compare
          rw [evalWithin, Expr.exec, Expr.nodes_compare]
          refine .mono (.congr ?_ (guard_eq ht _)) (List.subset_cons_self _ _)
          refine follows_pair h hleft hright hdisjoint (ih (hheight left List.mem_cons_self) hleft)
            (ih (hheight right (List.mem_cons_of_mem _ List.mem_cons_self)) hright) hcovers hadmits
            (fun q hq => hpass q (List.mem_append_left _ hq)) (fun hl hr hc => ?_) rfl
          obtain ⟨o, ho, rfl⟩ := Option.map_eq_some_iff.1 hc
          exact hl.comparison hr ho
      | attr id value x =>
          obtain ⟨hvalue, hid⟩ := he.attr
          rw [evalWithin, Expr.exec, Expr.nodes_attr]
          have hnodes : value.nodes ++ [id] ⊆ id :: value.nodes := by
            intro a ha
            rcases List.mem_append.1 ha with ha | ha
            · exact List.mem_cons_of_mem _ ha
            · rw [List.mem_singleton.1 ha]
              exact List.mem_cons_self
          refine .mono (.congr ?_ (guard_eq ht _)) hnodes
          refine (ih (hheight value List.mem_cons_self) hvalue hcovers hadmits fun q hq =>
            hpass q (List.mem_append_left _ ?_)).bind ?_ ?_ ?_
          · rwa [← passedParts_one] at hq
          · exact List.disjoint_singleton.2 hid
          · exact fun v => Finds.bind (finds_checkAccess id value v _) fun _ =>
              Finds.bind (scope.hereditary_finds _).current fun _ =>
                (scope.hereditary_finds _).pure _
          · intro d σ₁ hd hcovers₁ hv
            have hrefers := (h.leads hvalue hadmits hd).2.mono fun _ => h.label_mem
            refine (follows_load hcovers₁ hv hrefers _).imp fun _ hload => ?_
            exact ⟨hload, fun hx => by cases hx⟩
      | call node func args =>
          obtain ⟨id, g, rfl⟩ : ∃ id g, func = .name id g := by
            cases he.plain with
            | create id => exact ⟨id, _, rfl⟩
            | run id => exact ⟨id, _, rfl⟩
          exact follows_call h he (fun e hmem => ih
            (hheight e (List.mem_cons_of_mem _ hmem)) (he.args.1 e hmem)) hcovers hadmits hpassed
      | boolOp | unaryOp | subscript | collection | unsupported => cases he.plain

/-- Evaluating an expression keeps up with its run. -/
theorem follows_eval (he : Traced p config a e) (hcovers : scope.Covers (a.function = moduleId) t σ)
    (hadmits : (p.references config).Admits a σ) (hpass : ∀ q ∈ scope.passed e t, passes q) :
    scope.Follows (a.function = moduleId) fine e.nodes (scope.eval e) (e.exec (a.call p n))
      (Evaluates e) t σ :=
  follows_evalWithin h (Nat.le_refl _) he hcovers hadmits hpass

/-- Looking at an expression in a state of a later point of a run covers the value that it had. -/
theorem covers_look {σ₁ : World} {d : Datum} (he : Traced p config a e)
    (hadmits : (p.references config).Admits a σ)
    (hcovers : scope.Covers (a.function = moduleId) t σ')
    (hext : σ.Extends σ') (hd : e.exec (a.call p n) σ = (some d, σ₁)) :
    (scope.look e t).Covers d := by
  obtain ⟨-, -, -, -, hright⟩ := follows_eval h.relax he (hcovers.shrink hext) hadmits
    fun _ _ => trivial
  exact (hright d (by rw [hd])).2.covers

end Expressions

end FunctionScope

end ValueFlow
