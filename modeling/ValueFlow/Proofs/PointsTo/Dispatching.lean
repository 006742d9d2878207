import ValueFlow.Proofs.PointsTo.Binding
/-!
Calls of methods, resolved while references are searched and again afterwards.

The search notes a target whenever a receiver is found to be an object with the method, in one
context after the other. Resolving asks for the objects of all contexts together. Both find the same
functions: a receiver is an object only in contexts in which its function is reached, and wherever
the receiver is evaluated the call is. Main statement: `methodTargets_eq_targets`.
-/

namespace ValueFlow

namespace Expr

variable {e part value : Expr} {node id : Nat} {method : String} {args : List Expr}

theorem length_walk_le (h : part ∈ e.walk) : part.walk.length ≤ e.walk.length :=
  (walk_sublist_of_mem_walk h).length_le

/-- An operand is a part, or stands in the callee of a method call. -/
theorem mem_children_of_mem_operands {c : Expr} (h : c ∈ e.operands) :
    c ∈ e.children ∨ ∃ id method, .attr id c method ∈ e.children := by
  cases e with
  | call node func args =>
      cases func with
      | attr id value method =>
          rcases List.mem_cons.1 h with rfl | h
          · exact .inr ⟨id, method, List.mem_cons_self⟩
          · exact .inl (List.mem_cons_of_mem _ h)
      | literal | name | binOp | boolOp | unaryOp | compare | subscript | call | collection
      | unsupported => exact .inl (List.mem_cons_of_mem _ h)
  | literal | name | binOp | boolOp | unaryOp | compare | attr | subscript | collection
  | unsupported => exact .inl h

theorem mem_walk_call (node id : Nat) (value : Expr) (method : String) (args : List Expr) :
    value ∈ (call node (.attr id value method) args).walk := by
  have hvalue : value ∈ (call node (.attr id value method) args).operands := List.mem_cons_self
  exact walk_subset_of_mem_operands hvalue (mem_walk_self value)

/-- Where parts have different identifiers, a method call is evaluated if its receiver is. -/
theorem Evaluates.call_of_receiver (hids : (e.walk.map Expr.id).Nodup)
    (hcall : call node (.attr id value method) args ∈ e.walk) (h : e.Evaluates value) :
    e.Evaluates (call node (.attr id value method) args) := by
  induction h with
  | self e =>
      have hlt := length_walk_le hcall
      simp only [walk, List.length_cons, List.length_append] at hlt
      omega
  | @operand e c value hc h ih =>
      have hin := h.mem_walk
      have hwalk : c.walk.Sublist e.walk :=
        walk_sublist_of_mem_walk (walk_subset_of_mem_operands hc (mem_walk_self c))
      rw [walk_eq] at hcall
      rcases List.mem_cons.1 hcall with heq | hcall
      · rw [heq]
        exact .self e
      · refine .operand hc (ih (hids.sublist (hwalk.map _)) ?_)
        obtain ⟨d, hd, hcall⟩ := mem_walkAll.1 hcall
        have hvalue : value ∈ d.walk :=
          (walk_sublist_of_mem_walk hcall).subset (mem_walk_call node id value method args)
        rw [walk_eq, List.map_cons, List.nodup_cons] at hids
        rcases mem_children_of_mem_operands hc with hchild | ⟨id', method', hchild⟩
        · rwa [eq_of_mem_walk hids.2 hchild hd hin hvalue]
        · have hattr : value ∈ (attr id' c method').walk := List.mem_cons_of_mem _ hin
          rw [← eq_of_mem_walk hids.2 hchild hd hattr hvalue, walk] at hcall
          rcases List.mem_cons.1 hcall with heq | hcall
          · cases heq
          · exact hcall

end Expr

/-- So for the calls of a function. -/
theorem FunctionInfo.Evaluates.call_of_receiver {f : FunctionInfo}
    (hids : (Stmt.idsOf f.body).Nodup) {stmt : Stmt} {node id : Nat} {value : Expr}
    {method : String} {args : List Expr}
    (hcall : (stmt, .call node (.attr id value method) args) ∈ walkExprs f.body)
    (h : f.Evaluates value) : f.Evaluates (.call node (.attr id value method) args) := by
  have hnodup := hids.sublist (walkExprs_ids_sublist f.body)
  obtain ⟨stmt', hstmt', own, hown, hvalue⟩ := h
  obtain ⟨hstmt, hcall⟩ := mem_walkExprs.1 hcall
  obtain ⟨own', hown', hcall⟩ := Expr.mem_walkAll.1 hcall
  have hin : value ∈ own'.walk := (Expr.walk_sublist_of_mem_walk hcall).subset
    (Expr.mem_walk_call node id value method args)
  -- the receiver stands in one statement, and there in one expression
  have hsame := List.inj_on_of_nodup_map hnodup
    (mem_walkExprs.2 ⟨hstmt', Expr.walk_subset_walkAll hown hvalue.mem_walk⟩)
    (mem_walkExprs.2 ⟨hstmt, Expr.walk_subset_walkAll hown' hin⟩) rfl
  cases congrArg Prod.fst hsame
  have hstmtIds : ((Expr.walkAll stmt.ownExprs).map Expr.id).Nodup := by
    rw [walkExprs, List.map_flatMap, List.nodup_flatMap] at hnodup
    have hnode := hnodup.1 stmt hstmt
    rwa [List.map_map] at hnode
  cases Expr.eq_of_mem_walk hstmtIds hown hown' hvalue.mem_walk hin
  exact ⟨stmt, hstmt, own, hown,
    hvalue.call_of_receiver (hstmtIds.sublist ((Expr.walk_sublist_walkAll hown).map _)) hcall⟩

namespace Frame

variable {calls : CallGraph} {s : Frame} {node : Nat} {c : FlowCall}

theorem call?_of_mem_elementFlows {receiver result : Place} {args : List Place} {flow : Flow}
    {m : ElementFlow} (hflow : flow ∈ m.flows receiver args result) : flow.call? = none := by
  cases m with
  | storing position =>
      rw [ElementFlow.flows, Option.toList_map] at hflow
      obtain ⟨a, -, rfl⟩ := List.mem_map.1 hflow
      rfl
  | extending =>
      cases args with
      | nil => cases hflow
      | cons source rest => rcases List.mem_pair.1 hflow with rfl | rfl <;> rfl
  | loading fallback =>
      rcases List.mem_cons.1 hflow with rfl | hflow
      · rfl
      · obtain ⟨a, -, rfl⟩ := List.mem_map.1 hflow
        rfl

/-- A call of a method of unknown receivers is called so by its site. -/
theorem of_dispatch_mem_callFlows {receiver : Option Place} {args : List Place} {method : String}
    {place : Place} (hflow : .call c ∈ s.callFlows calls node receiver args)
    (htarget : c.target = .dispatch method place) : c.site = node ∧ receiver = some place ∧
      ∃ site r, calls.site? node = some site ∧ site.kind = .virtual method r := by
  unfold callFlows at hflow
  dsimp only at hflow
  split at hflow
  · cases hflow
  · next site hsite =>
    split at hflow
    · cases List.mem_singleton.1 hflow
      cases htarget
    · cases List.mem_singleton.1 hflow
      cases htarget
    · next method' r receiver' hkind =>
      rcases List.mem_append.1 hflow with hflow | hflow
      · cases hm : ElementFlow.ofName? method' with
        | none =>
            rw [hm] at hflow
            cases hflow
        | some m =>
            rw [hm] at hflow
            cases call?_of_mem_elementFlows hflow
      · cases List.mem_singleton.1 hflow
        cases htarget
        exact ⟨rfl, rfl, site, r, hsite, hkind⟩
    · cases hflow

theorem exists_of_dispatch_mem_ownFlows {e : Expr} {method : String} {place : Place}
    (hflow : .call c ∈ s.ownFlows calls e) (htarget : c.target = .dispatch method place) :
    ∃ id value method' args site r, e = .call c.site (.attr id value method') args ∧
      place = s.value value.id ∧ calls.site? c.site = some site ∧
      site.kind = .virtual method r := by
  cases e with
  | literal | unsupported | binOp | compare | unaryOp => cases hflow
  | name | attr | subscript => cases List.mem_singleton.1 hflow
  | boolOp => rcases List.mem_pair.1 hflow with h | h <;> cases h
  | collection =>
      rcases List.mem_cons.1 hflow with h | hflow
      · cases h
      · obtain ⟨a, -, h⟩ := List.mem_map.1 hflow
        cases h
  | call node func args =>
      cases func with
      | attr id value method' =>
          obtain ⟨rfl, hplace, site, r, hsite, hkind⟩ := of_dispatch_mem_callFlows hflow htarget
          exact ⟨id, value, method', args, site, r, rfl, (Option.some.inj hplace).symm, hsite, hkind⟩
      | literal | name | binOp | boolOp | unaryOp | compare | subscript | call | collection
      | unsupported => cases (of_dispatch_mem_callFlows hflow htarget).2.1

end Frame

namespace FlowProgram

variable {P : FlowProgram} {node receiver t : Nat} {site : CallSite} {method : String}

/-- A method call runs what some object of its receiver has for the method, in whatever context. -/
theorem runs_iff (hids : P.index.nodeIds.Nodup) (hcalls : P.calls = .build P.index P.classes)
    (hsite : P.calls.site? node = some site) (hkind : site.kind = .virtual method receiver) :
    P.Derives (.runs node t) ↔ ∃ κ made,
      P.Derives (.refers (.value receiver κ) made) ∧ P.method? method made = some t := by
  have hnodup := (CallGraph.nodes_allSites P.index P.classes).nodup hids
  have known {f : Nat} {info : FunctionInfo} {stmt : Stmt} {func : Expr} {args : List Expr}
      (hf : P.index.function? f = some info)
      (hcall : (stmt, .call node func args) ∈ walkExprs info.body) :
      ∃ id value, func = .attr id value method ∧ receiver = value.id := by
    have hbuild := CallGraph.site?_build hnodup
      (CallGraph.mem_allSites.2 ⟨f, info, stmt, node, func, args, hf, hcall, rfl⟩)
    rw [← hcalls] at hbuild
    cases hsite.symm.trans hbuild
    exact CallGraph.exists_of_classify_virtual hkind
  constructor
  · intro hd
    cases hd with
    | @target f κ c method' place made _ hr hflow htarget ho ht =>
        rcases exists_of_mem_flows hflow with ⟨info, part, hf, hpart, hown⟩ | ⟨hnone, -⟩
        · obtain ⟨id, value, _, args, site', r, rfl, rfl, hsite', hkind'⟩ :=
            Frame.exists_of_dispatch_mem_ownFlows hown htarget
          cases hsite.symm.trans hsite'
          cases hkind.symm.trans hkind'
          obtain ⟨stmt, hstmt, own, hown, hwalk⟩ := hpart
          obtain ⟨_, _, hfunc, rfl⟩ := known hf (mem_walkExprs.2
            ⟨hstmt, Expr.walk_subset_walkAll hown hwalk.mem_walk⟩)
          cases hfunc
          exact ⟨κ, made, ho, ht⟩
        · cases hnone
  · rintro ⟨κ, made, ho, ht⟩
    rw [hcalls] at hsite
    obtain ⟨hmem, rfl⟩ := CallGraph.mem_allSites_of_site? hsite
    obtain ⟨f, info, stmt, node, func, args, hf, hcall, rfl⟩ := CallGraph.mem_allSites.1 hmem
    obtain ⟨id, value, rfl, rfl⟩ := known hf hcall
    obtain ⟨hstmt, hin⟩ := mem_walkExprs.1 hcall
    obtain ⟨own, hown, hin⟩ := Expr.mem_walkAll.1 hin
    have hwhere : (f, value) ∈ P.index.exprs := ProgramIndex.mem_exprs hf hstmt hown
      ((Expr.walk_sublist_of_mem_walk hin).subset (Expr.mem_walk_call node id value method args))
    obtain ⟨hvalue, hr⟩ := evaluates_of_refers_value hids hf hwhere ho
    have hbody : (Stmt.idsOf info.body).Nodup :=
      (List.nodup_flatMap.1 hids).1 info (Array.mem_toList_iff.2 (Array.mem_of_getElem? hf))
    rw [← hcalls] at hsite
    exact .target hr (mem_flows_of_evaluates hf (hvalue.call_of_receiver hbody hcall)
      (Frame.mem_ownFlows_virtual hsite hkind)) rfl ho ht

section Final

variable {s : PointerSearch} {origins : Origins} (hlocated : P.Located origins)
  (h : P.Tracks origins s) (hend : s.Ends P.index P.classes P.calls)
include hlocated h hend

theorem exists_dispatches_iff :
    (∃ c, (s.step P.index P.classes P.calls).Dispatches P.index P.classes method receiver t c) ↔
      ∃ κ made, P.Derives (.refers (.value receiver κ) made) ∧
        P.method? method made = some t := by
  have hstep := h.step hlocated
  constructor
  · rintro ⟨c, o, ho, hmethod⟩
    obtain ⟨place, made, hplace, hmade, hd⟩ := hstep.facts.var ho
    obtain ⟨κ, -, rfl⟩ := Option.map_eq_some_iff.1 hplace
    exact ⟨κ, made, hd, (method?_eq hmade method).symm.trans hmethod⟩
  · rintro ⟨κ, made, hd, hmethod⟩
    obtain ⟨v, o, hv, hmade, ho⟩ := found_of_derives (h.closed hlocated hend) hd
    cases v with
    | named | result =>
        obtain ⟨_, -, heq⟩ := Option.map_eq_some_iff.1 hv
        cases heq
    | value node c =>
        obtain ⟨_, -, heq⟩ := Option.map_eq_some_iff.1 hv
        cases heq
        exact ⟨c, o, ho, (method?_eq hmade method).trans hmethod⟩

/-- The targets that a search has noted for a method call when it ends. -/
theorem mem_targets_iff (hids : P.index.nodeIds.Nodup) (hcalls : P.calls = .build P.index P.classes)
    (hsite : P.calls.site? node = some site) (hkind : site.kind = .virtual method receiver) :
    t ∈ (s.step P.index P.classes P.calls).facts.targets.getD node ∅ ↔
      ∃ c, (s.step P.index P.classes P.calls).Dispatches P.index P.classes method receiver t c := by
  rw [exists_dispatches_iff hlocated h hend, ← runs_iff hids hcalls hsite hkind]
  constructor
  · intro ht
    exact (h.step hlocated).facts.target ht
  · intro hd
    exact found_of_derives (h.closed hlocated hend) hd

end Final

end FlowProgram

namespace Program

/-- Where nodes have different identifiers, resolving a method call from the objects that its
receiver may be, of which there are some, gives the targets that the search has noted for it. These
are the nearest definitions of the method for the objects of all contexts. -/
theorem methodTargets_eq_targets (p : Program) (hids : (ProgramIndex.build p).nodeIds.Nodup)
    (depth : Nat) :
    let ix := ProgramIndex.build p
    let classes := ClassTable.build ix
    let known := CallGraph.build ix classes
    let last := PointerSearch.run ix classes known depth
    let g := PointsTo.analyze ix classes known depth
    ∀ node site method receiver, known.site? node = some site →
      site.kind = .virtual method receiver → (g.ofNode receiver).isEmpty = false →
      CallGraph.methodTargets classes g method receiver = (g.targets? node).getD ∅ ∧
      ((known.refine classes g).site? node).map CallSite.targets =
        some ((g.targets? node).getD ∅) ∧
      ∀ t, t ∈ (g.targets? node).getD ∅ ↔ ∃ c, last.Dispatches ix classes method receiver t c := by
  intro ix classes known last g node site method receiver hsite hkind hsome
  obtain ⟨n, hends, hrun, htracks, -⟩ := p.run_spec hids depth
  rw [Function.iterate_succ_apply'] at hrun
  have hlocated := FlowProgram.located_of_nodup (P := p.flowProgram depth) hids
  obtain ⟨stats, hg⟩ : ∃ stats, g = .collapse last.facts last.generated.objects stats := ⟨_, rfl⟩
  have htargets (t : Nat) : t ∈ (g.targets? node).getD ∅ ↔
      ∃ c, last.Dispatches ix classes method receiver t c := by
    rw [PointsTo.targets?, hg, PointsTo.targets_collapse]
    have hlast : last = PointerSearch.step _ _ _ _ := hrun
    rw [hlast]
    exact FlowProgram.mem_targets_iff hlocated htracks hends.2 hids rfl hsite hkind
  have heq : CallGraph.methodTargets classes g method receiver = (g.targets? node).getD ∅ := by
    apply SortedSet.ext_mem
    intro t
    rw [PointerSearch.mem_methodTargets_iff ix hg hsome, htargets]
  refine ⟨heq, ?_, htargets⟩
  rw [CallGraph.site?_refine fun _ _ h => (CallGraph.mem_allSites_of_site? h).2, hsite,
    Option.map_some, Option.map_some, CallSite.refine, hkind, ← heq]

/-- A program that calls a method which one class inherits and another overrides, on an object of
the first class from one function and on one of the second from another. -/
def overriding : Program where
  body :=
    [.classDef 1 2 "A" [] [.functionDef 3 4 "m" ["self"] [.ret 5 (some (.literal 6 (.int 1)))]],
      .classDef 7 8 "B" ["A"] [.pass 9],
      .classDef 10 11 "C" ["A"]
        [.functionDef 12 13 "m" ["self"] [.ret 14 (some (.literal 15 (.int 2)))]],
      .functionDef 16 17 "use" ["r"] [.ret 18 (some (.call 19 (.attr 20 (.name 21 "r") "m") []))],
      .functionDef 22 23 "f" [] [.expr 24 (.call 25 (.name 26 "use") [.call 27 (.name 28 "B") []])],
      .functionDef 29 30 "g" [] [.expr 31 (.call 32 (.name 33 "use") [.call 34 (.name 35 "C") []])]]

set_option maxRecDepth 10000 in
/-- The method is the inherited one in one context and the overriding one in another, and both are
targets. -/
theorem methodTargets_eq_targets_overriding :
    let ix := ProgramIndex.build overriding
    let classes := ClassTable.build ix
    let known := CallGraph.build ix classes
    let last := PointerSearch.run ix classes known 2
    let g := PointsTo.analyze ix classes known 2
    ix.nodeIds.Nodup ∧ (CallGraph.methodTargets classes g "m" 21).toList = [1, 2] ∧
      (∃ c, last.Dispatches ix classes "m" 21 1 c) ∧
      ∃ c, last.Dispatches ix classes "m" 21 2 c := by
  intro ix classes known last g
  have hids : (ProgramIndex.build overriding).nodeIds.Nodup := by decide
  obtain ⟨f, hf, hcall⟩ : ∃ f, ix.function? 3 = some f ∧
      f.Evaluates (.call 19 (.attr 20 (.name 21 "r") "m") []) :=
    ⟨_, rfl, .ret 18 (some _), List.mem_cons_self, _, List.mem_cons_self, .self _⟩
  have hkind : (CallGraph.siteOf ix classes 3 19 (.attr 20 (.name 21 "r") "m")).kind =
      .virtual "m" 21 := by decide +kernel
  have hfound : ((g.ofNode 21).isEmpty, ((g.targets? 19).getD ∅).toList) = (false, [1, 2]) := by
    decide +kernel
  obtain ⟨hsome, hlist⟩ := Prod.mk.inj hfound
  obtain ⟨heq, -, htargets⟩ := methodTargets_eq_targets overriding hids 2 19 _ "m" 21
    (site?_refine_build classes g hids hf hcall).1 hkind hsome
  have hmem (t : Nat) (ht : t ∈ [1, 2]) : ∃ c, last.Dispatches ix classes "m" 21 t c := by
    rw [← hlist] at ht
    exact (htargets t).1 ht
  refine ⟨hids, ?_, hmem 1 (by decide), hmem 2 (by decide)⟩
  rw [heq]
  exact hlist

end Program

end ValueFlow
