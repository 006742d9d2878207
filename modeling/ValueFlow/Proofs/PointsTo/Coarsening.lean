import ValueFlow.Proofs.PointsTo.LeastSolution
/-!
Longer contexts only tell more apart.

A derivation stays one when all its call paths are cut to a smaller depth: to cut a path, extend it
and cut it again is to extend it and cut it. Main statements: `derives_cut`, and `analyze_refines`
for the results of the analysis.
-/

namespace ValueFlow

namespace ContextTable

variable {k n : Nat}

/-- Of two cuts the shorter counts. -/
theorem limit_limit (h : k ≤ n) (path : List Nat) : limit k (limit n path) = limit k path := by
  rw [limit, limit, limit, List.drop_drop, List.length_drop]
  congr 1
  omega

/-- A cut before an extension does not show after the next cut. -/
theorem limit_limit_append (k : Nat) (path : List Nat) (f : Nat) :
    limit k (limit k path ++ [f]) = limit k (path ++ [f]) := by
  rw [limit, limit, limit, ← List.drop_append_of_le_length (Nat.sub_le _ _), List.drop_drop,
    List.length_drop]
  congr 1
  rw [List.length_append, List.length_singleton]
  omega

end ContextTable

section Cuts

open ContextTable (limit)

variable (k : Nat)

/-- The place on the end of its call path. -/
def Place.cut : Place → Place
  | .named f κ x => .named f (limit k κ) x
  | .value node κ => .value node (limit k κ)
  | .result f κ => .result f (limit k κ)

/-- The creation on the end of its call path. -/
def Creation.cut (o : Creation) : Creation := { o with context := limit k o.context }

/-- The call target with the ends of call paths. -/
def FlowTarget.cut : FlowTarget → FlowTarget
  | .static functions => .static functions
  | .construct o constructor => .construct (o.cut k) constructor
  | .dispatch method receiver => .dispatch method (receiver.cut k)

/-- The call on the end of its call path. -/
def FlowCall.cut (c : FlowCall) : FlowCall :=
  ⟨c.site, limit k c.context, c.target.cut k, c.args.map (·.cut k), c.result.cut k⟩

/-- The flow on the end of its call path. -/
def Flow.cut : Flow → Flow
  | .alloc o dest => .alloc (o.cut k) (dest.cut k)
  | .copy source dest => .copy (source.cut k) (dest.cut k)
  | .load base field dest => .load (base.cut k) field (dest.cut k)
  | .store base field source => .store (base.cut k) field (source.cut k)
  | .call c => .call (c.cut k)

/-- The function on the end of its call path. -/
def Frame.cut (s : Frame) : Frame :=
  { s with context := limit k s.context, moduleContext := limit k s.moduleContext }

/-- The fact with the ends of call paths. -/
def FlowFact.cut : FlowFact → FlowFact
  | .reached f κ => .reached f (limit k κ)
  | .refers place o => .refers (place.cut k) (o.cut k)
  | .holds base field o => .holds (base.cut k) field (o.cut k)
  | .runs site f => .runs site f
  | .enters c receiver skip f => .enters (c.cut k) (receiver.map (·.cut k)) skip f

end Cuts

namespace Frame

variable (k : Nat) (calls : CallGraph) (s : Frame)

theorem cut_value (node : Nat) : (s.value node).cut k = (s.cut k).value node := rfl

theorem cut_var (x : String) : (s.var x).cut k = (s.cut k).var x := by
  unfold var
  rw [show (s.cut k).function = s.function from rfl, show (s.cut k).bound = s.bound from rfl]
  split <;> rfl

theorem map_cut_values (l : List Expr) :
    (l.map (s.value ·.id)).map (·.cut k) = l.map ((s.cut k).value ·.id) := by
  rw [List.map_map]
  rfl

theorem map_cut_elements (receiver : Place) (args : List Place) (result : Place) (m : ElementFlow) :
    (m.flows receiver args result).map (·.cut k) =
      m.flows (receiver.cut k) (args.map (·.cut k)) (result.cut k) := by
  cases m with
  | storing position => cases h : args[position]? <;> simp [ElementFlow.flows, h, Flow.cut]
  | extending => cases args <;> rfl
  | loading fallback =>
      cases fallback with
      | none => rfl
      | some position => cases h : args[position]? <;> simp [ElementFlow.flows, h, Flow.cut]

theorem map_cut_callFlows (node : Nat) (receiver : Option Place) (args : List Place) :
    (s.callFlows calls node receiver args).map (·.cut k) =
      (s.cut k).callFlows calls node (receiver.map (·.cut k)) (args.map (·.cut k)) := by
  unfold callFlows
  cases calls.site? node with
  | none => rfl
  | some site =>
      dsimp only
      cases site.kind with
      | direct | construct | unknown => rfl
      | virtual method _ =>
          cases receiver with
          | none => rfl
          | some r =>
              dsimp only [Option.map_some]
              rw [List.map_append]
              cases ElementFlow.ofName? method with
              | none => rfl
              | some m =>
                  rw [Option.elim_some, Option.elim_some, map_cut_elements, cut_value]
                  rfl

mutual

theorem map_cut_exprFlows : (e : Expr) →
    (s.exprFlows calls e).map (·.cut k) = (s.cut k).exprFlows calls e
  | .literal _ _ | .unsupported _ _ => by
      rw [exprFlows, exprFlows]
      rfl
  | .name node x => by
      rw [exprFlows, exprFlows, ← cut_var]
      rfl
  | .collection node kind elements => by
      rw [exprFlows, exprFlows, List.map_cons, map_cut_elementFlows (s.value node) elements]
      rfl
  | .attr node value x => by
      rw [exprFlows, exprFlows, List.map_append, map_cut_exprFlows value]
      rfl
  | .subscript node value index => by
      rw [exprFlows, exprFlows, List.map_append, List.map_append, map_cut_exprFlows value,
        map_cut_exprFlows index]
      rfl
  | .boolOp node _ left right => by
      rw [exprFlows, exprFlows, List.map_append, List.map_append, List.map_append,
        map_cut_exprFlows left, map_cut_exprFlows right]
      rfl
  | .call node func args => by
      have hargs := map_cut_allFlows args
      cases func with
      | attr id value method =>
          rw [exprFlows, exprFlows, List.map_append, List.map_append, map_cut_exprFlows value,
            hargs, map_cut_callFlows, map_cut_values]
          rfl
      | literal | name | binOp | boolOp | unaryOp | compare | subscript | call | collection
      | unsupported =>
          rw [exprFlows, exprFlows, List.map_append, hargs, map_cut_callFlows, map_cut_values]
          · rfl
          · exact fun _ _ _ heq => nomatch heq
          · exact fun _ _ _ heq => nomatch heq
  | .binOp _ _ left right | .compare _ _ left right => by
      rw [exprFlows, exprFlows, List.map_append, map_cut_exprFlows left, map_cut_exprFlows right]
  | .unaryOp _ _ operand => by
      rw [exprFlows, exprFlows, map_cut_exprFlows operand]

theorem map_cut_allFlows : (l : List Expr) →
    (s.allFlows calls l).map (·.cut k) = (s.cut k).allFlows calls l
  | [] => by
      rw [allFlows, allFlows]
      rfl
  | e :: rest => by
      rw [allFlows, allFlows, List.map_append, map_cut_exprFlows e, map_cut_allFlows rest]

theorem map_cut_elementFlows (collection : Place) : (l : List Expr) →
    (s.elementFlows calls collection l).map (·.cut k) =
      (s.cut k).elementFlows calls (collection.cut k) l
  | [] => by
      rw [elementFlows, elementFlows]
      rfl
  | e :: rest => by
      rw [elementFlows, elementFlows, List.map_append, List.map_append, map_cut_exprFlows e,
        map_cut_elementFlows collection rest]
      rfl

end

theorem map_cut_stmtFlows (stmt : Stmt) :
    (s.stmtFlows calls stmt).map (·.cut k) = (s.cut k).stmtFlows calls stmt := by
  cases stmt with
  | assign _ target value =>
      cases target with
      | name =>
          simp only [stmtFlows, List.map_append, map_cut_exprFlows, ← cut_var]
          rfl
      | attr | subscript =>
          simp only [stmtFlows, List.map_append, map_cut_exprFlows]
          rfl
  | expr | ifElse | whileLoop => exact map_cut_exprFlows k calls s _
  | forLoop =>
      simp only [stmtFlows, List.map_append, map_cut_exprFlows, ← cut_var]
      rfl
  | ret _ value =>
      cases value with
      | none => rfl
      | some e =>
          simp only [stmtFlows, List.map_append, map_cut_exprFlows]
          rfl
  | brk | cont | pass | functionDef | classDef => rfl

theorem map_cut_bodyFlows (body : List Stmt) :
    (s.bodyFlows calls body).map (·.cut k) = (s.cut k).bodyFlows calls body := by
  rw [bodyFlows, bodyFlows, List.map_flatMap]
  simp only [map_cut_stmtFlows]

end Frame

namespace FlowProgram

open ContextTable (limit limit_limit limit_limit_append)

variable {P : FlowProgram} {k : Nat}

def atDepth (P : FlowProgram) (k : Nat) : FlowProgram := { P with depth := k }

section Cut

variable (h : k ≤ P.depth)
include h

theorem limit_root (f : Nat) : limit k (P.root f) = (P.atDepth k).root f := limit_limit h _

theorem limit_push (κ : List Nat) (f : Nat) :
    limit k (P.push κ f) = (P.atDepth k).push (limit k κ) f :=
  (limit_limit h _).trans (limit_limit_append k κ f).symm

theorem cut_frame (f : Nat) (κ : List Nat) :
    (P.frame f κ).cut k = (P.atDepth k).frame f (limit k κ) := by
  rw [frame, frame, Frame.cut, ← limit_root h]
  rfl

theorem mem_flows_cut {flow : Flow} {f : Nat} {κ : List Nat} (hflow : flow ∈ P.flows f κ) :
    flow.cut k ∈ (P.atDepth k).flows f (limit k κ) := by
  have hmem := List.mem_map_of_mem (f := Flow.cut k) hflow
  rw [flows, Frame.map_cut_bodyFlows, cut_frame h] at hmem
  exact hmem

/-- What is derived with longer contexts is derived with shorter ones, on the ends of call paths. -/
theorem derives_cut {fact : FlowFact} (hd : P.Derives fact) :
    (P.atDepth k).Derives (fact.cut k) := by
  induction hd with
  | root hf =>
      rw [FlowFact.cut, limit_root h]
      exact .root hf
  | alloc _ hflow hr => exact .alloc hr (mem_flows_cut h hflow)
  | copy _ hflow _ hr ho => exact .copy hr (mem_flows_cut h hflow) ho
  | load _ hflow _ _ hr ha ho => exact .load hr (mem_flows_cut h hflow) ha ho
  | store _ hflow _ _ hr ha ho => exact .store hr (mem_flows_cut h hflow) ha ho
  | static _ hflow htarget ht hr =>
      exact .static hr (mem_flows_cut h hflow) (congrArg (FlowTarget.cut k) htarget) ht
  | construct _ hflow htarget hr =>
      exact .construct hr (mem_flows_cut h hflow) (congrArg (FlowTarget.cut k) htarget)
  | init _ hflow htarget hr =>
      exact .init hr (mem_flows_cut h hflow) (congrArg (FlowTarget.cut k) htarget)
  | dispatch _ hflow htarget _ ht hr ho =>
      exact .dispatch hr (mem_flows_cut h hflow) (congrArg (FlowTarget.cut k) htarget) ho ht
  | @target _ _ c _ _ _ _ _ hflow htarget _ ht hr ho =>
      exact .target (c := c.cut k) hr (mem_flows_cut h hflow)
        (congrArg (FlowTarget.cut k) htarget) ho ht
  | reach _ hd =>
      rw [FlowFact.cut, limit_push h]
      exact .reach hd
  | receiver _ hparams hd =>
      rw [FlowFact.cut, Place.cut, limit_push h]
      exact .receiver hd hparams
  | @arg c _ skip t a x _ _ hpair _ hd ho =>
      rw [FlowFact.cut, Place.cut, limit_push h]
      refine .arg hd (a := a.cut k) ?_ ho
      show (a.cut k, x) ∈ (c.args.map (·.cut k)).zip ((P.index.params t).drop skip)
      rw [List.zip_map_left]
      exact List.mem_map_of_mem hpair
  | result _ _ hd ho =>
      rw [FlowFact.cut, Place.cut, limit_push h] at ho
      exact .result hd ho

end Cut

/-- In a program whose nodes have different identifiers the analysis finds the least set of facts,
whatever the graph of known calls is. -/
theorem exists_isProjection (hids : P.index.nodeIds.Nodup) (hbounded : P.Bounded)
    (hsize : 0 < P.index.functions.size) :
    ∃ N, P.IsProjection N (.analyze P.index P.classes P.calls P.depth) := by
  have hlocated := located_of_nodup hids
  obtain ⟨n, hends, hrun⟩ := run_ends hbounded hsize
  have htracks := (tracks_start P.origins hsize).iterate_step hlocated n
  rw [Function.iterate_succ_apply'] at hrun
  have hprojection := isProjection_collapse hlocated htracks hends.2
  rw [← hrun] at hprojection
  exact ⟨_, hprojection _⟩

end FlowProgram

namespace PointsTo

/-- Whether objects of two results are created by one expression. -/
def SameSite (deep coarse : PointsTo) (o u : Nat) : Prop :=
  ∃ d e, deep.object? o = some d ∧ coarse.object? u = some e ∧ d.site = e.site

/-- Whether one result tells at least as much apart as another: where it has an object, the other
has one from the same expression. -/
structure Refines (deep coarse : PointsTo) : Prop where
  locals : ∀ f x, ∀ o ∈ deep.ofVar f x, ∃ u ∈ coarse.ofVar f x, SameSite deep coarse o u
  nodes : ∀ node, ∀ o ∈ deep.ofNode node, ∃ u ∈ coarse.ofNode node, SameSite deep coarse o u
  returns : ∀ f, ∀ o ∈ deep.ofReturn f, ∃ u ∈ coarse.ofReturn f, SameSite deep coarse o u
  fields : ∀ a field, ∀ o ∈ deep.ofField a field, ∃ b, SameSite deep coarse a b ∧
    ∃ u ∈ coarse.ofField b field, SameSite deep coarse o u
  targets : ∀ site ts, deep.targets? site = some ts →
    ∃ us, coarse.targets? site = some us ∧ ∀ t ∈ ts, t ∈ us

end PointsTo

namespace FlowProgram

variable {P : FlowProgram} {N M : Numbering} {deep coarse : PointsTo} {k : Nat}

section Projections

variable (hdeep : P.IsProjection N deep) (hcoarse : (P.atDepth k).IsProjection M coarse)
  (hk : k ≤ P.depth)
include hcoarse hk

/-- What is created with longer contexts is created with shorter ones. -/
theorem exists_creation_cut {made : Creation} (hmade : P.Creates made) :
    ∃ u, M.creation? u = some (made.cut k) := by
  refine hcoarse.complete _ ?_
  obtain ⟨flow, ⟨f, κ, hd, hflow⟩, hcreation⟩ := hmade
  refine ⟨flow.cut k, ⟨f, _, derives_cut hk hd, mem_flows_cut hk hflow⟩, ?_⟩
  cases flow with
  | alloc o dest =>
      cases hcreation
      rfl
  | copy | load | store => cases hcreation
  | call c =>
      obtain ⟨site, context, target, args, result⟩ := c
      cases target with
      | static | dispatch => cases hcreation
      | construct o constructor =>
          cases hcreation
          rfl

include hdeep

theorem exists_sameSite {o : Nat} {made : Creation} (ho : N.creation? o = some made) :
    ∃ u, M.creation? u = some (made.cut k) ∧ PointsTo.SameSite deep coarse o u := by
  obtain ⟨d, hd, hsome⟩ := Option.bind_eq_some_iff.1 ho
  obtain ⟨κ, -, heq⟩ := Option.bind_eq_some_iff.1 hsome
  cases heq
  obtain ⟨made, hmade, hcreates⟩ := hdeep.created o (Array.getElem?_eq_some_iff.1 hd).1
  rw [ho] at hmade
  cases hmade
  obtain ⟨u, hu⟩ := exists_creation_cut hcoarse hk hcreates
  obtain ⟨e, he, hsome⟩ := Option.bind_eq_some_iff.1 hu
  obtain ⟨κ', -, heq⟩ := Option.bind_eq_some_iff.1 hsome
  refine ⟨u, hu, d, e, ?_, ?_, (congrArg Creation.site (Option.some.inj heq)).symm⟩
  · rw [PointsTo.object?, hdeep.objects]
    exact hd
  · rw [PointsTo.object?, hcoarse.objects]
    exact he

/-- With longer contexts the results tell at least as much apart. -/
theorem refines_of_le : deep.Refines coarse where
  locals f x o ho := by
    obtain ⟨κ, made, hmade, hd⟩ := (hdeep.locals f x o).1 ho
    obtain ⟨u, hu, hsame⟩ := exists_sameSite hdeep hcoarse hk hmade
    exact ⟨u, (hcoarse.locals f x u).2 ⟨_, _, hu, derives_cut hk hd⟩, hsame⟩
  nodes node o ho := by
    obtain ⟨κ, made, hmade, hd⟩ := (hdeep.nodes node o).1 ho
    obtain ⟨u, hu, hsame⟩ := exists_sameSite hdeep hcoarse hk hmade
    exact ⟨u, (hcoarse.nodes node u).2 ⟨_, _, hu, derives_cut hk hd⟩, hsame⟩
  returns f o ho := by
    obtain ⟨κ, made, hmade, hd⟩ := (hdeep.returns f o).1 ho
    obtain ⟨u, hu, hsame⟩ := exists_sameSite hdeep hcoarse hk hmade
    exact ⟨u, (hcoarse.returns f u).2 ⟨_, _, hu, derives_cut hk hd⟩, hsame⟩
  fields a field o ho := by
    obtain ⟨base, made, hbase, hmade, hd⟩ := (hdeep.fields a field o).1 ho
    obtain ⟨b, hb, hsame⟩ := exists_sameSite hdeep hcoarse hk hbase
    obtain ⟨u, hu, hsame'⟩ := exists_sameSite hdeep hcoarse hk hmade
    exact ⟨b, hsame, u, (hcoarse.fields b field u).2 ⟨_, _, hb, hu, derives_cut hk hd⟩, hsame'⟩
  targets site ts hts := by
    -- a call with an entry has a target, so the other result has an entry too
    obtain ⟨t, ht⟩ := hdeep.filled.2.2 _ _ hts
    have hruns {t : Nat} (ht : t ∈ ts) : t ∈ coarse.targets.getD site ∅ := by
      refine (hcoarse.targets site t).2 (derives_cut hk ((hdeep.targets site t).1 ?_))
      exact PointerFacts.mem_getD.2 ⟨ts, hts, ht⟩
    obtain ⟨us, hus, -⟩ := PointerFacts.mem_getD.1 (hruns ht)
    refine ⟨us, hus, fun t' ht' => ?_⟩
    obtain ⟨us', hus', hmem⟩ := PointerFacts.mem_getD.1 (hruns ht')
    cases hus.symm.trans hus'
    exact hmem

end Projections

end FlowProgram

namespace Program

/-- The graphs of calls that are built from a program: the one without references, and all with
final targets of method calls. -/
inductive Builds (p : Program) : CallGraph → Prop
  | build : p.Builds (.build (.build p) (.build (.build p)))
  | refine {calls : CallGraph} (h : p.Builds calls) (pointsTo : PointsTo) :
      p.Builds (calls.refine (.build (.build p)) pointsTo)

theorem Builds.lt_of_mem_targets {p : Program} {calls : CallGraph} (h : p.Builds calls)
    {node t : Nat} {s : CallSite} (hs : calls.site? node = some s) (ht : t ∈ s.targets) :
    t < (ProgramIndex.build p).functions.size := by
  induction h generalizing node s t with
  | build => exact CallGraph.lt_of_mem_targets_build hs ht
  | refine _ pointsTo ih =>
      refine CallGraph.forall_site?_refine
        (P := fun _ s => ∀ t ∈ s.targets, t < (ProgramIndex.build p).functions.size)
        (fun hs t ht => ih hs ht) ?_ hs t ht
      intro node s method receiver _ t ht
      exact CallGraph.lt_of_mem_methodTargets ht

/-- Longer contexts only tell more apart: whatever the analysis finds with some depth, it finds with
every smaller depth, up to the contexts that objects are created in. -/
theorem analyze_refines (p : Program) (hids : (ProgramIndex.build p).nodeIds.Nodup)
    {calls : CallGraph} (hcalls : p.Builds calls) {k k' : Nat} (h : k ≤ k') :
    let ix := ProgramIndex.build p
    let classes := ClassTable.build ix
    (PointsTo.analyze ix classes calls k').Refines (.analyze ix classes calls k) := by
  intro ix classes
  have hbounded (depth : Nat) : (FlowProgram.mk ix classes calls depth).Bounded :=
    ⟨fun _ _ hs _ ht => hcalls.lt_of_mem_targets hs ht, fun _ _ _ ht => ClassTable.lt_of_lookup? ht⟩
  have hsize : 0 < ix.functions.size := Nat.succ_pos _
  obtain ⟨N, hdeep⟩ := FlowProgram.exists_isProjection hids (hbounded k') hsize
  obtain ⟨M, hcoarse⟩ := FlowProgram.exists_isProjection hids (hbounded k) hsize
  exact FlowProgram.refines_of_le hdeep hcoarse h

/-- A program with two callers of a function that creates a list. -/
def twoCallers : Program where
  body :=
    [.functionDef 1 2 "make" [] [.ret 3 (some (.collection 4 .list []))],
      .functionDef 5 6 "f" [] [.ret 7 (some (.call 8 (.name 9 "make") []))],
      .functionDef 10 11 "g" [] [.ret 12 (some (.call 13 (.name 14 "make") []))],
      .assign 15 (.name 16 "a") (.call 17 (.name 18 "f") []),
      .assign 19 (.name 20 "c") (.call 21 (.name 22 "g") [])]

set_option maxRecDepth 10000 in
/-- The lists of the two callers, which longer contexts keep apart, are one with shorter ones. -/
theorem analyze_refines_twoCallers :
    let ix := ProgramIndex.build twoCallers
    let classes := ClassTable.build ix
    let calls := CallGraph.build ix classes
    (PointsTo.analyze ix classes calls 2).mayAlias moduleId "a" "c" = false ∧
      (PointsTo.analyze ix classes calls 1).mayAlias moduleId "a" "c" = true ∧
      (PointsTo.analyze ix classes calls 2).Refines (.analyze ix classes calls 1) := by
  intro ix classes calls
  have hids : (ProgramIndex.build twoCallers).nodeIds.Nodup := by decide
  refine ⟨by decide +kernel, by decide +kernel, ?_⟩
  exact analyze_refines twoCallers hids .build (by decide)

end Program

end ValueFlow
