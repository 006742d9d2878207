import ValueFlow.Proofs.CallGraph.Refinement
import ValueFlow.Proofs.PointsTo.Collapse
import ValueFlow.Proofs.PointsTo.Ending
/-!
The analysis of references ends and finds what can be derived, all of it and nothing else.

In a program whose nodes have different identifiers an identifier tells the function and the
expression it belongs to. Main statement: `analyze_least`.
-/

namespace ValueFlow

/-- The identifiers of the expressions of a body are among those of its nodes. -/
theorem walkExprs_ids_sublist (body : List Stmt) :
    ((walkExprs body).map fun e => e.2.id).Sublist (Stmt.idsOf body) := by
  rw [walkExprs, List.map_flatMap]
  refine List.Sublist.flatMap_right _ fun s _ => ?_
  rw [List.map_map]
  exact List.sublist_append_right _ _

namespace ProgramIndex

variable {ix : ProgramIndex}

/-- The expressions of all functions, each with the number of its function. -/
def exprs (ix : ProgramIndex) : List (Nat × Expr) :=
  ix.functions.toList.zipIdx.flatMap fun q => (walkExprs q.1.body).map fun e => (q.2, e.2)

theorem mem_exprs {i : Nat} {f : FunctionInfo} (hf : ix.function? i = some f) {stmt : Stmt}
    (hstmt : stmt ∈ Stmt.walkAll f.body) {e part : Expr} (he : e ∈ stmt.ownExprs)
    (hpart : part ∈ e.walk) : (i, part) ∈ ix.exprs := by
  refine List.mem_flatMap.2 ⟨(f, i), List.mk_mem_zipIdx_iff_getElem?.2 ?_, ?_⟩
  · rw [Array.getElem?_toList]
    exact hf
  · exact List.mem_map.2 ⟨(stmt, part),
      mem_walkExprs.2 ⟨hstmt, Expr.walk_subset_walkAll he hpart⟩, rfl⟩

/-- The identifiers of the expressions are among those of all nodes. -/
theorem exprs_sublist (ix : ProgramIndex) : (ix.exprs.map fun q => q.2.id).Sublist ix.nodeIds := by
  have fold (l : List FunctionInfo) (k : Nat) :
      ((l.zipIdx k).flatMap fun q => (walkExprs q.1.body).map fun e => e.2.id).Sublist
        (l.flatMap fun f => Stmt.idsOf f.body) := by
    induction l generalizing k with
    | nil => exact .slnil
    | cons f rest ih =>
        rw [List.zipIdx_cons, List.flatMap_cons, List.flatMap_cons]
        exact (walkExprs_ids_sublist f.body).append (ih (k + 1))
  rw [exprs, List.map_flatMap]
  simp only [List.map_map, Function.comp_def]
  exact fold _ 0

end ProgramIndex

namespace FlowProgram

open PointerFacts (Filled)

variable {P : FlowProgram} {s : PointerSearch}

/-- What the expression of an identifier creates, and in which function it stands. -/
def origins (P : FlowProgram) : Origins := fun node =>
  (P.index.exprs.find? fun q => q.2.id = node).bind fun q => (q.2.creates? P.calls).map (q.1, ·)

/-- Where nodes have different identifiers, an identifier tells what is created. -/
theorem located_of_nodup (hids : P.index.nodeIds.Nodup) : P.Located P.origins := by
  intro f info hinfo stmt hstmt e he part hpart kind hkind
  have hmem := ProgramIndex.mem_exprs hinfo hstmt he hpart
  have hsome : (P.index.exprs.find? fun q => q.2.id = part.id).isSome = true := by
    rw [List.find?_isSome]
    exact ⟨(f, part), hmem, decide_eq_true rfl⟩
  obtain ⟨q, hq⟩ := Option.isSome_iff_exists.1 hsome
  have hsame : q.2.id = part.id := by simpa using List.find?_some hq
  have heq : q = (f, part) := List.inj_on_of_nodup_map
    ((ProgramIndex.exprs_sublist P.index).nodup hids) (List.mem_of_find?_eq_some hq) hmem hsame
  rw [FlowProgram.origins, hq, heq, Option.bind_some, hkind, Option.map_some]

/-- What the program creates. -/
def Creates (P : FlowProgram) (made : Creation) : Prop :=
  ∃ flow, P.Occurs flow ∧ flow.creation? = some made

theorem exists_object {N : Numbering} {con : Constraint} {flow : Flow} {made : Creation}
    (h : N.Says con flow) (hmade : flow.creation? = some made) :
    ∃ i, N.creation? i = some made := by
  cases h with
  | alloc ho _ =>
      cases hmade
      exact ⟨_, ho⟩
  | copy | load | store => cases hmade
  | @call c d hcall =>
      have htarget := hcall.target
      obtain ⟨site, context, target, args, result⟩ := d
      generalize c.target = t at htarget
      cases htarget with
      | static | dispatch => cases hmade
      | construct ho constructor =>
          cases hmade
          exact ⟨_, ho⟩

/-- Whether a result has one object for each creation, and says of variables, expressions, returned
values, fields and calls what can be derived in some context, all of it and nothing else. -/
structure IsProjection (P : FlowProgram) (N : Numbering) (g : PointsTo) : Prop where
  objects : g.objects = N.objects
  proper : N.Proper P.depth
  created : ∀ i < N.objects.size, ∃ made, N.creation? i = some made ∧ P.Creates made
  complete : ∀ made, P.Creates made → ∃ i, N.creation? i = some made
  locals : ∀ f x o, o ∈ g.ofVar f x ↔
    ∃ κ made, N.creation? o = some made ∧ P.Derives (.refers (.named f κ x) made)
  nodes : ∀ node o, o ∈ g.ofNode node ↔
    ∃ κ made, N.creation? o = some made ∧ P.Derives (.refers (.value node κ) made)
  returns : ∀ f o, o ∈ g.ofReturn f ↔
    ∃ κ made, N.creation? o = some made ∧ P.Derives (.refers (.result f κ) made)
  fields : ∀ a field o, o ∈ g.ofField a field ↔ ∃ base made,
    N.creation? a = some base ∧ N.creation? o = some made ∧ P.Derives (.holds base field made)
  targets : ∀ site t, t ∈ g.targets.getD site ∅ ↔ P.Derives (.runs site t)
  filled : (Filled g.locals ∧ Filled g.nodes ∧ Filled g.returns) ∧
    Filled g.fields ∧ Filled g.targets

/-- The numbers that a step of a search leaves. -/
def numbering (P : FlowProgram) (s : PointerSearch) : Numbering :=
  ⟨(s.step P.index P.classes P.calls).contexts,
    (s.step P.index P.classes P.calls).generated.objects⟩

section Final

variable {origins : Origins} (hlocated : P.Located origins) (h : P.Tracks origins s)
  (hend : s.Ends P.index P.classes P.calls)
include hlocated h hend

/-- A variable has an object in some context just if that can be derived. -/
theorem exists_mem_objects_iff {var : Nat → PointerVar} {place : List Nat → Place}
    (hto : ∀ c p, (P.numbering s).place? (var c) = some p → ∃ κ, p = place κ)
    (hfrom : ∀ v κ, (P.numbering s).place? v = some (place κ) → ∃ c, v = var c) {o : Nat} :
    (∃ c, o ∈ (s.step P.index P.classes P.calls).facts.objects (var c)) ↔
      ∃ κ made, (P.numbering s).creation? o = some made ∧ P.Derives (.refers (place κ) made) := by
  have hstep := h.step hlocated
  constructor
  · rintro ⟨c, ho⟩
    obtain ⟨p, made, hp, hmade, hd⟩ := hstep.facts.var ho
    obtain ⟨κ, rfl⟩ := hto c p hp
    exact ⟨κ, made, hmade, hd⟩
  · rintro ⟨κ, made, hmade, hd⟩
    obtain ⟨v, o', hv, hmade', ho'⟩ := found_of_derives (h.closed hlocated hend) hd
    obtain ⟨c, rfl⟩ := hfrom v κ hv
    cases hstep.proper.creation?_injective hmade hmade'
    exact ⟨c, ho'⟩

theorem mem_held_iff {a o : Nat} {field : PointerField} :
    o ∈ (s.step P.index P.classes P.calls).facts.held a field ↔ ∃ base made,
      (P.numbering s).creation? a = some base ∧ (P.numbering s).creation? o = some made ∧
        P.Derives (.holds base field made) := by
  have hstep := h.step hlocated
  constructor
  · intro ho
    exact hstep.facts.field ho
  · rintro ⟨base, made, hbase, hmade, hd⟩
    obtain ⟨a', o', hbase', hmade', ho'⟩ := found_of_derives (h.closed hlocated hend) hd
    cases hstep.proper.creation?_injective hbase hbase'
    cases hstep.proper.creation?_injective hmade hmade'
    exact ho'

/-- Every creation has an object. -/
theorem exists_creation {made : Creation} (hmade : P.Creates made) :
    ∃ i, (P.numbering s).creation? i = some made := by
  have hclosed := h.closed hlocated hend
  obtain ⟨flow, ⟨f, κ, hd, hflow⟩, hmade⟩ := hmade
  obtain ⟨con, -, hmeans⟩ := hclosed.exists_constraint (found_of_derives hclosed hd) hflow
  exact exists_object hmeans hmade

/-- Where a search ends, its facts are the least set, and the result is what is left of them when
contexts are forgotten. -/
theorem isProjection_collapse (stats : PointsToStats) : P.IsProjection (P.numbering s)
    (.collapse (s.step P.index P.classes P.calls).facts
      (s.step P.index P.classes P.calls).generated.objects stats) := by
  have hstep := h.step hlocated
  refine ⟨PointsTo.objects_collapse _ _ _, hstep.proper, ?_,
    fun made => exists_creation hlocated h hend, ?_, ?_, ?_, ?_, ?_, PointsTo.filled_collapse, ?_⟩
  · intro i hi
    obtain ⟨flow, made, hoccurs, hmade, hcreation⟩ :=
      hstep.created (Array.getElem?_eq_getElem hi)
    exact ⟨made, hcreation, flow, hoccurs, hmade⟩
  · intro f x o
    rw [PointsTo.mem_ofVar_collapse]
    refine exists_mem_objects_iff hlocated h hend ?_ ?_
    · intro c p hp
      obtain ⟨κ, -, rfl⟩ := Option.map_eq_some_iff.1 hp
      exact ⟨κ, rfl⟩
    · rintro (⟨i, c, y⟩ | ⟨n, c⟩ | ⟨i, c⟩) κ hv <;>
        obtain ⟨κ', -, heq⟩ := Option.map_eq_some_iff.1 hv <;> cases heq
      exact ⟨c, rfl⟩
  · intro node o
    rw [PointsTo.mem_ofNode_collapse]
    refine exists_mem_objects_iff hlocated h hend ?_ ?_
    · intro c p hp
      obtain ⟨κ, -, rfl⟩ := Option.map_eq_some_iff.1 hp
      exact ⟨κ, rfl⟩
    · rintro (⟨i, c, y⟩ | ⟨n, c⟩ | ⟨i, c⟩) κ hv <;>
        obtain ⟨κ', -, heq⟩ := Option.map_eq_some_iff.1 hv <;> cases heq
      exact ⟨c, rfl⟩
  · intro f o
    rw [PointsTo.mem_ofReturn_collapse]
    refine exists_mem_objects_iff hlocated h hend ?_ ?_
    · intro c p hp
      obtain ⟨κ, -, rfl⟩ := Option.map_eq_some_iff.1 hp
      exact ⟨κ, rfl⟩
    · rintro (⟨i, c, y⟩ | ⟨n, c⟩ | ⟨i, c⟩) κ hv <;>
        obtain ⟨κ', -, heq⟩ := Option.map_eq_some_iff.1 hv <;> cases heq
      exact ⟨c, rfl⟩
  · intro a field o
    rw [PointsTo.ofField, PointsTo.fields_collapse]
    exact mem_held_iff hlocated h hend
  · intro site t
    rw [PointsTo.targets_collapse]
    exact ⟨fun ht => hstep.facts.target ht,
      fun hd => found_of_derives (h.closed hlocated hend) hd⟩
  · rw [PointsTo.fields_collapse, PointsTo.targets_collapse]
    exact hstep.facts.filled.2

end Final

end FlowProgram

namespace Program

/-- A program with its classes and the calls that are known before references are. -/
def flowProgram (p : Program) (depth : Nat) : FlowProgram where
  index := .build p
  classes := .build (.build p)
  calls := .build (.build p) (.build (.build p))
  depth := depth

theorem bounded_flowProgram (p : Program) (depth : Nat) : (p.flowProgram depth).Bounded where
  calls _ _ hsite _ ht := CallGraph.lt_of_mem_targets_build hsite ht
  methods _ _ _ hlookup := ClassTable.lt_of_lookup? hlookup

/-- The search ends after the first step that adds no fact and reaches no new function. What it
found before that step can be derived, and after it all constraints hold. -/
theorem run_spec (p : Program) (hids : (ProgramIndex.build p).nodeIds.Nodup) (depth : Nat) :
    let P := p.flowProgram depth
    let last := PointerSearch.run P.index P.classes P.calls depth
    ∃ n, P.EndsAfter n (.start P.index depth) ∧
      last = (PointerSearch.step P.index P.classes P.calls)^[n + 1] (.start P.index depth) ∧
      P.Tracks P.origins ((PointerSearch.step P.index P.classes P.calls)^[n]
        (.start P.index depth)) ∧
      ∀ con ∈ last.generated.constraints, con.Holds last.facts := by
  intro P last
  have hlocated : P.Located P.origins := FlowProgram.located_of_nodup hids
  have hsize : 0 < P.index.functions.size := Nat.succ_pos _
  obtain ⟨n, hends, hrun⟩ := FlowProgram.run_ends (p.bounded_flowProgram depth) hsize
  have htracks := (FlowProgram.tracks_start P.origins hsize).iterate_step hlocated n
  have hlast : last = (PointerSearch.step P.index P.classes P.calls)^[n + 1]
    (.start P.index depth) := hrun
  refine ⟨n, hends, hlast, htracks, ?_⟩
  rw [hlast, Function.iterate_succ_apply']
  exact (htracks.closed hlocated hends.2).holds

/-- The result is the least set of facts that is closed under the rules, without the contexts of
places. -/
theorem isProjection_analyze (p : Program) (hids : (ProgramIndex.build p).nodeIds.Nodup)
    (depth : Nat) :
    let P := p.flowProgram depth
    let last := PointerSearch.run P.index P.classes P.calls depth
    P.IsProjection ⟨last.contexts, last.generated.objects⟩
      (PointsTo.analyze P.index P.classes P.calls depth) := by
  intro P last
  obtain ⟨n, hends, hrun, htracks, -⟩ := p.run_spec hids depth
  have hlast : last = PointerSearch.step P.index P.classes P.calls
      ((PointerSearch.step P.index P.classes P.calls)^[n] (.start P.index depth)) :=
    hrun.trans (Function.iterate_succ_apply' _ _ _)
  obtain ⟨stats, hanalyze⟩ : ∃ stats, PointsTo.analyze P.index P.classes P.calls depth =
      .collapse last.facts last.generated.objects stats := ⟨_, rfl⟩
  rw [hanalyze, hlast]
  exact FlowProgram.isProjection_collapse (FlowProgram.located_of_nodup hids) htracks hends.2 stats

/-- The analysis of references ends, after the first step that adds no fact and reaches no new
function. All constraints hold in the end, and the result is the least set of facts that is closed
under the rules, without the contexts of places. -/
theorem analyze_least (p : Program) (hids : (ProgramIndex.build p).nodeIds.Nodup) (depth : Nat) :
    let ix := ProgramIndex.build p
    let classes := ClassTable.build ix
    let calls := CallGraph.build ix classes
    let last := PointerSearch.run ix classes calls depth
    (∃ n, (p.flowProgram depth).EndsAfter n (.start ix depth) ∧
      last = (PointerSearch.step ix classes calls)^[n + 1] (.start ix depth)) ∧
    (∀ con ∈ last.generated.constraints, con.Holds last.facts) ∧
    (p.flowProgram depth).IsProjection ⟨last.contexts, last.generated.objects⟩
      (PointsTo.analyze ix classes calls depth) := by
  intro ix classes calls last
  obtain ⟨n, hends, hrun, -, hholds⟩ := p.run_spec hids depth
  exact ⟨⟨n, hends, hrun⟩, hholds, p.isProjection_analyze hids depth⟩

/-- A program that puts a list into an object and takes it out again. -/
def boxed : Program where
  body :=
    [.classDef 1 2 "Box" []
        [.functionDef 3 4 "put" ["self", "value"]
            [.assign 5 (.attr 6 (.name 7 "self") "item") (.name 8 "value")],
          .functionDef 9 10 "get" ["self"]
            [.ret 11 (some (.attr 12 (.name 13 "self") "item"))]],
      .assign 14 (.name 15 "box") (.call 16 (.name 17 "Box") []),
      .expr 18 (.call 19 (.attr 20 (.name 21 "box") "put") [.collection 22 .list []]),
      .assign 23 (.name 24 "item") (.call 25 (.attr 26 (.name 27 "box") "get") [])]

set_option maxRecDepth 10000 in
theorem analyze_least_boxed : (ProgramIndex.build boxed).nodeIds.Nodup ∧
    ∃ κ made, made.site = 22 ∧
      (boxed.flowProgram 1).Derives (.refers (.named moduleId κ "item") made) := by
  have hids : (ProgramIndex.build boxed).nodeIds.Nodup := by decide
  obtain ⟨-, -, hleast⟩ := analyze_least boxed hids 1
  have hitem : ((PointsTo.analyze (.build boxed) (.build (.build boxed))
      (.build (.build boxed) (.build (.build boxed))) 1).ofVar moduleId "item").contains 1 =
        true := by
    decide +kernel
  obtain ⟨κ, made, hmade, hd⟩ := (hleast.locals _ _ _).1 (SortedSet.contains_iff.1 hitem)
  have hsite : (Numbering.creation? ⟨(PointerSearch.run (.build boxed) (.build (.build boxed))
      (.build (.build boxed) (.build (.build boxed))) 1).contexts,
      (PointerSearch.run (.build boxed) (.build (.build boxed))
        (.build (.build boxed) (.build (.build boxed))) 1).generated.objects⟩ 1).map
      Creation.site = some 22 := by
    decide +kernel
  rw [hmade] at hsite
  exact ⟨hids, κ, made, Option.some.inj hsite, hd⟩

end Program

end ValueFlow
