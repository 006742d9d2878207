import ValueFlow.Proofs.Analysis.Stability
import ValueFlow.Proofs.Objects.Programs
import ValueFlow.Proofs.PointsTo.LeastSolution
import ValueFlow.Proofs.PointsTo.Parts
/-!
What the analysis of references knows about programs with objects whose functions make none.

Then only the module makes objects, and it runs on one call path. So every constructor call has one
object that stands for all that it makes. Main statements: `exists_object`,
`label_mem_ofNode`.
-/

namespace ValueFlow

/-- Outside its expressions, a statement makes no objects and calls nothing. -/
theorem Frame.exists_of_makes {calls : CallGraph} {frame : Frame} {flow : Flow} {s : Stmt}
    (hflow : flow ∈ frame.stmtFlows calls s) (h : flow.creation? ≠ none ∨ flow.call? ≠ none) :
    ∃ e ∈ s.ownExprs, flow ∈ frame.exprFlows calls e := by
  have hother : ∀ {l : List Flow} {other : Flow}, flow ∈ l ++ [other] → other.creation? = none →
      other.call? = none → flow ∈ l := by
    intro l other hmem hcreation hcall
    rcases List.mem_append.1 hmem with hmem | hmem
    · exact hmem
    · rw [List.mem_singleton.1 hmem] at h
      exact absurd h (by simp [hcreation, hcall])
  cases s with
  | assign id target value =>
      cases target with
      | name => exact ⟨value, List.mem_append_right _ List.mem_cons_self, hother hflow rfl rfl⟩
      | attr node base x =>
          rcases List.mem_append.1 hflow with hflow | hflow
          · exact ⟨value, List.mem_append_right _ List.mem_cons_self, hflow⟩
          · exact ⟨base, List.mem_cons_self, hother hflow rfl rfl⟩
      | subscript node base index =>
          rcases List.mem_append.1 hflow with hflow | hflow
          · exact ⟨value, List.mem_append_right _ List.mem_cons_self, hflow⟩
          · rcases List.mem_append.1 hflow with hflow | hflow
            · exact ⟨base, List.mem_cons_self, hflow⟩
            · exact ⟨index, List.mem_cons_of_mem _ List.mem_cons_self, hother hflow rfl rfl⟩
  | expr | ifElse | whileLoop => exact ⟨_, List.mem_cons_self, hflow⟩
  | forLoop => exact ⟨_, List.mem_cons_self, hother hflow rfl rfl⟩
  | ret id value =>
      cases value with
      | none => cases hflow
      | some e => exact ⟨e, List.mem_cons_self, hother hflow rfl rfl⟩
  | brk | cont | pass | functionDef | classDef => cases hflow

namespace FlowProgram

variable (P : FlowProgram)

/-- Whether a place may refer to the objects of a constructor call. -/
def MayRefer (place : Place) (site : Nat) : Prop :=
  ∃ made, made.site = site ∧ P.Derives (.refers place made)

/-- Whether a field of the objects of one constructor call may refer to those of another. -/
def MayHold (base : Nat) (field : PointerField) (site : Nat) : Prop :=
  ∃ owner made, owner.site = base ∧ made.site = site ∧ P.Derives (.holds owner field made)

variable {P}

theorem creation?_of_target {c : FlowCall} {made : Creation} {constructor : Option Nat}
    (h : c.target = .construct made constructor) : (Flow.call c).creation? = some made := by
  obtain ⟨site, context, target, args, result⟩ := c
  cases h
  rfl

theorem mem_flows {i : Nat} {κ : List Nat} {f : FunctionInfo} (hf : P.index.functions[i]? = some f)
    {flow : Flow} : flow ∈ P.flows i κ ↔
      ∃ s ∈ Stmt.walkAll f.body, flow ∈ (P.frame i κ).stmtFlows P.calls s := by
  rw [flows, show P.index.function? i = some f from hf]
  exact List.mem_flatMap

/-- All that is referred to was made. -/
theorem creates_of_derives {fact : FlowFact} (hd : P.Derives fact) :
    match fact with
    | .refers _ made => P.Creates made
    | .holds base _ made => P.Creates base ∧ P.Creates made
    | .enters _ (some made) _ _ => P.Creates made
    | _ => True := by
  induction hd with
  | alloc hr hflow => exact ⟨_, ⟨_, _, hr, hflow⟩, rfl⟩
  | construct hr hflow htarget => exact ⟨_, ⟨_, _, hr, hflow⟩, creation?_of_target htarget⟩
  | init hr hflow htarget => exact ⟨_, ⟨_, _, hr, hflow⟩, creation?_of_target htarget⟩
  | copy hr hflow ho _ ih => exact ih
  | load hr hflow ha ho _ _ ih => exact ih.2
  | store hr hflow ha ho _ iha ih => exact ⟨iha, ih⟩
  | dispatch hr hflow htarget ho ht _ ih => exact ih
  | receiver h hparams ih => exact ih
  | arg h hpair ho _ ih => exact ih
  | result h ho _ ih => exact ih
  | root | static | target | reach => trivial

/-- Where no two creations share a constructor call, the call has one object. -/
theorem IsProjection.allocatedAt_eq {N : Numbering} {g : PointsTo} (hg : P.IsProjection N g)
    (hunique : ∀ {made made' : Creation}, P.Creates made → P.Creates made' →
      made.site = made'.site → made = made')
    {made : Creation} (hmade : P.Creates made) {object : Nat}
    (hobject : N.creation? object = some made) : g.allocatedAt made.site = [object] := by
  have hnumber : ∀ {i : Nat} {o : HeapObject}, g.objects[i]? = some o → o.id = i := by
    intro i o ho
    rw [hg.objects] at ho
    exact hg.proper.id ho
  have hids : g.objects.toList.map HeapObject.id = List.range g.objects.size := by
    refine List.ext_getElem (by simp) fun i hi _ => ?_
    rw [List.getElem_map, List.getElem_range]
    exact hnumber (Array.getElem?_eq_getElem (by simpa using hi))
  have hnodup : (g.allocatedAt made.site).Nodup := by
    have hrange := List.nodup_range (n := g.objects.size)
    rw [← hids] at hrange
    exact (List.filter_sublist.map _).nodup hrange
  have hall : ∀ {o : HeapObject}, o ∈ g.objects.toList → o.site = made.site → o.id = object := by
    intro o ho hsite
    obtain ⟨i, hget⟩ := Array.getElem?_of_mem (Array.mem_toList_iff.1 ho)
    rw [hnumber hget]
    rw [hg.objects] at hget
    obtain ⟨other, hother, hcreates⟩ := hg.created i (Array.getElem?_eq_some_iff.1 hget).1
    obtain ⟨o, ho, hcreation⟩ := Option.bind_eq_some_iff.1 hother
    obtain ⟨κ, -, heq⟩ := Option.bind_eq_some_iff.1 hcreation
    cases hget.symm.trans ho
    cases heq
    rw [hunique hcreates hmade hsite] at hother
    exact hg.proper.creation?_injective hother hobject
  have hmem : object ∈ g.allocatedAt made.site := by
    obtain ⟨o, ho, hcreation⟩ := Option.bind_eq_some_iff.1 hobject
    obtain ⟨κ, -, heq⟩ := Option.bind_eq_some_iff.1 hcreation
    rw [← hg.objects] at ho
    refine List.mem_map.2 ⟨o, List.mem_filter.2 ⟨Array.mem_toList_iff.2 (Array.mem_of_getElem? ho),
      ?_⟩, hnumber ho⟩
    cases heq
    exact decide_eq_true rfl
  refine List.perm_singleton.1 ((List.perm_ext_iff_of_nodup hnodup (List.nodup_singleton _)).2 ?_)
  intro k
  rw [List.mem_singleton]
  constructor
  · intro hk
    obtain ⟨o, ho, rfl⟩ := List.mem_map.1 hk
    exact hall (List.mem_filter.1 ho).1 (of_decide_eq_true (List.mem_filter.1 ho).2)
  · rintro rfl
    exact hmem

end FlowProgram

/-- The object that stands for all that a constructor call makes. -/
def PointsTo.label (g : PointsTo) (node : Nat) : Nat := (g.allocatedAt node).headD 0

namespace Frame

variable {calls : CallGraph} {node : Nat} (frame : Frame)

theorem callFlows_creates (h : calls.Creates node) (args : List Place) :
    ∃ className, (calls.site? node).map CallSite.kind = some (.construct className) ∧
      frame.callFlows calls node none args = [.call ⟨node, frame.context,
        .construct (frame.creation node (.ofClass className)) none, args, frame.value node⟩] := by
  obtain ⟨site, className, hsite, hkind, htargets⟩ := h
  refine ⟨className, by rw [hsite, Option.map_some, hkind], ?_⟩
  rw [callFlows, hsite]
  dsimp only
  rw [hkind, htargets]
  rfl

theorem callFlows_runs {j : Nat} (h : calls.Runs node j) (args : List Place) :
    frame.callFlows calls node none args =
      [.call ⟨node, frame.context, .static [j], args, frame.value node⟩] := by
  obtain ⟨site, hsite, hkind, htargets⟩ := h
  rw [callFlows, hsite]
  dsimp only
  rw [hkind, htargets]

end Frame

namespace Program

namespace IsObjectual

variable {p : Program} (h : p.IsObjectual) (hread : p.FunctionsOnlyRead) {depth : Nat}
include h hread

/-- What makes objects or calls something is a call that makes an object, in the module, or one that
runs a function. -/
theorem flow_cases {i : Nat} {κ : List Nat} {flow : Flow}
    (hflow : flow ∈ (p.flowProgram depth).flows i κ)
    (hmakes : flow.creation? ≠ none ∨ flow.call? ≠ none) :
    ∃ c, flow = .call c ∧
      ((i = moduleId ∧ ∃ node className,
        (p.calls.site? node).map CallSite.kind = some (.construct className) ∧
        c.target = .construct ⟨node, κ, i, .ofClass className⟩ none) ∨
      ∃ j, c.target = .static [j] ∧ j ≠ moduleId) := by
  cases hf : (p.flowProgram depth).index.functions[i]? with
  | none =>
      rw [FlowProgram.flows, show (p.flowProgram depth).index.function? i = none from hf] at hflow
      cases hflow
  | some f =>
      obtain ⟨s, hs, hflow⟩ := (FlowProgram.mem_flows hf).1 hflow
      obtain ⟨e, he, hflow⟩ := Frame.exists_of_makes hflow hmakes
      obtain ⟨part, hpart, hflow⟩ := Frame.mem_exprFlows.1 hflow
      have hmem : (s, part) ∈ walkExprs f.body :=
        mem_walkExprs.2 ⟨hs, Expr.walk_subset_walkAll he hpart.mem_walk⟩
      have hkind := h.expr_of_mem hf hmem
      cases part with
      | call node func args =>
          obtain ⟨id, g, rfl, ⟨hclass, rfl, hcreates⟩ | ⟨j, d, hruns, -⟩⟩ := h.call_of_mem hf hmem
          · obtain ⟨className, hsite, heq⟩ :=
              ((p.flowProgram depth).frame i κ).callFlows_creates hcreates []
            have hflow : flow ∈ ((p.flowProgram depth).frame i κ).callFlows p.calls node none [] :=
              hflow
            rw [heq, List.mem_singleton] at hflow
            exact ⟨_, hflow, .inl ⟨eq_module_of_creates hread hf h hmem hclass, node, className,
              hsite, rfl⟩⟩
          · have heq := ((p.flowProgram depth).frame i κ).callFlows_runs hruns.site
              (args.map fun e => ((p.flowProgram depth).frame i κ).value e.id)
            have hflow : flow ∈ ((p.flowProgram depth).frame i κ).callFlows p.calls node none
              (args.map fun e => ((p.flowProgram depth).frame i κ).value e.id) := hflow
            rw [heq, List.mem_singleton] at hflow
            refine ⟨_, hflow, .inr ⟨j, rfl, ?_⟩⟩
            obtain ⟨site, hsite, -, htargets⟩ := hruns.site
            exact (h.target_of_site? hsite).2 j (by rw [htargets]; exact List.mem_cons_self)
      | name | attr =>
          rw [List.mem_singleton.1 hflow] at hmakes
          exact absurd hmakes (by simp [Flow.creation?, Flow.call?])
      | literal | binOp | compare => cases hflow
      | boolOp | unaryOp | subscript | collection | unsupported => cases hkind

/-- Nothing calls the module. -/
theorem reached_module {κ : List Nat} (hd : (p.flowProgram depth).Derives (.reached moduleId κ)) :
    κ = (p.flowProgram depth).root moduleId := by
  have hcall : ∀ {f κ c}, .call c ∈ (p.flowProgram depth).flows f κ →
      (∃ made, c.target = .construct made none) ∨ ∃ j, c.target = .static [j] ∧ j ≠ moduleId := by
    intro f κ c hflow
    obtain ⟨_, heq, ⟨-, node, className, -, htarget⟩ | hstatic⟩ :=
      h.flow_cases hread hflow (.inr (by simp [Flow.call?]))
    · cases heq
      exact .inl ⟨_, htarget⟩
    · cases heq
      exact .inr hstatic
  cases hd with
  | root => rfl
  | reach hd =>
      cases hd with
      | static hr hflow htarget ht =>
          rcases hcall hflow with ⟨made, heq⟩ | ⟨j, heq, hj⟩
          · cases htarget.symm.trans heq
          · cases htarget.symm.trans heq
            exact absurd (List.mem_singleton.1 ht).symm hj
      | init hr hflow htarget =>
          rcases hcall hflow with ⟨made, heq⟩ | ⟨j, heq, hj⟩ <;> cases htarget.symm.trans heq
      | dispatch hr hflow htarget =>
          rcases hcall hflow with ⟨made, heq⟩ | ⟨j, heq, hj⟩ <;> cases htarget.symm.trans heq

/-- Where an object was made tells all about it. -/
theorem made_eq {made : Creation} (hmade : (p.flowProgram depth).Creates made) :
    ∃ className, (p.calls.site? made.site).map CallSite.kind = some (.construct className) ∧
      made = ⟨made.site, (p.flowProgram depth).root moduleId, moduleId, .ofClass className⟩ := by
  obtain ⟨flow, ⟨i, κ, hr, hflow⟩, hmade⟩ := hmade
  obtain ⟨c, rfl, ⟨rfl, node, className, hsite, htarget⟩ | ⟨j, htarget, -⟩⟩ :=
    h.flow_cases hread hflow (.inl (by rw [hmade]; nofun))
  · rw [FlowProgram.creation?_of_target htarget] at hmade
    cases hmade
    rw [h.reached_module hread hr]
    exact ⟨className, hsite, rfl⟩
  · obtain ⟨site, context, target, args, result⟩ := c
    cases htarget
    cases hmade

theorem made_unique {made made' : Creation} (hmade : (p.flowProgram depth).Creates made)
    (hmade' : (p.flowProgram depth).Creates made') (hsite : made.site = made'.site) :
    made = made' := by
  obtain ⟨className, hkind, heq⟩ := h.made_eq hread hmade
  obtain ⟨className', hkind', heq'⟩ := h.made_eq hread hmade'
  rw [hsite] at hkind heq
  cases hkind.symm.trans hkind'
  exact heq.trans heq'.symm

section Labels

variable (config : Config)

/-- The object that stands for what a constructor call makes. -/
theorem exists_object {made : Creation}
    (hmade : (p.flowProgram config.pointerContextDepth.toNat).Creates made) :
    ∃ object, (p.facts config).pointsTo.allocatedAt made.site = [object] ∧
      ∀ {node κ}, (p.flowProgram config.pointerContextDepth.toNat).Derives
        (.refers (.value node κ) made) → object ∈ (p.facts config).pointsTo.ofNode node := by
  have hleast := isProjection_analyze p h.numbered.nodeIds_nodup config.pointerContextDepth.toNat
  obtain ⟨object, hobject⟩ := hleast.complete made hmade
  exact ⟨object, hleast.allocatedAt_eq (h.made_unique hread) hmade hobject,
    fun {node κ} hd => (hleast.nodes node object).2 ⟨κ, made, hobject, hd⟩⟩

/-- What an expression may refer to is among its objects. -/
theorem label_mem_ofNode {node site : Nat} {κ : List Nat}
    (hd : (p.flowProgram config.pointerContextDepth.toNat).MayRefer (.value node κ) site) :
    (p.facts config).pointsTo.label site ∈ (p.facts config).pointsTo.ofNode node := by
  obtain ⟨made, rfl, hd⟩ := hd
  obtain ⟨object, hlabel, hnode⟩ := h.exists_object hread config
    (FlowProgram.creates_of_derives hd)
  rw [PointsTo.label, hlabel]
  exact hnode hd

end Labels

end IsObjectual

end Program

end ValueFlow
