import ValueFlow.Proofs.PointsTo.LeastSolution
/-!
Every function, context and object that a search for references looks up exists.

Nodes may share identifiers: then the call sites and the objects of one identifier are taken for
each other, and still only what was numbered is looked up. Main statements:
`Program.searchesInRange` for the search and `Program.lt_of_mem_ofNode` for its result.
-/

namespace ValueFlow

namespace PointerPass

/-- The functions that a call enters after some part of a pass. -/
def enteredBy (scene : PointerScene) (p : PointerPass) (call : PointerCall) : List Nat :=
  match call.target with
  | .static functions => functions
  | .construct _ constructor => constructor.toList
  | .dispatch method receiver =>
      (p.facts.objects receiver).toList.filterMap (scene.method? method)

/-- Whether a call after some part of a pass looks up what exists: the path of its context, the
objects that its receiver may be, and the functions that it enters. -/
structure CallsInRange (scene : PointerScene) (p : PointerPass) (call : PointerCall) : Prop where
  context_lt : call.context < p.contexts.paths.size
  receiver_lt : ∀ method receiver, call.target = .dispatch method receiver →
    ∀ o ∈ p.facts.objects receiver, o < scene.objects.size
  entered_lt : ∀ f ∈ p.enteredBy scene call, f < scene.index.functions.size

end PointerPass

namespace FlowProgram

/-- The search for references in a program after a number of steps. -/
def searchAfter (P : FlowProgram) (n : Nat) : PointerSearch :=
  (PointerSearch.step P.index P.classes P.calls)^[n] (.start P.index P.depth)

/-- Whether all that the search for references in a program looks up exists, and it ends. -/
structure SearchesInRange (P : FlowProgram) : Prop where
  /-- The functions whose constraints a step generates exist. -/
  pending_lt : ∀ n, ∀ q ∈ (P.searchAfter n).pending, q.1 < P.index.functions.size
  /-- So does all that is looked up for a call, when its turn comes in the pass of a step. -/
  call : ∀ n s, s = (P.searchAfter n).discover P.index P.calls → ∀ front c back,
    s.generated.constraints.reverse = front ++ .call c :: back →
    (PointerPass.run (P.scene s.generated.objects) front s.facts s.contexts).CallsInRange
      (P.scene s.generated.objects) c
  /-- Contexts are never forgotten while a call enters one function after the other. -/
  contexts_grow : ∀ (p : PointerPass) scene c receiver skip f,
    p.contexts.paths.size ≤ (p.enter scene c receiver skip f).contexts.paths.size
  ends : ∃ n, P.EndsAfter n (.start P.index P.depth) ∧
    PointerSearch.run P.index P.classes P.calls P.depth = P.searchAfter (n + 1)

variable {P : FlowProgram}

/-- A call that is about what exists looks up what exists. -/
theorem KnowsPass.callsInRange (hbounded : P.Bounded) {C : Nat} {objects : Array HeapObject}
    {p : PointerPass} {c : PointerCall} (hp : P.KnowsPass C objects.size p)
    (hc : P.Knows C objects.size (.call c)) : p.CallsInRange (P.scene objects) c := by
  obtain ⟨-, -, hcontext, htarget, -⟩ := hc
  refine ⟨Nat.lt_of_lt_of_le hcontext hp.grown, fun _ _ _ _ ho => (hp.facts.var ho).2,
    fun f hf => ?_⟩
  unfold PointerPass.enteredBy at hf
  cases hkind : c.target with
  | static functions =>
      rw [hkind] at hf htarget
      exact htarget f hf
  | construct object constructor =>
      rw [hkind] at hf htarget
      exact htarget.2 f (Option.mem_toList.1 hf)
  | dispatch method receiver =>
      rw [hkind] at hf
      obtain ⟨o, -, hmethod⟩ := List.mem_filterMap.1 hf
      exact lt_of_method? hbounded hmethod

theorem searchesInRange (hbounded : P.Bounded) (hsize : 0 < P.index.functions.size) :
    P.SearchesInRange where
  pending_lt n q hq := (((ranges_start hsize).iterate_step hbounded n).pairs q (.inr hq)).1
  call n s hstate front c back hs := by
    have hd : P.Ranges s :=
      hstate ▸ ((ranges_start hsize).iterate_step hbounded n).discover hbounded
    have hsub {con : Constraint} (hcon : con ∈ front ++ .call c :: back) :
        con ∈ s.generated.constraints := by
      rw [← hs] at hcon
      exact List.mem_reverse.1 hcon
    refine (hd.pass hbounded fun con hcon => hsub (List.mem_append_left _ hcon)).callsInRange
      hbounded ?_
    exact hd.generated.constraints _ (hsub (List.mem_append_right _ List.mem_cons_self))
  contexts_grow p scene c receiver skip f := by
    rw [PointerPass.enter_eq]
    exact ContextTable.size_le_intern _ _
  ends := run_ends hbounded hsize

end FlowProgram

namespace Program

variable (p : Program) (depth : Nat)

theorem searchesInRange : (p.flowProgram depth).SearchesInRange :=
  FlowProgram.searchesInRange (p.bounded_flowProgram depth) (Nat.succ_pos _)

/-- The objects that an expression may be exist. -/
theorem lt_of_mem_ofNode {node o : Nat} :
    let P := p.flowProgram depth
    let g := PointsTo.analyze P.index P.classes P.calls depth
    o ∈ g.ofNode node → o < g.objects.size := by
  intro P g ho
  have hbounded := p.bounded_flowProgram depth
  have hsize : 0 < P.index.functions.size := Nat.succ_pos _
  obtain ⟨n, -, hrun⟩ := FlowProgram.run_ends hbounded hsize
  have hlast : P.Ranges (PointerSearch.run P.index P.classes P.calls depth) :=
    hrun ▸ (FlowProgram.ranges_start hsize).iterate_step hbounded (n + 1)
  obtain ⟨context, ho⟩ := PointsTo.mem_ofNode_collapse.1 ho
  have hobjects : g.objects = (PointerSearch.run P.index P.classes P.calls depth).generated.objects :=
    PointsTo.objects_collapse _ _ _
  rw [hobjects]
  exact (hlast.facts.var ho).2

end Program

end ValueFlow
