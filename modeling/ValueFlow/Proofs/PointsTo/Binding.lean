import ValueFlow.Proofs.PointsTo.Coarsening
import ValueFlow.Proofs.PointsTo.Parts
/-!
What calls bind: arguments to parameters and results to calls.

A call is solved in every context of its caller, and leads to one context of each function that it
runs. Contexts are kept apart, so the sets of all contexts together are bound only where a call runs
the same functions in all of them. Main statement: `analyze_binds`.
-/

namespace ValueFlow

def CallSite.refine (s : CallSite) (classes : ClassTable) (pointsTo : PointsTo) : CallSite :=
  match s.kind with
  | .virtual method receiver =>
      { s with
        targets := CallGraph.methodTargets classes pointsTo method receiver
        resolved := true }
  | _ => s

theorem CallSite.kind_refine (s : CallSite) (classes : ClassTable) (pointsTo : PointsTo) :
    (s.refine classes pointsTo).kind = s.kind := by
  unfold refine
  split <;> rfl

namespace CallGraph

variable {g k : CallGraph} {classes : ClassTable} {pointsTo : PointsTo} {node : Nat} {s : CallSite}

def refineSite (classes : ClassTable) (pointsTo : PointsTo) (g : CallGraph) (site : CallSite) :
    CallGraph :=
  match site.kind with
  | .virtual method receiver => g.resolve site.node (methodTargets classes pointsTo method receiver)
  | _ => g

theorem site?_refineSite_of_ne (h : node ≠ s.node) :
    (refineSite classes pointsTo k s).site? node = k.site? node := by
  unfold refineSite
  split
  · simp only [site?, resolve, SortedMap.get?_alter, if_neg h]
  · rfl

theorem site?_refineSite_self (h : k.site? s.node = some s ∨
    k.site? s.node = some (s.refine classes pointsTo)) :
    (refineSite classes pointsTo k s).site? s.node = some (s.refine classes pointsTo) := by
  unfold refineSite
  cases hkind : s.kind with
  | direct | construct | unknown =>
      rw [CallSite.refine, hkind, or_self] at h
      rw [CallSite.refine, hkind]
      exact h
  | virtual method receiver =>
      simp only [CallSite.refine, hkind, site?, resolve, SortedMap.get?_alter, if_pos] at h ⊢
      rcases h with h | h <;> simp [h, hkind]

/-- What is not refined yet is among the sites to come. -/
theorem site?_foldl_refineSite (hkeys : ∀ node s, g.site? node = some s → s.node = node)
    {l : List CallSite} (hl : ∀ s ∈ l, g.site? s.node = some s)
    (hk : ∀ node, k.site? node = (g.site? node).map (·.refine classes pointsTo) ∨
      ∃ s ∈ l, g.site? node = some s ∧ k.site? node = some s) (node : Nat) :
    (l.foldl (refineSite classes pointsTo) k).site? node =
      (g.site? node).map (·.refine classes pointsTo) := by
  induction l generalizing k with
  | nil =>
      refine (hk node).resolve_right ?_
      rintro ⟨s, hs, -⟩
      cases hs
  | cons s rest ih =>
      have hs := hl s List.mem_cons_self
      refine ih (fun a ha => hl a (List.mem_cons_of_mem _ ha)) fun node => ?_
      by_cases hnode : node = s.node
      · subst hnode
        rw [hs, Option.map_some]
        refine .inl (site?_refineSite_self ?_)
        rcases hk s.node with h | ⟨a, -, ha, h⟩
        · rw [hs] at h
          exact .inr h
        · cases hs.symm.trans ha
          exact .inl h
      · rw [site?_refineSite_of_ne hnode]
        refine (hk node).imp_right ?_
        rintro ⟨a, ha, hget, h⟩
        refine ⟨a, (List.mem_cons.1 ha).resolve_left ?_, hget, h⟩
        rintro rfl
        exact hnode (hkeys _ _ hget).symm

/-- Every site of a graph gets its final targets, where sites are found by their identifiers. -/
theorem site?_refine (hkeys : ∀ node s, g.site? node = some s → s.node = node) (node : Nat) :
    (g.refine classes pointsTo).site? node =
      (g.site? node).map (·.refine classes pointsTo) := by
  refine site?_foldl_refineSite hkeys (fun s hs => ?_) (fun node => ?_) node
  · obtain ⟨key, hkey⟩ := mem_values.1 hs
    rwa [hkeys key s hkey]
  · cases hnode : g.site? node with
    | none => exact .inl rfl
    | some s => exact .inr ⟨s, mem_values.2 ⟨node, hnode⟩, rfl, rfl⟩

end CallGraph

namespace ContextTable

/-- Of a path no longer than one only the end counts. -/
theorem limit_append_of_le_one {depth : Nat} (h : depth ≤ 1) (path : List Nat) (f : Nat) :
    limit depth (path ++ [f]) = limit depth [f] := by
  rw [limit, limit, List.length_append, List.length_singleton]
  rcases Nat.le_one_iff_eq_zero_or_eq_one.1 h with rfl | rfl
  · rw [List.drop_eq_nil_of_le, List.drop_eq_nil_of_le] <;> simp
  · simp

end ContextTable

namespace PointerSearch

/-- Whether a call in a context enters a function in the context that it leads to, gives the
parameters after the skipped ones their arguments and takes the result. -/
structure Enters (s : PointerSearch) (ix : ProgramIndex) (node : Nat) (args : List Expr)
    (skip t context inner : Nat) : Prop where
  reached : (t, inner) ∈ s.reached
  path : s.contexts.paths[inner]? =
    some (ContextTable.limit s.contexts.depth (s.contexts.path context ++ [t]))
  args : ∀ q ∈ args.zip ((ix.params t).drop skip), ∀ o ∈ s.facts.objects (.value q.1.id context),
    o ∈ s.facts.objects (.named t inner q.2)
  result : ∀ o ∈ s.facts.objects (.result t inner), o ∈ s.facts.objects (.value node context)

/-- Whether a receiver may be an object in a context whose method of a name is a function. -/
def Dispatches (s : PointerSearch) (ix : ProgramIndex) (classes : ClassTable) (method : String)
    (receiver t context : Nat) : Prop :=
  ∃ o ∈ s.facts.objects (.value receiver context),
    PointerScene.method? ⟨ix, classes, s.generated.objects⟩ method o = some t

/-- The targets of a receiver of which something is known, from its objects in all contexts. -/
theorem mem_methodTargets_iff {s : PointerSearch} (ix : ProgramIndex) {classes : ClassTable}
    {g : PointsTo} {stats : PointsToStats} (hg : g = .collapse s.facts s.generated.objects stats)
    {method : String} {receiver t : Nat} (hknown : (g.ofNode receiver).isEmpty = false) :
    t ∈ CallGraph.methodTargets classes g method receiver ↔
      ∃ c, s.Dispatches ix classes method receiver t c := by
  rw [CallGraph.methodTargets, hknown, if_neg Bool.false_ne_true, ClassTable.dispatch,
    SortedSet.mem_ofList]
  have hobject (o : Nat) : g.object? o = s.generated.objects[o]? := by
    rw [PointsTo.object?, hg, PointsTo.objects_collapse]
  have hnode (o : Nat) : o ∈ (g.ofNode receiver).toList ↔
      ∃ c, o ∈ s.facts.objects (.value receiver c) := by
    rw [hg]
    exact PointsTo.mem_ofNode_collapse
  constructor
  · intro ht
    obtain ⟨className, hclass, hlookup⟩ := List.mem_filterMap.1 ht
    obtain ⟨kind, hkind, hclass⟩ := List.mem_filterMap.1 hclass
    obtain ⟨o, ho, hkind⟩ := List.mem_filterMap.1 hkind
    obtain ⟨object, hfound, rfl⟩ := Option.map_eq_some_iff.1 hkind
    obtain ⟨c, ho⟩ := (hnode o).1 ho
    refine ⟨c, o, ho, Option.bind_eq_some_iff.2 ⟨object, ?_, ?_⟩⟩
    · rw [← hobject]
      exact hfound
    · exact Option.bind_eq_some_iff.2 ⟨className, hclass, hlookup⟩
  · rintro ⟨c, o, ho, hmethod⟩
    obtain ⟨object, hfound, hmethod⟩ := Option.bind_eq_some_iff.1 hmethod
    obtain ⟨className, hclass, hlookup⟩ := Option.bind_eq_some_iff.1 hmethod
    refine List.mem_filterMap.2 ⟨className, List.mem_filterMap.2 ⟨object.kind, ?_, hclass⟩, hlookup⟩
    refine List.mem_filterMap.2 ⟨o, (hnode o).2 ⟨c, ho⟩, ?_⟩
    rw [hobject]
    exact Option.map_eq_some_iff.2 ⟨object, hfound, rfl⟩

end PointerSearch

namespace PointsTo

/-- Whether the parameters of a function after the skipped ones may be what arguments may be. -/
def Binds (g : PointsTo) (ix : ProgramIndex) (args : List Expr) (skip t : Nat) : Prop :=
  ∀ q ∈ args.zip ((ix.params t).drop skip), ∀ o ∈ g.ofNode q.1.id, o ∈ g.ofVar t q.2

/-- Whether a call may be what a function may return. -/
def Returns (g : PointsTo) (t node : Nat) : Prop := ∀ o ∈ g.ofReturn t, o ∈ g.ofNode node

end PointsTo

namespace Frame

variable {calls : CallGraph} {s : Frame} {node : Nat} {args : List Expr} {site : CallSite}

def callOf (s : Frame) (node : Nat) (args : List Expr) (target : FlowTarget) : FlowCall :=
  ⟨node, s.context, target, args.map (s.value ·.id), s.value node⟩

section Flows

variable (hsite : calls.site? node = some site) (func : Expr)
include hsite

theorem mem_ownFlows_direct (hkind : site.kind = .direct) :
    .call (s.callOf node args (.static site.targets.toList)) ∈
      s.ownFlows calls (.call node func args) := by
  cases func with
  | attr | literal | name | binOp | boolOp | unaryOp | compare | subscript | call | collection
  | unsupported =>
      simp only [ownFlows, callFlows, hsite, hkind]
      exact List.mem_cons_self

theorem mem_ownFlows_construct {className : String} (hkind : site.kind = .construct className) :
    .call (s.callOf node args (.construct (s.creation node (.ofClass className))
      site.targets.toList.head?)) ∈ s.ownFlows calls (.call node func args) := by
  cases func with
  | attr | literal | name | binOp | boolOp | unaryOp | compare | subscript | call | collection
  | unsupported =>
      simp only [ownFlows, callFlows, hsite, hkind]
      exact List.mem_cons_self

omit func in
theorem mem_ownFlows_virtual {id : Nat} {value : Expr} {method method' : String} {receiver : Nat}
    (hkind : site.kind = .virtual method receiver) :
    .call (s.callOf node args (.dispatch method (s.value value.id))) ∈
      s.ownFlows calls (.call node (.attr id value method') args) := by
  simp only [ownFlows, callFlows, hsite, hkind]
  exact List.mem_append_right _ List.mem_cons_self

end Flows

end Frame

theorem FunctionInfo.Evaluates.mem_exprs {ix : ProgramIndex} {i : Nat} {f : FunctionInfo}
    {part : Expr} (h : f.Evaluates part) (hf : ix.function? i = some f) : (i, part) ∈ ix.exprs := by
  obtain ⟨stmt, hstmt, own, hown, hpart⟩ := h
  exact ProgramIndex.mem_exprs hf hstmt hown hpart.mem_walk

namespace FlowProgram

variable {P : FlowProgram} {f : Nat} {κ : List Nat} {made : Creation}

/-- A place that is no variable refers to objects through flows of functions that are reached. -/
theorem exists_flow_of_refers {place : Place} (hd : P.Derives (.refers place made)) :
    (∃ t κ x, place = .named t κ x) ∨ ∃ f κ flow, P.Derives (.reached f κ) ∧
      flow ∈ P.flows f κ ∧ flow.dest? = some place := by
  cases hd with
  | alloc hr hflow | copy hr hflow | load hr hflow => exact .inr ⟨_, _, _, hr, hflow, rfl⟩
  | construct hr hflow => exact .inr ⟨_, _, _, hr, hflow, rfl⟩
  | receiver | arg => exact .inl ⟨_, _, _, rfl⟩
  | result he =>
      cases he with
      | static hr hflow | init hr hflow | dispatch hr hflow =>
          exact .inr ⟨_, _, _, hr, hflow, rfl⟩

theorem var_ne_value (s : Frame) (x : String) (node : Nat) (κ : List Nat) :
    s.var x ≠ .value node κ := by
  unfold Frame.var
  split <;> exact nofun

theorem var_ne_result (s : Frame) (x : String) (f : Nat) (κ : List Nat) :
    s.var x ≠ .result f κ := by
  unfold Frame.var
  split <;> exact nofun

/-- An expression is found to be an object only if its function evaluates it, and only in the
contexts of that function. -/
theorem evaluates_of_refers_value (hids : P.index.nodeIds.Nodup) {info : FunctionInfo}
    (hf : P.index.function? f = some info) {part : Expr} (hpart : (f, part) ∈ P.index.exprs)
    (hd : P.Derives (.refers (.value part.id κ) made)) :
    info.Evaluates part ∧ P.Derives (.reached f κ) := by
  rcases exists_flow_of_refers hd with ⟨_, _, _, heq⟩ | ⟨f', κ', flow, hr, hflow, hdest⟩
  · cases heq
  · rcases exists_of_dest? hflow hdest with ⟨info', part', hf', hpart', heq⟩ | ⟨x, heq⟩ | heq
    · obtain ⟨hid, rfl⟩ := Place.value.inj heq
      have hsame := List.inj_on_of_nodup_map
        ((ProgramIndex.exprs_sublist P.index).nodup hids) hpart (hpart'.mem_exprs hf') hid
      cases hsame
      cases hf.symm.trans hf'
      exact ⟨hpart', hr⟩
    · exact absurd heq.symm (var_ne_value _ _ _ _)
    · cases heq

/-- Only in the contexts of a function is its result found to be an object. -/
theorem reached_of_refers_result (hd : P.Derives (.refers (.result f κ) made)) :
    P.Derives (.reached f κ) := by
  rcases exists_flow_of_refers hd with ⟨_, _, _, heq⟩ | ⟨f', κ', flow, hr, hflow, hdest⟩
  · cases heq
  · rcases exists_of_dest? hflow hdest with ⟨_, _, _, _, heq⟩ | ⟨x, heq⟩ | heq
    · cases heq
    · exact absurd heq.symm (var_ne_result _ _ _ _)
    · cases heq
      exact hr

/-- With contexts no longer than one a function has only one context. -/
theorem eq_root_of_reached (hdepth : P.depth ≤ 1) (hd : P.Derives (.reached f κ)) :
    κ = P.root f := by
  cases hd with
  | root => rfl
  | reach => exact ContextTable.limit_append_of_le_one hdepth _ f

section Final

variable {s : PointerSearch} {origins : Origins} (hlocated : P.Located origins)
  (h : P.Tracks origins s) (hend : s.Ends P.index P.classes P.calls)
include hlocated h hend

/-- The functions and contexts that a search has reached are those that can be derived. -/
theorem mem_reached_iff {c : Nat} : (f, c) ∈ (s.step P.index P.classes P.calls).reached ↔
    ∃ κ, (s.step P.index P.classes P.calls).contexts.paths[c]? = some κ ∧
      P.Derives (.reached f κ) := by
  have hstep := h.step hlocated
  constructor
  · intro hr
    exact hstep.reachable _ (.inl hr)
  · rintro ⟨κ, hκ, hd⟩
    obtain ⟨c', hκ', hr⟩ := found_of_derives (h.closed hlocated hend) hd
    rwa [hstep.contexts.injective hκ hκ']

/-- A call that has been entered in a context has given the function its arguments. -/
theorem enters_of_entered {c node skip t inner : Nat} {args : List Expr} {target : FlowTarget}
    {call : PointerCall} {receiver : Option Nat}
    (hκ : (s.step P.index P.classes P.calls).contexts.paths[c]? = some κ)
    (hcall : Numbering.SaysCall (P.numbering s) call ((P.frame f κ).callOf node args target))
    (hentered : P.Entered ((s.discover P.index P.calls).pass P.index P.classes) call receiver skip t
      inner) :
    (s.step P.index P.classes P.calls).Enters P.index node args skip t c inner := by
  have hstep := h.step hlocated
  have hvalue (id : Nat) : (P.numbering s).place? (.value id c) = some (.value id κ) :=
    Numbering.place?_value hκ id
  refine ⟨(h.closed hlocated hend).entered hentered.reached, ?_, ?_, ?_⟩
  · rw [ContextTable.path, Array.getD_eq_getD_getElem?, hκ, hstep.contexts.depth_eq]
    exact hentered.path κ hcall.context
  · rintro ⟨e, x⟩ hq o ho
    have hpair : ((P.frame f κ).value e.id, x) ∈ (args.map ((P.frame f κ).value ·.id)).zip
        ((P.index.params t).drop skip) := by
      rw [List.zip_map_left]
      exact List.mem_map_of_mem (f := Prod.map (fun e : Expr => (P.frame f κ).value e.id) id) hq
    obtain ⟨v, hv, hmem⟩ := exists_of_mem_zip hcall.args.flip _ hpair
    cases hstep.proper.place?_injective hv (hvalue e.id)
    exact hentered.args _ hmem o ho
  · intro o ho
    have hresult := hentered.result o ho
    rwa [hstep.proper.place?_injective hcall.result (hvalue node)] at hresult

section Calls

variable {c node t : Nat} {info : FunctionInfo} {func : Expr} {args : List Expr} {site : CallSite}
  (hf : P.index.function? f = some info) (hpart : info.Evaluates (.call node func args))
  (hsite : P.calls.site? node = some site)
include hf hpart hsite

theorem exists_enters_direct (hkind : site.kind = .direct) (ht : t ∈ site.targets)
    (hr : (f, c) ∈ (s.step P.index P.classes P.calls).reached) :
    ∃ inner, (s.step P.index P.classes P.calls).Enters P.index node args 0 t c inner := by
  obtain ⟨κ, hκ, hd⟩ := (mem_reached_iff hlocated h hend).1 hr
  have hclosed := h.closed hlocated hend
  obtain ⟨call, hcon, hcall⟩ := hclosed.exists_call (found_of_derives hclosed hd)
    (mem_flows_of_evaluates hf hpart (Frame.mem_ownFlows_direct hsite func hkind))
  have hran := hclosed.ran call hcon
  have htarget := hcall.target
  unfold Ran at hran
  generalize call.target = target at htarget hran
  cases htarget with
  | static =>
      obtain ⟨inner, hentered⟩ := hran t ht
      exact ⟨inner, enters_of_entered hlocated h hend hκ hcall hentered⟩

theorem exists_enters_construct {className : String} (hkind : site.kind = .construct className)
    (ht : site.targets.toList.head? = some t)
    (hr : (f, c) ∈ (s.step P.index P.classes P.calls).reached) :
    ∃ inner, (s.step P.index P.classes P.calls).Enters P.index node args 1 t c inner := by
  obtain ⟨κ, hκ, hd⟩ := (mem_reached_iff hlocated h hend).1 hr
  have hclosed := h.closed hlocated hend
  obtain ⟨call, hcon, hcall⟩ := hclosed.exists_call (found_of_derives hclosed hd)
    (mem_flows_of_evaluates hf hpart (Frame.mem_ownFlows_construct hsite func hkind))
  have hran := hclosed.ran call hcon
  have htarget := hcall.target
  unfold Ran at hran
  generalize call.target = target at htarget hran
  cases htarget with
  | construct =>
      obtain ⟨inner, hentered⟩ := hran.2 t ht
      exact ⟨inner, enters_of_entered hlocated h hend hκ hcall hentered⟩

end Calls

theorem exists_enters_virtual {c node t receiver id : Nat} {info : FunctionInfo} {value : Expr}
    {args : List Expr} {site : CallSite} {method method' : String}
    (hf : P.index.function? f = some info)
    (hpart : info.Evaluates (.call node (.attr id value method') args))
    (hsite : P.calls.site? node = some site) (hkind : site.kind = .virtual method receiver)
    (hr : (f, c) ∈ (s.step P.index P.classes P.calls).reached)
    (ht : (s.step P.index P.classes P.calls).Dispatches P.index P.classes method value.id t c) :
    ∃ inner, (s.step P.index P.classes P.calls).Enters P.index node args 1 t c inner := by
  obtain ⟨κ, hκ, hd⟩ := (mem_reached_iff hlocated h hend).1 hr
  have hclosed := h.closed hlocated hend
  obtain ⟨call, hcon, hcall⟩ := hclosed.exists_call (found_of_derives hclosed hd)
    (mem_flows_of_evaluates hf hpart (Frame.mem_ownFlows_virtual hsite hkind))
  have hran := hclosed.ran call hcon
  have htarget := hcall.target
  obtain ⟨o, ho, hmethod⟩ := ht
  unfold Ran at hran
  generalize call.target = target at htarget hran
  cases htarget with
  | dispatch _ hv =>
      cases hclosed.proper.place?_injective hv (Numbering.place?_value hκ value.id)
      obtain ⟨-, inner, hentered⟩ := hran o ho t hmethod
      exact ⟨inner, enters_of_entered hlocated h hend hκ hcall hentered⟩

/-- An expression is found to be an object only in contexts in which its function is reached. -/
theorem mem_reached_of_mem_value (hids : P.index.nodeIds.Nodup) {info : FunctionInfo}
    (hf : P.index.function? f = some info) {part : Expr} (hpart : info.Evaluates part) {c o : Nat}
    (ho : o ∈ (s.step P.index P.classes P.calls).facts.objects (.value part.id c)) :
    (f, c) ∈ (s.step P.index P.classes P.calls).reached := by
  obtain ⟨place, made, hplace, -, hd⟩ := (h.step hlocated).facts.var ho
  obtain ⟨κ, hκ, rfl⟩ := Option.map_eq_some_iff.1 hplace
  exact (mem_reached_iff hlocated h hend).2
    ⟨κ, hκ, (evaluates_of_refers_value hids hf (hpart.mem_exprs hf) hd).2⟩

theorem mem_reached_of_mem_result {c o : Nat}
    (ho : o ∈ (s.step P.index P.classes P.calls).facts.objects (.result f c)) :
    (f, c) ∈ (s.step P.index P.classes P.calls).reached := by
  obtain ⟨place, made, hplace, -, hd⟩ := (h.step hlocated).facts.var ho
  obtain ⟨κ, hκ, rfl⟩ := Option.map_eq_some_iff.1 hplace
  exact (mem_reached_iff hlocated h hend).2 ⟨κ, hκ, reached_of_refers_result hd⟩

theorem exists_mem_reached (hf : f < P.index.functions.size) :
    ∃ c, (f, c) ∈ (s.step P.index P.classes P.calls).reached := by
  obtain ⟨c, -, hr⟩ := found_of_derives (h.closed hlocated hend) (.root hf)
  exact ⟨c, hr⟩

/-- With contexts no longer than one a function is reached in only one. -/
theorem eq_of_mem_reached (hdepth : P.depth ≤ 1) {c c' : Nat}
    (hc : (f, c) ∈ (s.step P.index P.classes P.calls).reached)
    (hc' : (f, c') ∈ (s.step P.index P.classes P.calls).reached) : c = c' := by
  obtain ⟨κ, hκ, hd⟩ := (mem_reached_iff hlocated h hend).1 hc
  obtain ⟨κ', hκ', hd'⟩ := (mem_reached_iff hlocated h hend).1 hc'
  rw [eq_root_of_reached hdepth hd] at hκ
  rw [eq_root_of_reached hdepth hd'] at hκ'
  exact (h.step hlocated).contexts.injective hκ hκ'

end Final

end FlowProgram

namespace CallGraph

variable {ix : ProgramIndex} {classes : ClassTable} {func : Expr}

/-- Only attributes are called as methods of unknown receivers. -/
theorem exists_of_classify_virtual {method : String} {receiver : Nat}
    (h : (classify ix classes func).1 = .virtual method receiver) :
    ∃ id value, func = .attr id value method ∧ receiver = value.id := by
  unfold classify at h
  split at h
  · split at h
    · cases h
    · split at h <;> cases h
  · next id value method' =>
      split at h
      · split at h <;> cases h
      · cases h
        exact ⟨id, value, rfl, rfl⟩
  · cases h

/-- What is called by an unknown name has no target. -/
theorem snd_classify_of_unknown {callee : Option String}
    (h : (classify ix classes func).1 = .unknown callee) : (classify ix classes func).2 = none := by
  unfold classify at h ⊢
  split at h
  · split at h
    · cases h
    · split at h
      · cases h
      · next hclass _ hfree => simp only [hclass, if_false, Bool.false_eq_true]
  · split at h
    · next hname =>
      split at h
      · cases h
      · rfl
    · cases h
  · rfl

variable {caller node t : Nat}

theorem snd_classify_of_mem (ht : t ∈ (siteOf ix classes caller node func).targets) :
    (classify ix classes func).2 = some t := Option.mem_toList.1 (SortedSet.mem_ofList.1 ht)

/-- Before references are known a call has at most one target. -/
theorem head?_targets_siteOf (ht : t ∈ (siteOf ix classes caller node func).targets) :
    (siteOf ix classes caller node func).targets.toList.head? = some t := by
  have htargets : (siteOf ix classes caller node func).targets =
      .ofList (classify ix classes func).2.toList := rfl
  rw [htargets, snd_classify_of_mem ht]
  rfl

end CallGraph

namespace FlowProgram

variable {P : FlowProgram} {s : PointerSearch} {origins : Origins} {f : Nat}
  {info : FunctionInfo} {node t skip : Nat} {args : List Expr} {stats : PointsToStats}

section Together

variable (hlocated : P.Located origins) (h : P.Tracks origins s)
  (hend : s.Ends P.index P.classes P.calls)
include hlocated h hend

variable (node) in
/-- Arguments that are bound in all contexts are bound in all contexts together. -/
theorem binds_collapse (hids : P.index.nodeIds.Nodup) (hf : P.index.function? f = some info)
    (hargs : ∀ e ∈ args, info.Evaluates e)
    (henters : ∀ c, (f, c) ∈ (s.step P.index P.classes P.calls).reached →
      ∃ inner, (s.step P.index P.classes P.calls).Enters P.index node args skip t c inner) :
    (PointsTo.collapse (s.step P.index P.classes P.calls).facts
      (s.step P.index P.classes P.calls).generated.objects stats).Binds P.index args skip t := by
  rintro ⟨e, x⟩ hq o ho
  obtain ⟨c, ho⟩ := PointsTo.mem_ofNode_collapse.1 ho
  obtain ⟨inner, hinner⟩ := henters c (mem_reached_of_mem_value hlocated h hend hids hf
    (hargs e (List.of_mem_zip hq).1) ho)
  exact PointsTo.mem_ofVar_collapse.2 ⟨inner, hinner.args _ hq o ho⟩

/-- What is returned in the only context is returned in all contexts together. -/
theorem returns_collapse (hdepth : P.depth ≤ 1) {c inner : Nat}
    (henters : (s.step P.index P.classes P.calls).Enters P.index node args skip t c inner) :
    (PointsTo.collapse (s.step P.index P.classes P.calls).facts
      (s.step P.index P.classes P.calls).generated.objects stats).Returns t node := by
  intro o ho
  obtain ⟨c', ho⟩ := PointsTo.mem_ofReturn_collapse.1 ho
  have hr := mem_reached_of_mem_result hlocated h hend ho
  rw [eq_of_mem_reached hlocated h hend hdepth hr henters.reached] at ho
  exact PointsTo.mem_ofNode_collapse.2 ⟨c, henters.result o ho⟩

/-- A receiver of which something is known may, in some context, be an object whose method the call
may run. -/
theorem exists_dispatches (hids : P.index.nodeIds.Nodup) (hf : P.index.function? f = some info)
    {value : Expr} (hvalue : info.Evaluates value) {method : String} {g : PointsTo}
    (hg : g = .collapse (s.step P.index P.classes P.calls).facts
      (s.step P.index P.classes P.calls).generated.objects stats)
    (hknown : (g.ofNode value.id).isEmpty = false)
    (ht : t ∈ CallGraph.methodTargets P.classes g method value.id) :
    ∃ c, (f, c) ∈ (s.step P.index P.classes P.calls).reached ∧
      (s.step P.index P.classes P.calls).Dispatches P.index P.classes method value.id t c := by
  obtain ⟨c, o, ho, hmethod⟩ := (PointerSearch.mem_methodTargets_iff P.index hg hknown).1 ht
  exact ⟨c, mem_reached_of_mem_value hlocated h hend hids hf hvalue ho, o, ho, hmethod⟩

end Together

end FlowProgram

namespace Program

/-- Where nodes have different identifiers, the site of a call tells how the call names what it
calls. -/
theorem site?_refine_of_mem {ix : ProgramIndex} (classes : ClassTable) (pointsTo : PointsTo)
    (hids : ix.nodeIds.Nodup) {i node : Nat} {f : FunctionInfo} {stmt : Stmt} {func : Expr}
    {args : List Expr} (hf : ix.function? i = some f)
    (hcall : (stmt, .call node func args) ∈ walkExprs f.body) :
    (CallGraph.build ix classes).site? node = some (CallGraph.siteOf ix classes i node func) ∧
      ((CallGraph.build ix classes).refine classes pointsTo).site? node =
        some ((CallGraph.siteOf ix classes i node func).refine classes pointsTo) := by
  have hsite : (CallGraph.build ix classes).site? node =
      some (CallGraph.siteOf ix classes i node func) :=
    CallGraph.site?_build ((CallGraph.nodes_allSites ix classes).nodup hids)
      (CallGraph.mem_allSites.2 ⟨i, f, stmt, node, func, args, hf, hcall, rfl⟩)
  refine ⟨hsite, ?_⟩
  rw [CallGraph.site?_refine fun _ _ h => (CallGraph.mem_allSites_of_site? h).2, hsite,
    Option.map_some]

/-- So for the calls that a function evaluates. -/
theorem site?_refine_build {ix : ProgramIndex} (classes : ClassTable) (pointsTo : PointsTo)
    (hids : ix.nodeIds.Nodup) {i node : Nat} {f : FunctionInfo} {func : Expr} {args : List Expr}
    (hf : ix.function? i = some f) (hcall : f.Evaluates (.call node func args)) :
    (CallGraph.build ix classes).site? node = some (CallGraph.siteOf ix classes i node func) ∧
      ((CallGraph.build ix classes).refine classes pointsTo).site? node =
        some ((CallGraph.siteOf ix classes i node func).refine classes pointsTo) := by
  obtain ⟨stmt, hstmt, e, he, hcall⟩ := hcall
  exact site?_refine_of_mem classes pointsTo hids hf
    (mem_walkExprs.2 ⟨hstmt, Expr.walk_subset_walkAll he hcall.mem_walk⟩)

/-- What calls bind. A call of a known function binds its arguments in all contexts together, and
its result in each context. A call of a method does so in each context of its caller in which the
receiver may be an object with the method. With contexts no longer than one, both are bound in all
contexts together. -/
theorem analyze_binds (p : Program) (hids : (ProgramIndex.build p).nodeIds.Nodup) (depth : Nat) :
    let ix := ProgramIndex.build p
    let classes := ClassTable.build ix
    let known := CallGraph.build ix classes
    let last := PointerSearch.run ix classes known depth
    let g := PointsTo.analyze ix classes known depth
    ∀ i f, ix.function? i = some f → ∀ node func args, f.Evaluates (.call node func args) →
    ∀ site, (known.refine classes g).site? node = some site → ∀ t ∈ site.targets,
      match site.kind with
      | .direct => g.Binds ix args 0 t ∧ (depth ≤ 1 → g.Returns t node) ∧
          ∀ c, (i, c) ∈ last.reached → ∃ inner, last.Enters ix node args 0 t c inner
      | .construct _ => g.Binds ix args 1 t ∧
          ∀ c, (i, c) ∈ last.reached → ∃ inner, last.Enters ix node args 1 t c inner
      | .virtual method receiver => (g.ofNode receiver).isEmpty = false →
          (depth ≤ 1 → g.Binds ix args 1 t ∧ g.Returns t node) ∧
          (∃ c, (i, c) ∈ last.reached ∧ last.Dispatches ix classes method receiver t c) ∧
          ∀ c, (i, c) ∈ last.reached → last.Dispatches ix classes method receiver t c →
            ∃ inner, last.Enters ix node args 1 t c inner
      | .unknown _ => False := by
  intro ix classes known last g i f hf node func args hcall site hsite t ht
  obtain ⟨n, hends, hrun, htracks, -⟩ := p.run_spec hids depth
  rw [Function.iterate_succ_apply'] at hrun
  have hlocated := FlowProgram.located_of_nodup (P := p.flowProgram depth) hids
  obtain ⟨stats, hg⟩ : ∃ stats, g = .collapse last.facts last.generated.objects stats := ⟨_, rfl⟩
  obtain ⟨hknown, hrefined⟩ := site?_refine_build classes g hids hf hcall
  rw [hrefined] at hsite
  cases hsite
  rw [CallSite.kind_refine]
  have hlast : last = PointerSearch.step _ _ _ _ := hrun
  clear_value last g
  subst hlast
  have hargs : ∀ e ∈ args, f.Evaluates e := fun e he =>
    hcall.operand (Expr.mem_operands_of_mem_args he)
  unfold CallSite.refine at ht
  cases hkind : (CallGraph.siteOf ix classes i node func).kind with
  | direct =>
      rw [hkind] at ht
      have henters := fun c => FlowProgram.exists_enters_direct (c := c) hlocated htracks hends.2 hf
        hcall hknown hkind ht
      obtain ⟨c, hc⟩ := FlowProgram.exists_mem_reached hlocated htracks hends.2
        (Array.getElem?_eq_some_iff.1 hf).1
      obtain ⟨inner, hinner⟩ := henters c hc
      refine ⟨?_, fun hdepth => ?_, henters⟩
      · rw [hg]
        exact FlowProgram.binds_collapse node hlocated htracks hends.2 hids hf hargs henters
      · rw [hg]
        exact FlowProgram.returns_collapse hlocated htracks hends.2 hdepth hinner
  | construct className =>
      rw [hkind] at ht
      have henters := fun c => FlowProgram.exists_enters_construct (c := c) hlocated htracks
        hends.2 hf hcall hknown hkind (CallGraph.head?_targets_siteOf ht)
      refine ⟨?_, henters⟩
      rw [hg]
      exact FlowProgram.binds_collapse node hlocated htracks hends.2 hids hf hargs henters
  | virtual method receiver =>
      rw [hkind] at ht
      obtain ⟨id, value, rfl, rfl⟩ := CallGraph.exists_of_classify_virtual hkind
      intro hsome
      have hvalue : f.Evaluates value := hcall.operand List.mem_cons_self
      obtain ⟨c, hc, hdispatches⟩ := FlowProgram.exists_dispatches hlocated htracks hends.2 hids hf
        hvalue hg hsome ht
      have henters := fun c => FlowProgram.exists_enters_virtual (c := c) (t := t) hlocated htracks
        hends.2 hf hcall hknown hkind
      refine ⟨fun hdepth => ?_, ⟨c, hc, hdispatches⟩, henters⟩
      have hentered := henters c hc hdispatches
      rw [hg]
      constructor
      · refine FlowProgram.binds_collapse node hlocated htracks hends.2 hids hf hargs
          fun c' hc' => ?_
        cases FlowProgram.eq_of_mem_reached hlocated htracks hends.2 hdepth hc hc'
        exact hentered
      · obtain ⟨inner, hinner⟩ := hentered
        exact FlowProgram.returns_collapse hlocated htracks hends.2 hdepth hinner
  | unknown callee =>
      rw [hkind] at ht
      cases (CallGraph.snd_classify_of_unknown hkind).symm.trans (CallGraph.snd_classify_of_mem ht)

/-- A program that calls a method on one object from one function and on none from another: what
the second passes never reaches the method. -/
def sharedCaller : Program where
  body :=
    [.classDef 1 2 "A" [] [.functionDef 3 4 "m" ["self", "v"] [.ret 5 (some (.name 6 "v"))]],
      .functionDef 7 8 "use" ["r", "a"]
        [.ret 9 (some (.call 10 (.attr 11 (.name 12 "r") "m") [.name 13 "a"]))],
      .functionDef 14 15 "f" []
        [.expr 16 (.call 17 (.name 18 "use") [.call 19 (.name 20 "A") [], .literal 21 (.int 1)])],
      .functionDef 22 23 "g" []
        [.expr 24 (.call 25 (.name 26 "use") [.literal 27 (.int 1), .collection 28 .list []])]]

set_option maxRecDepth 10000 in
/-- The method call of the shared caller is bound in the one context in which its receiver has the
method. -/
theorem analyze_binds_sharedCaller :
    let ix := ProgramIndex.build sharedCaller
    let classes := ClassTable.build ix
    let last := PointerSearch.run ix classes (.build ix classes) 2
    ix.nodeIds.Nodup ∧ ∃ c, (2, c) ∈ last.reached ∧ last.Dispatches ix classes "m" 12 1 c ∧
      ∃ inner, last.Enters ix 10 [.name 13 "a"] 1 1 c inner := by
  have hids : (ProgramIndex.build sharedCaller).nodeIds.Nodup := by decide
  obtain ⟨f, hf, hcall⟩ : ∃ f, (ProgramIndex.build sharedCaller).function? 2 = some f ∧
      f.Evaluates (.call 10 (.attr 11 (.name 12 "r") "m") [.name 13 "a"]) :=
    ⟨_, rfl, .ret 9 (some _), List.mem_cons_self, _, List.mem_cons_self, .self _⟩
  have hbinds := analyze_binds sharedCaller hids 2 2 f hf 10 _ _ hcall _
    (site?_refine_build _ _ hids hf hcall).2 1 (SortedSet.contains_iff.1 (by decide +kernel))
  have hkind : (CallGraph.siteOf (.build sharedCaller) (.build (.build sharedCaller)) 2 10
      (.attr 11 (.name 12 "r") "m")).kind = .virtual "m" 12 := by decide +kernel
  rw [CallSite.kind_refine, hkind] at hbinds
  obtain ⟨-, ⟨c, hc, hd⟩, henters⟩ := hbinds (by decide +kernel)
  exact ⟨hids, c, hc, hd, henters c hc hd⟩

/-- Whether every call binds its arguments and its result in all contexts together. -/
def BindsAll (p : Program) (depth : Nat) : Prop :=
  let ix := ProgramIndex.build p
  let classes := ClassTable.build ix
  let known := CallGraph.build ix classes
  let g := PointsTo.analyze ix classes known depth
  ∀ i f, ix.function? i = some f → ∀ stmt node func args,
    (stmt, Expr.call node func args) ∈ walkExprs f.body →
    ∀ site, (known.refine classes g).site? node = some site → ∀ t ∈ site.targets,
      g.Binds ix args (if site.kind = .direct then 0 else 1) t ∧
        ((∀ className, site.kind ≠ .construct className) → g.Returns t node)

/-- A program that calls a method on a receiver of which nothing is known. -/
def unknownReceiver : Program where
  body :=
    [.classDef 1 2 "A" [] [.functionDef 3 4 "m" ["self", "v"] [.ret 5 (some (.name 6 "v"))]],
      .functionDef 7 8 "use" ["p"]
        [.expr 9 (.call 10 (.attr 11 (.name 12 "p") "m") [.collection 13 .list []])]]

/-- A program that calls what a call of a known function returns. -/
def calledResult : Program where
  body :=
    [.functionDef 1 2 "make" [] [.ret 3 (some (.collection 4 .list []))],
      .expr 5 (.call 6 (.call 7 (.name 8 "make") []) [])]

set_option maxRecDepth 10000 in
/-- What a function returns in one context is no result of a call in another, arguments go only
where the receiver of their context leads, and neither calls of unknown receivers nor calls that are
called themselves bind anything. -/
theorem not_bindsAll :
    ((ProgramIndex.build twoCallers).nodeIds.Nodup ∧ ¬twoCallers.BindsAll 2) ∧
    ((ProgramIndex.build sharedCaller).nodeIds.Nodup ∧ ¬sharedCaller.BindsAll 2) ∧
    ((ProgramIndex.build unknownReceiver).nodeIds.Nodup ∧ ¬unknownReceiver.BindsAll 1) ∧
    (ProgramIndex.build calledResult).nodeIds.Nodup ∧ ¬calledResult.BindsAll 1 := by
  refine ⟨⟨by decide, fun h => ?_⟩, ⟨by decide, fun h => ?_⟩, ⟨by decide, fun h => ?_⟩, by decide,
    fun h => ?_⟩
  · obtain ⟨-, hreturns⟩ := h 2 _ rfl _ 8 _ _ List.mem_cons_self _ rfl 1
      (SortedSet.contains_iff.1 (by decide +kernel))
    have hlist := hreturns nofun 0 (SortedSet.contains_iff.1 (by decide +kernel))
    exact absurd (SortedSet.contains_iff.2 hlist) (by decide +kernel)
  · obtain ⟨hbinds, -⟩ := h 2 _ rfl _ 10 _ _ List.mem_cons_self _ rfl 1
      (SortedSet.contains_iff.1 (by decide +kernel))
    have hlist := hbinds (.name 13 "a", "v") List.mem_cons_self 1
      (SortedSet.contains_iff.1 (by decide +kernel))
    exact absurd (SortedSet.contains_iff.2 hlist) (by decide +kernel)
  · obtain ⟨hbinds, -⟩ := h 2 _ rfl _ 10 _ _ List.mem_cons_self _ rfl 1
      (SortedSet.contains_iff.1 (by decide +kernel))
    have hlist := hbinds (.collection 13 .list [], "v") List.mem_cons_self 0
      (SortedSet.contains_iff.1 (by decide +kernel))
    exact absurd (SortedSet.contains_iff.2 hlist) (by decide +kernel)
  · obtain ⟨-, hreturns⟩ := h 0 _ rfl _ 7 _ _ (List.mem_cons_of_mem _ List.mem_cons_self) _ rfl 1
      (SortedSet.contains_iff.1 (by decide +kernel))
    have hlist := hreturns nofun 0 (SortedSet.contains_iff.1 (by decide +kernel))
    exact absurd (SortedSet.contains_iff.2 hlist) (by decide +kernel)

end Program

end ValueFlow
