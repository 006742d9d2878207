import ValueFlow.Proofs.PointsTo.Numbering
import ValueFlow.Proofs.Trees
/-!
Constraints are generated for just the flows of a function.

Generation adds constraints and objects to those of other functions. Main statement:
`adds_ofBody`, every flow of a body has a constraint that says the same, every new constraint says
the same as a flow, and every new object is created by a flow.
-/

namespace ValueFlow

/-- The kind of object that an expression creates. -/
def Expr.creates? (calls : CallGraph) : Expr → Option ObjectKind
  | .collection _ kind _ => some (.collection kind)
  | .call node _ _ =>
      match (calls.site? node).map CallSite.kind with
      | some (.construct className) => some (.ofClass className)
      | _ => none
  | _ => none

/-- The function and the kind of object that belong to an allocating expression. -/
abbrev Origins := Nat → Option (Nat × ObjectKind)

/-- Whether origins know what an expression and its parts create. -/
def Expr.ArisesIn (calls : CallGraph) (origins : Origins) (function : Nat) (e : Expr) : Prop :=
  ∀ part ∈ e.walk, ∀ kind, part.creates? calls = some kind →
    origins part.id = some (function, kind)

theorem Expr.ArisesIn.of_subset {calls : CallGraph} {origins : Origins} {function : Nat}
    {e part : Expr} (h : e.ArisesIn calls origins function) (hpart : part.walk ⊆ e.walk) :
    part.ArisesIn calls origins function := fun a ha => h a (hpart ha)

/-- Whether a scope in numbers is a function on a call path. -/
structure PointerScope.Means (t : ContextTable) (s : PointerScope) (frame : Frame) : Prop where
  function : s.function = frame.function
  context : t.paths[s.context]? = some frame.context
  moduleContext : t.paths[s.moduleContext]? = some frame.moduleContext
  bound : s.bound = frame.bound

namespace PointerScope.Means

variable {t : ContextTable} {s : PointerScope} {frame : Frame} (h : s.Means t frame)
include h

theorem place?_var (objects : Array HeapObject) (name : String) :
    Numbering.place? ⟨t, objects⟩ (s.var name) = some (frame.var name) := by
  unfold PointerScope.var Frame.var
  rw [h.function, h.bound]
  split
  · exact Numbering.place?_named h.context _ _
  · exact Numbering.place?_named h.moduleContext _ _

theorem place?_value (objects : Array HeapObject) (node : Nat) :
    Numbering.place? ⟨t, objects⟩ (s.value node) = some (frame.value node) :=
  Numbering.place?_value h.context node

theorem place?_result (objects : Array HeapObject) :
    Numbering.place? ⟨t, objects⟩ (.result s.function s.context) =
      some (.result frame.function frame.context) := by
  rw [h.function]
  exact Numbering.place?_result h.context _

theorem place?_values (objects : Array HeapObject) (l : List Expr) :
    List.Forall₂ (fun v place => Numbering.place? ⟨t, objects⟩ v = some place)
      (l.map (s.value ·.id)) (l.map (frame.value ·.id)) := by
  induction l with
  | nil => exact .nil
  | cons e rest ih => exact .cons (h.place?_value objects e.id) ih

end PointerScope.Means

namespace ElementFlow

variable {N : Numbering} {receiver result : PointerVar} {args : List PointerVar} {r o : Place}
  {as : List Place}

theorem getElem?_of_forall₂ (hargs : List.Forall₂ (fun v place => N.place? v = some place) args as)
    (k : Nat) : (args[k]? = none ∧ as[k]? = none) ∨
      ∃ v place, args[k]? = some v ∧ as[k]? = some place ∧ N.place? v = some place := by
  induction hargs generalizing k with
  | nil => exact .inl ⟨rfl, rfl⟩
  | cons hv _ ih =>
      cases k with
      | zero => exact .inr ⟨_, _, rfl, rfl, hv⟩
      | succ k => simpa using ih k

/-- The constraints of a movement of elements say the same as its flows. -/
theorem says_constraints (hreceiver : N.place? receiver = some r)
    (hargs : List.Forall₂ (fun v place => N.place? v = some place) args as)
    (hresult : N.place? result = some o) (m : ElementFlow) :
    List.Forall₂ N.Says (m.constraints receiver args result) (m.flows r as o) := by
  have stored (k : Nat) : List.Forall₂ N.Says
      ((args[k]?).map (Constraint.store receiver .elements ·)).toList
      ((as[k]?).map (Flow.store r .elements ·)).toList := by
    rcases getElem?_of_forall₂ hargs k with ⟨hv, hp⟩ | ⟨v, place, hv, hp, hplace⟩
    · rw [hv, hp]
      exact .nil
    · rw [hv, hp]
      exact .cons (.store hreceiver .elements hplace) .nil
  cases m with
  | storing position => exact stored position
  | extending =>
      cases hargs with
      | nil => exact .nil
      | cons hv _ =>
          exact .cons (.load hv .elements hresult) (.cons (.store hreceiver .elements hresult) .nil)
  | loading fallback =>
      refine .cons (.load hreceiver .elements hresult) ?_
      cases fallback with
      | none => exact .nil
      | some k =>
          have hk := stored k
          rw [Option.toList_map, Option.toList_map] at hk
          exact hk

end ElementFlow

namespace Generated

variable {t : ContextTable} {origins : Origins} {g g' g'' : Generated} {flows flows' : List Flow}

/-- Whether the objects generated so far are numbered by position, each known by its site and
context, and created where origins say. -/
structure Orderly (origins : Origins) (g : Generated) : Prop where
  id : ∀ ⦃i : Nat⦄ ⦃o : HeapObject⦄, g.objects[i]? = some o → o.id = i
  apart : ∀ ⦃i j : Nat⦄ ⦃a b : HeapObject⦄, g.objects[i]? = some a → g.objects[j]? = some b →
    a.site = b.site → a.context = b.context → i = j
  origin : ∀ ⦃i : Nat⦄ ⦃o : HeapObject⦄, g.objects[i]? = some o →
    origins o.site = some (o.function, o.kind)

theorem orderly_empty : empty.Orderly origins where
  id _ _ h := by simp [empty] at h
  apart _ _ _ _ h := by simp [empty] at h
  origin _ _ h := by simp [empty] at h

/-- Whether generation went from one state to another by adding constraints for some flows. -/
structure Adds (t : ContextTable) (origins : Origins) (g g' : Generated) (flows : List Flow) :
    Prop where
  orderly : g'.Orderly origins
  objects : ∀ ⦃i : Nat⦄ ⦃o : HeapObject⦄, g.objects[i]? = some o → g'.objects[i]? = some o
  kept : g.constraints ⊆ g'.constraints
  made : ∀ flow ∈ flows, ∃ c ∈ g'.constraints, Numbering.Says ⟨t, g'.objects⟩ c flow
  only : ∀ c ∈ g'.constraints, c ∈ g.constraints ∨
    ∃ flow ∈ flows, Numbering.Says ⟨t, g'.objects⟩ c flow
  created : ∀ ⦃i : Nat⦄ ⦃o : HeapObject⦄, g'.objects[i]? = some o → g.objects[i]? = some o ∨
    ∃ flow ∈ flows, ∃ made, flow.creation? = some made ∧
      Numbering.creation? ⟨t, g'.objects⟩ i = some made

theorem Adds.extends (h : Adds t origins g g' flows) :
    Numbering.Extends ⟨t, g.objects⟩ ⟨t, g'.objects⟩ := ⟨.refl t, h.objects⟩

theorem Adds.refl (h : g.Orderly origins) : Adds t origins g g [] where
  orderly := h
  objects _ _ ho := ho
  kept := List.Subset.refl _
  made _ hflow := nomatch hflow
  only _ hc := .inl hc
  created _ _ ho := .inl ho

theorem Adds.trans (h : Adds t origins g g' flows) (h' : Adds t origins g' g'' flows') :
    Adds t origins g g'' (flows ++ flows') where
  orderly := h'.orderly
  objects _ _ ho := h'.objects (h.objects ho)
  kept := List.Subset.trans h.kept h'.kept
  made := by
    intro flow hflow
    rcases List.mem_append.1 hflow with hflow | hflow
    · obtain ⟨c, hc, hmeans⟩ := h.made flow hflow
      exact ⟨c, h'.kept hc, h'.extends.saysFlow hmeans⟩
    · exact h'.made flow hflow
  only := by
    intro c hc
    rcases h'.only c hc with hc | ⟨flow, hflow, hmeans⟩
    · rcases h.only c hc with hc | ⟨flow, hflow, hmeans⟩
      · exact .inl hc
      · exact .inr ⟨flow, List.mem_append_left _ hflow, h'.extends.saysFlow hmeans⟩
    · exact .inr ⟨flow, List.mem_append_right _ hflow, hmeans⟩
  created := by
    intro i o ho
    rcases h'.created ho with ho | ⟨flow, hflow, made, hmade, hi⟩
    · rcases h.created ho with ho | ⟨flow, hflow, made, hmade, hi⟩
      · exact .inl ho
      · exact .inr ⟨flow, List.mem_append_left _ hflow, made, hmade, h'.extends.creation? hi⟩
    · exact .inr ⟨flow, List.mem_append_right _ hflow, made, hmade, hi⟩

theorem adds_emit (h : g.Orderly origins) {c : Constraint} {flow : Flow}
    (hmeans : Numbering.Says ⟨t, g.objects⟩ c flow) : Adds t origins g (g.emit c) [flow] where
  orderly := ⟨h.id, h.apart, h.origin⟩
  objects _ _ ho := ho
  kept := List.subset_cons_self _ _
  made := by
    intro d hd
    rw [List.mem_singleton.1 hd]
    exact ⟨c, List.mem_cons_self, hmeans⟩
  only := by
    intro d hd
    rcases List.mem_cons.1 hd with rfl | hd
    · exact .inr ⟨flow, List.mem_cons_self, hmeans⟩
    · exact .inl hd
  created _ _ ho := .inl ho

theorem adds_emitAll (h : g.Orderly origins) {objects : Array HeapObject}
    (hobjects : g.objects = objects) {cs : List Constraint}
    (hmeans : List.Forall₂ (Numbering.Says ⟨t, objects⟩) cs flows) :
    Adds t origins g (cs.foldl emit g) flows := by
  induction hmeans generalizing g with
  | nil => exact .refl h
  | cons hfirst _ ih =>
      have hemit := adds_emit h (hobjects.symm ▸ hfirst)
      exact hemit.trans (ih hemit.orderly hobjects)

section Scope

variable {calls : CallGraph} {s : PointerScope} {frame : Frame} (hs : s.Means t frame)
include hs

/-- Allocation finds or makes the one object of a site and a context. -/
theorem orderly_allocate (h : g.Orderly origins) {site : Nat} {kind : ObjectKind}
    (horigin : origins site = some (frame.function, kind)) :
    (g.allocate s site kind).2.Orderly origins ∧
    (g.allocate s site kind).2.constraints = g.constraints ∧
    (∀ ⦃i : Nat⦄ ⦃o : HeapObject⦄, g.objects[i]? = some o →
      (g.allocate s site kind).2.objects[i]? = some o) ∧
    (∀ ⦃i : Nat⦄ ⦃o : HeapObject⦄, (g.allocate s site kind).2.objects[i]? = some o →
      g.objects[i]? = some o ∨ i = (g.allocate s site kind).1) ∧
    Numbering.creation? ⟨t, (g.allocate s site kind).2.objects⟩ (g.allocate s site kind).1 =
      some (frame.creation site kind) := by
  have hcreation {objects : Array HeapObject} {i : Nat} {o : HeapObject}
      (ho : objects[i]? = some o) (hsite : o.site = site) (hcontext : o.context = s.context)
      (hfunction : o.function = frame.function) (hkind : o.kind = kind) :
      Numbering.creation? ⟨t, objects⟩ i = some (frame.creation site kind) := by
    refine Option.bind_eq_some_iff.2 ⟨o, ho, Option.bind_eq_some_iff.2 ⟨frame.context, ?_, ?_⟩⟩
    · rw [hcontext]
      exact hs.context
    · rw [hsite, hfunction, hkind]
      rfl
  unfold allocate
  cases hfind : g.objects.find? fun o => o.site = site && o.context = s.context with
  | some o =>
      have hfound := Array.find?_some hfind
      rw [Bool.and_eq_true, decide_eq_true_eq, decide_eq_true_eq] at hfound
      obtain ⟨i, hi⟩ := Array.mem_iff_getElem?.1 (Array.mem_of_find?_eq_some hfind)
      have hid := h.id hi
      have horigin' := h.origin hi
      rw [hfound.1, horigin] at horigin'
      obtain ⟨hfunction, hkind⟩ := Prod.mk.inj (Option.some.inj horigin')
      refine ⟨h, rfl, fun _ _ ha => ha, fun _ _ ha => .inl ha, ?_⟩
      have hat : g.objects[o.id]? = some o := by rwa [hid]
      exact hcreation hat hfound.1 hfound.2 hfunction.symm hkind.symm
  | none =>
      have hnew : ∀ ⦃i : Nat⦄ ⦃o : HeapObject⦄, g.objects[i]? = some o → o.site = site →
          o.context ≠ s.context := by
        intro i o ho hsite hcontext
        have hnone := Array.find?_eq_none.1 hfind o (Array.mem_of_getElem? ho)
        simp [hsite, hcontext] at hnone
      have hpush {i : Nat} {o : HeapObject}
          (ho : (g.objects.push ⟨g.objects.size, site, s.context, s.function, kind⟩)[i]? = some o) :
          g.objects[i]? = some o ∨
            i = g.objects.size ∧ o = ⟨g.objects.size, site, s.context, s.function, kind⟩ := by
        rw [Array.getElem?_push] at ho
        split at ho
        · next hi => exact .inr ⟨hi, (Option.some.inj ho).symm⟩
        · exact .inl ho
      have hlast : (g.objects.push ⟨g.objects.size, site, s.context, s.function, kind⟩)[
          g.objects.size]? = some ⟨g.objects.size, site, s.context, s.function, kind⟩ :=
        Array.getElem?_push_size
      refine ⟨⟨?_, ?_, ?_⟩, rfl, ?_, ?_, hcreation hlast rfl rfl hs.function rfl⟩
      · intro i o ho
        rcases hpush ho with ho | ⟨rfl, rfl⟩
        · exact h.id ho
        · rfl
      · intro i j a b ha hb hsite hcontext
        rcases hpush ha with ha | ⟨rfl, rfl⟩
        · rcases hpush hb with hb | ⟨rfl, rfl⟩
          · exact h.apart ha hb hsite hcontext
          · exact absurd hcontext (hnew ha hsite)
        · rcases hpush hb with hb | ⟨rfl, rfl⟩
          · exact absurd hcontext.symm (hnew hb hsite.symm)
          · rfl
      · intro i o ho
        rcases hpush ho with ho | ⟨rfl, rfl⟩
        · exact h.origin ho
        · rw [hs.function]
          exact horigin
      · intro i o ho
        rw [Array.getElem?_push_lt (Array.getElem?_eq_some_iff.1 ho).1]
        exact (Array.getElem?_eq_getElem _).symm.trans ho
      · intro i o ho
        exact (hpush ho).imp_right And.left

/-- A constraint about the object of its own site. -/
theorem adds_allocate (h : g.Orderly origins) {site : Nat} {kind : ObjectKind}
    (horigin : origins site = some (frame.function, kind)) {c : Constraint} {flow : Flow}
    (hflow : flow.creation? = some (frame.creation site kind))
    (hmeans : Numbering.creation? ⟨t, (g.allocate s site kind).2.objects⟩ (g.allocate s site kind).1 =
      some (frame.creation site kind) →
        Numbering.Says ⟨t, (g.allocate s site kind).2.objects⟩ c flow) :
    Adds t origins g ((g.allocate s site kind).2.emit c) [flow] := by
  obtain ⟨horderly, hconstraints, hobjects, hnew, hcreation⟩ := orderly_allocate hs h horigin
  have hemit := adds_emit horderly (hmeans hcreation)
  refine ⟨hemit.orderly, hobjects, ?_, hemit.made, ?_, ?_⟩
  · rw [← hconstraints]
    exact hemit.kept
  · rw [← hconstraints]
    exact hemit.only
  · intro i o ho
    refine (hnew ho).imp_right fun hi => ?_
    exact ⟨flow, List.mem_cons_self, _, hflow, hi ▸ hcreation⟩

variable (calls) in
theorem adds_ofCall (h : g.Orderly origins) {node : Nat}
    (horigin : ∀ site className, calls.site? node = some site → site.kind = .construct className →
      origins node = some (frame.function, .ofClass className))
    (receiver : Option Nat) (args : List Expr) :
    Adds t origins g (g.ofCall calls s node (receiver.map s.value) (args.map (s.value ·.id)))
      (frame.callFlows calls node (receiver.map frame.value) (args.map (frame.value ·.id))) := by
  have hfinish {objects : Array HeapObject} {target : CallTarget} {target' : FlowTarget}
      (htarget : Numbering.SaysTarget ⟨t, objects⟩ target target') :
      Numbering.Says ⟨t, objects⟩
        (.call ⟨node, s.function, s.context, target, args.map (s.value ·.id), s.value node⟩)
        (.call ⟨node, frame.context, target', args.map (frame.value ·.id), frame.value node⟩) :=
    .call ⟨rfl, hs.context, htarget, hs.place?_values _ args, hs.place?_value _ node⟩
  unfold ofCall Frame.callFlows
  cases hsite : calls.site? node with
  | none => exact .refl h
  | some site =>
      dsimp only
      cases hkind : site.kind with
      | direct => exact adds_emit h (hfinish (.static _))
      | construct className =>
          exact adds_allocate hs h (horigin site className hsite hkind) rfl
            fun hcreation => hfinish (.construct hcreation _)
      | virtual method object =>
          cases receiver with
          | none => exact .refl h
          | some r =>
              have hmoves : Adds t origins g
                  (((ElementFlow.ofName? method).elim [] (ElementFlow.constraints (s.value r)
                    (args.map (s.value ·.id)) (s.value node))).foldl emit g)
                  ((ElementFlow.ofName? method).elim [] (ElementFlow.flows (frame.value r)
                    (args.map (frame.value ·.id)) (frame.value node))) := by
                refine adds_emitAll h rfl ?_
                cases ElementFlow.ofName? method with
                | none => exact .nil
                | some m =>
                    exact ElementFlow.says_constraints (hs.place?_value _ r)
                      (hs.place?_values _ args) (hs.place?_value _ node) m
              exact hmoves.trans (adds_emit hmoves.orderly
                (hfinish (.dispatch _ (hs.place?_value _ r))))
      | unknown => exact .refl h

end Scope

section Trees

variable {calls : CallGraph} {s : PointerScope} {frame : Frame}

theorem origin_of_construct {node : Nat} {func : Expr} {args : List Expr}
    (harises : (Expr.call node func args).ArisesIn calls origins frame.function) :
    ∀ site className, calls.site? node = some site → site.kind = .construct className →
      origins node = some (frame.function, .ofClass className) := by
  intro site className hsite hkind
  refine harises _ (Expr.mem_walk_self _) _ ?_
  rw [Expr.creates?, hsite, Option.map_some, hkind]

mutual

theorem adds_ofExpr (hs : s.Means t frame) : (e : Expr) →
    (harises : e.ArisesIn calls origins frame.function) → (g : Generated) →
    (h : g.Orderly origins) → Adds t origins g (g.ofExpr calls s e) (frame.exprFlows calls e)
  | .literal _ _, _, g, h | .unsupported _ _, _, g, h => by
      rw [ofExpr, Frame.exprFlows]
      exact .refl h
  | .name node name, _, g, h => by
      rw [ofExpr, Frame.exprFlows]
      exact adds_emit h (.copy (hs.place?_var _ name) (hs.place?_value _ node))
  | .collection node kind elements, harises, g, h => by
      rw [ofExpr, Frame.exprFlows]
      have hhead : Adds t origins g ((g.allocate s node (.collection kind)).2.emit
          (.alloc (g.allocate s node (.collection kind)).1 (s.value node)))
          [.alloc (frame.creation node (.collection kind)) (frame.value node)] :=
        adds_allocate hs h (harises _ (Expr.mem_walk_self _) _ rfl) rfl
          fun hcreation => .alloc hcreation (hs.place?_value _ node)
      exact hhead.trans (adds_ofElements hs elements (fun e he => harises.of_subset
        (Expr.walk_subset_of_mem_children he)) _ hhead.orderly)
  | .attr node value name, harises, g, h => by
      rw [ofExpr, Frame.exprFlows]
      have hvalue := adds_ofExpr hs value
        (harises.of_subset (Expr.walk_subset_of_mem_children List.mem_cons_self)) g h
      exact hvalue.trans (adds_emit hvalue.orderly
        (.load (hs.place?_value _ _) _ (hs.place?_value _ node)))
  | .subscript node value index, harises, g, h => by
      rw [ofExpr, Frame.exprFlows]
      have hvalue := adds_ofExpr hs value
        (harises.of_subset (Expr.walk_subset_of_mem_children List.mem_cons_self)) g h
      have hindex := adds_ofExpr hs index (harises.of_subset
        (Expr.walk_subset_of_mem_children (List.mem_cons_of_mem _ List.mem_cons_self)))
        _ hvalue.orderly
      exact hvalue.trans (hindex.trans (adds_emit hindex.orderly
        (.load (hs.place?_value _ _) _ (hs.place?_value _ node))))
  | .boolOp node _ left right, harises, g, h => by
      rw [ofExpr, Frame.exprFlows]
      have hleft := adds_ofExpr hs left
        (harises.of_subset (Expr.walk_subset_of_mem_children List.mem_cons_self)) g h
      have hcopy := adds_emit hleft.orderly
        (.copy (hs.place?_value _ left.id) (hs.place?_value _ node))
      have hright := adds_ofExpr hs right (harises.of_subset
        (Expr.walk_subset_of_mem_children (List.mem_cons_of_mem _ List.mem_cons_self)))
        _ hcopy.orderly
      exact hleft.trans (hcopy.trans (hright.trans (adds_emit hright.orderly
        (.copy (hs.place?_value _ right.id) (hs.place?_value _ node)))))
  | .call node func args, harises, g, h => by
      have horigin := origin_of_construct harises
      have hparts : ∀ e ∈ args, e.ArisesIn calls origins frame.function := fun e he =>
        harises.of_subset (Expr.walk_subset_of_mem_children (List.mem_cons_of_mem _ he))
      cases func with
      | attr id value method =>
          rw [ofExpr, Frame.exprFlows]
          have hinner : (Expr.attr id value method).walk ⊆ (Expr.call node (.attr id value method)
            args).walk := Expr.walk_subset_of_mem_children List.mem_cons_self
          have hvalue := adds_ofExpr hs value (harises.of_subset (List.Subset.trans
            (Expr.walk_subset_of_mem_children List.mem_cons_self) hinner)) g h
          have hargs := adds_ofExprs hs args hparts _ hvalue.orderly
          exact hvalue.trans (hargs.trans (adds_ofCall calls hs hargs.orderly horigin
            (some value.id) args))
      | literal | name | binOp | boolOp | unaryOp | compare | subscript | call | collection
      | unsupported =>
          rw [ofExpr, Frame.exprFlows]
          · have hargs := adds_ofExprs hs args hparts g h
            exact hargs.trans (adds_ofCall calls hs hargs.orderly horigin none args)
          · exact fun _ _ _ heq => nomatch heq
          · exact fun _ _ _ heq => nomatch heq
  | .binOp _ _ left right, harises, g, h | .compare _ _ left right, harises, g, h => by
      rw [ofExpr, Frame.exprFlows]
      have hleft := adds_ofExpr hs left
        (harises.of_subset (Expr.walk_subset_of_mem_children List.mem_cons_self)) g h
      exact hleft.trans (adds_ofExpr hs right (harises.of_subset
        (Expr.walk_subset_of_mem_children (List.mem_cons_of_mem _ List.mem_cons_self)))
        _ hleft.orderly)
  | .unaryOp _ _ operand, harises, g, h => by
      rw [ofExpr, Frame.exprFlows]
      exact adds_ofExpr hs operand
        (harises.of_subset (Expr.walk_subset_of_mem_children List.mem_cons_self)) g h

theorem adds_ofExprs (hs : s.Means t frame) : (l : List Expr) →
    (harises : ∀ e ∈ l, e.ArisesIn calls origins frame.function) → (g : Generated) →
    (h : g.Orderly origins) → Adds t origins g (g.ofExprs calls s l) (frame.allFlows calls l)
  | [], _, g, h => by
      rw [ofExprs, Frame.allFlows]
      exact .refl h
  | e :: rest, harises, g, h => by
      rw [ofExprs, Frame.allFlows]
      have hfirst := adds_ofExpr hs e (harises e List.mem_cons_self) g h
      exact hfirst.trans (adds_ofExprs hs rest (fun a ha => harises a (List.mem_cons_of_mem _ ha))
        _ hfirst.orderly)

theorem adds_ofElements (hs : s.Means t frame) {node : Nat} : (l : List Expr) →
    (harises : ∀ e ∈ l, e.ArisesIn calls origins frame.function) → (g : Generated) →
    (h : g.Orderly origins) → Adds t origins g (g.ofElements calls s (s.value node) l)
      (frame.elementFlows calls (frame.value node) l)
  | [], _, g, h => by
      rw [ofElements, Frame.elementFlows]
      exact .refl h
  | e :: rest, harises, g, h => by
      rw [ofElements, Frame.elementFlows]
      have hfirst := adds_ofExpr hs e (harises e List.mem_cons_self) g h
      have hstore := adds_emit hfirst.orderly
        (.store (hs.place?_value _ node) .elements (hs.place?_value _ e.id))
      exact hfirst.trans (hstore.trans (adds_ofElements hs rest
        (fun a ha => harises a (List.mem_cons_of_mem _ ha)) _ hstore.orderly))

end

theorem adds_ofStmt (hs : s.Means t frame) {stmt : Stmt}
    (harises : ∀ e ∈ stmt.ownExprs, e.ArisesIn calls origins frame.function)
    (h : g.Orderly origins) :
    Adds t origins g (g.ofStmt calls s stmt) (frame.stmtFlows calls stmt) := by
  cases stmt with
  | assign id target value =>
      have hvalue := adds_ofExpr hs value
        (harises value (List.mem_append_right _ List.mem_cons_self)) g h
      have htarget : ∀ e ∈ target.exprs, e.ArisesIn calls origins frame.function :=
        fun e he => harises e (List.mem_append_left _ he)
      cases target with
      | name node name =>
          exact hvalue.trans (adds_emit hvalue.orderly
            (.copy (hs.place?_value _ value.id) (hs.place?_var _ name)))
      | attr node base name =>
          have hbase := adds_ofExpr hs base (htarget base List.mem_cons_self) _ hvalue.orderly
          exact hvalue.trans (hbase.trans (adds_emit hbase.orderly
            (.store (hs.place?_value _ base.id) _ (hs.place?_value _ value.id))))
      | subscript node base index =>
          have hbase := adds_ofExpr hs base (htarget base List.mem_cons_self) _ hvalue.orderly
          have hindex := adds_ofExpr hs index
            (htarget index (List.mem_cons_of_mem _ List.mem_cons_self)) _ hbase.orderly
          exact hvalue.trans (hbase.trans (hindex.trans (adds_emit hindex.orderly
            (.store (hs.place?_value _ base.id) _ (hs.place?_value _ value.id)))))
  | expr | ifElse | whileLoop => exact adds_ofExpr hs _ (harises _ List.mem_cons_self) g h
  | forLoop id target iter body =>
      have hiter := adds_ofExpr hs iter (harises iter List.mem_cons_self) g h
      exact hiter.trans (adds_emit hiter.orderly
        (.load (hs.place?_value _ iter.id) _ (hs.place?_var _ target)))
  | ret id value =>
      cases value with
      | none => exact .refl h
      | some e =>
          have hvalue := adds_ofExpr hs e (harises e List.mem_cons_self) g h
          exact hvalue.trans (adds_emit hvalue.orderly
            (.copy (hs.place?_value _ e.id) (hs.place?_result _)))
  | brk | cont | pass | functionDef | classDef => exact .refl h

/-- The constraints that are generated for a body say the same as its flows. -/
theorem adds_ofBody (hs : s.Means t frame) {body : List Stmt}
    (harises : ∀ stmt ∈ Stmt.walkAll body, ∀ e ∈ stmt.ownExprs,
      e.ArisesIn calls origins frame.function) (h : g.Orderly origins) :
    Adds t origins g (g.ofBody calls s body) (frame.bodyFlows calls body) := by
  unfold ofBody Frame.bodyFlows
  generalize Stmt.walkAll body = stmts at harises
  induction stmts generalizing g with
  | nil => exact .refl h
  | cons stmt rest ih =>
      have hfirst := adds_ofStmt hs (harises stmt List.mem_cons_self) h
      rw [List.flatMap_cons]
      exact hfirst.trans (ih hfirst.orderly fun a ha => harises a (List.mem_cons_of_mem _ ha))

end Trees

end Generated

end ValueFlow
