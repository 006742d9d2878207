import ValueFlow.Analysis.Facts
import ValueFlow.Proofs.Analysis.ScalarPrograms
/-!
The call graph with the final targets of method calls.

Whatever the analysis of references finds, a call keeps its caller, and what it may run are
functions of the program.
-/

namespace ValueFlow

namespace ClassTable

variable {ix : ProgramIndex} {name method : String} {i : Nat}

theorem lt_of_mem_methods {info : ClassInfo} (h : (build ix).class? name = some info)
    (hi : info.methods.get? method = some i) : i < ix.functions.size := by
  rcases SortedMap.get?_foldl_insert h with h | h
  · obtain ⟨c, -, he⟩ := List.mem_map.1 h
    cases he
    rcases SortedMap.get?_foldl_insert hi with hi | hi
    · obtain ⟨m, -, hm⟩ := List.mem_filterMap.1 hi
      obtain ⟨j, hj, he⟩ := Option.map_eq_some_iff.1 hm
      cases he
      exact (ProgramIndex.lookup?_eq_some hj).1
    · cases hi
  · cases h

theorem lt_of_lookup? (h : (build ix).lookup? name method = some i) : i < ix.functions.size := by
  obtain ⟨c, -, hown⟩ := List.exists_of_findSome?_eq_some h
  obtain ⟨info, hinfo, hi⟩ := Option.bind_eq_some_iff.1 hown
  exact lt_of_mem_methods hinfo hi

theorem lt_of_mem_definitions (h : i ∈ (build ix).definitions method) :
    i < ix.functions.size := by
  rw [definitions, SortedSet.mem_ofList, List.mem_filterMap] at h
  obtain ⟨info, hinfo, hi⟩ := h
  obtain ⟨⟨name, info'⟩, hmem, rfl⟩ := List.mem_map.1 hinfo
  exact lt_of_mem_methods (SortedMap.get?_eq_some_iff.2 hmem) hi

theorem lt_of_mem_dispatch {classes : List String} (h : i ∈ (build ix).dispatch method classes) :
    i < ix.functions.size := by
  rw [dispatch, SortedSet.mem_ofList, List.mem_filterMap] at h
  obtain ⟨c, -, hi⟩ := h
  exact lt_of_lookup? hi

end ClassTable

namespace CallGraph

variable {ix : ProgramIndex} {g : CallGraph} {classes : ClassTable} {pointsTo : PointsTo}

/-- What holds of the sites of a graph, whatever the targets of method calls are, holds after they
got their final ones. -/
theorem forall_site?_refine {P : Nat → CallSite → Prop}
    (hg : ∀ {node s}, g.site? node = some s → P node s)
    (hP : ∀ {node s} (method : String) (receiver : Nat), P node s → P node
      { s with targets := methodTargets classes pointsTo method receiver, resolved := true })
    {node : Nat} {s : CallSite} (h : (g.refine classes pointsTo).site? node = some s) : P node s := by
  revert node s
  refine List.foldlRecOn (motive := fun k : CallGraph => ∀ {node s}, k.site? node = some s → P node s)
    g.sites.values _ hg fun k hk site _ node s hs => ?_
  cases hkind : site.kind with
  | direct | construct | unknown =>
      rw [hkind] at hs
      exact hk hs
  | virtual method receiver =>
      rw [hkind] at hs
      simp only [site?, resolve, SortedMap.get?_alter] at hs
      split at hs
      · next hnode =>
          obtain ⟨t, ht, rfl⟩ := Option.map_eq_some_iff.1 hs
          subst hnode
          exact hP method receiver (hk ht)
      · exact hk hs

theorem functions_refine (g : CallGraph) (classes : ClassTable) (pointsTo : PointsTo) :
    (g.refine classes pointsTo).functions = g.functions := by
  unfold refine
  refine observe_foldl_of_forall CallGraph.functions (fun s site _ => ?_) g
  cases site.kind <;> rfl

theorem lt_of_mem_methodTargets {method : String} {receiver t : Nat}
    (h : t ∈ methodTargets (.build ix) pointsTo method receiver) : t < ix.functions.size := by
  unfold methodTargets at h
  split at h
  · exact ClassTable.lt_of_mem_definitions h
  · exact ClassTable.lt_of_mem_dispatch h

theorem lt_of_classify {func : Expr} {t : Nat} (h : (classify ix (.build ix) func).2 = some t) :
    t < ix.functions.size := by
  unfold classify at h
  split at h
  · next n =>
      split at h
      · exact ClassTable.lt_of_lookup? h
      · split at h
        · next hfree =>
            cases h
            exact (ProgramIndex.freeFunction?_eq_some hfree).1
        · cases h
  · split at h
    · split at h
      · next hlookup =>
          cases h
          exact ClassTable.lt_of_lookup? hlookup
      · cases h
    · cases h
  · cases h

theorem lt_of_mem_targets_build {node t : Nat} {s : CallSite}
    (hs : (build ix (.build ix)).site? node = some s) (ht : t ∈ s.targets) :
    t < ix.functions.size := by
  obtain ⟨hmem, -⟩ := mem_allSites_of_site? hs
  obtain ⟨caller, f, stmt, node, func, args, -, -, rfl⟩ := mem_allSites.1 hmem
  exact lt_of_classify (Option.mem_toList.1 (SortedSet.mem_ofList.1 ht))

theorem lt_of_mem_targets {node t : Nat} {s : CallSite}
    (hs : ((build ix (.build ix)).refine (.build ix) pointsTo).site? node = some s)
    (ht : t ∈ s.targets) : t < ix.functions.size := by
  refine forall_site?_refine (P := fun _ s => ∀ t ∈ s.targets, t < ix.functions.size) ?_ ?_ hs t ht
  · intro node s hs t ht
    exact lt_of_mem_targets_build hs ht
  · intro node s method receiver _ t ht
    exact lt_of_mem_methodTargets ht

theorem closed_refine : ((build ix (.build ix)).refine (.build ix) pointsTo).Closed := by
  intro a b hab
  obtain ⟨s, hs, -, hb⟩ := mem_edges.1 (mem_successors.1 hab)
  obtain ⟨node, hnode⟩ := mem_values.1 hs
  rw [functions_refine, size_build]
  exact lt_of_mem_targets hnode hb

end CallGraph

namespace ProgramIndex

/-- The identifiers of the nodes of all functions. -/
def nodeIds (ix : ProgramIndex) : List Nat := ix.functions.toList.flatMap fun f => Stmt.idsOf f.body

end ProgramIndex

namespace ProgramFacts

variable {ix : ProgramIndex} {config : Config}

theorem closed_calls (ix : ProgramIndex) (config : Config) : (ofIndex ix config).calls.Closed :=
  CallGraph.closed_refine

/-- What a call in the body of a function may run are functions that this function calls. -/
theorem mem_successors_of_call (hids : ix.nodeIds.Nodup) {i node t : Nat} {f : FunctionInfo}
    {stmt : Stmt} {func : Expr} {args : List Expr} {site : CallSite}
    (hf : ix.functions[i]? = some f) (hcall : (stmt, Expr.call node func args) ∈ walkExprs f.body)
    (hsite : (ofIndex ix config).calls.site? node = some site) (ht : t ∈ site.targets) :
    t ∈ (ofIndex ix config).calls.successors i := by
  have hnodup := (CallGraph.nodes_allSites ix (.build ix)).nodup hids
  have hcaller : site.caller = i := by
    have hkeep := CallGraph.forall_site?_refine
      (P := fun node s => ∃ s₀, (CallGraph.build ix (.build ix)).site? node = some s₀ ∧
        s.caller = s₀.caller) (fun hs => ⟨_, hs, rfl⟩) (fun _ _ h => h) hsite
    obtain ⟨s₀, hs₀, heq⟩ := hkeep
    have hbuild := CallGraph.site?_build hnodup
      (CallGraph.mem_allSites.2 ⟨i, f, stmt, node, func, args, hf, hcall, rfl⟩)
    have hnode : (CallGraph.siteOf ix (.build ix) i node func).node = node := rfl
    rw [hnode, hs₀] at hbuild
    rw [heq, Option.some.inj hbuild]
    rfl
  refine CallGraph.mem_successors.2 (CallGraph.mem_edges.2 ⟨site, ?_, hcaller, ht⟩)
  exact CallGraph.mem_values.2 ⟨node, hsite⟩

end ProgramFacts

end ValueFlow
