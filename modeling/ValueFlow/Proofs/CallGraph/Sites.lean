import Mathlib.Data.List.Nodup
import ValueFlow.CallGraph.Dispatch
import ValueFlow.Proofs.Maps
/-!
Functions by name, and call sites by identifier, where names and identifiers are distinct.
-/

namespace ValueFlow

namespace ProgramIndex

variable {ix : ProgramIndex} {i : Nat} {f : FunctionInfo}

theorem name_of_getElem? (hi : ix.functions[i]? = some f) : ix.name i = f.name := by
  rw [name, function?, hi]
  rfl

theorem lookup?_eq_some {n : String} (h : ix.lookup? n = some i) :
    i < ix.functions.size ∧ ix.name i = n := by
  rw [lookup?] at h
  have hname := List.find?_some h
  exact ⟨List.mem_range.1 (List.mem_reverse.1 (List.mem_of_find?_eq_some h)),
    of_decide_eq_true hname⟩

theorem getElem?_names (hi : ix.functions[i]? = some f) :
    (ix.functions.toList.map FunctionInfo.name)[i]? = some f.name := by
  rw [List.getElem?_map, Array.getElem?_toList, hi]
  rfl

/-- A name is that of at most one function, if names are distinct. -/
theorem eq_of_name_eq (hnodup : (ix.functions.toList.map FunctionInfo.name).Nodup) {j : Nat}
    (hi : ix.functions[i]? = some f) (hj : j < ix.functions.size) (hname : ix.name j = f.name) :
    j = i := by
  have hf := Array.getElem?_eq_getElem hj
  rw [name_of_getElem? hf] at hname
  refine (List.getElem?_inj (by simpa using hj) hnodup).1 ?_
  rw [getElem?_names hf, getElem?_names hi, hname]

/-- The number of a function, if no other has its name. -/
theorem lookup?_name (hnodup : (ix.functions.toList.map FunctionInfo.name).Nodup)
    (hi : ix.functions[i]? = some f) : ix.lookup? f.name = some i := by
  have hlt : i < ix.functions.size := (Array.getElem?_eq_some_iff.1 hi).1
  have hfound : (ix.lookup? f.name).isSome = true := by
    rw [lookup?, List.find?_isSome]
    exact ⟨i, List.mem_reverse.2 (List.mem_range.2 hlt), decide_eq_true (name_of_getElem? hi)⟩
  obtain ⟨j, hj⟩ := Option.isSome_iff_exists.1 hfound
  obtain ⟨hjlt, hname⟩ := lookup?_eq_some hj
  rw [hj, eq_of_name_eq hnodup hi hjlt hname]

theorem freeFunction?_name (hnodup : (ix.functions.toList.map FunctionInfo.name).Nodup)
    (hi : ix.functions[i]? = some f) (hmethod : f.className = none) (hne : i ≠ moduleId) :
    ix.freeFunction? f.name = some i := by
  rw [freeFunction?, lookup?_name hnodup hi]
  show ((ix.function? i).bind fun f => if f.isMethod || i = moduleId then none else some i) = some i
  rw [function?, hi, Option.bind_some, FunctionInfo.isMethod, hmethod, decide_eq_false hne]
  rfl

theorem freeFunction?_eq_some {n : String} (h : ix.freeFunction? n = some i) :
    i < ix.functions.size ∧ ix.name i = n ∧ i ≠ moduleId := by
  obtain ⟨j, hj, h⟩ := Option.bind_eq_some_iff.1 h
  obtain ⟨f, hf, h⟩ := Option.bind_eq_some_iff.1 h
  split at h
  · cases h
  · next hfree =>
      cases h
      obtain ⟨hlt, hname⟩ := lookup?_eq_some hj
      exact ⟨hlt, hname, fun he => hfree (by rw [decide_eq_true he, Bool.or_true])⟩

end ProgramIndex

namespace CallGraph

variable {ix : ProgramIndex} {classes : ClassTable}

/-- All call sites of a program in source order. -/
def allSites (ix : ProgramIndex) (classes : ClassTable) : List CallSite :=
  ix.functions.toList.zipIdx.flatMap fun p => sitesOf ix classes p.2 p.1

theorem mem_allSites {s : CallSite} : s ∈ allSites ix classes ↔
    ∃ caller f stmt node func args, ix.functions[caller]? = some f ∧
      (stmt, Expr.call node func args) ∈ walkExprs f.body ∧
      s = siteOf ix classes caller node func := by
  rw [allSites, List.mem_flatMap]
  constructor
  · rintro ⟨⟨f, caller⟩, hf, hs⟩
    obtain ⟨⟨stmt, e⟩, he, h⟩ := List.mem_filterMap.1 hs
    have hget := List.mk_mem_zipIdx_iff_getElem?.1 hf
    rw [Array.getElem?_toList] at hget
    cases e with
    | call node func args => exact ⟨caller, f, stmt, node, func, args, hget, he, (Option.some.inj h).symm⟩
    | literal | name | binOp | boolOp | unaryOp | compare | attr | subscript | collection
    | unsupported => cases h
  · rintro ⟨caller, f, stmt, node, func, args, hf, he, rfl⟩
    rw [← Array.getElem?_toList] at hf
    exact ⟨(f, caller), List.mk_mem_zipIdx_iff_getElem?.2 hf, List.mem_filterMap.2 ⟨_, he, rfl⟩⟩

theorem sites_foldl_addSite (l : List CallSite) (g : CallGraph) :
    (l.foldl addSite g).sites =
      (l.map fun s => (s.node, s)).foldl (fun m p => m.insert p.1 p.2) g.sites := by
  induction l generalizing g with
  | nil => rfl
  | cons s rest ih => exact ih (g.addSite s)

theorem functions_foldl_addSite (l : List CallSite) (g : CallGraph) :
    (l.foldl addSite g).functions = g.functions := by
  induction l generalizing g with
  | nil => rfl
  | cons s rest ih => exact ih (g.addSite s)

theorem size_build (ix : ProgramIndex) (classes : ClassTable) :
    (build ix classes).functions.size = ix.functions.size := by
  rw [build, functions_foldl_addSite, ofFunctions, List.size_toArray, List.length_map,
    Array.length_toList]

theorem mem_allSites_of_site? {node : Nat} {s : CallSite}
    (h : (build ix classes).site? node = some s) : s ∈ allSites ix classes ∧ s.node = node := by
  rw [site?, build, sites_foldl_addSite] at h
  rcases SortedMap.get?_foldl_insert h with h | h
  · obtain ⟨t, ht, he⟩ := List.mem_map.1 h
    cases he
    exact ⟨ht, rfl⟩
  · cases h

/-- Where every call has its own identifier, every call site is found. -/
theorem site?_build (hnodup : ((allSites ix classes).map CallSite.node).Nodup) {s : CallSite}
    (hs : s ∈ allSites ix classes) : (build ix classes).site? s.node = some s := by
  have hsome : ((build ix classes).site? s.node).isSome = true := by
    rw [site?, build, sites_foldl_addSite]
    refine SortedMap.isSome_get?_foldl_insert (.inl ?_)
    exact List.mem_map.2 ⟨(s.node, s), List.mem_map.2 ⟨s, hs, rfl⟩, rfl⟩
  obtain ⟨t, ht⟩ := Option.isSome_iff_exists.1 hsome
  obtain ⟨hmem, hnode⟩ := mem_allSites_of_site? ht
  rw [ht, List.inj_on_of_nodup_map hnodup hmem hs hnode]

theorem foldl_eq_self {α β : Type} {f : β → α → β} {b : β} {l : List α}
    (h : ∀ a ∈ l, f b a = b) : l.foldl f b = b := by
  induction l with
  | nil => rfl
  | cons a rest ih =>
      rw [List.foldl_cons, h a List.mem_cons_self]
      exact ih fun c hc => h c (List.mem_cons_of_mem _ hc)

/-- A call graph without open calls is final. -/
theorem refine_eq_self {g : CallGraph} (h : ∀ s ∈ g.sites.values, isOpen s.kind = false)
    (classes : ClassTable) (pointsTo : PointsTo) : g.refine classes pointsTo = g := by
  refine foldl_eq_self fun s hs => ?_
  have hopen := h s hs
  cases hk : s.kind with
  | virtual =>
      rw [hk] at hopen
      cases hopen
  | direct | construct | unknown => rfl

end CallGraph

end ValueFlow
