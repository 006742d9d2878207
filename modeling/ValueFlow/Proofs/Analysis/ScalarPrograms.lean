import Mathlib.Data.List.Flatten
import ValueFlow.Proofs.Analysis.Runs
import ValueFlow.Proofs.CallGraph.Components
import ValueFlow.Proofs.CallGraph.Sites
/-!
Programs over scalars: what they are made of, and how their functions and calls are numbered.
-/

namespace ValueFlow

namespace Target

def id : Target → Nat
  | name id _ | attr id _ _ | subscript id _ _ => id

end Target

namespace Stmt

/-- The identifiers that a statement has besides those of its expressions and its bodies. -/
def ownIds : Stmt → List Nat
  | assign id target _ => [id, target.id]
  | functionDef id defId _ _ _ | classDef id defId _ _ _ => [id, defId]
  | s => [s.id]

/-- The identifiers of a body, without those of the definitions in it. -/
def idsOf (body : List Stmt) : List Nat :=
  (walkAll body).flatMap fun s => s.ownIds ++ (Expr.walkAll s.ownExprs).map Expr.id

/-- Whether a statement is of a kind that scalar programs are made of. -/
def isScalar : Stmt → Bool
  | assign _ (.name _ _) _ | expr _ _ | ifElse _ _ _ _ | whileLoop _ _ _ | ret _ _ | brk _ | cont _
  | pass _ => true
  | forLoop _ _ iter _ => iter.rangeArgs?.isSome
  | _ => false

end Stmt

namespace Program

/-- The bodies of a program: that of the module without the definitions in it, and those of the
functions. -/
def bodies (p : Program) : List (List Stmt) :=
  p.body.filter (fun s => s.function?.isNone) :: p.functions.map FunctionDef.body

/-- The identifiers of all nodes of a program. -/
def nodeIds (p : Program) : List Nat :=
  Stmt.idsOf p.body ++ p.functions.flatMap fun f => Stmt.idsOf f.body

/-- The names that are parameters of functions or bound by statements other than definitions. -/
def variableNames (p : Program) : List String :=
  p.functions.flatMap FunctionDef.params ++
    p.bodies.flatMap fun body => (Stmt.walkAll body).filterMap FunctionInfo.boundBy

/-- The names by which a program calls something. -/
def calledNames (p : Program) : List String :=
  p.bodies.flatMap fun body => (walkExprs body).filterMap fun e =>
    match e.2 with
    | .call _ func _ => func.name?
    | _ => none

end Program

namespace Expr

/-- Whether an expression is of a kind that scalar programs are made of: a call names `range` or a
function of the program, with as many arguments as it has parameters. -/
def isScalar (p : Program) : Expr → Bool
  | literal _ value => (Scalar.ofLiteral? value).isSome
  | name _ _ | binOp _ _ _ _ | boolOp _ _ _ _ | unaryOp _ _ _ | compare _ _ _ _ => true
  | call _ func args => func.name?.any fun f =>
      decide (f = rangeName) || (p.function? f).any fun d => args.length = d.params.length
  | attr _ _ _ | subscript _ _ _ | collection _ _ _ | unsupported _ _ => false

end Expr

namespace Program

/-- Whether a program is one over scalars. Definitions of functions stand at the top level, and
the names of functions are those of nothing else. A function name that is read as a variable has no
value, so no run that reads one ends. Where `range` is called it is the builtin. -/
structure IsScalar (p : Program) : Prop where
  ids : p.nodeIds.Nodup
  names : (moduleName :: p.functions.map FunctionDef.name).Nodup
  params : ∀ f ∈ p.functions, f.params.Nodup
  range : Expr.rangeName ∈ p.calledNames →
    Expr.rangeName ∉ p.functions.map FunctionDef.name ++ p.variableNames
  variableNames : ∀ x ∈ p.variableNames, x ∉ p.functions.map FunctionDef.name
  statements : ∀ body ∈ p.bodies, ∀ s ∈ Stmt.walkAll body, s.isScalar = true
  expressions : ∀ body ∈ p.bodies, ∀ e ∈ walkExprs body, e.2.isScalar p = true

end Program

namespace FunctionDef

/-- A function of the module as a unit of analysis. -/
def info (f : FunctionDef) : FunctionInfo := ⟨f.name, none, f.params, f.body, f.id⟩

end FunctionDef

namespace Program

def moduleInfo (p : Program) : FunctionInfo := ⟨moduleName, none, [], p.body, 0⟩

variable {p : Program} {f : FunctionDef} {i : Nat}

theorem functionsOf_eq {s : Stmt} (h : ∀ c, s.class? = some c → c.methods = []) :
    ProgramIndex.functionsOf s = s.function?.toList.map FunctionDef.info := by
  rw [ProgramIndex.functionsOf]
  cases s.function? with
  | some f => rfl
  | none =>
      cases hclass : s.class? with
      | none => rfl
      | some c =>
          dsimp only
          rw [h c hclass]
          rfl

/-- Without methods, the functions of a program are the module and those that it defines. -/
theorem functions_build (h : ∀ c ∈ p.classes, c.methods = []) :
    (ProgramIndex.build p).functions.toList = p.moduleInfo :: p.functions.map FunctionDef.info := by
  have flat : ∀ l : List Stmt, (∀ c ∈ l.filterMap Stmt.class?, c.methods = []) →
      l.flatMap ProgramIndex.functionsOf = (l.filterMap Stmt.function?).map FunctionDef.info := by
    intro l hl
    induction l with
    | nil => rfl
    | cons s rest ih =>
        have hrest : ∀ c ∈ rest.filterMap Stmt.class?, c.methods = [] := by
          intro c hc
          obtain ⟨t, ht, hclass⟩ := List.mem_filterMap.1 hc
          exact hl c (List.mem_filterMap.2 ⟨t, List.mem_cons_of_mem _ ht, hclass⟩)
        have hs : ∀ c, s.class? = some c → c.methods = [] := fun c hclass =>
          hl c (List.mem_filterMap.2 ⟨s, List.mem_cons_self, hclass⟩)
        rw [List.flatMap_cons, ih hrest, functionsOf_eq hs]
        cases hf : s.function? with
        | none => rw [List.filterMap_cons_none hf]; rfl
        | some f => rw [List.filterMap_cons_some hf]; rfl
  exact congrArg (p.moduleInfo :: ·) (flat p.body h)

/-- Whether the functions of a program are the module and those that it defines, with names and
identifiers that tell them apart. -/
structure Numbered (p : Program) : Prop where
  functions_eq : (ProgramIndex.build p).functions.toList =
    p.moduleInfo :: p.functions.map FunctionDef.info
  names : (moduleName :: p.functions.map FunctionDef.name).Nodup
  ids : p.nodeIds.Nodup

namespace IsScalar

variable (h : p.IsScalar)
include h

theorem class?_eq_none : ∀ s ∈ p.body, s.class? = none := by
  intro s hs
  cases s with
  | classDef id defId name bases body =>
      have hscalar := h.statements _ List.mem_cons_self _
        (Stmt.mem_walkAll.2 ⟨_, List.mem_filter.2 ⟨hs, rfl⟩, Stmt.mem_walk_self _⟩)
      cases hscalar
  | assign | expr | ifElse | whileLoop | forLoop | ret | brk | cont | pass | functionDef => rfl

theorem classes_eq_nil : p.classes = [] := List.filterMap_eq_nil_iff.2 h.class?_eq_none

theorem numbered : p.Numbered where
  functions_eq := functions_build (by rw [h.classes_eq_nil]; exact List.forall_mem_nil _)
  names := h.names
  ids := h.ids

end IsScalar

end Program

namespace CallGraph

theorem filterMap_sublist_map {α β : Type} {l : List α} {f : α → Option β} {g : α → β}
    (h : ∀ {a b}, f a = some b → b = g a) : (l.filterMap f).Sublist (l.map g) := by
  induction l with
  | nil => exact .slnil
  | cons a rest ih =>
      rw [List.map_cons]
      cases ha : f a with
      | none =>
          rw [List.filterMap_cons_none ha]
          exact .cons _ ih
      | some b =>
          rw [List.filterMap_cons_some ha, h ha]
          exact .cons_cons _ ih

/-- The identifiers of the calls of a body are among those of its nodes. -/
theorem nodes_sitesOf (ix : ProgramIndex) (classes : ClassTable) (caller : Nat) (f : FunctionInfo) :
    ((sitesOf ix classes caller f).map CallSite.node).Sublist (Stmt.idsOf f.body) := by
  rw [sitesOf, List.map_filterMap, walkExprs, List.filterMap_flatMap]
  refine List.Sublist.flatMap_right _ fun s _ => ?_
  rw [List.filterMap_map]
  refine (filterMap_sublist_map fun {e n} h => ?_).trans (List.sublist_append_right _ _)
  cases e with
  | call node func args => exact (Option.some.inj h).symm
  | literal | name | binOp | boolOp | unaryOp | compare | attr | subscript | collection
  | unsupported => cases h

theorem nodes_allSites (ix : ProgramIndex) (classes : ClassTable) :
    ((allSites ix classes).map CallSite.node).Sublist
      (ix.functions.toList.flatMap fun f => Stmt.idsOf f.body) := by
  have fold : ∀ (l : List FunctionInfo) (k : Nat),
      ((l.zipIdx k).flatMap fun p => (sitesOf ix classes p.2 p.1).map CallSite.node).Sublist
        (l.flatMap fun f => Stmt.idsOf f.body) := by
    intro l
    induction l with
    | nil => exact fun _ => .slnil
    | cons f rest ih =>
        intro k
        rw [List.zipIdx_cons, List.flatMap_cons, List.flatMap_cons]
        exact (nodes_sitesOf ix classes k f).append (ih (k + 1))
  rw [allSites, List.map_flatMap]
  exact fold _ 0

end CallGraph

namespace Program

variable {p : Program}

/-- The call graph of a program before references are known. -/
abbrev calls (p : Program) : CallGraph :=
  .build (.build p) (.build (.build p))

namespace Numbered

variable (h : p.Numbered)
include h

theorem names_eq : (ProgramIndex.build p).functions.toList.map FunctionInfo.name =
    moduleName :: p.functions.map FunctionDef.name := by
  rw [h.functions_eq, List.map_cons, List.map_map]
  rfl

theorem names_nodup : ((ProgramIndex.build p).functions.toList.map FunctionInfo.name).Nodup :=
  h.names_eq ▸ h.names

theorem flatMap_idsOf : ((ProgramIndex.build p).functions.toList.flatMap fun f =>
    Stmt.idsOf f.body) = p.nodeIds := by
  rw [h.functions_eq, List.flatMap_cons, List.flatMap_map]
  rfl

theorem nodes_nodup : ((CallGraph.allSites (ProgramIndex.build p)
    (.build (ProgramIndex.build p))).map CallSite.node).Nodup := by
  refine (CallGraph.nodes_allSites _ _).nodup ?_
  rw [h.flatMap_idsOf]
  exact h.ids

/-- Every call of a function is found by its identifier. -/
theorem site?_eq {i : Nat} {f : FunctionInfo} {s : Stmt} {node : Nat} {func : Expr}
    {args : List Expr} (hf : (ProgramIndex.build p).functions[i]? = some f)
    (he : (s, Expr.call node func args) ∈ walkExprs f.body) :
    p.calls.site? node = some (CallGraph.siteOf (.build p) (.build (.build p)) i node func) :=
  CallGraph.site?_build h.nodes_nodup
    (CallGraph.mem_allSites.2 ⟨i, f, s, node, func, args, hf, he, rfl⟩)

theorem getElem?_module : (ProgramIndex.build p).functions[moduleId]? = some p.moduleInfo := by
  rw [← Array.getElem?_toList, h.functions_eq]
  rfl

/-- Every function but the module is one that the program defines. -/
theorem eq_module_or_exists {i : Nat} {f : FunctionInfo}
    (hf : (ProgramIndex.build p).functions[i]? = some f) :
    i = moduleId ∧ f = p.moduleInfo ∨ i ≠ moduleId ∧ ∃ d ∈ p.functions, f = d.info := by
  rw [← Array.getElem?_toList, h.functions_eq] at hf
  cases i with
  | zero => exact .inl ⟨rfl, (Option.some.inj hf).symm⟩
  | succ k =>
      rw [List.getElem?_cons_succ, List.getElem?_map] at hf
      obtain ⟨d, hd, rfl⟩ := Option.map_eq_some_iff.1 hf
      exact .inr ⟨Nat.succ_ne_zero k, d, List.mem_of_getElem? hd, rfl⟩

/-- The number of a function that the program defines. -/
theorem exists_number {n : String} {d : FunctionDef} (hd : p.function? n = some d) :
    ∃ j, (ProgramIndex.build p).functions[j]? = some d.info ∧
      (ProgramIndex.build p).freeFunction? n = some j := by
  obtain ⟨hmem, hname⟩ := function?_eq_some hd
  obtain ⟨k, hk⟩ := List.mem_iff_getElem?.1 hmem
  have hget : (ProgramIndex.build p).functions[k + 1]? = some d.info := by
    rw [← Array.getElem?_toList, h.functions_eq, List.getElem?_cons_succ, List.getElem?_map, hk]
    rfl
  refine ⟨k + 1, hget, ?_⟩
  rw [← hname]
  exact ProgramIndex.freeFunction?_name h.names_nodup hget rfl (Nat.succ_ne_zero k)

end Numbered

namespace IsScalar

variable (h : p.IsScalar)
include h

/-- The expressions of all functions are those of the bodies of the program. -/
theorem exists_body_of_mem {i : Nat} {f : FunctionInfo} {s : Stmt} {e : Expr}
    (hf : (ProgramIndex.build p).functions[i]? = some f) (he : (s, e) ∈ walkExprs f.body) :
    ∃ body ∈ p.bodies, (s, e) ∈ walkExprs body := by
  have hmem : f ∈ (ProgramIndex.build p).functions.toList :=
    Array.mem_toList_iff.2 (Array.mem_of_getElem? hf)
  rw [h.numbered.functions_eq, List.mem_cons, List.mem_map] at hmem
  rcases hmem with rfl | ⟨d, hd, rfl⟩
  · obtain ⟨hs, hown⟩ := mem_walkExprs.1 he
    obtain ⟨t, ht, hst⟩ := Stmt.mem_walkAll.1 hs
    have hdef : t.function?.isNone = true := by
      cases t with
      | functionDef id defId name params body =>
          rw [Stmt.walk, List.mem_singleton] at hst
          rw [hst, Stmt.ownExprs, Expr.walkAll] at hown
          cases hown
      | assign | expr | ifElse | whileLoop | forLoop | ret | brk | cont | pass | classDef => rfl
    exact ⟨_, List.mem_cons_self, mem_walkExprs.2
      ⟨Stmt.mem_walkAll.2 ⟨t, List.mem_filter.2 ⟨ht, hdef⟩, hst⟩, hown⟩⟩
  · exact ⟨_, List.mem_cons_of_mem _ (List.mem_map_of_mem hd), he⟩

theorem isScalar_of_mem {i : Nat} {f : FunctionInfo} {s : Stmt} {e : Expr}
    (hf : (ProgramIndex.build p).functions[i]? = some f) (he : (s, e) ∈ walkExprs f.body) :
    e.isScalar p = true := by
  obtain ⟨body, hbody, he⟩ := h.exists_body_of_mem hf he
  exact h.expressions body hbody (s, e) he

theorem mem_calledNames {i : Nat} {f : FunctionInfo} {s : Stmt} {node id : Nat} {n : String}
    {args : List Expr} (hf : (ProgramIndex.build p).functions[i]? = some f)
    (he : (s, Expr.call node (.name id n) args) ∈ walkExprs f.body) : n ∈ p.calledNames := by
  obtain ⟨body, hbody, he⟩ := h.exists_body_of_mem hf he
  exact List.mem_flatMap.2 ⟨body, hbody, List.mem_filterMap.2 ⟨_, he, rfl⟩⟩

theorem not_isClass (n : String) : (ClassTable.build (ProgramIndex.build p)).contains n = false := by
  have hclasses : (ProgramIndex.build p).classes = [] := h.classes_eq_nil
  rw [ClassTable.build, hclasses]
  rfl

/-- How a call by name is classified. -/
theorem classify_name (id : Nat) (n : String) :
    CallGraph.classify (ProgramIndex.build p) (.build (.build p)) (.name id n) =
      match (ProgramIndex.build p).freeFunction? n with
      | some target => (.direct, some target)
      | none => (.unknown (some n), none) := by
  rw [CallGraph.classify, h.not_isClass]
  rfl

/-- Every call site of the program is a call by name. -/
theorem exists_name_of_site {s : CallSite} (hs : s ∈ p.calls.sites.values) :
    ∃ caller f node id n, (ProgramIndex.build p).functions[caller]? = some f ∧
      s = CallGraph.siteOf (.build p) (.build (.build p)) caller node (.name id n) := by
  obtain ⟨node, hnode⟩ := CallGraph.mem_values.1 hs
  obtain ⟨hs, -⟩ := CallGraph.mem_allSites_of_site? hnode
  obtain ⟨caller, f, stmt, node, func, args, hf, he, rfl⟩ := CallGraph.mem_allSites.1 hs
  have hscalar := h.isScalar_of_mem hf he
  cases func with
  | name id n => exact ⟨caller, f, node, id, n, hf, rfl⟩
  | literal | binOp | boolOp | unaryOp | compare | attr | subscript | call | collection
  | unsupported => cases hscalar

theorem refine_calls (pointsTo : PointsTo) :
    p.calls.refine (.build (.build p)) pointsTo = p.calls := by
  refine CallGraph.refine_eq_self (fun s hs => ?_) _ _
  obtain ⟨caller, f, node, id, n, -, rfl⟩ := h.exists_name_of_site hs
  rw [CallGraph.siteOf, h.classify_name]
  cases (ProgramIndex.build p).freeFunction? n <;> rfl

/-- No call reaches the module. -/
theorem module_not_mem_targets {node : Nat} {s : CallSite} (hs : p.calls.site? node = some s) :
    moduleId ∉ s.targets := by
  obtain ⟨caller, f, _, id, n, -, rfl⟩ :=
    h.exists_name_of_site (CallGraph.mem_values.2 ⟨node, hs⟩)
  rw [CallGraph.siteOf, h.classify_name, SortedSet.mem_ofList]
  cases hfree : (ProgramIndex.build p).freeFunction? n with
  | none => exact List.not_mem_nil
  | some target =>
      intro hmem
      exact (ProgramIndex.freeFunction?_eq_some hfree).2.2 (List.mem_singleton.1 hmem).symm

/-- A call of a function that the program defines reaches that function alone. -/
theorem site?_function {i : Nat} {f : FunctionInfo} {s : Stmt} {node id : Nat} {n : String}
    {args : List Expr} {d : FunctionDef} (hf : (ProgramIndex.build p).functions[i]? = some f)
    (he : (s, Expr.call node (.name id n) args) ∈ walkExprs f.body)
    (hd : p.function? n = some d) :
    ∃ site j, p.calls.site? node = some site ∧ site.kind = .direct ∧ site.targets.toList = [j] ∧
      j ∈ p.calls.successors i ∧ (ProgramIndex.build p).functions[j]? = some d.info := by
  obtain ⟨j, hj, hfree⟩ := h.numbered.exists_number hd
  have hsite := h.numbered.site?_eq hf he
  rw [CallGraph.siteOf, h.classify_name, hfree] at hsite
  refine ⟨_, j, hsite, rfl, rfl, ?_, hj⟩
  refine CallGraph.mem_successors.2 (CallGraph.mem_edges.2 ⟨_, CallGraph.mem_values.2 ⟨node, hsite⟩,
    rfl, ?_⟩)
  exact SortedSet.mem_ofList.2 List.mem_cons_self

/-- A call of `range` reaches no function of the program. -/
theorem site?_range {i : Nat} {f : FunctionInfo} {s : Stmt} {node id : Nat} {args : List Expr}
    (hf : (ProgramIndex.build p).functions[i]? = some f)
    (he : (s, Expr.call node (.name id Expr.rangeName) args) ∈ walkExprs f.body) :
    ∃ site, p.calls.site? node = some site ∧ site.kind = .unknown (some Expr.rangeName) := by
  have hfree : (ProgramIndex.build p).freeFunction? Expr.rangeName = none := by
    refine Option.eq_none_iff_forall_not_mem.2 fun j hj => ?_
    obtain ⟨hlt, hname, -⟩ := ProgramIndex.freeFunction?_eq_some hj
    have hget := Array.getElem?_eq_getElem hlt
    rw [ProgramIndex.name_of_getElem? hget] at hname
    have hmem : Expr.rangeName ∈ (ProgramIndex.build p).functions.toList.map FunctionInfo.name :=
      hname ▸ List.mem_of_getElem? (ProgramIndex.getElem?_names hget)
    rw [h.numbered.names_eq, List.mem_cons] at hmem
    rcases hmem with hmem | hmem
    · exact absurd hmem (by decide)
    · exact h.range (h.mem_calledNames hf he) (List.mem_append_left _ hmem)
  have hsite := h.numbered.site?_eq hf he
  rw [CallGraph.siteOf, h.classify_name, hfree] at hsite
  exact ⟨_, hsite, rfl⟩

end IsScalar

end Program

end ValueFlow
