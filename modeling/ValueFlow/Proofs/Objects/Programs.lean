import ValueFlow.Proofs.Analysis.Summaries
import ValueFlow.Proofs.Objects.Runs
/-!
Programs with objects: what they are made of, and what their calls do.

Classes have neither bases nor methods, so a constructor call makes an object and runs nothing. Every
other call runs one function of the program.
-/

namespace ValueFlow

namespace Stmt

def isPass : Stmt → Bool
  | pass _ => true
  | _ => false

/-- Whether a statement is of a kind that programs with objects are made of. -/
def isObjectual : Stmt → Bool
  | assign _ (.name _ _) _ | assign _ (.attr _ _ _) _ | expr _ _ | ifElse _ _ _ _ | whileLoop _ _ _
  | ret _ _ | brk _ | cont _ | pass _ => true
  | _ => false

def isPlainCode (s : Stmt) : Bool := s.function?.isNone && s.class?.isNone

def writesField : Stmt → Bool
  | assign _ (.attr _ _ _) _ => true
  | _ => false

end Stmt

namespace Expr

def called? : Expr → Option String
  | call _ func _ => func.name?
  | _ => none

/-- Whether an expression is of a kind that programs with objects are made of: a call names a class,
and has no arguments, or a function, and has as many arguments as it has parameters. -/
def isObjectual (p : Program) : Expr → Bool
  | literal _ value => (Scalar.ofLiteral? value).isSome
  | name _ _ | binOp _ _ _ _ | compare _ _ _ _ | attr _ _ _ => true
  | call _ func args => func.name?.any fun f =>
      (decide (f ∈ p.classes.map ClassDef.name) && args.isEmpty) ||
        (p.function? f).any fun d => args.length = d.params.length
  | boolOp _ _ _ _ | unaryOp _ _ _ | subscript _ _ _ | collection _ _ _ | unsupported _ _ => false

end Expr

namespace Program

/-- The bodies of a program: that of the module without the definitions in it, and those of the
functions. -/
def codeBodies (p : Program) : List (List Stmt) :=
  p.body.filter Stmt.isPlainCode :: p.functions.map FunctionDef.body

/-- Whether a program is one with objects. Classes and functions are defined at the top level and
have names of their own. The name of a class or function that is read as a variable has no value, so
a run that reads one halts. -/
structure IsObjectual (p : Program) : Prop where
  ids : p.nodeIds.Nodup
  names : (moduleName :: p.functions.map FunctionDef.name ++ p.classes.map ClassDef.name).Nodup
  params : ∀ f ∈ p.functions, f.params.Nodup
  bases : ∀ c ∈ p.classes, c.bases = []
  members : ∀ c ∈ p.classes, ∀ s ∈ c.body, s.isPass = true
  statements : ∀ body ∈ p.codeBodies, ∀ s ∈ Stmt.walkAll body, s.isObjectual = true
  expressions : ∀ body ∈ p.codeBodies, ∀ e ∈ walkExprs body, e.2.isObjectual p = true

/-- Whether the functions of a program make no objects and write no fields. -/
structure FunctionsOnlyRead (p : Program) : Prop where
  writes : ∀ f ∈ p.functions, ∀ s ∈ Stmt.walkAll f.body, s.writesField = false
  makes : ∀ f ∈ p.functions, ∀ e ∈ walkExprs f.body, ∀ c ∈ e.2.called?,
    c ∉ p.classes.map ClassDef.name

end Program

namespace CallGraph

/-- Whether a call makes an object and runs nothing. -/
def Creates (calls : CallGraph) (node : Nat) : Prop :=
  ∃ site className, calls.site? node = some site ∧ site.kind = .construct className ∧
    site.targets.toList = []

/-- Whether a call runs one function. -/
def Runs (calls : CallGraph) (node function : Nat) : Prop :=
  ∃ site, calls.site? node = some site ∧ site.kind = .direct ∧ site.targets.toList = [function]

end CallGraph

/-- Whether a call of a name runs a function that the program defines, the one of a number. -/
structure Program.Runs (p : Program) (node : Nat) (name : String) (j : Nat) (d : FunctionDef) :
    Prop where
  site : p.calls.Runs node j
  function : p.function? name = some d
  number : (ProgramIndex.build p).functions[j]? = some d.info

/-- Expressions in which calls make objects, if they may, or run functions of the program. -/
inductive Expr.IsPlain (p : Program) (makes : Prop) : Expr → Prop
  | literal (id : Nat) (value : Literal) : IsPlain p makes (.literal id value)
  | name (id : Nat) (x : String) : IsPlain p makes (.name id x)
  | binOp {left right : Expr} (id : Nat) (op : BinOp) (hleft : IsPlain p makes left)
      (hright : IsPlain p makes right) : IsPlain p makes (.binOp id op left right)
  | compare {left right : Expr} (id : Nat) (op : CompOp) (hleft : IsPlain p makes left)
      (hright : IsPlain p makes right) : IsPlain p makes (.compare id op left right)
  | attr {value : Expr} (id : Nat) (x : String) (hvalue : IsPlain p makes value) :
      IsPlain p makes (.attr id value x)
  | create {node : Nat} {f : String} (id : Nat) (hmakes : makes) (hsite : p.calls.Creates node)
      (hclass : f ∈ p.classes.map ClassDef.name) : IsPlain p makes (.call node (.name id f) [])
  | run {node j : Nat} {f : String} {d : FunctionDef} {args : List Expr} (id : Nat)
      (hruns : p.Runs node f j d) (hargs : ∀ e ∈ args, IsPlain p makes e) :
      IsPlain p makes (.call node (.name id f) args)

namespace Program

namespace IsObjectual

variable {p : Program} (h : p.IsObjectual)
include h

theorem methods_eq_nil : ∀ c ∈ p.classes, c.methods = [] := by
  intro c hc
  apply List.filterMap_eq_nil_iff.2
  intro s hs
  have hpass := h.members c hc s hs
  cases s with
  | pass => rfl
  | assign | expr | ifElse | whileLoop | forLoop | ret | brk | cont | functionDef | classDef =>
      cases hpass

theorem numbered : p.Numbered where
  functions_eq := functions_build h.methods_eq_nil
  names := (List.nodup_append.1 h.names).1
  ids := h.ids

theorem not_defines (className method : String) :
    (ClassTable.build (.build p)).lookup? className method = none := by
  apply Option.eq_none_iff_forall_not_mem.2
  intro i hi
  obtain ⟨name, -, hown⟩ := List.exists_of_findSome?_eq_some hi
  obtain ⟨info, hinfo, hi⟩ := Option.bind_eq_some_iff.1 hown
  rcases SortedMap.get?_foldl_insert hinfo with hinfo | hinfo
  · obtain ⟨c, hc, he⟩ := List.mem_map.1 hinfo
    cases he
    rw [ClassTable.infoOf, h.methods_eq_nil c hc] at hi
    cases hi
  · cases hinfo

/-- Of classes and functions, no two have one name. -/
theorem not_mem_classes {n : String} {d : FunctionDef} (hd : p.function? n = some d) :
    n ∉ p.classes.map ClassDef.name := by
  obtain ⟨hmem, rfl⟩ := function?_eq_some hd
  intro hclass
  exact (List.nodup_append.1 h.names).2.2 _
    (List.mem_cons_of_mem _ (List.mem_map_of_mem hmem)) _ hclass rfl

omit h in
theorem contains_iff {n : String} :
    (ClassTable.build (.build p)).contains n = true ↔ n ∈ p.classes.map ClassDef.name := by
  rw [ClassTable.contains, SortedMap.contains, ClassTable.build, SortedMap.ofList]
  constructor
  · intro hsome
    obtain ⟨info, hinfo⟩ := Option.isSome_iff_exists.1 hsome
    rcases SortedMap.get?_foldl_insert hinfo with hinfo | hinfo
    · obtain ⟨c, hc, he⟩ := List.mem_map.1 hinfo
      cases he
      exact List.mem_map_of_mem hc
    · cases hinfo
  · intro hclass
    apply SortedMap.isSome_get?_foldl_insert
    left
    rw [List.map_map]
    exact hclass

/-- What a call by name does. -/
theorem classify_name (id : Nat) (n : String) :
    CallGraph.classify (.build p) (.build (.build p)) (.name id n) =
      if n ∈ p.classes.map ClassDef.name then (.construct n, none)
      else
        match (ProgramIndex.build p).freeFunction? n with
        | some target => (.direct, some target)
        | none => (.unknown (some n), none) := by
  rw [CallGraph.classify, ClassTable.constructor?, h.not_defines]
  by_cases hclass : n ∈ p.classes.map ClassDef.name
  · rw [if_pos hclass, if_pos (contains_iff.2 hclass)]
  · have hnot : ¬ (ClassTable.build (.build p)).contains n = true :=
      fun hcontains => hclass (contains_iff.1 hcontains)
    cases (ProgramIndex.build p).freeFunction? n <;> rw [if_neg hclass, if_neg hnot]

/-- Besides definitions, the statements of the module are those of its code. -/
theorem kind_of_mem {i : Nat} {f : FunctionInfo} {s : Stmt}
    (hf : (ProgramIndex.build p).functions[i]? = some f) (hs : s ∈ Stmt.walkAll f.body) :
    (∃ body ∈ p.codeBodies, s ∈ Stmt.walkAll body) ∨ s.isPlainCode = false := by
  rcases h.numbered.eq_module_or_exists hf with ⟨-, rfl⟩ | ⟨-, d, hd, rfl⟩
  · obtain ⟨t, ht, hst⟩ := Stmt.mem_walkAll.1 hs
    by_cases hplain : t.isPlainCode = true
    · left
      exact ⟨_, List.mem_cons_self, Stmt.mem_walkAll.2 ⟨t, List.mem_filter.2 ⟨ht, hplain⟩, hst⟩⟩
    · right
      cases t with
      | classDef | functionDef =>
          rw [Stmt.walk, List.mem_singleton] at hst
          rw [hst]
          rfl
      | assign | expr | ifElse | whileLoop | forLoop | ret | brk | cont | pass =>
          exact absurd rfl hplain
  · exact .inl ⟨_, List.mem_cons_of_mem _ (List.mem_map_of_mem hd), hs⟩

omit h in
theorem ownExprs_of_not_isPlainCode {s : Stmt} (hs : s.isPlainCode = false) : s.ownExprs = [] := by
  cases s with
  | classDef | functionDef => rfl
  | assign | expr | ifElse | whileLoop | forLoop | ret | brk | cont | pass => cases hs

theorem stmt_of_mem {i : Nat} {f : FunctionInfo} {s : Stmt}
    (hf : (ProgramIndex.build p).functions[i]? = some f) (hs : s ∈ Stmt.walkAll f.body) :
    s.isObjectual = true ∨ s.isPlainCode = false := by
  rcases h.kind_of_mem hf hs with ⟨body, hbody, hs⟩ | hs
  · exact .inl (h.statements body hbody s hs)
  · exact .inr hs

theorem expr_of_mem {i : Nat} {f : FunctionInfo} {s : Stmt} {e : Expr}
    (hf : (ProgramIndex.build p).functions[i]? = some f) (he : (s, e) ∈ walkExprs f.body) :
    e.isObjectual p = true := by
  obtain ⟨hs, hown⟩ := mem_walkExprs.1 he
  rcases h.kind_of_mem hf hs with ⟨body, hbody, hs⟩ | hs
  · exact h.expressions body hbody (s, e) (mem_walkExprs.2 ⟨hs, hown⟩)
  · rw [ownExprs_of_not_isPlainCode hs, Expr.walkAll] at hown
    cases hown

section Calls

variable {i : Nat} {f : FunctionInfo} {s : Stmt} {node : Nat} {func : Expr} {args : List Expr}
  (hf : (ProgramIndex.build p).functions[i]? = some f)
  (he : (s, .call node func args) ∈ walkExprs f.body)
include hf he

/-- A call names a class and makes an object, or names a function and runs it. -/
theorem call_of_mem : ∃ id g, func = .name id g ∧
    ((g ∈ p.classes.map ClassDef.name ∧ args = [] ∧ p.calls.Creates node) ∨
      ∃ j d, p.Runs node g j d ∧ j ∈ p.calls.successors i) := by
  have hcall := h.expr_of_mem hf he
  have hsite := h.numbered.site?_eq hf he
  cases func with
  | name id g =>
      refine ⟨id, g, rfl, ?_⟩
      rw [CallGraph.siteOf, h.classify_name] at hsite
      rw [Expr.isObjectual, Expr.name?, Option.any_some, Bool.or_eq_true, Bool.and_eq_true,
        decide_eq_true_eq, List.isEmpty_iff, Option.any_eq_true] at hcall
      rcases hcall with ⟨hclass, rfl⟩ | ⟨d, hd, -⟩
      · rw [if_pos hclass] at hsite
        exact .inl ⟨hclass, rfl, _, g, hsite, rfl, rfl⟩
      · obtain ⟨j, hj, hfree⟩ := h.numbered.exists_number hd
        rw [if_neg (h.not_mem_classes hd), hfree] at hsite
        refine .inr ⟨j, d, ⟨⟨_, hsite, rfl, rfl⟩, hd, hj⟩, ?_⟩
        exact CallGraph.mem_successors.2 (CallGraph.mem_edges.2
          ⟨_, CallGraph.mem_values.2 ⟨node, hsite⟩, rfl, SortedSet.mem_ofList.2 List.mem_cons_self⟩)
  | literal | binOp | boolOp | unaryOp | compare | attr | subscript | call | collection
  | unsupported => cases hcall

end Calls

/-- A call site makes an object or runs a function other than the module. -/
theorem target_of_site? {node : Nat} {site : CallSite} (hsite : p.calls.site? node = some site) :
    CallGraph.isOpen site.kind = false ∧ ∀ j ∈ site.targets.toList, j ≠ moduleId := by
  obtain ⟨hmem, rfl⟩ := CallGraph.mem_allSites_of_site? hsite
  obtain ⟨caller, f, s, node, func, args, hf, he, rfl⟩ := CallGraph.mem_allSites.1 hmem
  obtain ⟨id, g, rfl, hcall⟩ := h.call_of_mem hf he
  rcases hcall with ⟨-, -, site', className, hsite', hkind, htargets⟩ |
    ⟨j, d, ⟨⟨site', hsite', hkind, htargets⟩, hd, hj⟩, -⟩
  · cases hsite.symm.trans hsite'
    rw [hkind, htargets]
    exact ⟨rfl, fun j hj => nomatch hj⟩
  · cases hsite.symm.trans hsite'
    rw [hkind, htargets]
    refine ⟨rfl, fun k hk => ?_⟩
    rw [List.mem_singleton.1 hk]
    rintro rfl
    rw [h.numbered.getElem?_module] at hj
    have hname : moduleName = d.name := congrArg FunctionInfo.name (Option.some.inj hj)
    have hnames := h.numbered.names
    rw [List.nodup_cons, hname] at hnames
    exact hnames.1 (List.mem_map_of_mem (function?_eq_some hd).1)

theorem refine_calls (pointsTo : PointsTo) :
    p.calls.refine (.build (.build p)) pointsTo = p.calls := by
  apply CallGraph.refine_eq_self
  intro site hsite
  obtain ⟨node, hnode⟩ := CallGraph.mem_values.1 hsite
  exact (h.target_of_site? hnode).1

theorem calls_facts (config : Config) : (p.facts config).calls = p.calls := h.refine_calls _

section Plain

variable (hread : p.FunctionsOnlyRead) {i : Nat} {f : FunctionInfo} {s : Stmt}
  (hf : (ProgramIndex.build p).functions[i]? = some f)
include hread hf

omit h in
/-- Only the module calls classes. -/
theorem eq_module_of_creates (h : p.IsObjectual) {node id : Nat} {g : String} {args : List Expr}
    (he : (s, .call node (.name id g) args) ∈ walkExprs f.body)
    (hclass : g ∈ p.classes.map ClassDef.name) : i = moduleId := by
  rcases h.numbered.eq_module_or_exists hf with ⟨hi, -⟩ | ⟨-, d, hd, rfl⟩
  · exact hi
  · exact absurd hclass (hread.makes d hd _ he g rfl)

theorem isPlain_of_walk : (e : Expr) → (∀ c ∈ e.walk, (s, c) ∈ walkExprs f.body) →
    e.IsPlain p (i = moduleId)
  | .literal id value, _ => .literal id value
  | .name id x, _ => .name id x
  | .binOp id op left right, hwalk => by
      rw [Expr.walk] at hwalk
      exact .binOp id op
        (isPlain_of_walk left fun c hc =>
          hwalk c (List.mem_cons_of_mem _ (List.mem_append_left _ hc)))
        (isPlain_of_walk right fun c hc =>
          hwalk c (List.mem_cons_of_mem _ (List.mem_append_right _ hc)))
  | .compare id op left right, hwalk => by
      rw [Expr.walk] at hwalk
      exact .compare id op
        (isPlain_of_walk left fun c hc =>
          hwalk c (List.mem_cons_of_mem _ (List.mem_append_left _ hc)))
        (isPlain_of_walk right fun c hc =>
          hwalk c (List.mem_cons_of_mem _ (List.mem_append_right _ hc)))
  | .attr id value x, hwalk => by
      rw [Expr.walk] at hwalk
      exact .attr id x (isPlain_of_walk value fun c hc => hwalk c (List.mem_cons_of_mem _ hc))
  | .call node func args, hwalk => by
      have he := hwalk _ (Expr.mem_walk_self _)
      obtain ⟨id, g, rfl, ⟨hclass, rfl, hcreates⟩ | ⟨j, d, hruns, -⟩⟩ := h.call_of_mem hf he
      · exact .create id (eq_module_of_creates hread hf h he hclass) hcreates hclass
      · refine .run id hruns fun e hmem => isPlain_of_walk e fun c hc => hwalk c ?_
        exact Expr.walk_subset_of_mem_children (List.mem_cons_of_mem _ hmem) hc
  | .boolOp id op left right, hwalk =>
      nomatch h.expr_of_mem hf (hwalk _ (Expr.mem_walk_self _))
  | .unaryOp id op operand, hwalk =>
      nomatch h.expr_of_mem hf (hwalk _ (Expr.mem_walk_self _))
  | .subscript id value index, hwalk =>
      nomatch h.expr_of_mem hf (hwalk _ (Expr.mem_walk_self _))
  | .collection id kind elements, hwalk =>
      nomatch h.expr_of_mem hf (hwalk _ (Expr.mem_walk_self _))
  | .unsupported id what, hwalk =>
      nomatch h.expr_of_mem hf (hwalk _ (Expr.mem_walk_self _))

/-- All expressions run functions at most, and those of the module may make objects. -/
theorem isPlain_ownExprs (hs : s ∈ Stmt.walkAll f.body) :
    ∀ e ∈ s.ownExprs, e.IsPlain p (i = moduleId) := by
  intro e he
  apply h.isPlain_of_walk hread hf
  intro c hc
  exact mem_walkExprs.2 ⟨hs, Expr.walk_subset_walkAll he hc⟩

end Plain

end IsObjectual

end Program

end ValueFlow
