import ValueFlow.Proofs.Analysis.Acceptance
import ValueFlow.Proofs.PointsTo.Binding
/-!
Calls by name, and the names that functions bind themselves.

A call by name goes by the classes and functions of the module, whatever the function with the call
binds. The analysis of references reads a name that a function binds as the function's own. The two
part where a function binds the name of a class or function of the module and calls it. Main
statement: `calls_resolve_exactly`.
-/

namespace ValueFlow

namespace FunctionInfo

variable {f : FunctionInfo} {n : String}

/-- A function binds its parameters and what the statements of its body bind. -/
theorem mem_boundNames :
    n ∈ f.boundNames ↔ n ∈ f.params ∨ ∃ s ∈ Stmt.walkAll f.body, boundBy s = some n := by
  rw [boundNames, SortedSet.mem_ofList, List.mem_append, List.mem_filterMap]

end FunctionInfo

namespace ClassTable

variable {ix : ProgramIndex} {n : String}

theorem contains_build : (build ix).contains n = true ↔ ∃ c ∈ ix.classes, c.name = n := by
  constructor
  · intro h
    obtain ⟨info, hinfo⟩ := Option.isSome_iff_exists.1 h
    rcases SortedMap.get?_foldl_insert hinfo with hinfo | hinfo
    · obtain ⟨c, hc, he⟩ := List.mem_map.1 hinfo
      cases he
      exact ⟨c, hc, rfl⟩
    · cases hinfo
  · rintro ⟨c, hc, rfl⟩
    refine SortedMap.isSome_get?_foldl_insert (.inl ?_)
    rw [List.map_map]
    exact List.mem_map.2 ⟨c, hc, rfl⟩

end ClassTable

namespace ProgramIndex

variable {ix : ProgramIndex} {n : String} {i : Nat}

/-- A search from the end of a range finds the greatest number with a property. -/
theorem find?_reverse_range {test : Nat → Bool} {size : Nat} :
    (List.range size).reverse.find? test = some i ↔
      i < size ∧ test i = true ∧ ∀ j < size, i < j → test j = false := by
  induction size with
  | zero => simp
  | succ size ih =>
      rw [List.range_succ, List.reverse_append, List.reverse_singleton, List.singleton_append,
        List.find?_cons]
      cases hlast : test size with
      | true =>
          constructor
          · rintro ⟨⟩
            exact ⟨Nat.lt_succ_self _, hlast, fun j hj hij => by omega⟩
          · rintro ⟨hi, -, hafter⟩
            rcases Nat.lt_succ_iff_lt_or_eq.1 hi with hi | rfl
            · cases hlast.symm.trans (hafter size (Nat.lt_succ_self _) hi)
            · rfl
      | false =>
          rw [ih]
          constructor
          · rintro ⟨hi, htest, hafter⟩
            refine ⟨Nat.lt_succ_of_lt hi, htest, fun j hj hij => ?_⟩
            rcases Nat.lt_succ_iff_lt_or_eq.1 hj with hj | rfl
            · exact hafter j hj hij
            · exact hlast
          · rintro ⟨hi, htest, hafter⟩
            refine ⟨(Nat.lt_succ_iff_lt_or_eq.1 hi).resolve_right ?_, htest, fun j hj hij =>
              hafter j (Nat.lt_succ_of_lt hj) hij⟩
            rintro rfl
            cases hlast.symm.trans htest

theorem lookup?_eq_some_iff : ix.lookup? n = some i ↔ ix.IsLast n i := by
  rw [lookup?, ids, find?_reverse_range, IsLast]
  simp only [decide_eq_true_eq, decide_eq_false_iff_not, ne_eq]

/-- Whether a bare name calls a function: the last of the name, if that is a function of the
module. -/
def IsFree (ix : ProgramIndex) (n : String) (i : Nat) : Prop :=
  ix.IsLast n i ∧ i ≠ moduleId ∧ ∃ f, ix.function? i = some f ∧ f.isMethod = false

theorem freeFunction?_eq_some_iff : ix.freeFunction? n = some i ↔ ix.IsFree n i := by
  constructor
  · intro h
    obtain ⟨j, hj, h⟩ := Option.bind_eq_some_iff.1 h
    obtain ⟨f, hf, h⟩ := Option.bind_eq_some_iff.1 h
    split at h
    · cases h
    · next hfree =>
        cases h
        simp only [Bool.or_eq_true, decide_eq_true_eq, not_or, Bool.not_eq_true] at hfree
        exact ⟨lookup?_eq_some_iff.1 hj, hfree.2, f, hf, hfree.1⟩
  · rintro ⟨hlast, hne, f, hf, hmethod⟩
    refine Option.bind_eq_some_iff.2 ⟨i, lookup?_eq_some_iff.2 hlast,
      Option.bind_eq_some_iff.2 ⟨f, hf, ?_⟩⟩
    rw [hmethod, decide_eq_false hne]
    rfl

/-- A bare name calls one function. -/
theorem IsFree.unique {j : Nat} (hi : ix.IsFree n i) (hj : ix.IsFree n j) : i = j :=
  Option.some.inj ((freeFunction?_eq_some_iff.2 hi).symm.trans (freeFunction?_eq_some_iff.2 hj))

end ProgramIndex

namespace Program

/-- Whether a program has a class of a name. -/
def HasClass (p : Program) (n : String) : Prop := ∃ c ∈ p.classes, c.name = n

/-- Whether a bare name calls a class or a function of the module. -/
def Defines (p : Program) (n : String) : Prop :=
  p.HasClass n ∨ ∃ t, (ProgramIndex.build p).IsFree n t

/-- Whether a node is a call by name in a function that is not the module. -/
def CallsName (p : Program) (i : Nat) (f : FunctionInfo) (node : Nat) (n : String) : Prop :=
  (ProgramIndex.build p).function? i = some f ∧ i ≠ moduleId ∧
    ∃ stmt id args, (stmt, .call node (.name id n) args) ∈ walkExprs f.body

end Program

namespace CallSite

/-- Whether a call site takes a name for a class or a function of the module. -/
def TakesModule (s : CallSite) (n : String) : Prop := s.kind = .direct ∨ s.kind = .construct n

/-- What the site of a call by name says: it goes by what the module defines. -/
structure GoesByModule (p : Program) (caller : Nat) (n : String) (s : CallSite) : Prop where
  caller : s.caller = caller
  construct : s.kind = .construct n ↔ p.HasClass n
  direct : s.kind = .direct ↔ ¬p.HasClass n ∧ ∃ t, (ProgramIndex.build p).IsFree n t
  unknown : s.kind = .unknown (some n) ↔ ¬p.Defines n
  targets : ∀ t, t ∈ s.targets ↔
    if s.kind = .construct n then (ClassTable.build (.build p)).constructor? n = some t
    else s.kind = .direct ∧ (ProgramIndex.build p).IsFree n t
  resolved : s.resolved = true

theorem GoesByModule.takesModule_iff {p : Program} {caller : Nat} {n : String} {s : CallSite}
    (h : s.GoesByModule p caller n) : s.TakesModule n ↔ p.Defines n := by
  unfold TakesModule Program.Defines
  rw [h.construct, h.direct]
  tauto

theorem GoesByModule.not_virtual {p : Program} {caller : Nat} {n : String} {s : CallSite}
    (h : s.GoesByModule p caller n) (method : String) (receiver : Nat) :
    s.kind ≠ .virtual method receiver := by
  intro hkind
  have hundefined : ¬p.Defines n := by
    intro hdefines
    rcases h.takesModule_iff.2 hdefines with htakes | htakes <;> cases hkind.symm.trans htakes
  cases hkind.symm.trans (h.unknown.2 hundefined)

theorem refine_eq_self {s : CallSite}
    (h : ∀ method receiver, s.kind ≠ .virtual method receiver) {classes : ClassTable}
    {pointsTo : PointsTo} : s.refine classes pointsTo = s := by
  unfold refine
  split
  · next hkind => exact absurd hkind (h _ _)
  · rfl

end CallSite

namespace CallGraph

variable {ix : ProgramIndex} {classes : ClassTable} {n : String}

theorem classify_of_class (id : Nat) (h : classes.contains n = true) :
    classify ix classes (.name id n) = (.construct n, classes.constructor? n) := if_pos h

theorem classify_of_free {t : Nat} (id : Nat) (h : classes.contains n = false)
    (ht : ix.IsFree n t) : classify ix classes (.name id n) = (.direct, some t) := by
  rw [classify, h, ProgramIndex.freeFunction?_eq_some_iff.2 ht]
  rfl

theorem classify_of_undefined (id : Nat) (h : classes.contains n = false)
    (hfree : ∀ t, ¬ix.IsFree n t) :
    classify ix classes (.name id n) = (.unknown (some n), none) := by
  have hnone : ix.freeFunction? n = none := Option.eq_none_iff_forall_ne_some.2 fun t ht =>
    hfree t (ProgramIndex.freeFunction?_eq_some_iff.1 ht)
  rw [classify, h, hnone]
  rfl

end CallGraph

namespace Program

variable {p : Program} {i node : Nat} {f : FunctionInfo} {n : String}

theorem goesByModule_siteOf (p : Program) (caller node id : Nat) (n : String) :
    (CallGraph.siteOf (.build p) (.build (.build p)) caller node (.name id n)).GoesByModule p caller
      n := by
  have hclass : (ClassTable.build (.build p)).contains n = true ↔ p.HasClass n :=
    ClassTable.contains_build
  by_cases hc : p.HasClass n
  · rw [CallGraph.siteOf, CallGraph.classify_of_class id (hclass.2 hc)]
    constructor <;> simp [hc, Defines, CallGraph.isOpen]
  · have hnone : (ClassTable.build (.build p)).contains n = false :=
      Bool.eq_false_iff.2 fun h => hc (hclass.1 h)
    by_cases hfree : ∃ t, (ProgramIndex.build p).IsFree n t
    · obtain ⟨t, ht⟩ := hfree
      have hfree : ∀ u, (ProgramIndex.build p).IsFree n u ↔ u = t := fun u =>
        ⟨fun hu => hu.unique ht, fun hu => hu ▸ ht⟩
      rw [CallGraph.siteOf, CallGraph.classify_of_free id hnone ht]
      constructor <;> simp [hc, Defines, CallGraph.isOpen, hfree]
    · rw [CallGraph.siteOf, CallGraph.classify_of_undefined id hnone (not_exists.1 hfree)]
      constructor <;> simp [hc, Defines, CallGraph.isOpen, not_exists.1 hfree]

/-- The site of a call by name goes by what the module defines, before and after references are
known. -/
theorem exists_site_of_callsName (hids : (ProgramIndex.build p).nodeIds.Nodup)
    (pointsTo : PointsTo) (hcall : p.CallsName i f node n) :
    ∃ site, (CallGraph.build (.build p) (.build (.build p))).site? node = some site ∧
      ((CallGraph.build (.build p) (.build (.build p))).refine (.build (.build p)) pointsTo).site?
        node = some site ∧ site.GoesByModule p i n := by
  obtain ⟨hf, -, stmt, id, args, hmem⟩ := hcall
  obtain ⟨hknown, hrefined⟩ := site?_refine_of_mem (.build (.build p)) pointsTo hids hf hmem
  refine ⟨_, hknown, ?_, p.goesByModule_siteOf i node id n⟩
  rw [hrefined, CallSite.refine_eq_self (p.goesByModule_siteOf i node id n).not_virtual]

/-- A name is the module's in the scope of a function exactly if the function does not bind it. -/
theorem var_scopeOf_eq_iff (hcall : p.CallsName i f node n) (context : Nat) :
    (PointerSearch.scopeOf (.build p) i context).var n = .named moduleId 0 n ↔
      n ∉ f.boundNames := by
  obtain ⟨hf, hne, -⟩ := hcall
  rw [PointerScope.var, PointerSearch.scopeOf, hf, decide_eq_false hne, Bool.false_or,
    Option.map_some, Option.getD_some, ← SortedSet.contains_iff]
  split
  · next hbound => simp [hbound, hne]
  · next hfree => simp [hfree]

/-- Whether no function takes a name that it binds and calls for a class or a function of the
module. -/
def RespectsBindings (p : Program) (depth : Nat) : Prop :=
  let ix := ProgramIndex.build p
  let classes := ClassTable.build ix
  let known := CallGraph.build ix classes
  let final := known.refine classes (.analyze ix classes known depth)
  ∀ i f node n, p.CallsName i f node n → n ∈ f.boundNames →
    ∀ site, final.site? node = some site → ¬site.TakesModule n

/-- Calls by name go by what the module defines. A call of a function that is not the module agrees
with the resolution of references, which reads a name as the module's if the function does not bind
it, exactly if the function does not bind the name or the module does not define it. So a program
respects the bindings of its functions exactly if none calls a name that it binds and the module
defines. -/
theorem calls_resolve_exactly (p : Program) (hids : (ProgramIndex.build p).nodeIds.Nodup)
    (depth : Nat) :
    let ix := ProgramIndex.build p
    let classes := ClassTable.build ix
    let known := CallGraph.build ix classes
    let final := known.refine classes (.analyze ix classes known depth)
    (∀ i f node n, p.CallsName i f node n →
      ∃ site, known.site? node = some site ∧ final.site? node = some site ∧
        site.GoesByModule p i n ∧
        ∀ context, (site.TakesModule n →
          (PointerSearch.scopeOf ix i context).var n = .named moduleId 0 n) ↔
          (n ∈ f.boundNames → ¬p.Defines n)) ∧
    (p.RespectsBindings depth ↔
      ∀ i f node n, p.CallsName i f node n → n ∈ f.boundNames → ¬p.Defines n) := by
  intro ix classes known final
  refine ⟨fun i f node n hcall => ?_, fun h i f node n hcall hbound hdefines => ?_,
    fun h i f node n hcall hbound site hsite htakes => ?_⟩
  · obtain ⟨site, hknown, hfinal, hsite⟩ := exists_site_of_callsName hids _ hcall
    refine ⟨site, hknown, hfinal, hsite, fun context => ?_⟩
    rw [hsite.takesModule_iff, var_scopeOf_eq_iff hcall]
    exact imp_not_comm
  · obtain ⟨site, -, hfinal, hsite⟩ := exists_site_of_callsName hids _ hcall
    exact h i f node n hcall hbound site hfinal (hsite.takesModule_iff.2 hdefines)
  · obtain ⟨site', -, hfinal, hsite'⟩ := exists_site_of_callsName hids _ hcall
    cases hsite.symm.trans hfinal
    exact h i f node n hcall hbound (hsite'.takesModule_iff.1 htakes)

/-- A program with a function whose parameter has the name of another function, and is called. -/
def shadowing : Program where
  body :=
    [.functionDef 4 3 "f" [] [.ret 2 (some (.literal 1 (.int 1)))],
      .functionDef 9 8 "g" ["f"] [.ret 7 (some (.call 6 (.name 5 "f") []))]]

/-- The function of the program that binds the name it calls. -/
def shadower : FunctionInfo where
  name := "g"
  className := none
  params := ["f"]
  body := [.ret 7 (some (.call 6 (.name 5 "f") []))]
  defNode := 8

theorem callsName_shadowing : shadowing.CallsName 2 shadower 6 "f" :=
  ⟨rfl, Nat.succ_ne_zero 1, _, 5, [], mem_walkExprs.2 ⟨List.mem_cons_self, List.mem_cons_self⟩⟩

theorem mem_boundNames_shadower : "f" ∈ shadower.boundNames :=
  FunctionInfo.mem_boundNames.2 (.inl List.mem_cons_self)

theorem defines_shadowing : shadowing.Defines "f" :=
  .inr ⟨1, ProgramIndex.freeFunction?_eq_some_iff.1 rfl⟩

/-- The call of the bound name goes by the module, and the reference does not. -/
theorem calls_resolve_exactly_shadowing :
    (ProgramIndex.build shadowing).nodeIds.Nodup ∧
    ∃ site, (CallGraph.build (.build shadowing) (.build (.build shadowing))).site? 6 = some site ∧
      site.GoesByModule shadowing 2 "f" ∧
      ¬(site.TakesModule "f" →
        (PointerSearch.scopeOf (.build shadowing) 2 0).var "f" = .named moduleId 0 "f") := by
  have hids : (ProgramIndex.build shadowing).nodeIds.Nodup := by decide
  obtain ⟨site, hknown, -, hsite, hagrees⟩ :=
    (calls_resolve_exactly shadowing hids 1).1 2 shadower 6 "f" callsName_shadowing
  refine ⟨hids, site, hknown, hsite, fun h => ?_⟩
  exact (hagrees 0).1 h mem_boundNames_shadower defines_shadowing

/-- A call of a parameter is taken for the function of the module that has its name. -/
theorem not_respectsBindings :
    (ProgramIndex.build shadowing).nodeIds.Nodup ∧ ¬shadowing.RespectsBindings 1 := by
  have hids : (ProgramIndex.build shadowing).nodeIds.Nodup := by decide
  refine ⟨hids, fun h => ?_⟩
  obtain ⟨site, -, hfinal, hsite⟩ := exists_site_of_callsName hids _ callsName_shadowing
  exact h 2 shadower 6 "f" callsName_shadowing mem_boundNames_shadower site hfinal
    (hsite.takesModule_iff.2 defines_shadowing)

end Program

end ValueFlow
