import Mathlib.Data.Finset.Prod
import ValueFlow.Proofs.PointsTo.Derivation
import ValueFlow.Proofs.Trees
/-!
What facts about references can be about.

Call paths are words over the functions, no longer than the depth, and all else stands in the text
of the program.
-/

namespace ValueFlow

/-- The words of bounded length over the numbers below a bound. -/
def words (letters : Nat) : Nat → Finset (List Nat)
  | 0 => {[]}
  | n + 1 => insert [] ((Finset.range letters ×ˢ words letters n).image fun q => q.1 :: q.2)

theorem mem_words {letters n : Nat} {κ : List Nat} (hlength : κ.length ≤ n)
    (hκ : ∀ a ∈ κ, a < letters) : κ ∈ words letters n := by
  induction n generalizing κ with
  | zero =>
      rw [List.length_eq_zero_iff.1 (Nat.le_zero.1 hlength)]
      simp [words]
  | succ n ih =>
      cases κ with
      | nil => simp [words]
      | cons a rest =>
          have hrest : rest ∈ words letters n :=
            ih (Nat.le_of_succ_le_succ hlength) fun b hb => hκ b (List.mem_cons_of_mem _ hb)
          simp [words, hκ a List.mem_cons_self, hrest]

theorem card_words_le (letters n : Nat) :
    (words letters n).card ≤ (Budget.words (.ofNat letters) n).size := by
  induction n with
  | zero => simp [words]
  | succ n ih =>
      rw [Budget.size_words_succ, Budget.size_ofNat, words]
      refine (Finset.card_insert_le _ _).trans (Nat.succ_le_succ (Finset.card_image_le.trans ?_))
      rw [Finset.card_product, Finset.card_range]
      exact Nat.mul_le_mul_left _ ih

/-- The field that a statement stores into, if it is an attribute. -/
def Stmt.attribute? : Stmt → Option PointerField
  | .assign _ (.attr _ _ name) _ => some (.attr name)
  | _ => none

namespace ProgramIndex

variable (ix : ProgramIndex)

def exprNodes : List Nat := ix.functions.toList.flatMap fun f => (walkExprs f.body).map (·.2.id)

/-- The parameters of all functions and the names that their bodies bind. -/
def varNames : List String := ix.functions.toList.flatMap fun f =>
  f.params ++ (Stmt.walkAll f.body).filterMap FunctionInfo.boundBy

def attributes : List PointerField :=
  ix.functions.toList.flatMap fun f => (Stmt.walkAll f.body).filterMap Stmt.attribute?

variable {ix} {i : Nat} {f : FunctionInfo}

theorem mem_of_function? (hf : ix.function? i = some f) : f ∈ ix.functions.toList :=
  Array.mem_toList_iff.2 (Array.mem_of_getElem? hf)

theorem mem_exprNodes (hf : ix.function? i = some f) {stmt : Stmt} (hstmt : stmt ∈ Stmt.walkAll f.body)
    {e part : Expr} (he : e ∈ stmt.ownExprs) (hpart : part ∈ e.walk) : part.id ∈ ix.exprNodes :=
  List.mem_flatMap.2 ⟨f, mem_of_function? hf, List.mem_map.2 ⟨(stmt, part),
    mem_walkExprs.2 ⟨hstmt, Expr.walk_subset_walkAll he hpart⟩, rfl⟩⟩

theorem mem_varNames_of_stmt (hf : ix.function? i = some f) {stmt : Stmt}
    (hstmt : stmt ∈ Stmt.walkAll f.body) {x : String} (hx : FunctionInfo.boundBy stmt = some x) :
    x ∈ ix.varNames :=
  List.mem_flatMap.2 ⟨f, mem_of_function? hf,
    List.mem_append_right _ (List.mem_filterMap.2 ⟨stmt, hstmt, hx⟩)⟩

theorem mem_varNames_of_param {x : String} (hx : x ∈ ix.params i) : x ∈ ix.varNames := by
  unfold params at hx
  cases hf : ix.function? i with
  | none =>
      rw [hf] at hx
      cases hx
  | some f =>
      rw [hf] at hx
      exact List.mem_flatMap.2 ⟨f, mem_of_function? hf, List.mem_append_left _ hx⟩

theorem mem_attributes (hf : ix.function? i = some f) {stmt : Stmt}
    (hstmt : stmt ∈ Stmt.walkAll f.body) {field : PointerField} (hx : stmt.attribute? = some field) :
    field ∈ ix.attributes :=
  List.mem_flatMap.2 ⟨f, mem_of_function? hf, List.mem_filterMap.2 ⟨stmt, hstmt, hx⟩⟩

end ProgramIndex

namespace FlowProgram

variable (P : FlowProgram)

def contexts : Finset (List Nat) := words P.index.functions.size P.depth

def fields : List PointerField := .elements :: P.index.attributes

/-- Whether calls run functions of the program only. -/
structure Bounded : Prop where
  calls : ∀ node site, P.calls.site? node = some site → ∀ t ∈ site.targets,
    t < P.index.functions.size
  methods : ∀ className method t, P.classes.lookup? className method = some t →
    t < P.index.functions.size

section Contexts

variable {P} {f : Nat} {κ : List Nat}

theorem mem_contexts_limit {path : List Nat} (h : ∀ a ∈ path, a < P.index.functions.size) :
    ContextTable.limit P.depth path ∈ P.contexts :=
  mem_words (ContextTable.length_limit_le _ _) fun a ha => h a (List.mem_of_mem_drop ha)

theorem lt_of_mem_words {letters n a : Nat} (hκ : κ ∈ words letters n) (ha : a ∈ κ) :
    a < letters := by
  induction n generalizing κ with
  | zero =>
      rw [words, Finset.mem_singleton] at hκ
      rw [hκ] at ha
      cases ha
  | succ n ih =>
      rw [words, Finset.mem_insert, Finset.mem_image] at hκ
      rcases hκ with rfl | ⟨⟨b, rest⟩, hq, rfl⟩
      · cases ha
      · rw [Finset.mem_product, Finset.mem_range] at hq
        rcases List.mem_cons.1 ha with rfl | ha
        · exact hq.1
        · exact ih hq.2 ha

end Contexts

end FlowProgram

end ValueFlow
