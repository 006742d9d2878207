import ValueFlow.Proofs.PointsTo.Finiteness
import ValueFlow.Proofs.PointsTo.Searching
/-!
A search for references keeps to numbers that it has given.

Whatever the identifiers of a program are, the constraints of a search and the facts that it finds
are about functions, contexts and objects that have numbers, and about names, nodes and fields that
stand in the text of the program. Main statements: `KnowsGenerated.ofBody` for the generation of
constraints, `KnowsPass.apply` for a constraint, and `Ranges.step` for a step of the search.
-/

namespace ValueFlow

/-- No context is forgotten. -/
theorem ContextTable.size_le_intern (t : ContextTable) (path : List Nat) :
    t.paths.size ≤ (t.intern path).2.paths.size := by
  unfold intern
  dsimp only
  split
  · exact Nat.le_refl _
  · rw [Array.size_push]
    exact Nat.le_succ _

namespace FlowProgram

variable (P : FlowProgram)

section Numbers

/-- Whether a variable is one of the program, with a context below a number. -/
def KnowsVar (contexts : Nat) : PointerVar → Prop
  | .named f c x => f < P.index.functions.size ∧ c < contexts ∧ x ∈ P.index.varNames
  | .value node c => node ∈ P.index.exprNodes ∧ c < contexts
  | .result f c => f < P.index.functions.size ∧ c < contexts

/-- Whether a call enters functions of the program only, apart from methods, and creates an object
below a number. -/
def KnowsTarget (objects : Nat) : CallTarget → Prop
  | .static functions => ∀ t ∈ functions, t < P.index.functions.size
  | .construct object constructor =>
      object < objects ∧ ∀ t ∈ constructor, t < P.index.functions.size
  | .dispatch _ _ => True

/-- Whether a constraint is about contexts and objects below some numbers, and changes what belongs
to the program. -/
def Knows (contexts objects : Nat) : Constraint → Prop
  | .alloc object dest => object < objects ∧ P.KnowsVar contexts dest
  | .copy _ dest | .load _ _ dest => P.KnowsVar contexts dest
  | .store _ field _ => field ∈ P.fields
  | .call c => c.site ∈ P.index.exprNodes ∧ c.caller < P.index.functions.size ∧
      c.context < contexts ∧ P.KnowsTarget objects c.target ∧ P.KnowsVar contexts c.result

/-- Whether objects are numbered in order, one for each site of the program and each context. -/
structure KnowsObjects (contexts : Nat) (objects : Array HeapObject) : Prop where
  id : ∀ ⦃i : Nat⦄ ⦃o : HeapObject⦄, objects[i]? = some o → o.id = i
  known : ∀ ⦃i : Nat⦄ ⦃o : HeapObject⦄, objects[i]? = some o →
    o.site ∈ P.index.exprNodes ∧ o.context < contexts ∧ o.function < P.index.functions.size
  apart : ∀ ⦃i j : Nat⦄ ⦃a b : HeapObject⦄, objects[i]? = some a → objects[j]? = some b →
    a.site = b.site → a.context = b.context → i = j

/-- Whether all that is generated is about the program, with contexts below a number, and there are
at least so many objects. -/
structure KnowsGenerated (contexts least : Nat) (g : Generated) : Prop where
  objects : P.KnowsObjects contexts g.objects
  grown : least ≤ g.objects.size
  constraints : ∀ c ∈ g.constraints, P.Knows contexts g.objects.size c

/-- Whether all facts are about the program, with contexts and objects below some numbers. -/
structure KnowsFacts (contexts objects : Nat) (f : PointerFacts) : Prop where
  var : ∀ ⦃v o⦄, o ∈ f.objects v → P.KnowsVar contexts v ∧ o < objects
  field : ∀ ⦃a x o⦄, o ∈ f.held a x → a < objects ∧ x ∈ P.fields ∧ o < objects
  target : ∀ ⦃site t : Nat⦄, t ∈ f.targets.getD site ∅ →
    site ∈ P.index.exprNodes ∧ t < P.index.functions.size

/-- Whether numbered paths consist of functions of the program. -/
structure KnowsContexts (t : ContextTable) : Prop extends t.Proper P.depth where
  paths : ∀ κ ∈ t.paths, κ ∈ P.contexts

end Numbers

variable {P} {C C' O O' : Nat}

theorem KnowsVar.mono {v : PointerVar} (h : P.KnowsVar C v) (hC : C ≤ C') : P.KnowsVar C' v := by
  cases v with
  | named => exact ⟨h.1, Nat.lt_of_lt_of_le h.2.1 hC, h.2.2⟩
  | value => exact ⟨h.1, Nat.lt_of_lt_of_le h.2 hC⟩
  | result => exact ⟨h.1, Nat.lt_of_lt_of_le h.2 hC⟩

theorem KnowsTarget.mono {target : CallTarget} (h : P.KnowsTarget O target) (hO : O ≤ O') :
    P.KnowsTarget O' target := by
  cases target with
  | construct => exact ⟨Nat.lt_of_lt_of_le h.1 hO, h.2⟩
  | static | dispatch => exact h

theorem Knows.mono {c : Constraint} (h : P.Knows C O c) (hC : C ≤ C') (hO : O ≤ O') :
    P.Knows C' O' c := by
  cases c with
  | alloc => exact ⟨Nat.lt_of_lt_of_le h.1 hO, h.2.mono hC⟩
  | copy | load => exact KnowsVar.mono h hC
  | store => exact h
  | call => exact ⟨h.1, h.2.1, Nat.lt_of_lt_of_le h.2.2.1 hC, h.2.2.2.1.mono hO, h.2.2.2.2.mono hC⟩

theorem KnowsObjects.mono {objects : Array HeapObject} (h : P.KnowsObjects C objects)
    (hC : C ≤ C') : P.KnowsObjects C' objects where
  id := h.id
  known _ _ ho := (h.known ho).imp_right fun hr => hr.imp_left fun hlt => Nat.lt_of_lt_of_le hlt hC
  apart := h.apart

theorem KnowsGenerated.mono {g : Generated} (h : P.KnowsGenerated C O g) (hC : C ≤ C') :
    P.KnowsGenerated C' O g :=
  ⟨h.objects.mono hC, h.grown, fun c hc => (h.constraints c hc).mono hC (Nat.le_refl _)⟩

theorem KnowsFacts.mono {f : PointerFacts} (h : P.KnowsFacts C O f) (hC : C ≤ C') (hO : O ≤ O') :
    P.KnowsFacts C' O' f where
  var _ _ ho := ⟨(h.var ho).1.mono hC, Nat.lt_of_lt_of_le (h.var ho).2 hO⟩
  field _ _ _ ho := by
    obtain ⟨ha, hx, ho⟩ := h.field ho
    exact ⟨Nat.lt_of_lt_of_le ha hO, hx, Nat.lt_of_lt_of_le ho hO⟩
  target := h.target

section Generation

variable {s : PointerScope} {g : Generated}

theorem knowsGenerated_empty : P.KnowsGenerated C 0 .empty where
  objects := by constructor <;> simp [Generated.empty]
  grown := Nat.zero_le _
  constraints := List.forall_mem_nil _

theorem KnowsGenerated.emit (h : P.KnowsGenerated C O g) {c : Constraint}
    (hc : P.Knows C g.objects.size c) : P.KnowsGenerated C O (g.emit c) :=
  ⟨h.objects, h.grown, List.forall_mem_cons.2 ⟨hc, h.constraints⟩⟩

theorem KnowsGenerated.emitAll (h : P.KnowsGenerated C O g) {l : List Constraint}
    (hl : ∀ c ∈ l, P.Knows C g.objects.size c) :
    P.KnowsGenerated C O (l.foldl Generated.emit g) := by
  induction l generalizing g with
  | nil => exact h
  | cons c rest ih =>
      exact ih (h.emit (hl c List.mem_cons_self)) fun a ha => hl a (List.mem_cons_of_mem _ ha)

/-- Whether a scope is that of a function of the program in a numbered context. -/
structure KnowsScope (P : FlowProgram) (C : Nat) (s : PointerScope) : Prop where
  function : s.function < P.index.functions.size
  context : s.context < C
  moduleContext : s.moduleContext < C

/-- The object of a site has a number, whichever expression made it first. -/
theorem KnowsGenerated.allocate (h : P.KnowsGenerated C O g) (hs : P.KnowsScope C s) {site : Nat}
    (hsite : site ∈ P.index.exprNodes) (kind : ObjectKind) :
    P.KnowsGenerated C O (g.allocate s site kind).2 ∧
      (g.allocate s site kind).1 < (g.allocate s site kind).2.objects.size := by
  unfold Generated.allocate
  cases hfind : g.objects.find? fun o =>
      decide (o.site = site) && decide (o.context = s.context) with
  | some o =>
      obtain ⟨i, hi⟩ := Array.mem_iff_getElem?.1 (Array.mem_of_find?_eq_some hfind)
      refine ⟨h, ?_⟩
      show o.id < g.objects.size
      rw [h.objects.id hi]
      exact (Array.getElem?_eq_some_iff.1 hi).1
  | none =>
      have hnew : ∀ ⦃i : Nat⦄ ⦃o : HeapObject⦄, g.objects[i]? = some o → o.site = site →
          o.context ≠ s.context := by
        intro i o ho hsite hcontext
        have hnone := Array.find?_eq_none.1 hfind o (Array.mem_of_getElem? ho)
        simp [hsite, hcontext] at hnone
      have hpush {i : Nat} {o : HeapObject}
          (ho : (g.objects.push ⟨g.objects.size, site, s.context, s.function, kind⟩)[i]? = some o) :
          g.objects[i]? = some o ∨
            i = g.objects.size ∧ o = ⟨g.objects.size, site, s.context, s.function, kind⟩ := by
        rw [Array.getElem?_push] at ho
        split at ho
        · next hi => exact .inr ⟨hi, (Option.some.inj ho).symm⟩
        · exact .inl ho
      have hsize : g.objects.size < (g.objects.push
          ⟨g.objects.size, site, s.context, s.function, kind⟩).size := by
        rw [Array.size_push]
        exact Nat.lt_succ_self _
      refine ⟨⟨⟨?_, ?_, ?_⟩, Nat.le_trans h.grown (Nat.le_of_lt hsize), fun c hc =>
        (h.constraints c hc).mono (Nat.le_refl _) (Nat.le_of_lt hsize)⟩, hsize⟩
      · intro i o ho
        rcases hpush ho with ho | ⟨rfl, rfl⟩
        · exact h.objects.id ho
        · rfl
      · intro i o ho
        rcases hpush ho with ho | ⟨rfl, rfl⟩
        · exact h.objects.known ho
        · exact ⟨hsite, hs.context, hs.function⟩
      · intro i j a b ha hb hsame hcontext
        rcases hpush ha with ha | ⟨rfl, rfl⟩
        · rcases hpush hb with hb | ⟨rfl, rfl⟩
          · exact h.objects.apart ha hb hsame hcontext
          · exact absurd hcontext (hnew ha hsame)
        · rcases hpush hb with hb | ⟨rfl, rfl⟩
          · exact absurd hcontext.symm (hnew hb hsame.symm)
          · rfl

theorem knows_elements {receiver result : PointerVar} {args : List PointerVar}
    (hresult : P.KnowsVar C result) (m : ElementFlow) :
    ∀ c ∈ m.constraints receiver args result, P.Knows C O c := by
  have hstore (v : PointerVar) : P.Knows C O (.store receiver .elements v) := List.mem_cons_self
  intro c hc
  cases m with
  | storing position =>
      rw [ElementFlow.constraints, Option.toList_map] at hc
      obtain ⟨v, -, rfl⟩ := List.mem_map.1 hc
      exact hstore v
  | extending =>
      cases args with
      | nil => cases hc
      | cons source rest =>
          rcases List.mem_pair.1 hc with rfl | rfl
          · exact hresult
          · exact hstore result
  | loading fallback =>
      rcases List.mem_cons.1 hc with rfl | hc
      · exact hresult
      · obtain ⟨v, -, rfl⟩ := List.mem_map.1 hc
        exact hstore v

theorem KnowsScope.value (hs : P.KnowsScope C s) {node : Nat} (hnode : node ∈ P.index.exprNodes) :
    P.KnowsVar C (s.value node) := ⟨hnode, hs.context⟩

theorem KnowsScope.var (hs : P.KnowsScope C s) {x : String} (hx : x ∈ P.index.varNames) :
    P.KnowsVar C (s.var x) := by
  unfold PointerScope.var
  split
  · exact ⟨hs.function, hs.context, hx⟩
  · exact ⟨Nat.zero_lt_of_lt hs.function, hs.moduleContext, hx⟩

theorem KnowsGenerated.ofCall (hbounded : P.Bounded) (hs : P.KnowsScope C s)
    (h : P.KnowsGenerated C O g) {node : Nat} (hnode : node ∈ P.index.exprNodes)
    (receiver : Option PointerVar) (args : List PointerVar) :
    P.KnowsGenerated C O (g.ofCall P.calls s node receiver args) := by
  have hresult := hs.value hnode
  have hfinish {g : Generated} (h : P.KnowsGenerated C O g) {target : CallTarget}
      (htarget : P.KnowsTarget g.objects.size target) : P.KnowsGenerated C O
        (g.emit (.call ⟨node, s.function, s.context, target, args, s.value node⟩)) :=
    h.emit ⟨hnode, hs.function, hs.context, htarget, hresult⟩
  unfold Generated.ofCall
  cases hsite : P.calls.site? node with
  | none => exact h
  | some site =>
      have hlt := hbounded.calls node site hsite
      dsimp only
      cases hkind : site.kind with
      | direct => exact hfinish h hlt
      | construct className =>
          obtain ⟨hmade, hobject⟩ := h.allocate hs hnode (.ofClass className)
          exact hfinish hmade ⟨hobject, fun t ht => hlt t (List.mem_of_head? ht)⟩
      | virtual method object =>
          cases receiver with
          | none => exact h
          | some r =>
              refine hfinish (h.emitAll fun c hc => ?_) trivial
              cases hm : ElementFlow.ofName? method with
              | none =>
                  rw [hm] at hc
                  cases hc
              | some m =>
                  rw [hm] at hc
                  exact knows_elements hresult m c hc
      | unknown => exact h

/-- Whether all parts of an expression are nodes of the program. -/
def KnowsExpr (P : FlowProgram) (e : Expr) : Prop := ∀ part ∈ e.walk, part.id ∈ P.index.exprNodes

theorem KnowsExpr.id {e : Expr} (h : P.KnowsExpr e) : e.id ∈ P.index.exprNodes :=
  h e (Expr.mem_walk_self e)

theorem KnowsExpr.child {e c : Expr} (h : P.KnowsExpr e) (hc : c ∈ e.children) : P.KnowsExpr c :=
  fun part hpart => h part (Expr.walk_subset_of_mem_children hc hpart)

mutual

theorem KnowsGenerated.ofExpr (hbounded : P.Bounded) (hs : P.KnowsScope C s) : (e : Expr) →
    P.KnowsExpr e → {g : Generated} → P.KnowsGenerated C O g →
    P.KnowsGenerated C O (g.ofExpr P.calls s e)
  | .literal _ _, _, _, h | .unsupported _ _, _, _, h => by
      rw [Generated.ofExpr]
      exact h
  | .name node name, he, _, h => by
      rw [Generated.ofExpr]
      exact h.emit (hs.value he.id)
  | .collection node kind elements, he, _, h => by
      obtain ⟨hmade, hobject⟩ := h.allocate hs he.id (.collection kind)
      rw [Generated.ofExpr]
      exact KnowsGenerated.ofElements hbounded hs elements (fun _ hc => he.child hc)
        (hmade.emit ⟨hobject, hs.value he.id⟩)
  | .attr node value name, he, _, h => by
      have hvalue := KnowsGenerated.ofExpr hbounded hs value (he.child List.mem_cons_self) h
      rw [Generated.ofExpr]
      exact hvalue.emit (hs.value he.id)
  | .subscript node value index, he, _, h => by
      have hvalue := KnowsGenerated.ofExpr hbounded hs value (he.child List.mem_cons_self) h
      have hindex := KnowsGenerated.ofExpr hbounded hs index
        (he.child (List.mem_cons_of_mem _ List.mem_cons_self)) hvalue
      rw [Generated.ofExpr]
      exact hindex.emit (hs.value he.id)
  | .boolOp node _ left right, he, _, h => by
      have hleft := (KnowsGenerated.ofExpr hbounded hs left (he.child List.mem_cons_self) h).emit
        (c := .copy (s.value left.id) (s.value node)) (hs.value he.id)
      have hright := KnowsGenerated.ofExpr hbounded hs right
        (he.child (List.mem_cons_of_mem _ List.mem_cons_self)) hleft
      rw [Generated.ofExpr]
      exact hright.emit (hs.value he.id)
  | .call node func args, he, _, h => by
      have hargs : ∀ e ∈ args, P.KnowsExpr e := fun _ hc => he.child (List.mem_cons_of_mem _ hc)
      have hfunc : P.KnowsExpr func := he.child List.mem_cons_self
      cases func with
      | attr id value method =>
          have hvalue := KnowsGenerated.ofExpr hbounded hs value (hfunc.child List.mem_cons_self) h
          rw [Generated.ofExpr]
          exact (KnowsGenerated.ofExprs hbounded hs args hargs hvalue).ofCall hbounded hs he.id _ _
      | literal | name | binOp | boolOp | unaryOp | compare | subscript | call | collection
      | unsupported =>
          rw [Generated.ofExpr]
          · exact (KnowsGenerated.ofExprs hbounded hs args hargs h).ofCall hbounded hs he.id _ _
          · intro _ _ _ heq
            cases heq
  | .binOp _ _ left right, he, _, h | .compare _ _ left right, he, _, h => by
      have hleft := KnowsGenerated.ofExpr hbounded hs left (he.child List.mem_cons_self) h
      rw [Generated.ofExpr]
      exact KnowsGenerated.ofExpr hbounded hs right
        (he.child (List.mem_cons_of_mem _ List.mem_cons_self)) hleft
  | .unaryOp _ _ operand, he, _, h => by
      rw [Generated.ofExpr]
      exact KnowsGenerated.ofExpr hbounded hs operand (he.child List.mem_cons_self) h

theorem KnowsGenerated.ofExprs (hbounded : P.Bounded) (hs : P.KnowsScope C s) : (l : List Expr) →
    (∀ e ∈ l, P.KnowsExpr e) → {g : Generated} → P.KnowsGenerated C O g →
    P.KnowsGenerated C O (g.ofExprs P.calls s l)
  | [], _, _, h => by
      rw [Generated.ofExprs]
      exact h
  | e :: rest, hl, _, h => by
      have hfirst := KnowsGenerated.ofExpr hbounded hs e (hl e List.mem_cons_self) h
      rw [Generated.ofExprs]
      exact KnowsGenerated.ofExprs hbounded hs rest (fun a ha => hl a (List.mem_cons_of_mem _ ha))
        hfirst

theorem KnowsGenerated.ofElements (hbounded : P.Bounded) (hs : P.KnowsScope C s)
    {collection : PointerVar} : (l : List Expr) → (∀ e ∈ l, P.KnowsExpr e) →
    {g : Generated} → P.KnowsGenerated C O g →
    P.KnowsGenerated C O (g.ofElements P.calls s collection l)
  | [], _, _, h => by
      rw [Generated.ofElements]
      exact h
  | e :: rest, hl, _, h => by
      have hfirst := KnowsGenerated.ofExpr hbounded hs e (hl e List.mem_cons_self) h
      rw [Generated.ofElements]
      exact KnowsGenerated.ofElements hbounded hs rest
        (fun a ha => hl a (List.mem_cons_of_mem _ ha)) (hfirst.emit List.mem_cons_self)

end

variable (hbounded : P.Bounded) (hs : P.KnowsScope C s)
include hbounded hs

theorem KnowsGenerated.ofStmt (h : P.KnowsGenerated C O g) {info : FunctionInfo} {f : Nat}
    (hinfo : P.index.function? f = some info) {stmt : Stmt}
    (hstmt : stmt ∈ Stmt.walkAll info.body) :
    P.KnowsGenerated C O (g.ofStmt P.calls s stmt) := by
  have hexpr {e : Expr} (he : e ∈ stmt.ownExprs) {g : Generated} (h : P.KnowsGenerated C O g) :
      P.KnowsGenerated C O (g.ofExpr P.calls s e) :=
    KnowsGenerated.ofExpr hbounded hs e
      (fun part hpart => ProgramIndex.mem_exprNodes hinfo hstmt he hpart) h
  have hvar {x : String} (hx : FunctionInfo.boundBy stmt = some x) : P.KnowsVar C (s.var x) :=
    hs.var (ProgramIndex.mem_varNames_of_stmt hinfo hstmt hx)
  cases stmt with
  | assign id target value =>
      have hvalue := hexpr (e := value) (List.mem_append_right _ List.mem_cons_self) h
      cases target with
      | name node x => exact hvalue.emit (hvar rfl)
      | attr node base x =>
          exact (hexpr List.mem_cons_self hvalue).emit
            (List.mem_cons_of_mem _ (ProgramIndex.mem_attributes hinfo hstmt rfl))
      | subscript node base index =>
          exact (hexpr (List.mem_cons_of_mem _ List.mem_cons_self)
            (hexpr List.mem_cons_self hvalue)).emit List.mem_cons_self
  | expr | ifElse | whileLoop => exact hexpr List.mem_cons_self h
  | forLoop id target iter body => exact (hexpr List.mem_cons_self h).emit (hvar rfl)
  | ret id value =>
      cases value with
      | none => exact h
      | some e => exact (hexpr List.mem_cons_self h).emit ⟨hs.function, hs.context⟩
  | brk | cont | pass | functionDef | classDef => exact h

/-- The constraints of a body are about the program. -/
theorem KnowsGenerated.ofBody (h : P.KnowsGenerated C O g) {info : FunctionInfo} {f : Nat}
    (hinfo : P.index.function? f = some info) :
    P.KnowsGenerated C O (g.ofBody P.calls s info.body) := by
  refine List.foldlRecOn (motive := fun g => P.KnowsGenerated C O g) _ _ h fun g hg stmt hstmt => ?_
  exact hg.ofStmt hbounded hs hinfo hstmt

end Generation

section Facts

variable {f : PointerFacts}

theorem knowsFacts_empty : P.KnowsFacts C O .empty where
  var _ _ h := absurd h SortedSet.not_mem_empty
  field _ _ _ h := absurd h SortedSet.not_mem_empty
  target _ _ h := absurd h SortedSet.not_mem_empty

theorem KnowsFacts.addVar (h : P.KnowsFacts C O f) {v : PointerVar} {objects : SortedSet Nat}
    (hv : P.KnowsVar C v) (hobjects : ∀ o ∈ objects, o < O) :
    P.KnowsFacts C O (f.addVar v objects) where
  var := by
    intro w o ho
    rcases PointerFacts.mem_grow.1 ho with hold | ⟨rfl, hnew⟩
    · exact h.var hold
    · exact ⟨hv, hobjects o hnew⟩
  field := h.field
  target := h.target

theorem KnowsFacts.addField (h : P.KnowsFacts C O f) {a : Nat} {field : PointerField}
    {objects : SortedSet Nat} (ha : a < O) (hfield : field ∈ P.fields)
    (hobjects : ∀ o ∈ objects, o < O) : P.KnowsFacts C O (f.addField a field objects) where
  var := h.var
  field := by
    intro b x o ho
    rcases PointerFacts.mem_grow.1 ho with hold | ⟨heq, hnew⟩
    · exact h.field hold
    · cases heq
      exact ⟨ha, hfield, hobjects o hnew⟩
  target := h.target

theorem KnowsFacts.addTarget (h : P.KnowsFacts C O f) {site t : Nat}
    (hsite : site ∈ P.index.exprNodes) (ht : t < P.index.functions.size) :
    P.KnowsFacts C O (f.addTarget site t) where
  var := h.var
  field := h.field
  target := by
    intro s u hu
    rcases PointerFacts.mem_grow.1 hu with hold | ⟨rfl, hnew⟩
    · exact h.target hold
    · rw [SortedSet.mem_singleton.1 hnew]
      exact ⟨hsite, ht⟩

theorem KnowsFacts.addOne (h : P.KnowsFacts C O f) {v : PointerVar} (hv : P.KnowsVar C v) {o : Nat}
    (ho : o < O) : P.KnowsFacts C O (f.addVar v (.singleton o)) :=
  h.addVar hv fun a ha => by rwa [SortedSet.mem_singleton.1 ha]

theorem KnowsFacts.copy (h : P.KnowsFacts C O f) (source : PointerVar) {dest : PointerVar}
    (hdest : P.KnowsVar C dest) : P.KnowsFacts C O (f.copy source dest) :=
  h.addVar hdest fun _ ho => (h.var ho).2

theorem KnowsFacts.load (h : P.KnowsFacts C O f) (base : PointerVar) (field : PointerField)
    {dest : PointerVar} (hdest : P.KnowsVar C dest) : P.KnowsFacts C O (f.load base field dest) :=
  List.foldlRecOn (motive := fun g => P.KnowsFacts C O g) _ _ h fun _ hg _ _ =>
    hg.addVar hdest fun _ ho => (hg.field ho).2.2

theorem KnowsFacts.store (h : P.KnowsFacts C O f) (base : PointerVar) {field : PointerField}
    (hfield : field ∈ P.fields) (source : PointerVar) :
    P.KnowsFacts C O (f.store base field source) :=
  List.foldlRecOn (motive := fun g => P.KnowsFacts C O g) _ _ h fun _ hg _ ha =>
    hg.addField (h.var ha).2 hfield fun _ ho => (h.var ho).2

end Facts

section Passes

variable {t : ContextTable}

/-- The context of a path over the functions of a program has a number. -/
theorem KnowsContexts.intern (h : P.KnowsContexts t) {path : List Nat}
    (hpath : ∀ a ∈ path, a < P.index.functions.size) :
    P.KnowsContexts (t.intern path).2 ∧ (t.intern path).1 < (t.intern path).2.paths.size ∧
      t.paths.size ≤ (t.intern path).2.paths.size := by
  obtain ⟨hproper, hfound⟩ := h.toProper.intern path
  refine ⟨⟨hproper, ?_⟩, (Array.getElem?_eq_some_iff.1 hfound).1, t.size_le_intern path⟩
  have hlimit := mem_contexts_limit hpath
  unfold ContextTable.intern
  rw [h.depth_eq]
  dsimp only
  split
  · exact h.paths
  · intro κ hκ
    rcases Array.mem_push.1 hκ with hκ | rfl
    · exact h.paths κ hκ
    · exact hlimit

theorem KnowsContexts.lt_of_mem_path (h : P.KnowsContexts t) {c a : Nat} (ha : a ∈ t.path c) :
    a < P.index.functions.size := by
  rw [ContextTable.path, Array.getD_eq_getD_getElem?] at ha
  cases hc : t.paths[c]? with
  | none =>
      rw [hc] at ha
      cases ha
  | some κ =>
      rw [hc] at ha
      exact lt_of_mem_words (h.paths κ (Array.mem_of_getElem? hc)) ha

theorem KnowsContexts.push (h : P.KnowsContexts t) (caller : Nat) {callee : Nat}
    (hcallee : callee < P.index.functions.size) :
    P.KnowsContexts (t.push caller callee).2 ∧
      (t.push caller callee).1 < (t.push caller callee).2.paths.size ∧
      t.paths.size ≤ (t.push caller callee).2.paths.size := by
  refine h.intern fun a ha => ?_
  rcases List.mem_append.1 ha with ha | ha
  · exact h.lt_of_mem_path ha
  · rwa [List.mem_singleton.1 ha]

/-- Whether a pass over constraints about contexts and objects below some numbers keeps to numbers
that are given. -/
structure KnowsPass (P : FlowProgram) (C O : Nat) (p : PointerPass) : Prop where
  contexts : P.KnowsContexts p.contexts
  grown : C ≤ p.contexts.paths.size
  facts : P.KnowsFacts p.contexts.paths.size O p.facts
  reached : ∀ q ∈ p.reached, q.1 < P.index.functions.size ∧ q.2 < p.contexts.paths.size

variable {p : PointerPass} {c : PointerCall}

theorem KnowsPass.update (h : P.KnowsPass C O p) (change : PointerFacts → PointerFacts)
    (hchange : P.KnowsFacts p.contexts.paths.size O (change p.facts)) :
    P.KnowsPass C O (p.update change) :=
  ⟨h.contexts, h.grown, hchange, h.reached⟩

/-- Entering a function of the program keeps to its parameters. -/
theorem KnowsPass.enter (h : P.KnowsPass C O p) (hresult : P.KnowsVar C c.result)
    {objects : Array HeapObject} {receiver : Option Nat} (hreceiver : ∀ o ∈ receiver, o < O)
    (skip : Nat) {function : Nat} (hfunction : function < P.index.functions.size) :
    P.KnowsPass C O (p.enter (P.scene objects) c receiver skip function) := by
  obtain ⟨hcontexts, hlt, hgrown⟩ := h.contexts.push c.context hfunction
  have hparam {x : String} (hx : x ∈ P.index.params function) :
      P.KnowsVar (p.contexts.push c.context function).2.paths.size
        (.named function (p.contexts.push c.context function).1 x) :=
    ⟨hfunction, hlt, ProgramIndex.mem_varNames_of_param hx⟩
  have hfacts := h.facts.mono hgrown (Nat.le_refl O)
  rw [PointerPass.enter_eq]
  refine ⟨hcontexts, Nat.le_trans h.grown hgrown, ?_, ?_⟩
  · refine KnowsFacts.copy ?_ _ (hresult.mono (Nat.le_trans h.grown hgrown))
    refine List.foldlRecOn (motive := fun f => P.KnowsFacts _ O f) _ _ ?_ fun f hf q hq =>
      hf.copy _ (hparam (List.mem_of_mem_drop (List.of_mem_zip hq).2))
    unfold PointerPass.receive
    split
    · next object self rest hparams =>
        exact hfacts.addOne (hparam (hparams ▸ List.mem_cons_self)) (hreceiver object rfl)
    · exact hfacts
  · intro q hq
    rcases List.mem_cons.1 hq with rfl | hq
    · exact ⟨hfunction, hlt⟩
    · exact ⟨(h.reached q hq).1, Nat.lt_of_lt_of_le (h.reached q hq).2 hgrown⟩

variable (hbounded : P.Bounded)
include hbounded

theorem lt_of_method? {objects : Array HeapObject} {method : String} {object function : Nat}
    (h : (P.scene objects).method? method object = some function) :
    function < P.index.functions.size := by
  obtain ⟨o, -, h⟩ := Option.bind_eq_some_iff.1 h
  obtain ⟨className, -, h⟩ := Option.bind_eq_some_iff.1 h
  exact hbounded.methods _ _ _ h

theorem KnowsPass.dispatch (h : P.KnowsPass C O p) (hsite : c.site ∈ P.index.exprNodes)
    (hresult : P.KnowsVar C c.result) (objects : Array HeapObject) (method : String) {object : Nat}
    (hobject : object < O) : P.KnowsPass C O (p.dispatch (P.scene objects) c method object) := by
  unfold PointerPass.dispatch
  split
  · next function hmethod =>
      have hfunction := lt_of_method? hbounded hmethod
      refine (h.update (·.addTarget c.site function)
        (h.facts.addTarget hsite hfunction)).enter hresult (fun o ho => ?_) 1
        hfunction
      rwa [← Option.some.inj ho]
  · exact h

theorem KnowsPass.call (h : P.KnowsPass C O p) (hc : P.Knows C O (.call c))
    (objects : Array HeapObject) : P.KnowsPass C O (p.call (P.scene objects) c) := by
  obtain ⟨hsite, -, -, htarget, hresult⟩ := hc
  unfold PointerPass.call
  cases hkind : c.target with
  | static functions =>
      rw [hkind] at htarget
      exact List.foldlRecOn (motive := fun p => P.KnowsPass C O p) _ _ h fun q hq t ht =>
        hq.enter hresult (fun o ho => (Option.not_mem_none o ho).elim) 0 (htarget t ht)
  | construct object constructor =>
      rw [hkind] at htarget
      have hnew := h.update (·.addVar c.result (.singleton object))
        (h.facts.addOne (hresult.mono h.grown) htarget.1)
      refine List.foldlRecOn (motive := fun p => P.KnowsPass C O p) _ _ hnew fun q hq t ht => ?_
      refine hq.enter hresult (fun o ho => ?_) 1 (htarget.2 t (Option.mem_toList.1 ht))
      rw [← Option.some.inj ho]
      exact htarget.1
  | dispatch method receiver =>
      exact List.foldlRecOn (motive := fun p => P.KnowsPass C O p) _ _ h fun q hq object ho =>
        hq.dispatch hbounded hsite hresult objects method (h.facts.var ho).2

theorem KnowsPass.apply (h : P.KnowsPass C O p) {con : Constraint} (hcon : P.Knows C O con)
    (objects : Array HeapObject) : P.KnowsPass C O (p.apply (P.scene objects) con) := by
  cases con with
  | alloc object dest =>
      exact h.update (·.addVar dest _) (h.facts.addOne (hcon.2.mono h.grown) hcon.1)
  | copy source dest =>
      exact h.update (·.copy source dest) (h.facts.copy source (KnowsVar.mono hcon h.grown))
  | load base field dest =>
      exact h.update (·.load base field dest)
        (h.facts.load base field (KnowsVar.mono hcon h.grown))
  | store base field source =>
      exact h.update (·.store base field source) (h.facts.store base hcon source)
  | call c => exact h.call hbounded hcon objects

end Passes

section Searches

variable {s : PointerSearch}

/-- Whether all that a search has found and still looks for is about the program and has numbers. -/
structure Ranges (P : FlowProgram) (s : PointerSearch) : Prop where
  contexts : P.KnowsContexts s.contexts
  moduleContext : 0 < s.contexts.paths.size
  generated : P.KnowsGenerated s.contexts.paths.size s.generated.objects.size s.generated
  facts : P.KnowsFacts s.contexts.paths.size s.generated.objects.size s.facts
  pairs : ∀ q, q ∈ s.reached ∨ q ∈ s.pending →
    q.1 < P.index.functions.size ∧ q.2 < s.contexts.paths.size

/-- At its start a search knows the root contexts of all functions. -/
theorem ranges_start (hsize : 0 < P.index.functions.size) :
    P.Ranges (.start P.index P.depth) := by
  have hrooted : P.Rooted P.index.functions.size
      ((PointerSearch.start P.index P.depth).pending,
        (PointerSearch.start P.index P.depth).contexts) := rooted_start _
  have hcontexts : P.KnowsContexts (PointerSearch.start P.index P.depth).contexts := by
    refine List.foldlRecOn (motive := fun acc : List (Nat × Nat) × ContextTable =>
      P.KnowsContexts acc.2) _ _ ⟨ContextTable.proper_ofDepth _, fun κ hκ => ?_⟩
      fun acc hacc f hf => (hacc.intern fun a ha => ?_).1
    · simp [ContextTable.ofDepth] at hκ
    · rw [List.mem_singleton.1 ha]
      exact List.mem_range.1 hf
  refine ⟨hcontexts, (Array.getElem?_eq_some_iff.1 (hrooted.moduleContext hsize)).1,
    knowsGenerated_empty, knowsFacts_empty, ?_⟩
  rintro q (hq | hq)
  · cases hq
  · obtain ⟨hlt, hroot⟩ := hrooted.pending q hq
    exact ⟨hlt, (Array.getElem?_eq_some_iff.1 hroot).1⟩

variable (hbounded : P.Bounded)
include hbounded

theorem Ranges.visit (h : P.Ranges s) {q : Nat × Nat} (hq : q ∈ s.reached ∨ q ∈ s.pending) :
    P.Ranges (s.visit P.index P.calls q) := by
  obtain ⟨hfunction, hcontext⟩ := h.pairs q hq
  unfold PointerSearch.visit
  split
  · exact h
  · have hinfo : P.index.function? q.1 = some P.index.functions[q.1] :=
      Array.getElem?_eq_getElem hfunction
    have hscope : P.KnowsScope s.contexts.paths.size
        (PointerSearch.scopeOf P.index q.1 q.2) := ⟨hfunction, hcontext, h.moduleContext⟩
    have hgenerated := h.generated.ofBody hbounded hscope hinfo
    rw [hinfo, Option.map_some, Option.getD_some]
    refine ⟨h.contexts, h.moduleContext, ⟨hgenerated.objects, Nat.le_refl _,
      hgenerated.constraints⟩, h.facts.mono (Nat.le_refl _) hgenerated.grown, ?_⟩
    rintro r (hr | hr)
    · rcases List.mem_cons.1 hr with rfl | hr
      · exact ⟨hfunction, hcontext⟩
      · exact h.pairs r (.inl hr)
    · exact h.pairs r (.inr hr)

theorem Ranges.discover (h : P.Ranges s) : P.Ranges (s.discover P.index P.calls) := by
  have hvisits : P.Ranges (s.pending.foldl (PointerSearch.visit P.index P.calls) s) := by
    refine (List.foldlRecOn (motive := fun t : PointerSearch =>
      P.Ranges t ∧ t.pending = s.pending) _ _ ⟨h, rfl⟩ fun t ht q hq => ?_).1
    exact ⟨ht.1.visit hbounded (.inr (ht.2 ▸ hq)), (visited_visit P t q).pending.trans ht.2⟩
  refine ⟨hvisits.contexts, hvisits.moduleContext, hvisits.generated, hvisits.facts, ?_⟩
  rintro q (hq | hq)
  · exact hvisits.pairs q (.inl hq)
  · cases hq

/-- Every part of a pass of a search keeps to numbers that are given. -/
theorem Ranges.pass (h : P.Ranges s) {constraints : List Constraint}
    (hconstraints : constraints ⊆ s.generated.constraints) :
    P.KnowsPass s.contexts.paths.size s.generated.objects.size
      (PointerPass.run (P.scene s.generated.objects) constraints s.facts s.contexts) :=
  List.foldlRecOn (motive := fun p => P.KnowsPass _ _ p) _ _
    ⟨h.contexts, Nat.le_refl _, h.facts, List.forall_mem_nil _⟩ fun _ hp _ hcon =>
    hp.apply hbounded (h.generated.constraints _ (hconstraints hcon)) _

/-- A step of a search keeps to numbers that are given. -/
theorem Ranges.step (h : P.Ranges s) : P.Ranges (s.step P.index P.classes P.calls) := by
  have hd := h.discover hbounded
  have hpass := hd.pass hbounded (List.reverse_subset.2 (List.Subset.refl _))
  refine ⟨hpass.contexts, Nat.lt_of_lt_of_le hd.moduleContext hpass.grown,
    hd.generated.mono hpass.grown, hpass.facts, ?_⟩
  rintro q (hq | hq)
  · obtain ⟨hfunction, hcontext⟩ := hd.pairs q (.inl hq)
    exact ⟨hfunction, Nat.lt_of_lt_of_le hcontext hpass.grown⟩
  · exact hpass.reached q (List.mem_reverse.1 (List.mem_filter.1 hq).1)

theorem Ranges.iterate_step (h : P.Ranges s) (n : Nat) :
    P.Ranges ((PointerSearch.step P.index P.classes P.calls)^[n] s) := by
  induction n with
  | zero => exact h
  | succ n ih =>
      rw [Function.iterate_succ_apply']
      exact ih.step hbounded

end Searches

end FlowProgram

end ValueFlow
