import Mathlib.Combinatorics.Enumerative.DoubleCounting
import Mathlib.Tactic.Ring
import ValueFlow.Proofs.PointsTo.Ranges
/-!
A search for references comes to its end.

Every step before the end adds a fact or reaches a function in a new context, and there are fewer
of both than steps in the budget. Main statement: `run_ends`.
-/

namespace ValueFlow

namespace PointerSearch

variable (ix : ProgramIndex)

/-- What a function adds to the size of its program. -/
def weight (f : FunctionInfo) : Nat :=
  1 + f.params.length + (Stmt.walkAll f.body).length + (walkExprs f.body).length

theorem programSize_eq : programSize ix = (ix.functions.toList.map weight).sum := by
  have fold (l : List FunctionInfo) (n : Nat) : l.foldl (fun n f =>
      n + 1 + f.params.length + (Stmt.walkAll f.body).length + (walkExprs f.body).length) n =
      n + (l.map weight).sum := by
    induction l generalizing n with
    | nil => rfl
    | cons f rest ih =>
        rw [List.foldl_cons, ih, List.map_cons, List.sum_cons, weight]
        omega
  rw [programSize, ← Array.foldl_toList, fold, Nat.zero_add]

theorem length_flatMap_le {α : Type} {g : FunctionInfo → List α} (h : ∀ f, (g f).length ≤ weight f) :
    (ix.functions.toList.flatMap g).length ≤ programSize ix := by
  rw [programSize_eq, List.length_flatMap]
  exact List.sum_le_sum fun f _ => h f

theorem size_functions_le : ix.functions.size ≤ programSize ix := by
  have hle := length_flatMap_le ix (g := fun f => [f]) fun f => by
    simp only [List.length_singleton, weight]
    omega
  rwa [List.flatMap_singleton', Array.length_toList] at hle

theorem length_exprNodes_le : ix.exprNodes.length ≤ programSize ix := by
  refine length_flatMap_le ix fun f => ?_
  rw [List.length_map, weight]
  omega

theorem length_varNames_le : ix.varNames.length ≤ programSize ix := by
  refine length_flatMap_le ix fun f => ?_
  have hle := List.length_filterMap_le FunctionInfo.boundBy (Stmt.walkAll f.body)
  rw [List.length_append, weight]
  omega

theorem length_attributes_le : ix.attributes.length ≤ programSize ix := by
  refine length_flatMap_le ix fun f => ?_
  have hle := List.length_filterMap_le Stmt.attribute? (Stmt.walkAll f.body)
  rw [weight]
  omega

/-- How many facts a search has found and how many functions it has reached, each in a context. -/
def extent (s : PointerSearch) : Nat := s.facts.count + (s.reached ++ s.pending).toFinset.card

end PointerSearch

namespace FlowProgram

open PointerSearch (extent programSize)

variable {P : FlowProgram} {s : PointerSearch}

section Count

/-- The variables of a program in contexts below a number. -/
def vars (P : FlowProgram) (C : Nat) : Finset PointerVar :=
  ((Finset.range P.index.functions.size ×ˢ Finset.range C ×ˢ P.index.varNames.toFinset).image
      fun q => .named q.1 q.2.1 q.2.2) ∪
    ((P.index.exprNodes.toFinset ×ˢ Finset.range C).image fun q => .value q.1 q.2) ∪
    (Finset.range P.index.functions.size ×ˢ Finset.range C).image fun q => .result q.1 q.2

variable {C O : Nat} {f : PointerFacts}

theorem KnowsVar.mem_vars {v : PointerVar} (h : P.KnowsVar C v) : v ∈ P.vars C := by
  unfold vars
  simp only [Finset.mem_union, Finset.mem_image, Finset.mem_product, Finset.mem_range,
    List.mem_toFinset]
  cases v with
  | named i c x => exact .inl (.inl ⟨(i, c, x), ⟨h.1, h.2.1, h.2.2⟩, rfl⟩)
  | value node c => exact .inl (.inr ⟨(node, c), h, rfl⟩)
  | result i c => exact .inr ⟨(i, c), h, rfl⟩

theorem card_vars_le (P : FlowProgram) (C : Nat) : (P.vars C).card ≤
    P.index.functions.size * (C * P.index.varNames.length) + P.index.exprNodes.length * C +
      P.index.functions.size * C := by
  refine (Finset.card_union_le _ _).trans (Nat.add_le_add ((Finset.card_union_le _ _).trans
    (Nat.add_le_add ?_ ?_)) ?_)
  · refine Finset.card_image_le.trans ?_
    rw [Finset.card_product, Finset.card_product, Finset.card_range, Finset.card_range]
    exact Nat.mul_le_mul_left _ (Nat.mul_le_mul_left _ (List.toFinset_card_le _))
  · refine Finset.card_image_le.trans ?_
    rw [Finset.card_product, Finset.card_range]
    exact Nat.mul_le_mul_right _ (List.toFinset_card_le _)
  · refine Finset.card_image_le.trans ?_
    rw [Finset.card_product, Finset.card_range, Finset.card_range]

/-- There are no more numbers of contexts than call paths. -/
theorem KnowsContexts.size_le {t : ContextTable} (h : P.KnowsContexts t) :
    t.paths.size ≤ P.contexts.card := by
  rw [← Array.length_toList, ← List.toFinset_card_of_nodup h.nodup]
  exact Finset.card_le_card fun κ hκ => h.paths κ (Array.mem_toList_iff.1 (List.mem_toFinset.1 hκ))

/-- There are no more objects than sites in contexts. -/
theorem KnowsObjects.size_le {objects : Array HeapObject} (h : P.KnowsObjects C objects) :
    objects.size ≤ P.index.exprNodes.length * C := by
  have hcard : (Finset.range objects.size).card ≤
      (P.index.exprNodes.toFinset ×ˢ Finset.range C).card := by
    apply Finset.card_le_card_of_forall_subsingleton
      (fun i q => ∃ o, objects[i]? = some o ∧ (o.site, o.context) = q)
    · intro i hi
      have ho := Array.getElem?_eq_getElem (Finset.mem_range.1 hi)
      obtain ⟨hsite, hcontext, -⟩ := h.known ho
      exact ⟨_, Finset.mem_product.2 ⟨List.mem_toFinset.2 hsite, Finset.mem_range.2 hcontext⟩,
        _, ho, rfl⟩
    · rintro q - i ⟨-, a, ha, rfl⟩ j ⟨-, b, hb, heq⟩
      obtain ⟨hsite, hcontext⟩ := Prod.mk.inj heq
      exact h.apart ha hb hsite.symm hcontext.symm
  rw [Finset.card_range, Finset.card_product, Finset.card_range] at hcard
  exact hcard.trans (Nat.mul_le_mul_right _ (List.toFinset_card_le _))

theorem KnowsFacts.card_vars (h : P.KnowsFacts C O f) :
    (PointerFacts.pairs f.vars).card ≤ (P.vars C).card * O := by
  rw [← Finset.card_range O, ← Finset.card_product]
  refine Finset.card_le_card ?_
  rintro ⟨v, o⟩ hmem
  obtain ⟨hv, ho⟩ := h.var (PointerFacts.mem_pairs.1 hmem)
  exact Finset.mem_product.2 ⟨hv.mem_vars, Finset.mem_range.2 ho⟩

theorem KnowsFacts.card_fields (h : P.KnowsFacts C O f) :
    (PointerFacts.pairs f.fields).card ≤ O * P.fields.length * O := by
  refine Nat.le_trans ?_ (Nat.mul_le_mul_right _ (Nat.mul_le_mul_left _
    (List.toFinset_card_le P.fields)))
  rw [← Finset.card_range O, ← Finset.card_product, ← Finset.card_product]
  refine Finset.card_le_card ?_
  rintro ⟨⟨a, field⟩, o⟩ hmem
  obtain ⟨ha, hfield, ho⟩ := h.field (PointerFacts.mem_pairs.1 hmem)
  exact Finset.mem_product.2 ⟨Finset.mem_product.2 ⟨Finset.mem_range.2 ha,
    List.mem_toFinset.2 hfield⟩, Finset.mem_range.2 ho⟩

theorem KnowsFacts.card_targets (h : P.KnowsFacts C O f) :
    (PointerFacts.pairs f.targets).card ≤
      P.index.exprNodes.length * P.index.functions.size := by
  have hsub : PointerFacts.pairs f.targets ⊆
      P.index.exprNodes.toFinset ×ˢ Finset.range P.index.functions.size := by
    rintro ⟨site, t⟩ hmem
    obtain ⟨hsite, ht⟩ := h.target (PointerFacts.mem_pairs.1 hmem)
    exact Finset.mem_product.2 ⟨List.mem_toFinset.2 hsite, Finset.mem_range.2 ht⟩
  refine (Finset.card_le_card hsub).trans ?_
  rw [Finset.card_product, Finset.card_range]
  exact Nat.mul_le_mul_right _ (List.toFinset_card_le _)

/-- Only so many functions are reached. -/
theorem Ranges.card_reached_le (h : P.Ranges s) :
    (s.reached ++ s.pending).toFinset.card ≤
      P.index.functions.size * s.contexts.paths.size := by
  rw [← Finset.card_range P.index.functions.size, ← Finset.card_range s.contexts.paths.size,
    ← Finset.card_product]
  refine Finset.card_le_card fun q hq => ?_
  rw [List.mem_toFinset, List.mem_append] at hq
  obtain ⟨hf, hc⟩ := h.pairs q hq
  exact Finset.mem_product.2 ⟨Finset.mem_range.2 hf, Finset.mem_range.2 hc⟩

end Count

/-- With `n` for the size of a program and `k` for its contexts, there are fewer facts and functions
in contexts than steps in a budget. -/
theorem lt_of_counts {n k places sites vars fields targets reached : Nat} (hk : 0 < k)
    (hplaces : places ≤ n * (k * n) + n * k + n * k) (hsites : sites ≤ n * k)
    (hvars : vars ≤ places * sites) (hfields : fields ≤ sites * (n + 1) * sites)
    (htargets : targets ≤ n * n) (hreached : reached ≤ n * k) :
    vars + fields + targets + reached <
      4 * ((n + 1) * (n + 1) * (n + 1) * (n + 1)) * (k * k) := by
  have hplaces' : places ≤ (n + 1) * (n + 1) * k := by
    calc places ≤ n * (k * n) + n * k + n * k + k := hplaces.trans (Nat.le_add_right _ _)
      _ = (n + 1) * (n + 1) * k := by ring
  have hsites' : sites ≤ (n + 1) * k := hsites.trans (Nat.mul_le_mul_right _ (Nat.le_succ n))
  have hpart : (n + 1) * (n + 1) * (n + 1) * (k * k) ≤
      (n + 1) * (n + 1) * (n + 1) * (n + 1) * (k * k) :=
    Nat.mul_le_mul_right _ (Nat.le_mul_of_pos_right _ (Nat.succ_pos n))
  have hone : 0 < (n + 1) * (k * k) := Nat.mul_pos (Nat.succ_pos n) (Nat.mul_pos hk hk)
  have hrest : 0 < (n + 1) * (n + 1) * k :=
    Nat.mul_pos (Nat.mul_pos (Nat.succ_pos n) (Nat.succ_pos n)) hk
  have hvars' : vars ≤ (n + 1) * (n + 1) * (n + 1) * (k * k) := by
    calc vars ≤ (n + 1) * (n + 1) * k * ((n + 1) * k) := hvars.trans (Nat.mul_le_mul hplaces' hsites')
      _ = (n + 1) * (n + 1) * (n + 1) * (k * k) := by ring
  have hfields' : fields ≤ (n + 1) * (n + 1) * (n + 1) * (k * k) := by
    calc fields ≤ (n + 1) * k * (n + 1) * ((n + 1) * k) :=
          hfields.trans (Nat.mul_le_mul (Nat.mul_le_mul_right _ hsites') hsites')
      _ = (n + 1) * (n + 1) * (n + 1) * (k * k) := by ring
  have htargets' : targets ≤ (n + 1) * (n + 1) * (n + 1) * (k * k) := by
    calc targets ≤ (n + 1) * (n + 1) :=
          htargets.trans (Nat.mul_le_mul (Nat.le_succ n) (Nat.le_succ n))
      _ ≤ (n + 1) * (n + 1) * ((n + 1) * (k * k)) := Nat.le_mul_of_pos_right _ hone
      _ = (n + 1) * (n + 1) * (n + 1) * (k * k) := by ring
  have hreached' : reached < (n + 1) * (n + 1) * (n + 1) * (k * k) := by
    calc reached ≤ n * k := hreached
      _ < (n + 1) * k := Nat.mul_lt_mul_of_pos_right (Nat.lt_succ_self n) hk
      _ ≤ (n + 1) * k * ((n + 1) * (n + 1) * k) := Nat.le_mul_of_pos_right _ hrest
      _ = (n + 1) * (n + 1) * (n + 1) * (k * k) := by ring
  rw [Nat.mul_assoc]
  omega

/-- A search stays below its budget. -/
theorem Ranges.extent_lt (h : P.Ranges s) :
    s.extent < (PointerSearch.budget P.index P.depth).size := by
  have hk : s.contexts.paths.size ≤
      (Budget.words (.ofNat P.index.functions.size) P.depth).size :=
    h.contexts.size_le.trans (card_words_le _ _)
  have hF := PointerSearch.size_functions_le P.index
  have hE := PointerSearch.length_exprNodes_le P.index
  have hX := PointerSearch.length_varNames_le P.index
  have hA : P.fields.length ≤ programSize P.index + 1 :=
    Nat.succ_le_succ (PointerSearch.length_attributes_le P.index)
  have hobjects := h.generated.objects.size_le.trans (Nat.mul_le_mul hE hk)
  rw [extent, PointerFacts.count, PointerSearch.budget, Budget.size_mul, Budget.size_mul,
    Budget.size_ofNat]
  refine lt_of_counts (Budget.size_words_pos _ _) ?_ hobjects h.facts.card_vars ?_ ?_ ?_
  · exact (card_vars_le P _).trans (Nat.add_le_add (Nat.add_le_add
      (Nat.mul_le_mul hF (Nat.mul_le_mul hk hX)) (Nat.mul_le_mul hE hk)) (Nat.mul_le_mul hF hk))
  · exact h.facts.card_fields.trans (Nat.mul_le_mul_right _ (Nat.mul_le_mul_left _ hA))
  · exact h.facts.card_targets.trans (Nat.mul_le_mul hE hF)
  · exact h.card_reached_le.trans (Nat.mul_le_mul hF hk)

/-- Every step before the end adds a fact or reaches a function in a new context. -/
theorem ends_or_extent_lt (P : FlowProgram) (s : PointerSearch) :
    s.Ends P.index P.classes P.calls ∨
      s.extent < (s.step P.index P.classes P.calls).extent := by
  have hvisited := visited_foldl P s.pending s
  have hgrows : s.facts.Grows (s.step P.index P.classes P.calls).facts := by
    have hpass := PointerFacts.Grows.foldl PointerPass.facts
      (fun p con => PointerPass.grows_apply
        ⟨P.index, P.classes, (s.discover P.index P.calls).generated.objects⟩ p con)
      (s.discover P.index P.calls).generated.constraints.reverse
      ⟨(s.discover P.index P.calls).facts, (s.discover P.index P.calls).contexts, []⟩
    exact hvisited.facts ▸ hpass
  have hold : ∀ q ∈ (s.reached ++ s.pending).toFinset,
      q ∈ (s.step P.index P.classes P.calls).reached := by
    intro q hq
    rw [List.mem_toFinset, List.mem_append] at hq
    exact (hvisited.reached q).2 hq
  have hsub : (s.reached ++ s.pending).toFinset ⊆ ((s.step P.index P.classes P.calls).reached ++
      (s.step P.index P.classes P.calls).pending).toFinset := by
    intro q hq
    exact List.mem_toFinset.2 (List.mem_append_left _ (hold q hq))
  rcases hgrows with hsame | hmore
  · cases hpending : (s.step P.index P.classes P.calls).pending with
    | nil => exact .inl ⟨hsame, hpending⟩
    | cons q rest =>
        have hq : q ∈ (s.step P.index P.classes P.calls).pending := by
          rw [hpending]
          exact List.mem_cons_self
        have hnew : q ∉ (s.step P.index P.classes P.calls).reached := by
          have hfilter := (List.mem_filter.1 hq).2
          rwa [Bool.not_eq_true', ← Bool.not_eq_true, List.contains_iff_mem] at hfilter
        have hlt := Finset.card_lt_card (hsub.ssubset_of_mem_notMem
          (List.mem_toFinset.2 (List.mem_append_right _ hq)) fun hmem => hnew (hold q hmem))
        right
        rw [extent, extent, hsame]
        exact Nat.add_lt_add_left hlt _
  · right
    exact Nat.add_lt_add_of_lt_of_le hmore (Finset.card_le_card hsub)

/-- Whether a state is the first from which a step finds nothing new. -/
def EndsAfter (P : FlowProgram) (n : Nat) (s : PointerSearch) : Prop :=
  (∀ m < n, ¬((PointerSearch.step P.index P.classes P.calls)^[m] s).Ends P.index P.classes
    P.calls) ∧
  ((PointerSearch.step P.index P.classes P.calls)^[n] s).Ends P.index P.classes P.calls

/-- With more steps than a search can extend, it comes to its end. -/
theorem exists_endsAfter (hbounded : P.Bounded) (h : P.Ranges s) {b : Budget}
    (hb : (PointerSearch.budget P.index P.depth).size ≤ b.size + s.extent) :
    ∃ n, P.EndsAfter n s ∧ PointerSearch.iterate P.index P.classes P.calls b s =
      (PointerSearch.step P.index P.classes P.calls)^[n + 1] s := by
  induction b generalizing s with
  | spent =>
      rw [Budget.size, Nat.zero_add] at hb
      exact absurd h.extent_lt (Nat.not_lt.2 hb)
  | more rest ih =>
      rw [PointerSearch.iterate]
      by_cases hend : s.Ends P.index P.classes P.calls
      · refine ⟨0, ⟨fun _ hm => absurd hm (Nat.not_lt_zero _), hend⟩, ?_⟩
        rw [if_pos]
        · rfl
        · rw [Bool.and_eq_true, decide_eq_true_eq, List.isEmpty_iff]
          exact hend
      · have hmore := (ends_or_extent_lt P s).resolve_left hend
        rw [Budget.size] at hb
        obtain ⟨n, ⟨hbefore, hafter⟩, hrun⟩ := ih () (h.step hbounded) (by omega)
        refine ⟨n + 1, ⟨?_, hafter⟩, ?_⟩
        · intro m hm
          cases m with
          | zero => exact hend
          | succ m => exact hbefore m (Nat.lt_of_succ_lt_succ hm)
        · rw [if_neg]
          · exact hrun
          · rw [Bool.and_eq_true, decide_eq_true_eq, List.isEmpty_iff]
            exact hend

/-- The analysis ends after the first step that finds nothing new, whatever the identifiers of the
program are. -/
theorem run_ends (hbounded : P.Bounded) (hsize : 0 < P.index.functions.size) :
    ∃ n, P.EndsAfter n (.start P.index P.depth) ∧
      PointerSearch.run P.index P.classes P.calls P.depth =
        (PointerSearch.step P.index P.classes P.calls)^[n + 1] (.start P.index P.depth) :=
  exists_endsAfter hbounded (ranges_start hsize) (Nat.le_add_right _ _)

end FlowProgram

end ValueFlow
