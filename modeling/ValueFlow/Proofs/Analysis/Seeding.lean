import ValueFlow.Proofs.Analysis.Joining
import ValueFlow.Proofs.Analysis.Presence
import ValueFlow.Proofs.CallGraph.Condensation
/-!
What functions are reported from.

Levels are reported on from the highest one down, and the inputs of all calls are collected on the
way. A function that cannot call itself has all its callers on higher levels, so when its turn
comes nothing is missing and nothing is added later: it is reported from the join of the inputs of
all its calls. Main statement: `seeded_from_all_calls`.
-/

namespace ValueFlow

theorem flatMap_filter_nonempty {α β : Type} (l : List α) (g : α → List β) :
    (l.filter fun a => !(g a).isEmpty).flatMap g = l.flatMap g := by
  induction l with
  | nil => rfl
  | cons a rest ih =>
      cases hg : g a with
      | nil => simp [hg, ih]
      | cons b bs => simp [hg, ih]

/-- Lists without repetition that share all elements that matter have the same parts. -/
theorem perm_flatMap {α β : Type} {l m : List α} {g : α → List β} (hl : l.Nodup) (hm : m.Nodup)
    (h : ∀ a, g a ≠ [] → (a ∈ l ↔ a ∈ m)) : (l.flatMap g).Perm (m.flatMap g) := by
  rw [← flatMap_filter_nonempty l, ← flatMap_filter_nonempty m]
  refine List.Perm.flatMap_right g ?_
  refine (List.perm_ext_iff_of_nodup (hl.filter _) (hm.filter _)).2 fun a => ?_
  rw [List.mem_filter, List.mem_filter, and_congr_left_iff]
  intro hg
  refine h a fun hnil => ?_
  rw [hnil] at hg
  cases hg

namespace Component

/-- The components of a level are those that have it. -/
theorem atLevel_eq_filter (cs : List Component) (level : Nat) :
    (atLevel cs level).filterMap (fun i => cs[i]?) = cs.filter fun c => decide (c.level = level) := by
  have hfst : cs.zipIdx.map Prod.fst = cs := List.zipIdx_map_fst 0 cs
  rw [atLevel, List.filterMap_map]
  have hfound : ∀ q ∈ cs.zipIdx.filter (fun p => decide (p.1.level = level)),
      ((fun i => cs[i]?) ∘ Prod.snd) q = (some ∘ Prod.fst) q := by
    intro q hq
    exact List.mk_mem_zipIdx_iff_getElem?.1 (List.mem_filter.1 hq).1
  rw [List.filterMap_congr hfound, List.filterMap_eq_map]
  conv_rhs => rw [← hfst, List.filter_map]
  rfl

end Component

namespace ProgramFacts

variable (facts : ProgramFacts)

/-- The reports on the levels from a given one up. -/
def reportsFrom (level : Nat) : Reports :=
  (((List.range (Component.depth facts.components)).drop level).map
    (Component.atLevel facts.components)).reverse.foldl (facts.reportLevel facts.bottomUp.table)
    ⟨∅, ∅, 0⟩

/-- What the report on a function starts from. -/
def seedOf (f : Nat) : Option CallInput :=
  (facts.components.find? fun c => c.members.contains f).bind fun c =>
    if c.recursive then none else (facts.reportsFrom (c.level + 1)).inputs.get? f

def reportOf (f : Nat) : FunctionReport :=
  facts.reportFunction facts.bottomUp.table (facts.seedOf f) f

/-- The calls that the pass over a function meets for its report, with what they pass. -/
def passedFrom (f : Nat) : List (Nat × CallInput) :=
  match facts.graph? f with
  | none => []
  | some g => (facts.scope facts.bottomUp.table f g).passedIn g
      (facts.solve facts.bottomUp.table f g (facts.seedOf f))

/-- What the calls in one function pass to another. -/
def recordedFor (f caller : Nat) : List CallInput := CallInputs.inputsFor f (facts.passedFrom caller)

/-- The functions with calls that may reach a function. -/
def callersOf (f : Nat) : List Nat :=
  (List.range facts.calls.functions.size).filter fun j => (facts.calls.successors j).contains f

def functionsAt (level : Nat) : List Nat :=
  (facts.componentsOf (Component.atLevel facts.components level)).flatMap Component.members

/-- The functions of the levels from a given one up, highest level first. -/
def functionsFrom (level : Nat) : List Nat :=
  ((List.range (Component.depth facts.components)).drop level).reverse.flatMap facts.functionsAt

section Levels

variable {k : Nat}

theorem topDown_eq : facts.topDown facts.bottomUp.table = facts.reportsFrom 0 := by
  rw [topDown, Component.levels_eq]
  rfl

theorem reportsFrom_depth : facts.reportsFrom (Component.depth facts.components) = ⟨∅, ∅, 0⟩ := by
  rw [reportsFrom, List.drop_of_length_le (Nat.le_of_eq List.length_range)]
  rfl

theorem drop_levels (h : k < Component.depth facts.components) :
    (List.range (Component.depth facts.components)).drop k =
      k :: (List.range (Component.depth facts.components)).drop (k + 1) := by
  rw [List.drop_eq_getElem_cons (by rwa [List.length_range]), List.getElem_range]

theorem reportsFrom_of_lt (h : k < Component.depth facts.components) :
    facts.reportsFrom k = facts.reportLevel facts.bottomUp.table (facts.reportsFrom (k + 1))
      (Component.atLevel facts.components k) := by
  rw [reportsFrom, facts.drop_levels h, List.map_cons, List.reverse_cons, List.foldl_append]
  rfl

theorem functionsFrom_depth : facts.functionsFrom (Component.depth facts.components) = [] := by
  rw [functionsFrom, List.drop_of_length_le (Nat.le_of_eq List.length_range)]
  rfl

theorem functionsFrom_of_lt (h : k < Component.depth facts.components) :
    facts.functionsFrom k = facts.functionsFrom (k + 1) ++ facts.functionsAt k := by
  rw [functionsFrom, facts.drop_levels h, List.reverse_cons, List.flatMap_append,
    List.flatMap_singleton]
  rfl

theorem mem_functionsAt {f : Nat} :
    f ∈ facts.functionsAt k ↔ ∃ c ∈ facts.components, f ∈ c.members ∧ c.level = k := by
  rw [functionsAt, List.mem_flatMap]
  constructor
  · rintro ⟨c, hc, hf⟩
    obtain ⟨hc, hlevel⟩ := (facts.mem_componentsOf_atLevel).1 hc
    exact ⟨c, hc, hf, hlevel⟩
  · rintro ⟨c, hc, hf, hlevel⟩
    exact ⟨c, (facts.mem_componentsOf_atLevel).2 ⟨hc, hlevel⟩, hf⟩

theorem mem_functionsFrom {f : Nat} (hk : k ≤ Component.depth facts.components) :
    f ∈ facts.functionsFrom k ↔ ∃ c ∈ facts.components, f ∈ c.members ∧ k ≤ c.level := by
  induction hk using Nat.decreasingInduction with
  | self =>
      rw [functionsFrom_depth]
      constructor
      · exact fun h => nomatch h
      · rintro ⟨c, hc, -, hle⟩
        exact absurd (Component.level_lt_depth hc) (Nat.not_lt.2 hle)
  | of_succ k hk ih =>
      rw [facts.functionsFrom_of_lt hk, List.mem_append, ih, mem_functionsAt]
      constructor
      · rintro (⟨c, hc, hf, hle⟩ | ⟨c, hc, hf, rfl⟩)
        · exact ⟨c, hc, hf, Nat.le_of_lt hle⟩
        · exact ⟨c, hc, hf, Nat.le_refl _⟩
      · rintro ⟨c, hc, hf, hle⟩
        rcases Nat.eq_or_lt_of_le hle with heq | hlt
        · exact .inr ⟨c, hc, hf, heq.symm⟩
        · exact .inl ⟨c, hc, hf, hlt⟩

end Levels

theorem calls_reportOf (f : Nat) :
    (facts.reportOf f).calls = CallInputs.recordAll ∅ (facts.passedFrom f) := by
  rw [reportOf, reportFunction, passedFrom]
  cases facts.graph? f with
  | none => rfl
  | some g => exact FunctionScope.calls_replay _ g _

theorem get?_calls_reportOf (f caller : Nat) :
    (facts.reportOf caller).calls.get? f = CallInput.joinAll (facts.recordedFor f caller) := by
  rw [calls_reportOf, CallInputs.get?_recordAll]
  rfl

theorem input_reportOf (f : Nat) :
    (facts.reportOf f).summary.input = facts.inputOf f (facts.seedOf f) := by
  rw [reportOf, reportFunction]
  cases facts.graph? f with
  | none => rfl
  | some g =>
      dsimp only
      split <;> split <;> rfl

/-- The value of a parameter is the argument of the seed. -/
theorem get?_input_reportOf {f k : Nat} {x : String} {s : CallInput} {v : Value}
    (hparams : (facts.index.params f).Nodup) (hs : facts.seedOf f = some s)
    (hx : (facts.index.params f)[k]? = some x) (hv : s.args[k]? = some v) :
    (facts.reportOf f).summary.input.get? x = some v := by
  rw [input_reportOf, inputOf, hs]
  have hmem : (x, k) ∈ (facts.index.params f).zipIdx := List.mk_mem_zipIdx_iff_getElem?.2 hx
  have hget := SortedMap.get?_ofList_map_of_mem Prod.fst
    (fun q : String × Nat => (((some s).bind fun s => s.args[q.2]?).getD .top : Value)) hmem ?_
  · rw [hget]
    show some ((s.args[k]?).getD .top) = some v
    rw [hv]
    rfl
  · rintro ⟨y, j⟩ hj (rfl : y = x)
    have hj := List.mk_mem_zipIdx_iff_getElem?.1 hj
    exact Prod.ext rfl ((List.getElem?_inj (List.getElem?_eq_some_iff.1 hj).1 hparams).1
      (hj.trans hx.symm))

/-- Whether no two components share a function. -/
def Separated (facts : ProgramFacts) : Prop :=
  ∀ ⦃c d f⦄, c ∈ facts.components → d ∈ facts.components → f ∈ c.members → f ∈ d.members → c = d

/-- Whether all that the calls in a function pass on is canonical. -/
def PassesCanonical (facts : ProgramFacts) (j : Nat) : Prop :=
  ∀ q ∈ facts.passedFrom j, q.2.Canonical

section Canonical

variable {facts} {f j : Nat}

theorem passesCanonical_of_seed (hseed : ∀ s ∈ facts.seedOf j, s.Canonical) :
    facts.PassesCanonical j := by
  intro q hq
  rw [passedFrom] at hq
  split at hq
  · cases hq
  · next g hg =>
      have hT : ∀ f s, (facts.scope facts.bottomUp.table j g).summaries.get? f = some s →
          s.Canonical := facts.canonical_bottomUp
      exact FunctionScope.canonical_of_mem_passedIn hT (canonical_solve hT hseed) hq

theorem canonical_recordedFor (hj : facts.PassesCanonical j) :
    ∀ r ∈ facts.recordedFor f j, r.Canonical :=
  fun r hr => hj (f, r) (CallInputs.mem_inputsFor.1 hr)

theorem canonical_flatMap {js : List Nat} (hjs : ∀ j ∈ js, facts.PassesCanonical j) :
    ∀ r ∈ js.flatMap (facts.recordedFor f), r.Canonical := by
  intro r hr
  obtain ⟨j, hj, hr⟩ := List.mem_flatMap.1 hr
  exact canonical_recordedFor (hjs j hj) r hr

theorem get?_merged {js : List Nat} (hjs : ∀ j ∈ js, facts.PassesCanonical j) :
    SortedMap.get? (js.foldl (fun (acc : CallInputs) j => acc.merge (facts.reportOf j).calls) ∅) f =
      CallInput.joinAll (js.flatMap (facts.recordedFor f)) := by
  induction js using List.reverseRecOn with
  | nil => rfl
  | append_singleton js j ih =>
      have hfront : ∀ i ∈ js, facts.PassesCanonical i :=
        fun i hi => hjs i (List.mem_append_left _ hi)
      have hlast := hjs j (List.mem_append_right _ List.mem_cons_self)
      rw [List.foldl_append, List.flatMap_append, List.flatMap_singleton,
        CallInput.joinAll_append (canonical_flatMap hfront) (canonical_recordedFor hlast),
        ← ih hfront, ← get?_calls_reportOf]
      exact SortedMap.get?_unionWith _ _ _ f

end Canonical

section Order

variable {facts} (hapart : facts.Separated) {c : Component} {f k : Nat}
include hapart

theorem find?_component (hc : c ∈ facts.components) (hf : f ∈ c.members) :
    (facts.components.find? fun c => c.members.contains f) = some c := by
  have hsome : (facts.components.find? fun c => c.members.contains f).isSome = true :=
    List.find?_isSome.2 ⟨c, hc, List.contains_iff_mem.2 hf⟩
  obtain ⟨d, hd⟩ := Option.isSome_iff_exists.1 hsome
  have hfd := List.find?_some hd
  rw [hd, hapart hc (List.mem_of_find?_eq_some hd) hf (List.contains_iff_mem.1 hfd)]

theorem seedOf_eq (hc : c ∈ facts.components) (hf : f ∈ c.members) :
    facts.seedOf f =
      if c.recursive then none else (facts.reportsFrom (c.level + 1)).inputs.get? f := by
  rw [seedOf, find?_component hapart hc hf]
  rfl

/-- A component is reported on from the seeds of its functions. -/
theorem reportComponent_eq (hc : c ∈ facts.components) :
    facts.reportComponent facts.bottomUp.table (facts.reportsFrom (c.level + 1)).inputs c =
      c.members.map fun f => (f, facts.reportOf f) := by
  refine List.map_congr_left fun f hf => ?_
  rw [reportOf, seedOf_eq hapart hc hf]

theorem results_eq (k : Nat) :
    (facts.componentsOf (Component.atLevel facts.components k)).flatMap
      (facts.reportComponent facts.bottomUp.table (facts.reportsFrom (k + 1)).inputs) =
      (facts.functionsAt k).map fun f => (f, facts.reportOf f) := by
  rw [functionsAt, List.map_flatMap]
  refine List.flatMap_congr fun c hc => ?_
  obtain ⟨hmem, rfl⟩ := (facts.mem_componentsOf_atLevel).1 hc
  exact reportComponent_eq hapart hmem

theorem table_reportsFrom (hk : k < Component.depth facts.components) :
    (facts.reportsFrom k).table = overlay (facts.reportsFrom (k + 1)).table
      ((facts.functionsAt k).map fun f => (f, (facts.reportOf f).summary)) := by
  rw [reportsFrom_of_lt _ hk, reportLevel]
  dsimp only
  rw [results_eq hapart, List.map_map]
  rfl

theorem inputs_reportsFrom (hk : k < Component.depth facts.components) :
    (facts.reportsFrom k).inputs = (facts.reportsFrom (k + 1)).inputs.merge
      ((facts.functionsAt k).foldl
        (fun (acc : CallInputs) j => acc.merge (facts.reportOf j).calls) ∅) := by
  rw [reportsFrom_of_lt _ hk, reportLevel]
  dsimp only
  rw [results_eq hapart, List.foldl_map]

/-- What was reported on a function stays in the reports on all lower levels. -/
theorem get?_reportsFrom (hk : k ≤ Component.depth facts.components)
    (hc : c ∈ facts.components) (hf : f ∈ c.members) (hle : k ≤ c.level) :
    (facts.reportsFrom k).table.get? f = some (facts.reportOf f).summary := by
  induction hk using Nat.decreasingInduction with
  | self => exact absurd (Component.level_lt_depth hc) (Nat.not_lt.2 hle)
  | of_succ k hk ih =>
      rw [table_reportsFrom hapart hk, get?_overlay_map]
      split
      · rfl
      · next hnot =>
          refine ih (Nat.lt_of_le_of_ne hle fun heq => hnot ?_)
          exact (facts.mem_functionsAt).2 ⟨c, hc, hf, heq.symm⟩

/-- The inputs that levels collect are the joins of all inputs that their calls pass on. -/
theorem get?_inputs (hk : k ≤ Component.depth facts.components) :
    (∀ j ∈ facts.functionsFrom k, facts.PassesCanonical j) ∧
    ∀ f, (facts.reportsFrom k).inputs.get? f =
      CallInput.joinAll ((facts.functionsFrom k).flatMap (facts.recordedFor f)) := by
  induction hk using Nat.decreasingInduction with
  | self =>
      rw [functionsFrom_depth, reportsFrom_depth]
      exact ⟨fun _ hj => (nomatch hj), fun _ => rfl⟩
  | of_succ k hk ih =>
      obtain ⟨hcanonical, hinputs⟩ := ih
      have hnew : ∀ j ∈ facts.functionsAt k, facts.PassesCanonical j := by
        intro j hj
        obtain ⟨c, hc, hjc, rfl⟩ := (facts.mem_functionsAt).1 hj
        refine passesCanonical_of_seed fun s hs => ?_
        rw [seedOf_eq hapart hc hjc] at hs
        split at hs
        · cases hs
        · rw [hinputs] at hs
          exact CallInput.canonical_of_joinAll (canonical_flatMap hcanonical) s hs
      rw [functionsFrom_of_lt _ hk]
      refine ⟨fun j hj => (List.mem_append.1 hj).elim (hcanonical j) (hnew j), fun f => ?_⟩
      rw [inputs_reportsFrom hapart hk, List.flatMap_append,
        CallInput.joinAll_append (canonical_flatMap hcanonical) (canonical_flatMap hnew),
        ← hinputs f, ← get?_merged hnew]
      exact SortedMap.get?_unionWith _ _ _ f

end Order

/-- What the order of reports rests on: every function lies in one component, and calls lead from
callers, which are on a higher level than a function that cannot call itself. -/
structure Ordered (facts : ProgramFacts) : Prop where
  separated : facts.Separated
  nodup : facts.components.Nodup
  members : ∀ c ∈ facts.components, c.members.Nodup
  placed : ∀ j < facts.calls.functions.size, ∃ c ∈ facts.components, j ∈ c.members
  caller : ∀ j, ∀ q ∈ facts.passedFrom j, j < facts.calls.functions.size ∧
    q.1 ∈ facts.calls.successors j ∧ ∃ (args : List Value) (heap : Heap),
      q.2 = ⟨(List.range (facts.index.params q.1).length).map fun k => args.getD k .top,
        heap.entryView⟩
  lower : ∀ ⦃c d f j⦄, c ∈ facts.components → c.recursive = false → f ∈ c.members →
    d ∈ facts.components → j ∈ d.members → f ∈ facts.calls.successors j → c.level < d.level

/-- What is right about the seed of a function that cannot call itself. -/
structure Seeded (facts : ProgramFacts) (c : Component) (f : Nat) : Prop where
  /-- The function is reported on from its seed, in the turn of its component. -/
  turn : (f, facts.reportFunction facts.bottomUp.table (facts.seedOf f) f) ∈
    facts.reportComponent facts.bottomUp.table (facts.reportsFrom (c.level + 1)).inputs c
  final : (facts.topDown facts.bottomUp.table).table.get? f = some (facts.reportOf f).summary
  /-- What reports record about the function is the join of what their calls pass to it. -/
  recorded : ∀ j, (facts.reportOf j).calls.get? f = CallInput.joinAll (facts.recordedFor f j)
  /-- Calls pass one value for each parameter, any value for a missing one, and the heap as it is
  at an entry. -/
  filled : ∀ j, ∀ r ∈ facts.recordedFor f j, ∃ (args : List Value) (heap : Heap),
    r = ⟨(List.range (facts.index.params f).length).map fun k => args.getD k .top, heap.entryView⟩
  absent : facts.seedOf f = none ↔ ∀ j ∈ facts.callersOf f, facts.recordedFor f j = []
  /-- The seed is the join of all that callers pass, taken in any order. -/
  seed : ∀ l : List CallInput, l.Perm ((facts.callersOf f).flatMap (facts.recordedFor f)) →
    facts.seedOf f = CallInput.joinAll l
  /-- Each parameter is above all arguments that are passed for it. -/
  above : (facts.index.params f).Nodup → ∀ j, ∀ r ∈ facts.recordedFor f j,
    ∀ (k : Nat) (x : String) (v : Value), (facts.index.params f)[k]? = some x →
      r.args[k]? = some v → ∃ w : Value, (facts.reportOf f).summary.input.get? x = some w ∧
        v.leq w = true
  /-- Only callers record a call of the function, and none from its own level on. -/
  closed : ∀ j, facts.recordedFor f j ≠ [] → j ∈ facts.callersOf f ∧
    ∀ d ∈ facts.components, j ∈ d.members → c.level < d.level

namespace Ordered

variable {facts} (h : facts.Ordered) {c : Component} {f j : Nat}
include h

theorem nodup_functionsFrom (k : Nat) : (facts.functionsFrom k).Nodup := by
  have hlevels : ((List.range (Component.depth facts.components)).drop k).reverse.Nodup :=
    List.nodup_reverse.2 (List.nodup_range.sublist (List.drop_sublist _ _))
  refine List.nodup_flatMap.2 ⟨fun level _ => ?_, hlevels.imp fun {a b} hne f hfa hfb => hne ?_⟩
  · rw [functionsAt, componentsOf, Component.atLevel_eq_filter]
    refine List.nodup_flatMap.2 ⟨fun c hc => h.members c (List.mem_filter.1 hc).1, ?_⟩
    refine (h.nodup.filter _).imp_of_mem fun hc hd hne f hfc hfd => hne ?_
    exact h.separated (List.mem_filter.1 hc).1 (List.mem_filter.1 hd).1 hfc hfd
  · obtain ⟨c, hc, hfc, rfl⟩ := (facts.mem_functionsAt).1 hfa
    obtain ⟨d, hd, hfd, rfl⟩ := (facts.mem_functionsAt).1 hfb
    rw [h.separated hc hd hfc hfd]

theorem caller_of_mem {r : CallInput} (hr : r ∈ facts.recordedFor f j) :
    j < facts.calls.functions.size ∧ f ∈ facts.calls.successors j ∧
      ∃ (args : List Value) (heap : Heap),
        r = ⟨(List.range (facts.index.params f).length).map fun k => args.getD k .top,
          heap.entryView⟩ :=
  h.caller j _ (CallInputs.mem_inputsFor.1 hr)

theorem mem_callersOf {r : CallInput} (hr : r ∈ facts.recordedFor f j) : j ∈ facts.callersOf f := by
  obtain ⟨hlt, hcall, -⟩ := h.caller_of_mem hr
  exact List.mem_filter.2 ⟨List.mem_range.2 hlt, List.contains_iff_mem.2 hcall⟩

section Seed

variable (hc : c ∈ facts.components) (hrecursive : c.recursive = false) (hf : f ∈ c.members)
include hc hrecursive hf

theorem mem_functionsFrom {r : CallInput} (hr : r ∈ facts.recordedFor f j) :
    j ∈ facts.functionsFrom (c.level + 1) := by
  obtain ⟨hlt, hcall, -⟩ := h.caller_of_mem hr
  obtain ⟨d, hd, hj⟩ := h.placed j hlt
  exact (facts.mem_functionsFrom (Component.level_lt_depth hc)).2
    ⟨d, hd, hj, h.lower hc hrecursive hf hd hj hcall⟩

/-- The seed of a function is the join of what its callers pass to it, in any order. -/
theorem seedOf_eq_joinAll {l : List CallInput}
    (hl : l.Perm ((facts.callersOf f).flatMap (facts.recordedFor f))) :
    facts.seedOf f = CallInput.joinAll l := by
  obtain ⟨hcanonical, hinputs⟩ := get?_inputs h.separated (Component.level_lt_depth hc)
  have hperm : ((facts.functionsFrom (c.level + 1)).flatMap (facts.recordedFor f)).Perm
      ((facts.callersOf f).flatMap (facts.recordedFor f)) := by
    refine perm_flatMap (h.nodup_functionsFrom _) (List.nodup_range.filter _) fun j hj => ?_
    obtain ⟨r, hr⟩ := List.exists_mem_of_ne_nil _ hj
    exact ⟨fun _ => h.mem_callersOf hr, fun _ => h.mem_functionsFrom hc hrecursive hf hr⟩
  rw [seedOf_eq h.separated hc hf, hrecursive, if_neg Bool.false_ne_true, hinputs]
  exact CallInput.joinAll_perm (hperm.trans hl.symm) (canonical_flatMap hcanonical)

/-- Each parameter is above all arguments that are passed for it. -/
theorem exists_above (hparams : (facts.index.params f).Nodup) {r : CallInput}
    (hr : r ∈ facts.recordedFor f j) {k : Nat} {x : String} {v : Value}
    (hx : (facts.index.params f)[k]? = some x) (hv : r.args[k]? = some v) :
    ∃ w : Value, (facts.reportOf f).summary.input.get? x = some w ∧ v.leq w = true := by
  have hmem : r ∈ (facts.callersOf f).flatMap (facts.recordedFor f) :=
    List.mem_flatMap.2 ⟨j, h.mem_callersOf hr, hr⟩
  have hseed := h.seedOf_eq_joinAll hc hrecursive hf (List.Perm.refl _)
  cases hs : facts.seedOf f with
  | none =>
      rw [hs] at hseed
      rw [CallInput.joinAll_eq_none_iff.1 hseed.symm] at hmem
      cases hmem
  | some s =>
      rw [hs] at hseed
      have hlength : ∀ q ∈ (facts.callersOf f).flatMap (facts.recordedFor f),
          q.args.length = (facts.index.params f).length := by
        intro q hq
        obtain ⟨i, -, hq⟩ := List.mem_flatMap.1 hq
        obtain ⟨-, -, args, heap, rfl⟩ := h.caller_of_mem hq
        rw [List.length_map, List.length_range]
      obtain ⟨w, hw, hle⟩ := (CallInput.argsBelow_of_joinAll hlength hseed.symm).2 r hmem k v hv
      exact ⟨w, facts.get?_input_reportOf hparams hs hx hw, hle⟩

theorem seeded : facts.Seeded c f where
  turn := by
    rw [reportComponent_eq h.separated hc]
    exact List.mem_map_of_mem hf
  final := by
    rw [topDown_eq]
    exact get?_reportsFrom h.separated (Nat.zero_le _) hc hf (Nat.zero_le _)
  recorded := facts.get?_calls_reportOf f
  filled _ _ hr := (h.caller_of_mem hr).2.2
  absent := by
    rw [h.seedOf_eq_joinAll hc hrecursive hf (List.Perm.refl _), CallInput.joinAll_eq_none_iff,
      List.flatMap_eq_nil_iff]
  seed _ hl := h.seedOf_eq_joinAll hc hrecursive hf hl
  above hparams _ _ hr _ _ _ hx hv := h.exists_above hc hrecursive hf hparams hr hx hv
  closed := by
    intro j hj
    obtain ⟨r, hr⟩ := List.exists_mem_of_ne_nil _ hj
    exact ⟨h.mem_callersOf hr, fun d hd hjd =>
      h.lower hc hrecursive hf hd hjd (h.caller_of_mem hr).2.1⟩

end Seed

end Ordered

end ProgramFacts

namespace Program

variable {p : Program} {config : Config}

/-- Whatever passes an input on is a function of the program that may call what it passes it to. -/
theorem caller_of_mem_passedFrom (hids : (ProgramIndex.build p).nodeIds.Nodup) {j : Nat}
    {q : Nat × CallInput} (hq : q ∈ (p.facts config).passedFrom j) :
    j < (p.facts config).calls.functions.size ∧ q.1 ∈ (p.facts config).calls.successors j ∧
      ∃ (args : List Value) (heap : Heap),
        q.2 = ⟨(List.range ((p.facts config).index.params q.1).length).map fun k => args.getD k .top,
          heap.entryView⟩ := by
  rw [ProgramFacts.passedFrom] at hq
  split at hq
  · cases hq
  · next g hg =>
      obtain ⟨b, item, hitem, e, he, hcall, args, heap, hfill⟩ := FunctionScope.exists_of_mem_passedIn hq
      obtain ⟨info, hinfo, -⟩ := graph?_eq_some hg
      refine ⟨?_, mem_successors_of_mayCall hids hg hitem he hcall, args, heap, hfill⟩
      rw [size_calls_facts]
      exact (Array.getElem?_eq_some_iff.1 hinfo).1

theorem ordered_facts (config : Config) (hids : (ProgramIndex.build p).nodeIds.Nodup) :
    (p.facts config).Ordered where
  separated _ _ _ hc hd hf hf' := component_unique hc hd hf hf'
  nodup := by
    rw [ProgramFacts.components_ofIndex]
    exact CallGraph.nodup_components _
  members := by
    intro c hc
    rw [ProgramFacts.components_ofIndex] at hc
    exact (CallGraph.sorted_members (p.closed_facts config) hc).imp Nat.ne_of_lt
  placed := by
    rw [ProgramFacts.components_ofIndex]
    exact fun j hj => CallGraph.exists_component (p.closed_facts config) hj
  caller _ _ hq := caller_of_mem_passedFrom hids hq
  lower := by
    intro c d f j hc hrecursive hf hd hj hcall
    have hd' := hd
    rw [ProgramFacts.components_ofIndex] at hd'
    rcases CallGraph.exists_lower (p.closed_facts config) hd' hj hcall with
      ⟨hfd, hrec⟩ | ⟨lower, hl, hfl, hlt⟩
    · rw [component_unique hd hc hfd hf, hrecursive] at hrec
      cases hrec
    · rw [← ProgramFacts.components_ofIndex] at hl
      rwa [component_unique hl hc hfl hf] at hlt

/-- If no call reaches the module, it is reported from a state of which nothing is known. -/
theorem Numbered.seedOf_module (h : p.Numbered)
    (huncalled : ∀ ⦃node site⦄, (p.facts config).calls.site? node = some site →
      moduleId ∉ site.targets.toList) : (p.facts config).seedOf moduleId = none := by
  have hordered := ordered_facts config h.nodeIds_nodup
  have hlt := (Array.getElem?_eq_some_iff.1 h.getElem?_module).1
  obtain ⟨c, hc, hmodule⟩ := hordered.placed moduleId (hlt.trans_eq (size_calls_facts p config).symm)
  cases hrecursive : c.recursive with
  | true => rw [ProgramFacts.seedOf_eq hordered.separated hc hmodule, hrecursive, if_pos rfl]
  | false =>
      rw [hordered.seedOf_eq_joinAll hc hrecursive hmodule (List.Perm.refl _),
        CallInput.joinAll_eq_none_iff]
      refine List.flatMap_eq_nil_iff.2 fun j hj => ?_
      have hj := List.contains_iff_mem.1 (List.mem_filter.1 hj).2
      obtain ⟨site, hsite, -, ht⟩ := CallGraph.mem_edges.1 (CallGraph.mem_successors.1 hj)
      obtain ⟨node, hnode⟩ := CallGraph.mem_values.1 hsite
      exact absurd ht (huncalled hnode)

/-- No call is missing from what a function that cannot call itself is reported from. -/
theorem seeded_from_all_calls (p : Program) (config : Config)
    (hids : (ProgramIndex.build p).nodeIds.Nodup) {c : Component}
    (hc : c ∈ (p.facts config).components) (hrecursive : c.recursive = false) {f : Nat}
    (hf : f ∈ c.members) : (p.facts config).Seeded c f :=
  (ordered_facts config hids).seeded hc hrecursive hf

def twice : Program where
  body :=
    [.functionDef 1 2 "id" ["v"] [.ret 3 (some (.name 4 "v"))],
      .expr 5 (.call 6 (.name 7 "id") [.literal 8 (.int 1)]),
      .expr 9 (.call 10 (.name 11 "id") [.literal 12 (.int 9)])]

set_option maxRecDepth 10000 in
theorem seeded_twice :
    (ProgramIndex.build twice).nodeIds.Nodup ∧
    (⟨[1], false, 0⟩ : Component) ∈ (twice.facts (.ofPreset .standard)).components ∧
    ∃ v w : Value, (Value.constant 1).leq v = true ∧ (Value.constant 9).leq w = true ∧
      ((twice.facts (.ofPreset .standard)).reportOf 1).summary.input.get? "v" = some v ∧
      ((twice.facts (.ofPreset .standard)).reportOf 1).summary.input.get? "v" = some w := by
  have hids : (ProgramIndex.build twice).nodeIds.Nodup := by decide
  have hc : (⟨[1], false, 0⟩ : Component) ∈ (twice.facts (.ofPreset .standard)).components := by
    decide +kernel
  have hparams : ((twice.facts (.ofPreset .standard)).index.params 1) = ["v"] := by decide +kernel
  have hpassed : ([1, 9].all fun n => ((twice.facts (.ofPreset .standard)).recordedFor 1 0).any
      fun r => decide (r.args[0]? = some (Value.constant n))) = true := by
    decide +kernel
  have habove := (seeded_from_all_calls twice (.ofPreset .standard) hids hc rfl
    List.mem_cons_self).above (by rw [hparams]; decide) 0
  have hinput : ∀ n ∈ [1, 9], ∃ w : Value,
      ((twice.facts (.ofPreset .standard)).reportOf 1).summary.input.get? "v" = some w ∧
        (Value.constant n).leq w = true := by
    intro n hn
    obtain ⟨r, hr, hv⟩ := List.any_eq_true.1 (List.all_eq_true.1 hpassed n hn)
    exact habove r hr 0 "v" _ (by rw [hparams]; rfl) (of_decide_eq_true hv)
  obtain ⟨v, hv, hle⟩ := hinput 1 List.mem_cons_self
  obtain ⟨w, hw, hle'⟩ := hinput 9 (List.mem_cons_of_mem _ List.mem_cons_self)
  exact ⟨hids, hc, v, w, hle, hle', hv, hw⟩

end Program

end ValueFlow
