import ValueFlow.Analysis.Summarize
import ValueFlow.Proofs.Analysis.Bodies
import ValueFlow.Proofs.Analysis.ScalarPrograms
import ValueFlow.Proofs.FlowGraph.Contents
/-!
How summaries are made of others, and that they describe what functions return.

What every summary hands on to those that are made of it holds of all that are published
(`Sustains.bottomUp`). In a program over scalars, if the summaries of the functions that a function
calls describe what calls return down to some depth, then its own summary does so for one level more
(`returns_summarize`).
-/

namespace ValueFlow

namespace Stmt

theorem exprs_subset_ownExprs {s : Stmt} {i : BlockItem} (h : i ∈ s.items) :
    i.exprs ⊆ s.ownExprs := by
  cases s with
  | assign | expr | ret | pass | functionDef | classDef | ifElse | whileLoop =>
      rw [List.mem_singleton.1 h]
      exact List.Subset.refl _
  | forLoop =>
      rcases List.mem_pair.1 h with rfl | rfl <;> exact List.Subset.refl _
  | brk | cont => cases h

end Stmt

/-- Whether a summary is of a function and does not yet say what holds at its exit. -/
structure FunctionSummary.Fresh (index : ProgramIndex) (i : Nat) (s : FunctionSummary) : Prop where
  function_eq : s.function = index.name i
  exitState_eq : s.exitState = ∅

namespace ProgramFacts

theorem get?_overlay {T : SummaryTable} {l : List (Nat × FunctionSummary)} {i : Nat}
    {s : FunctionSummary} (h : (overlay T l).get? i = some s) : (i, s) ∈ l ∨ T.get? i = some s :=
  SortedMap.get?_foldl_insert h

theorem isSome_get?_overlay {T : SummaryTable} {l : List (Nat × FunctionSummary)} {i : Nat}
    (h : i ∈ l.map Prod.fst ∨ (T.get? i).isSome = true) :
    ((overlay T l).get? i).isSome = true :=
  SortedMap.isSome_get?_foldl_insert h

theorem table_summarizeLevel (facts : ProgramFacts) (s : Summaries) (level : List Nat) :
    (facts.summarizeLevel s level).table = overlay s.table
      (((facts.componentsOf level).map (facts.summarizeComponent s.table)).flatMap Prod.fst) := rfl

theorem components_ofIndex (index : ProgramIndex) (config : Config) :
    (ofIndex index config).components = (ofIndex index config).calls.components := by
  rw [ofIndex]

theorem fresh_summarize (facts : ProgramFacts) (T : SummaryTable) (i : Nat) :
    (facts.summarize T i).1.Fresh facts.index i := by
  rw [summarize]
  cases facts.graph? i with
  | none => exact ⟨rfl, rfl⟩
  | some g =>
      dsimp only
      split <;> exact ⟨rfl, rfl⟩

/-- A summary says what is known at the exit, unless the function was given up. -/
theorem returnValue_summarize (facts : ProgramFacts) (T : SummaryTable) (i : Nat) :
    (∃ g, facts.graph? i = some g ∧ (facts.solve T i g none).converged = true ∧
      (facts.summarize T i).1.returnValue = returned ((facts.solve T i g none).final g)) ∨
    (facts.summarize T i).1.returnValue = .top := by
  rw [summarize]
  cases hg : facts.graph? i with
  | none => exact .inr rfl
  | some g =>
      dsimp only
      split
      · next hconverged => exact .inl ⟨g, rfl, hconverged, rfl⟩
      · exact .inr rfl

def nextRound (facts : ProgramFacts) (T : SummaryTable) (members : List Nat) (round : Nat)
    (old : Nat → FunctionSummary) (i : Nat) : FunctionSummary :=
  let new := (facts.summarize (overlay T (members.map fun f => (f, old f))) i).1
  if facts.config.wideningThreshold.toNat < round then (old i).widen new round else new

theorem fresh_nextRound (facts : ProgramFacts) (T : SummaryTable) (members : List Nat)
    (round : Nat) (old : Nat → FunctionSummary) (i : Nat) :
    (facts.nextRound T members round old i).Fresh facts.index i := by
  have hfresh := facts.fresh_summarize (overlay T (members.map fun f => (f, old f))) i
  rw [nextRound]
  split
  · exact ⟨hfresh.function_eq, hfresh.exitState_eq⟩
  · exact hfresh

/-- Rounds end where one of them changes nothing. -/
theorem exists_stabilize_succ (facts : ProgramFacts) (T : SummaryTable) (members : List Nat)
    (fuel round visits : Nat) (old : Nat → FunctionSummary) :
    ∃ visits', facts.stabilize T members (fuel + 1) round (members.map fun f => (f, old f)) visits =
      if members.all fun f => (facts.nextRound T members (round + 1) old f).sameInterface (old f)
      then (members.map fun f => (f, facts.nextRound T members (round + 1) old f), visits', round + 1)
      else facts.stabilize T members fuel (round + 1)
        (members.map fun f => (f, facts.nextRound T members (round + 1) old f)) visits' := by
  have hcandidates : List.zipWith (fun (old new : Nat × FunctionSummary) =>
      if facts.config.wideningThreshold.toNat < round + 1 then
        (new.1, old.2.widen new.2 (round + 1))
      else new) (members.map fun f => (f, old f))
      (facts.summarizeAll (overlay T (members.map fun f => (f, old f))) members).1 =
      members.map fun f => (f, facts.nextRound T members (round + 1) old f) := by
    rw [summarizeAll, List.map_map, List.zipWith_map, List.zipWith_self]
    refine List.map_congr_left fun f _ => ?_
    rw [nextRound]
    split <;> rfl
  refine ⟨visits + (facts.summarizeAll (overlay T (members.map fun f => (f, old f))) members).2, ?_⟩
  rw [stabilize]
  dsimp only
  rw [hcandidates, List.zip_map', List.all_map]
  rfl

/-- Whether a property holds of every summary that is made from a table, as long as it holds of those
that it is made of. -/
structure Sustains (facts : ProgramFacts) (T : SummaryTable)
    (Q : Nat → FunctionSummary → Prop) : Prop where
  initial : ∀ f, Q f (facts.initialSummary f)
  summarize : ∀ f, Q f (facts.summarize T f).1
  nextRound : ∀ members round old, (∀ f, Q f (old f)) →
    ∀ f, Q f (facts.nextRound T members round old f)
  degrade : ∀ f reason s, Q f s → Q f (facts.degrade f reason s)
  withRounds : ∀ f s rounds, Q f s → Q f { s with rounds }

namespace Sustains

variable {facts : ProgramFacts} {T : SummaryTable} {Q : Nat → FunctionSummary → Prop}

theorem stabilize (h : facts.Sustains T Q) (members : List Nat) (fuel round visits : Nat)
    {old : Nat → FunctionSummary} (hold : ∀ f, Q f (old f)) :
    ∀ q ∈ (facts.stabilize T members fuel round (members.map fun f => (f, old f)) visits).1,
      Q q.1 q.2 := by
  induction fuel generalizing round visits old with
  | zero =>
      intro q hq
      rw [ProgramFacts.stabilize, List.map_map] at hq
      obtain ⟨f, -, rfl⟩ := List.mem_map.1 hq
      exact h.degrade f _ _ (hold f)
  | succ fuel ih =>
      have hnext := h.nextRound members (round + 1) old hold
      obtain ⟨visits', hstep⟩ := facts.exists_stabilize_succ T members fuel round visits old
      rw [hstep]
      split
      · intro q hq
        obtain ⟨f, -, rfl⟩ := List.mem_map.1 hq
        exact hnext f
      · exact ih _ _ hnext

theorem summarizeComponent (h : facts.Sustains T Q) (c : Component) :
    ∀ q ∈ (facts.summarizeComponent T c).1, Q q.1 q.2 := by
  intro q hq
  unfold ProgramFacts.summarizeComponent at hq
  obtain ⟨r, hr, rfl⟩ := List.mem_map.1 hq
  refine h.withRounds _ _ _ ?_
  split at hr
  · exact h.stabilize c.members _ 0 0 h.initial r hr
  · obtain ⟨r', hr', rfl⟩ := List.mem_map.1 hr
    obtain ⟨f, -, rfl⟩ := List.mem_map.1 hr'
    exact h.summarize f

/-- What the tables of lower levels sustain holds of all summaries that are published. -/
theorem bottomUp (h : ∀ T : SummaryTable, (∀ f s, T.get? f = some s → Q f s) → facts.Sustains T Q)
    (f : Nat) (s : FunctionSummary) : facts.bottomUp.table.get? f = some s → Q f s := by
  rw [ProgramFacts.bottomUp]
  revert f s
  refine List.foldlRecOn
    (motive := fun r : Summaries => ∀ f s, r.table.get? f = some s → Q f s) _ facts.summarizeLevel
    (fun f s hs => nomatch hs) fun r hr level _ f s hs => ?_
  rw [table_summarizeLevel] at hs
  rcases get?_overlay hs with hs | hs
  · obtain ⟨q, hq, hs⟩ := List.mem_flatMap.1 hs
    obtain ⟨c, -, rfl⟩ := List.mem_map.1 hq
    exact (h r.table hr).summarizeComponent c _ hs
  · exact hr f s hs

end Sustains

/-- Every summary that is published is of its function. -/
theorem fresh_bottomUp (facts : ProgramFacts) (i : Nat) (s : FunctionSummary) :
    facts.bottomUp.table.get? i = some s → s.Fresh facts.index i :=
  Sustains.bottomUp (Q := fun i s => s.Fresh facts.index i) (fun T _ =>
    { initial := fun _ => ⟨rfl, rfl⟩
      summarize := facts.fresh_summarize T
      nextRound := fun members round old _ => facts.fresh_nextRound T members round old
      degrade := fun _ _ _ hs => ⟨hs.function_eq, rfl⟩
      withRounds := fun _ _ _ hs => ⟨hs.function_eq, hs.exitState_eq⟩ }) i s

end ProgramFacts

namespace Program

variable {p : Program} {config : Config}

/-- What is known about a program before its values are analysed. -/
abbrev facts (p : Program) (config : Config) : ProgramFacts := .ofIndex (.build p) config

/-- Whether a value describes all that calls of a function return, down to a depth of calls. -/
def Returns (p : Program) (n : Nat) (name : String) (v : Value) : Prop :=
  ∀ ⦃globals args u⦄, p.call? n globals name args = some u → v.describes u = true

theorem returns_zero (name : String) (v : Value) : p.Returns 0 name v :=
  fun _ _ _ h => nomatch h

theorem returns_top (n : Nat) (name : String) : p.Returns n name .top :=
  fun _ _ _ _ => Value.describes_top _

theorem call?_succ {n : Nat} {globals : Store} {name : String} {args : List Scalar} {u : Scalar}
    (h : p.call? (n + 1) globals name args = some u) :
    ∃ f, p.function? name = some f ∧ FunctionDef.returned? ((Meaning.scalar fun _ =>
      p.call? n globals).runBody n f.body (f.entryStore globals args)) = some u := by
  obtain ⟨f, hf, h⟩ := Option.bind_eq_some_iff.1 h
  exact ⟨f, hf, (Option.ite_none_right_eq_some.1 h).2⟩

theorem function?_of_call? {n : Nat} {globals : Store} {name : String} {args : List Scalar}
    {u : Scalar} (h : p.call? n globals name args = some u) : ∃ f, p.function? name = some f := by
  cases n with
  | zero => cases h
  | succ n =>
      obtain ⟨f, hf, -⟩ := call?_succ h
      exact ⟨f, hf⟩

theorem graph?_eq_some {i : Nat} {g : FlowGraph} (h : (p.facts config).graph? i = some g) :
    ∃ f, (ProgramIndex.build p).functions[i]? = some f ∧ FlowGraph.ofFunction i f = .ok g := by
  obtain ⟨r, hr, hg⟩ := Option.bind_eq_some_iff.1 h
  have hr : ((ProgramIndex.build p).functions.mapIdx FlowGraph.ofFunction)[i]? = some r := hr
  rw [Array.getElem?_mapIdx] at hr
  obtain ⟨f, hf, rfl⟩ := Option.map_eq_some_iff.1 hr
  refine ⟨f, hf, ?_⟩
  cases hok : FlowGraph.ofFunction i f with
  | error => rw [hok] at hg; cases hg
  | ok g' => rw [hok] at hg; cases hg; rfl

namespace IsScalar

variable (h : p.IsScalar)
include h

theorem calls_facts (config : Config) : (p.facts config).calls = p.calls := h.refine_calls _

variable {T : SummaryTable} {i : Nat} {g : FlowGraph} {f : FunctionInfo}
  {call : Store → String → List Scalar → Option Scalar}

/-- The expressions of a function can be evaluated, if calls return what the summaries say. -/
theorem ready {s : Stmt} {e : Expr} {σ : Store}
    (hf : (ProgramIndex.build p).functions[i]? = some f) (hs : s ∈ Stmt.walkAll f.body)
    (he : e ∈ s.ownExprs)
    (hdefined : ∀ {n vs u}, call σ n vs = some u → ∃ d, p.function? n = some d)
    (hT : ∀ j ∈ p.calls.successors i, ∀ {vs u}, call σ ((ProgramIndex.build p).name j) vs = some u →
      ((p.facts config).returnOf T j).describes u = true) :
    ((p.facts config).scope T i g).Ready (call σ) e.height e := by
  refine ⟨Nat.le_refl _, fun {node func args n vs u} hmem hname hu => ?_⟩
  cases func with
  | name id x =>
      cases hname
      obtain ⟨d, hd⟩ := hdefined hu
      obtain ⟨site, j, hsite, hkind, htargets, hj, hget⟩ := h.site?_function hf
        (mem_walkExprs.2 ⟨hs, Expr.walk_subset_walkAll he hmem⟩) hd
      have hj' : (ProgramIndex.build p).name j = n := by
        rw [ProgramIndex.name_of_getElem? hget]
        exact (function?_eq_some hd).2
      refine ⟨site, j, ?_, hkind, htargets, fun {_ _} hu => hT j hj (hj' ▸ hu)⟩
      show (p.facts config).calls.site? node = some site
      rw [h.calls_facts]
      exact hsite
  | literal | binOp | boolOp | unaryOp | compare | attr | subscript | call | collection
  | unsupported => cases hname

/-- The ranges of a function are ranges to the analysis. -/
theorem rangeArgs?_eq {s : Stmt} {iter : Expr} {args : List Expr}
    (hf : (ProgramIndex.build p).functions[i]? = some f) (hs : s ∈ Stmt.walkAll f.body)
    (he : iter ∈ s.ownExprs) (hargs : iter.rangeArgs? = some args) :
    ((p.facts config).scope T i g).rangeArgs? iter = some args := by
  cases iter with
  | call node func args' =>
      rw [Expr.rangeArgs?] at hargs
      obtain ⟨hname, hargs⟩ := Option.ite_none_right_eq_some.1 hargs
      cases hargs
      cases func with
      | name id x =>
          cases hname
          have hself : Expr.call node (.name id Expr.rangeName) args ∈
              (Expr.call node (.name id Expr.rangeName) args).walk := by
            rw [Expr.walk]
            exact List.mem_cons_self
          obtain ⟨site, hsite, hkind⟩ := h.site?_range hf
            (mem_walkExprs.2 ⟨hs, Expr.walk_subset_walkAll he hself⟩)
          rw [FunctionScope.rangeArgs?]
          have hsite' : ((p.facts config).scope T i g).facts.calls.site? node = some site := by
            show (p.facts config).calls.site? node = some site
            rw [h.calls_facts]
            exact hsite
          rw [hsite', Option.map_some, hkind]
          rfl
      | literal | binOp | boolOp | unaryOp | compare | attr | subscript | call | collection
      | unsupported => cases hname
  | literal | name | binOp | boolOp | unaryOp | compare | attr | subscript | collection
  | unsupported => cases hargs

/-- All items of the graph of a function are ready, if calls return what the summaries say. -/
theorem readyItems (hg : (p.facts config).graph? i = some g)
    (hdefined : ∀ {σ n vs u}, call σ n vs = some u → ∃ d, p.function? n = some d)
    (hT : ∀ j ∈ p.calls.successors i, ∀ {σ vs u},
      call σ ((ProgramIndex.build p).name j) vs = some u →
        ((p.facts config).returnOf T j).describes u = true) (b : Nat) :
    ∀ item ∈ (g.block b).items, ((p.facts config).scope T i g).ReadyItem call item := by
  obtain ⟨f, hf, hbuild⟩ := graph?_eq_some hg
  refine FlowGraph.only_of_build hbuild (fun s hs _ item hitem => ?_) b
  have hown := Stmt.exprs_subset_ownExprs hitem
  refine ⟨fun e he σ => h.ready hf hs (hown he) hdefined fun j hj => hT j hj, ?_⟩
  intro iter hiter args hargs
  refine h.rangeArgs?_eq hf hs (hown ?_) hargs
  cases item with
  | evaluate | bind => cases hiter; exact List.mem_cons_self
  | statement | condition => cases hiter

/-- The final state of a function describes what a call of it returns, if it covers the calls in
it that go one level less deep. -/
theorem returns_returned {n : Nat} (hg : (p.facts config).graph? i = some g)
    (hconverged : ((p.facts config).solve T i g none).converged = true)
    (hT : ∀ j ∈ p.calls.successors i,
      p.Returns n ((ProgramIndex.build p).name j) ((p.facts config).returnOf T j)) :
    p.Returns (n + 1) ((ProgramIndex.build p).name i)
      (ProgramFacts.returned (((p.facts config).solve T i g none).final g)) := by
  intro globals args u hu
  obtain ⟨f, hf, hbuild⟩ := graph?_eq_some hg
  obtain ⟨d, hd, hret⟩ := call?_succ hu
  obtain ⟨j, hj, hfree⟩ := h.numbered.exists_number hd
  obtain ⟨hlt, hname, -⟩ := ProgramIndex.freeFunction?_eq_some hfree
  rw [ProgramIndex.name_of_getElem? hf] at hname
  have hji := ProgramIndex.eq_of_name_eq h.numbered.names_nodup hf hlt hname
  subst hji
  cases hf.symm.trans hj
  have hready : ∀ b, ∀ item ∈ (g.block b).items,
      ((p.facts config).scope T j g).ReadyItem (fun _ => p.call? n globals) item :=
    h.readyItems hg function?_of_call? fun k hk {_ _ _} hu => hT k hk hu
  have hstart : ((p.facts config).entryState j none).Describes (p.facts config).domains
      (d.entryStore globals args) := ProgramState.describes_top _ _
  generalize hr : (Meaning.scalar fun _ => p.call? n globals).runBody n d.body
    (d.entryStore globals args) = r at hret
  obtain ⟨hdone, hreturned⟩ := FunctionScope.describes_final hbuild rfl hready hconverged hstart hr
  have describes {σ : Store} (hσ : σ.scalar? returnSlot = some u)
      (hs : (((p.facts config).solve T j g none).final g).Describes (p.facts config).domains σ) :
      (ProgramFacts.returned (((p.facts config).solve T j g none).final g)).describes u = true := by
    rw [ProgramFacts.returned, if_pos hs.isReachable]
    exact hs.env.get hσ
  rw [FunctionDef.returned?] at hret
  split at hret
  · next hend =>
      cases hret
      exact describes (Store.scalar?_set_self _ _ _) (hdone hend)
  · next hend => exact describes hret (hreturned hend)
  · cases hret

/-- A summary covers calls of its function that go one level deeper than those that the summaries
it was made from cover. -/
theorem returns_summarize {n : Nat} (hT : ∀ j ∈ p.calls.successors i,
      p.Returns n ((ProgramIndex.build p).name j) ((p.facts config).returnOf T j)) :
    p.Returns (n + 1) ((ProgramIndex.build p).name i)
      ((p.facts config).summarize T i).1.returnValue := by
  rcases (p.facts config).returnValue_summarize T i with ⟨g, hg, hconverged, heq⟩ | heq
  · rw [heq]
    exact h.returns_returned hg hconverged hT
  · rw [heq]
    exact returns_top _ _

end IsScalar

end Program

end ValueFlow
