import ValueFlow.Proofs.Analysis.Stability
import ValueFlow.Proofs.Objects.Bodies
/-!
Summaries of functions that only read.

A function that makes no objects and writes no fields leaves the log of its heap empty, so callers
are told of no effects but that objects were passed on. And its summary covers what calls of it
return, to every depth of calls. Main statement: `summariesCover_bottomUp`.
-/

namespace ValueFlow

namespace Heap

variable {h k : Heap} {op : HeapValue → HeapValue → HeapValue}

/-- Whether a heap has no record of objects that were made and fields that were written. -/
structure Untouched (h : Heap) : Prop where
  allocated : h.allocated = ∅
  mustWritten : h.mustWritten = ∅
  mayWritten : h.mayWritten = ∅

theorem untouched_bottom : bottom.Untouched := ⟨rfl, rfl, rfl⟩

theorem untouched_top : top.Untouched := ⟨rfl, rfl, rfl⟩

theorem Untouched.mergeBy (hh : h.Untouched) (hk : k.Untouched) : (h.mergeBy op k).Untouched := by
  unfold Heap.mergeBy
  split
  · exact hk
  · split
    · exact hh
    · constructor
      · show h.allocated.union k.allocated = ∅
        rw [hh.allocated, hk.allocated]
        rfl
      · show h.mustWritten.inter k.mustWritten = ∅
        rw [hh.mustWritten]
        rfl
      · show h.mayWritten.unionWith op k.mayWritten = ∅
        rw [hh.mayWritten, hk.mayWritten]
        rfl

theorem Untouched.join (hh : h.Untouched) (hk : k.Untouched) : (h.join k).Untouched :=
  hh.mergeBy hk

theorem Untouched.invalidate (hh : h.Untouched) (o : Nat) : (h.invalidate o).Untouched :=
  ⟨hh.allocated, hh.mustWritten, hh.mayWritten⟩

theorem untouched_joinAll {hs : List Heap} (hhs : ∀ k ∈ hs, k.Untouched) :
    (AbstractDomain.joinAll hs).Untouched :=
  List.foldlRecOn hs _ untouched_bottom fun _ hk l hl => hk.join (hhs l hl)

end Heap

namespace HeapEffects

variable {e f : HeapEffects} {h : Heap}

theorem quiet_none : none.Quiet := ⟨rfl, rfl, rfl⟩

theorem quiet_unknown (objects : SortedSet Nat) : (unknown objects).Quiet := ⟨rfl, rfl, rfl⟩

theorem Quiet.untouched (he : e.Quiet) (hh : h.Untouched) : (e.apply h).Untouched := by
  cases hr : h.reachable with
  | false =>
      rw [apply, hr]
      exact hh
  | true =>
      rw [he.apply_eq hr]
      exact List.foldlRecOn _ _ hh fun _ hk o _ => hk.invalidate o

/-- A heap without a record tells of no effects besides what was passed on. -/
theorem quiet_ofExit (hh : h.Untouched) (entry : Heap) : (ofExit entry h).Quiet := by
  unfold ofExit
  split
  · exact quiet_none
  · constructor
    · dsimp only
      rw [hh.allocated]
      rfl
    · dsimp only
      rw [hh.mustWritten]
      rfl
    · dsimp only
      rw [hh.mayWritten]
      rfl

theorem Quiet.widen (he : e.Quiet) (hf : f.Quiet) (n : Nat) : (e.widen f n).Quiet := by
  unfold HeapEffects.widen mergeBy
  rw [he.allocations, hf.allocations, he.mustWrites, hf.mustWrites, he.mayWrites, hf.mayWrites]
  exact ⟨rfl, rfl, rfl⟩

end HeapEffects

namespace FunctionScope

section Untouched

variable {scope : FunctionScope} {p : Program} {config : Config} {makes : Prop}
  (hfacts : scope.facts = p.facts config) (hp : p.IsObjectual)
  (hquiet : ∀ j s, scope.summaries.get? j = some s → j ≠ moduleId → s.effects.Quiet)
include hfacts hp hquiet

omit hfacts hp in
theorem untouched_outcomeOf {h : Heap} {j : Nat} (hh : h.Untouched) (hj : j ≠ moduleId)
    (argNodes : List Nat) : (scope.outcomeOf argNodes h j).2.Untouched := by
  unfold outcomeOf
  split
  · exact (HeapEffects.quiet_unknown _).untouched hh
  · split
    · next hs => exact (hquiet _ _ hs hj).untouched hh
    · exact hh

/-- A call of a function makes no objects and writes no fields. -/
theorem untouched_callSite {node j : Nat} {g : String} {f : FunctionDef}
    (hruns : p.Runs node g j f) (func : Expr) (args : List Value) (argNodes : List Nat) :
    Preserves Heap.Untouched (fun _ => True) (scope.callSite node func none args argNodes) := by
  obtain ⟨site, hsite, hkind, htargets⟩ := hruns.site
  rw [← hp.calls_facts config, ← hfacts] at hsite
  have hknown : (!site.targets.isEmpty) = true := by
    rw [SortedSet.isEmpty, htargets]
    rfl
  rw [callSite, hsite, Option.filter_some, if_pos hknown, Option.map_some, hkind]
  refine (Preserves.observe _).bind fun _ _ => ?_
  dsimp only
  unfold callTargets
  refine Preserves.current.bind fun s hs => ?_
  refine (Preserves.forM fun _ _ => .observe _).bind fun _ _ => .ite ?_ ?_
  · exact (Preserves.become Heap.untouched_bottom).bind fun _ _ => .pure trivial
  · refine (Preserves.changeHeap fun _ _ => Heap.untouched_joinAll fun k hk => ?_).bind fun _ _ =>
      .pure trivial
    obtain ⟨r, hr, rfl⟩ := List.mem_map.1 hk
    obtain ⟨t, ht, rfl⟩ := List.mem_map.1 (List.mem_of_mem_filter hr)
    rw [htargets, List.mem_singleton] at ht
    exact untouched_outcomeOf hquiet hs (ht ▸ hp.ne_module_of_runs hruns) _

/-- Evaluating an expression that calls no classes makes no objects and writes no fields. -/
theorem untouched_evalWithin {e : Expr} (he : e.IsPlain p makes) (hmakes : ¬ makes) (m : Nat) :
    Preserves Heap.Untouched (fun _ => True) (scope.evalWithin m e) := by
  induction m generalizing e with
  | zero => exact .pure trivial
  | succ m ih =>
      cases he with
      | literal =>
          rw [evalWithin]
          exact .reachable trivial (.pure trivial)
      | name =>
          rw [evalWithin]
          exact .reachable trivial (Preserves.current.bind fun _ _ => .pure trivial)
      | binOp id op hleft hright =>
          rw [evalWithin]
          exact .reachable trivial ((ih hleft).bind fun _ _ => (ih hright).bind fun _ _ =>
            .pure trivial)
      | compare id op hleft hright =>
          rw [evalWithin]
          exact .reachable trivial ((ih hleft).bind fun _ _ => (ih hright).bind fun _ _ =>
            .pure trivial)
      | attr id x hvalue =>
          rw [evalWithin]
          refine .reachable trivial ((ih hvalue).bind fun _ _ => ?_)
          exact (preserves_checkAccess _ _ _ _).bind fun _ _ => Preserves.current.bind fun _ _ =>
            .pure trivial
      | create id hmake => exact absurd hmake hmakes
      | run id hruns hargs =>
          rw [evalWithin]
          refine .reachable trivial (Preserves.bind (R := (· = none)) (.pure rfl) ?_)
          rintro _ rfl
          refine (Preserves.mapM fun a ha => ih (hargs a ha)).bind fun _ _ => ?_
          exact Preserves.current.bind fun _ _ =>
            .ite (untouched_callSite hfacts hp hquiet hruns _ _ _) (.pure trivial)

/-- An item of a function makes no objects and writes no fields. -/
theorem untouched_runItem {a : Activation} {i : BlockItem}
    (hi : (p.references config).ItemOf p a i) (ha : a.function ≠ moduleId) :
    Preserves Heap.Untouched (fun _ => True) (scope.runItem i) := by
  have eval {e : Expr} (he : e ∈ i.exprs) :
      Preserves Heap.Untouched (fun _ => True) (scope.eval e) :=
    untouched_evalWithin hfacts hp hquiet (hi.plain e he) ha _
  have hkind := hi.kind
  refine Preserves.current.bind fun _ _ => .ite ?_ (.pure trivial)
  cases i with
  | statement s =>
      obtain ⟨hkind, hwrites, -⟩ := hkind
      cases s with
      | assign id target value =>
          refine (eval (List.mem_append_right _ List.mem_cons_self)).bind fun _ _ =>
            Preserves.current.bind fun _ _ => .ite ?_ (.pure trivial)
          cases target with
          | name => exact preserves_assign _ _
          | attr => exact absurd (hwrites ha) Bool.noConfusion
          | subscript => rcases hkind with hkind | hkind <;> cases hkind
      | expr id e => exact (eval List.mem_cons_self).bind fun _ _ => .pure trivial
      | ret id value =>
          have assign (v : Value) : Preserves Heap.Untouched (fun _ => True) (do
              if (← Run.current).isReachable then scope.assign returnSlot v) :=
            Preserves.current.bind fun _ _ => .ite (preserves_assign _ _) (.pure trivial)
          cases value with
          | none => exact assign .none
          | some e => exact (eval List.mem_cons_self).bind fun v _ => assign v
      | functionDef | classDef => exact preserves_assign _ _
      | ifElse | whileLoop | forLoop | brk | cont | pass => exact .pure trivial
  | condition cond =>
      refine (eval List.mem_cons_self).bind fun _ _ => .ite ?_ (.pure trivial)
      split
      · exact .report _
      · exact .pure trivial
  | evaluate | bind => exact absurd hkind id

end Untouched

end FunctionScope

namespace Program

variable {p : Program} {config : Config}

namespace IsObjectual

variable (h : p.IsObjectual) (hread : p.FunctionsOnlyRead)
include h hread

/-- A function is summarized to no effects besides what it passes on, if those that it calls are. -/
theorem quiet_summarize {T : SummaryTable}
    (hT : ∀ j s, T.get? j = some s → j ≠ moduleId → s.effects.Quiet) {i : Nat}
    (hi : i ≠ moduleId) : ((p.facts config).summarize T i).1.effects.Quiet := by
  unfold ProgramFacts.summarize
  cases hg : (p.facts config).graph? i with
  | none => exact HeapEffects.quiet_unknown _
  | some g =>
      have hlasting : Fixpoint.Lasting g ((p.facts config).scope T i g).transfer
          fun s => s.heap.Untouched :=
        FunctionScope.lasting_heap Heap.untouched_bottom Heap.Untouched.join
          (fun hh hk _ => hh.mergeBy hk) fun b item hitem =>
            FunctionScope.untouched_runItem rfl h hT
              (h.itemOf (a := ⟨i, [], none⟩) hread hg b item hitem) hi
      have hstart : ((p.facts config).entryState i none).heap.Untouched :=
        ProgramState.heap_normalize Heap.untouched_bottom Heap.untouched_top
      have hsolve : ((p.facts config).solve T i g none).Forall fun s => s.heap.Untouched :=
        hlasting.solve hstart
      have hexit : (((p.facts config).solve T i g none).final g).heap.Untouched :=
        hsolve.entry g.exit
      have heffects := HeapEffects.quiet_ofExit hexit .top
      dsimp only
      split
      · dsimp only
        exact heffects
      · exact HeapEffects.quiet_unknown _

/-- Callers are told of no effects of functions besides what these pass on. -/
theorem quiet_bottomUp (config : Config) (j : Nat) (s : FunctionSummary) :
    (p.facts config).bottomUp.table.get? j = some s → j ≠ moduleId → s.effects.Quiet := by
  refine ProgramFacts.Sustains.bottomUp (Q := fun j s => j ≠ moduleId → s.effects.Quiet)
    (fun T hT => ?_) j s
  exact
    { initial := fun _ _ => HeapEffects.quiet_none
      summarize := fun i hi => h.quiet_summarize hread hT hi
      nextRound := by
        intro members round old hold i hi
        have hround : ((p.facts config).summarize
            (ProgramFacts.overlay T (members.map fun f => (f, old f))) i).1.effects.Quiet := by
          refine h.quiet_summarize hread (fun j s hs => ?_) hi
          rcases ProgramFacts.get?_overlay hs with hs | hs
          · obtain ⟨f, -, he⟩ := List.mem_map.1 hs
            cases he
            exact hold j
          · exact hT j s hs
        rw [ProgramFacts.nextRound]
        split
        · exact (hold i hi).widen hround _
        · exact hround
      degrade := fun _ _ _ _ _ => HeapEffects.quiet_unknown _
      withRounds := fun _ _ _ hs => hs }

end IsObjectual

/-- Whether a value covers what calls of a function return, down to a depth of calls. -/
def ReturnsCovered (p : Program) (config : Config) (n j : Nat) (v : Value) : Prop :=
  ∀ {a node name f places result ds σ u},
    (p.references config).Calls p a node name j f places result ds σ →
    (a.call p n node name ds σ).1 = some u → v.Covers u

/-- Whether summaries cover what calls of functions return, down to a depth of calls, and tell of no
effects besides what the functions pass on. -/
structure SummariesCover (p : Program) (config : Config) (n : Nat) (T : SummaryTable) : Prop where
  returns : ∀ j < (p.facts config).calls.functions.size,
    p.ReturnsCovered config n j ((p.facts config).returnOf T j)
  quiet : ∀ j s, T.get? j = some s → j ≠ moduleId → s.effects.Quiet

/-- Whether every function has a flow graph. -/
def HasGraphs (p : Program) (config : Config) : Prop :=
  ∀ {i f}, (ProgramIndex.build p).functions[i]? = some f → ∃ g, (p.facts config).graph? i = some g

namespace IsObjectual

variable (h : p.IsObjectual) (hread : p.FunctionsOnlyRead) (hgraph : p.HasGraphs config)
include h hread hgraph

section Scope

variable {T : SummaryTable} {a : Activation} {n : Nat} {g : FlowGraph}
  {fine : Nat × Datum → Prop} {passes : Nat × CallInput → Prop} {input : Option CallInput}

/-- With right summaries a scope keeps up with runs, if the accesses in the bodies of called
functions are as they should be. -/
theorem tracks (hT : p.SummariesCover config n T) (hplaced : (p.references config).Places a)
    (haccesses : ∀ {node name j f places result ds σ vs} {heap : Heap},
      (p.references config).Calls p a node name j f places result ds σ →
      List.Forall₂ Value.Covers vs ds →
      heap.Shows ((p.facts config).scope T a.function g).pointsTo.label σ →
      passes (j, ((p.facts config).scope T a.function g).inputFor j vs heap) →
      ∀ q ∈ (a.call p n node name ds σ).2.accesses, q ∈ σ.accesses ∨ fine q) :
    ((p.facts config).scope T a.function g).Tracks p config a n fine passes where
  facts := rfl
  objectual := h
  reads := hread
  graph := hgraph
  placed := hplaced
  calls :=
    { returns := by
        intro node name j f places result ds σ u hcall hu
        have hj := (Array.getElem?_eq_some_iff.1 hcall.runs.number).1
        rw [← size_calls_facts p config] at hj
        exact hT.returns j hj hcall hu
      accesses := haccesses
      quiet := fun hruns hs => hT.quiet _ _ hs (h.ne_module_of_runs hruns) }

omit hgraph in
/-- A converged solution is what is needed of one. -/
theorem solvesObjects (hg : (p.facts config).graph? a.function = some g)
    (hconverged : ((p.facts config).solve T a.function g input).converged = true)
    (htracks : ((p.facts config).scope T a.function g).Tracks p config a n fine passes)
    (hpassed : ∀ {b k i}, (g.block b).items[k]? = some i →
      ∀ q ∈ ((p.facts config).scope T a.function g).passedBy i
        (Fixpoint.runItems ((p.facts config).scope T a.function g).transfer
          ((g.block b).items.take k) (((p.facts config).solve T a.function g input).entryOf b)),
        passes q)
    (hagrees : ∀ {b k i own}, (g.block b).items[k]? = some i → (∀ q ∈ own, q.1 ∈ i.nodes) →
      FindsAt (Diagnostic.Agrees i.nodes own) (((p.facts config).scope T a.function g).runItem i)
        (Fixpoint.runItems ((p.facts config).scope T a.function g).transfer
          ((g.block b).items.take k) (((p.facts config).solve T a.function g input).entryOf b)) →
      ∀ q ∈ own, fine q) :
    ((p.facts config).scope T a.function g).SolvesObjects p config a n fine passes g
      ((p.facts config).solve T a.function g input)
      ((p.facts config).entryState a.function input) := by
  obtain ⟨info, hinfo, hbuild⟩ := graph?_eq_some hg
  have hwired := FlowGraph.build_wired hbuild
  exact ⟨hwired, rfl, Fixpoint.postFixpoint_of_converged (ProgramState.ascending_under _ _ _) hwired
    hconverged, htracks, h.itemOf hread hg, hpassed, hagrees⟩

/-- What a function is summarized to covers calls that go one level deeper than those that the
summaries it was made from cover. -/
theorem returnsCovered_summarize (hT : p.SummariesCover config n T) (i : Nat) :
    p.ReturnsCovered config (n + 1) i ((p.facts config).summarize T i).1.returnValue := by
  intro a node name f places result ds σ u hcall hu
  rcases (p.facts config).returnValue_summarize T i with ⟨g, hg, hconverged, heq⟩ | heq
  · rw [heq]
    have hclass := h.not_mem_classes hcall.runs.function
    rcases invoke_function hclass hcall.runs.function with hnone | ⟨m, hm, -, hrun⟩
    · cases (congrArg Prod.fst hnone).symm.trans hu
    · cases hm
      obtain ⟨info, hinfo, hbuild⟩ := graph?_eq_some hg
      cases hcall.runs.number.symm.trans hinfo
      have htracks : ((p.facts config).scope T i g).Tracks p config
          (a.callee (p.references config) i σ) n (fun _ => True) fun _ => True :=
        h.tracks hread hgraph hT (places_callee hcall) fun _ _ _ _ _ _ => .inr trivial
      have hsolves := h.solvesObjects (a := a.callee (p.references config) i σ) hread hg hconverged
        htracks (fun _ _ _ => trivial) fun _ _ _ _ _ => trivial
      exact (FunctionScope.keepsUp_of_runBody hsolves hbuild
        (ProgramState.covers_top _ _ (h.ne_module_of_runs hcall.runs) _) (h.admits_callee hcall)
        rfl).2 u ((congrArg Prod.fst hrun).symm.trans hu)
  · rw [heq]
    exact Value.covers_top u

end Scope

/-- Published summaries are right about what functions return and what they do to objects. -/
theorem summariesCover_bottomUp (n : Nat) :
    p.SummariesCover config n (p.facts config).bottomUp.table := by
  refine ⟨fun j hj => ?_, h.quiet_bottomUp hread config⟩
  refine right_returnOf (R := p.ReturnsCovered config) h.numbered.nodeIds_nodup ?_ ?_ ?_ ?_ n hj
  · intro i v a node name f places result ds σ u hcall hu
    have hclass := h.not_mem_classes hcall.runs.function
    rcases invoke_function hclass hcall.runs.function with hnone | ⟨m, hm, -⟩
    · cases (congrArg Prod.fst hnone).symm.trans hu
    · cases hm
  · exact fun n i _ _ _ _ _ _ _ _ u _ _ => Value.covers_top u
  · exact fun hv hle _ _ _ _ _ _ _ _ _ hcall hu => (hv hcall hu).mono hle
  · exact fun n hreturns i =>
      h.returnsCovered_summarize hread hgraph ⟨hreturns, h.quiet_bottomUp hread config⟩ i

end IsObjectual

end Program

end ValueFlow
