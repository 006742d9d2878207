import ValueFlow.Proofs.Analysis.Branches
import ValueFlow.Proofs.Analysis.Locality
import ValueFlow.Proofs.Domain.Verdicts
import ValueFlow.Proofs.State.Keeping
/-!
Edges decide as the block before them did.

An edge evaluates the condition of its block once more, in the state that evaluating it left. What
reads nothing but variables leaves them as they are, so it is evaluated alike, and narrowing by an
outcome that is certain takes nothing away. Hence the edge of that outcome is open
(`isReachable_followEdge`). A condition that changes the heap can turn out the other way the second
time (`exists_followEdge_closed`).
-/

namespace ValueFlow

namespace Expr

/-- Whether nothing but variables is read and nothing is created or called. -/
def readsOnlyVariables (e : Expr) : Bool :=
  e.walk.all fun
    | .attr _ _ _ | .subscript _ _ _ | .call _ _ _ | .collection _ _ _ => false
    | _ => true

theorem readsOnlyVariables_child {e c : Expr} (h : e.readsOnlyVariables = true)
    (hc : c ∈ e.children) : c.readsOnlyVariables = true :=
  List.all_eq_true.2 fun x hx => List.all_eq_true.1 h x (walk_subset_of_mem_children hc hx)

theorem readsOnlyVariables_sides {e left right : Expr} (hsides : e.children = [left, right])
    (h : e.readsOnlyVariables = true) :
    left.readsOnlyVariables = true ∧ right.readsOnlyVariables = true := by
  have hside : ∀ c ∈ [left, right], c.readsOnlyVariables = true :=
    fun c hc => readsOnlyVariables_child h (hsides ▸ hc)
  exact ⟨hside left (by simp), hside right (by simp)⟩

end Expr

namespace ProgramState

section Rereading

variable {look : Expr → ProgramState → Value} {domains : DomainSet} {G : Expr → Prop}
  {s t : ProgramState}
  (hlook : ∀ e, G e → ∀ s t, s.isReachable = true → Same s t → look e s = look e t)
include hlook

theorem Same.compareWith (h : Same s t) (op : CompOp) (side : Expr) {other : Expr}
    (hother : G other) : (s.compareWith look domains op side other).Same
      (t.compareWith look domains op side other) := by
  unfold ProgramState.compareWith
  split
  · apply h.refine
    intro hs
    rw [h.get hs, hlook _ hother s t hs h]
  · exact h

/-- A condition narrows states with the same values alike, if it is looked up alike in them. -/
theorem Same.narrow (hchild : ∀ {e c : Expr}, G e → c ∈ e.children → G c) {cond : Expr}
    (hcond : G cond) (h : Same s t) (outcome : Bool) :
    (s.narrow look domains cond outcome).Same (t.narrow look domains cond outcome) := by
  fun_induction ProgramState.narrow look domains cond outcome s generalizing t with
  | case1 id operand outcome s ih =>
      rw [ProgramState.narrow]
      exact ih (hchild hcond List.mem_cons_self) h
  | case2 id op left right s ihl ihr =>
      rw [ProgramState.narrow, if_pos rfl]
      exact ihr (hchild hcond (List.mem_cons_of_mem _ List.mem_cons_self))
        (ihl (hchild hcond List.mem_cons_self) h)
  | case3 id op left right outcome s hop =>
      rw [ProgramState.narrow, if_neg hop]
      exact h
  | case4 id op left right outcome s =>
      have hleft : G left := hchild hcond List.mem_cons_self
      have hright : G right := hchild hcond (List.mem_cons_of_mem _ List.mem_cons_self)
      rw [ProgramState.narrow]
      exact (h.compareWith hlook _ left hright).compareWith hlook _ right hleft
  | case5 id x outcome s =>
      rw [ProgramState.narrow]
      apply h.refine
      intro hs
      rw [← h.get hs]
  | case6 cond outcome s hnot hbool hcompare hname =>
      rw [ProgramState.narrow] <;> assumption

theorem Same.assume (hchild : ∀ {e c : Expr}, G e → c ∈ e.children → G c) {cond : Expr}
    (hcond : G cond) (h : Same s t) (outcome : Bool) :
    (s.assume look domains cond outcome).Same (t.assume look domains cond outcome) := by
  cases hs : s.isReachable with
  | false =>
      rw [assume_of_unreachable look domains hs,
        assume_of_unreachable look domains (h.isReachable ▸ hs)]
      exact h
  | true =>
      have hnarrow : (s.narrow look domains cond outcome).Same
          (t.narrow look domains cond outcome) := h.narrow hlook hchild hcond outcome
      rw [assume_eq look domains hs, assume_eq look domains (h.isReachable ▸ hs),
        ← hlook _ hcond s t hs h, ← hnarrow.isReachable]
      split
      · exact .refl _
      · split
        · exact hnarrow
        · exact .refl _

end Rereading

end ProgramState

theorem Eval.bind_apply {α β : Type} (m : Eval α) (f : α → Eval β) (r : Run) :
    (m >>= f) r = f (m r).1 (m r).2 := rfl

/-- Whether a step, from reachable states with the same values, gives one result, of which some
property holds, and keeps the state. -/
def Settles {α : Type} (R : α → Prop) (m : Eval α) : Prop :=
  ∀ r r' : Run, r.state.isReachable = true → r.state.Same r'.state →
    (m r).1 = (m r').1 ∧ R (m r).1 ∧ r.state.Keeps (m r).2.state

namespace Settles

variable {α β : Type} {R : α → Prop} {S : β → Prop} {m : Eval α} {f : α → Eval β}

theorem pure {a : α} (ha : R a) : Settles R (pure a) :=
  fun r _ _ _ => ⟨rfl, ha, .refl r.state⟩

theorem bind (hm : Settles R m) (hf : ∀ a, R a → Settles S (f a)) : Settles S (m >>= f) := by
  intro r r' hr hsame
  have hr' : r'.state.isReachable = true := hsame.isReachable ▸ hr
  obtain ⟨heq, ha, hkeeps⟩ := hm r r' hr hsame
  obtain ⟨-, -, hkeeps'⟩ := hm r' r' hr' (.refl _)
  have hnext := hf _ ha (m r).2 (m r').2 (hkeeps.isReachable ▸ hr)
    (hkeeps.same.symm.trans (hsame.trans hkeeps'.same))
  refine ⟨?_, hnext.2.1, hkeeps.trans hnext.2.2⟩
  rw [Eval.bind_apply, Eval.bind_apply, ← heq]
  exact hnext.1

theorem ite {c : Prop} [Decidable c] {m' : Eval α} (hm : Settles R m) (hm' : Settles R m') :
    Settles R (if c then m else m') := by
  split
  · exact hm
  · exact hm'

theorem reachable {m : Eval Value} {R : Value → Prop} (hm : Settles R m) : Settles R (do
    if !(← Run.current).isReachable then return .bottom else m) := by
  intro r r' hr hsame
  rw [FunctionScope.guard_eq hr, FunctionScope.guard_eq (hsame.isReachable ▸ hr)]
  exact hm r r' hr hsame

end Settles

namespace FunctionScope

variable {scope : FunctionScope} {e : Expr} {n : Nat}

section Reading

/-- Where the left side does not decide, the right side is evaluated on the side. -/
theorem settles_skipped {look : Expr → ProgramState → Value}
    (hlook : ∀ e, e.readsOnlyVariables = true → ∀ s t : ProgramState, s.isReachable = true →
      s.Same t → look e s = look e t)
    {left : Expr} (hleft : left.readsOnlyVariables = true) {right : Eval Value}
    (hright : Settles Value.IsReduced right)
    (hdead : ∀ s seen, s.isReachable = false → right ⟨s, seen⟩ = (.bottom, ⟨s, seen⟩))
    {l : Value} (hl : l.IsReduced) (goesOn : Bool) : Settles Value.IsReduced (do
      let s ← Run.current
      Run.become (s.assume look scope.domains left goesOn)
      let r ← right
      Run.become (s.join (← Run.current))
      return l.join r) := by
  intro q q' hq hsame
  have hassumed : (q.state.assume look scope.domains left goesOn).Same
      (q'.state.assume look scope.domains left goesOn) :=
    hsame.assume hlook Expr.readsOnlyVariables_child hleft goesOn
  have hle := ProgramState.assume_leq look scope.domains q.state left goesOn
  show l.join (right ⟨_, q.seen⟩).1 = l.join (right ⟨_, q'.seen⟩).1 ∧
    (l.join (right ⟨_, q.seen⟩).1).IsReduced ∧
    q.state.Keeps (q.state.join (right ⟨_, q.seen⟩).2.state)
  cases ha : (q.state.assume look scope.domains left goesOn).isReachable with
  | false =>
      rw [hdead _ _ ha, hdead _ _ (hassumed.isReachable ▸ ha)]
      refine ⟨rfl, hl.join Value.isReduced_bottom, ProgramState.keeps_join hq fun ht => ?_⟩
      exact absurd (ha.symm.trans ht) Bool.false_ne_true
  | true =>
      obtain ⟨heq, hreduced, hkeeps⟩ := hright ⟨_, q.seen⟩ ⟨_, q'.seen⟩ ha hassumed
      refine ⟨congrArg l.join heq, hl.join hreduced, ProgramState.keeps_join hq fun _ => ?_⟩
      exact Environment.leq_trans hkeeps.leq (ProgramState.env_leq_of_leq hle ha)

variable (scope)

/-- What reads only variables is evaluated alike in states with the same values, and leaves them. -/
theorem settles_evalWithin (n : Nat) (he : e.readsOnlyVariables = true) :
    Settles Value.IsReduced (scope.evalWithin n e) := by
  induction n generalizing e with
  | zero => exact .pure Value.isReduced_bottom
  | succ n ih =>
      have part {c : Expr} (hc : c ∈ e.children) :
          Settles Value.IsReduced (scope.evalWithin n c) := ih (Expr.readsOnlyVariables_child he hc)
      cases e with
      | literal id l =>
          rw [evalWithin]
          exact .reachable (.pure (Value.isReduced_literal l))
      | unsupported =>
          rw [evalWithin]
          exact .reachable (.pure Value.isReduced_top)
      | name id x =>
          rw [evalWithin]
          refine .reachable fun r r' hr hsame => ?_
          exact ⟨hsame.get hr x, Environment.isReduced_get _ _, .refl _⟩
      | binOp id op left right =>
          rw [evalWithin]
          refine .reachable ((part List.mem_cons_self).bind fun _ _ => ?_)
          exact (part (List.mem_cons_of_mem _ List.mem_cons_self)).bind fun _ _ =>
            .pure (Value.isReduced_binary _ _ _)
      | compare id op left right =>
          rw [evalWithin]
          refine .reachable ((part List.mem_cons_self).bind fun _ _ => ?_)
          exact (part (List.mem_cons_of_mem _ List.mem_cons_self)).bind fun _ _ =>
            .pure (Value.isReduced_comparison _ _ _)
      | unaryOp id op operand =>
          rw [evalWithin]
          exact .reachable ((part List.mem_cons_self).bind fun _ hv =>
            .pure (Value.isReduced_unary op hv))
      | boolOp id op left right =>
          obtain ⟨hleft, hright⟩ := Expr.readsOnlyVariables_sides rfl he
          rw [evalWithin]
          refine .reachable ((ih hleft).bind fun l hl => .ite (.pure hl) (.ite (ih hright) ?_))
          refine settles_skipped (fun e he s t hs hst => ?_) hleft (ih hright) ?_ hl _
          · exact (ih he ⟨s, none⟩ ⟨t, none⟩ hs hst).1
          · exact fun s seen hs => evalWithin_of_unreachable hs n right seen
      | attr | subscript | call | collection =>
          rw [Expr.readsOnlyVariables, List.all_eq_true] at he
          have hself := he _ (Expr.mem_walk_self _)
          cases hself

variable {s t : ProgramState} {left right : Expr} {id : Nat} {o : Bool}

theorem settles_eval (he : e.readsOnlyVariables = true) :
    Settles Value.IsReduced (scope.eval e) := settles_evalWithin scope e.height he

theorem look_same (he : e.readsOnlyVariables = true) (hs : s.isReachable = true) (h : s.Same t) :
    scope.look e s = scope.look e t := (settles_eval scope he ⟨s, none⟩ ⟨t, none⟩ hs h).1

theorem isReduced_look (he : e.readsOnlyVariables = true) (hs : s.isReachable = true) :
    (scope.look e s).IsReduced := (settles_eval scope he ⟨s, none⟩ ⟨s, none⟩ hs (.refl s)).2.1

theorem look_eq (s : ProgramState) (h : e.height ≤ n) :
    scope.look e s = (scope.evalWithin n e ⟨s, none⟩).1 := by
  rw [look, eval, evalWithin_eq (Nat.le_refl _) h]

theorem look_name (hs : s.isReachable = true) (x : String) :
    scope.look (.name id x) s = s.env.get x := by
  rw [look_eq _ _ (Nat.le_refl _), Expr.height, evalWithin, guard_eq hs]
  rfl

theorem look_unaryOp (hs : s.isReachable = true) (op : UnaryOp) (operand : Expr) :
    scope.look (.unaryOp id op operand) s = .unary op (scope.look operand s) := by
  rw [look_eq _ _ (Nat.le_refl _), Expr.height, evalWithin, guard_eq hs]
  rfl

/-- What stands right is evaluated as if nothing stood left. -/
theorem evalWithin_right (hleft : left.readsOnlyVariables = true)
    (hright : right.readsOnlyVariables = true) (hs : s.isReachable = true) (hn : right.height ≤ n) :
    (scope.evalWithin n right (scope.evalWithin n left ⟨s, none⟩).2).1 = scope.look right s := by
  obtain ⟨-, -, hkeeps⟩ := settles_evalWithin scope n hleft ⟨s, none⟩ ⟨s, none⟩ hs (.refl s)
  obtain ⟨heq, -, -⟩ := settles_evalWithin scope n hright ⟨s, none⟩ _ hs hkeeps.same
  rw [look_eq scope s hn, heq]

theorem look_compare (hleft : left.readsOnlyVariables = true)
    (hright : right.readsOnlyVariables = true) (hs : s.isReachable = true) (op : CompOp) :
    scope.look (.compare id op left right) s =
      .comparison op (scope.look left s) (scope.look right s) := by
  have hvalue := look_eq scope s (Nat.le_max_left left.height right.height)
  have hother := evalWithin_right scope hleft hright hs (Nat.le_max_right left.height _)
  rw [look_eq _ _ (Nat.le_refl _), Expr.height, evalWithin, guard_eq hs, hvalue, ← hother]
  rfl

/-- Where a conjunction is certain to hold, so are both sides, and where a disjunction is certain to
fail, so are they. -/
theorem truthiness_of_boolOp {op : BoolOp} (hleft : left.readsOnlyVariables = true)
    (hright : right.readsOnlyVariables = true) (hs : s.isReachable = true)
    (h : (scope.look (.boolOp id op left right) s).truthiness = some (decide (op = .and))) :
    (scope.look left s).truthiness = some (decide (op = .and)) ∧
      (scope.look right s).truthiness = some (decide (op = .and)) := by
  have hvalue := look_eq scope s (Nat.le_max_left left.height right.height)
  have hother := evalWithin_right scope hleft hright hs (Nat.le_max_right left.height _)
  rw [look_eq _ _ (Nat.le_refl _), Expr.height, evalWithin, guard_eq hs, Eval.bind_apply,
    ← hvalue] at h
  split at h
  · next hstops =>
      have hleft : (scope.look left s).truthiness = some (decide (op = .and)) := h
      rw [Value.isBottom_eq_false_of_truthiness hleft, Bool.false_or, decide_eq_true_eq,
        hleft] at hstops
      simp at hstops
  · next hgoes =>
      split at h
      · next hleft =>
          rw [hother] at h
          exact ⟨hleft, h⟩
      · next hopen =>
          rw [Bool.or_eq_true, not_or, Bool.not_eq_true] at hgoes
          exact absurd (Value.truthiness_of_join hgoes.1 h) hopen

end Reading

section Certain

variable {s : ProgramState} {side other cond : Expr} {o : Bool}

theorem keeps_compareWith {op : CompOp} (hs : s.isReachable = true)
    (hother : other.readsOnlyVariables = true) (hbottom : (scope.look other s).isBottom = false)
    (hbottom' : (scope.look side s).isBottom = false)
    (h : Value.compare? op (scope.look side s) (scope.look other s) = some true) :
    s.Keeps (s.compareWith scope.look scope.domains op side other) := by
  cases side with
  | name id x =>
      rw [look_name scope hs] at h hbottom'
      have hvalue := (Environment.isReduced_get s.env x).agrees hbottom'
      rw [ProgramState.compareWith]
      dsimp only [Expr.name?]
      rw [hvalue.restrict_eq_self ((isReduced_look scope hother hs).agrees hbottom) h]
      exact ProgramState.keeps_refine hs hvalue
  | literal | binOp | boolOp | unaryOp | compare | attr | subscript | call | collection
  | unsupported => exact .refl s

/-- Narrowing by an outcome that is certain keeps the state. -/
theorem keeps_narrow (hcond : cond.readsOnlyVariables = true) (hs : s.isReachable = true)
    (h : (scope.look cond s).truthiness = some o) :
    s.Keeps (s.narrow scope.look scope.domains cond o) := by
  fun_induction ProgramState.narrow scope.look scope.domains cond o s with
  | case1 id operand o s ih =>
      rw [look_unaryOp scope hs] at h
      exact ih (Expr.readsOnlyVariables_child hcond List.mem_cons_self) hs
        (Value.truthiness_of_unary_not h)
  | case2 id op left right s ihl ihr =>
      obtain ⟨hleft, hright⟩ := Expr.readsOnlyVariables_sides rfl hcond
      obtain ⟨hl, hr⟩ := truthiness_of_boolOp scope hleft hright hs h
      have hkeeps := ihl hleft hs hl
      rw [look_same scope hright hs hkeeps.same] at hr
      exact hkeeps.trans (ihr hright (hkeeps.isReachable ▸ hs) hr)
  | case3 => exact .refl _
  | case4 id op left right o s op' =>
      obtain ⟨hleft, hright⟩ := Expr.readsOnlyVariables_sides rfl hcond
      rw [look_compare scope hleft hright hs] at h
      obtain ⟨hl, hr, hverdict⟩ := Value.compare?_of_truthiness h
      have hholds : Value.compare? op' (scope.look left s) (scope.look right s) = some true := by
        cases o with
        | true => exact hverdict
        | false => exact Value.compare?_negate hl hr hverdict
      have hkeeps := keeps_compareWith hs hright hr hl hholds
      have hvalue := look_same scope hleft hs hkeeps.same
      have hvalue' := look_same scope hright hs hkeeps.same
      refine hkeeps.trans (keeps_compareWith (hkeeps.isReachable ▸ hs) hleft (hvalue ▸ hl)
        (hvalue' ▸ hr) ?_)
      rwa [← hvalue, ← hvalue', Value.compare?_flip]
  | case5 id x o s v =>
      rw [look_name scope hs] at h
      have hvalue := (Environment.isReduced_get s.env x).agrees
        (Value.isBottom_eq_false_of_truthiness h)
      have hsame : (if o then v.truthy else v.falsy) = s.env.get x := by
        cases o with
        | true => exact hvalue.truthy_eq_self h
        | false => exact hvalue.falsy_eq_self h
      rw [hsame]
      exact ProgramState.keeps_refine hs hvalue
  | case6 => exact .refl _

/-- An outcome that is certain can be assumed. -/
theorem isReachable_assume (hcond : cond.readsOnlyVariables = true) (hs : s.isReachable = true)
    (h : (scope.look cond s).truthiness = some o) :
    (s.assume scope.look scope.domains cond o).isReachable = true := by
  have hkeeps := keeps_narrow hcond hs h
  have hreach : (s.narrow scope.look scope.domains cond o).isReachable = true :=
    hkeeps.isReachable ▸ hs
  rw [ProgramState.assume_eq _ _ hs, if_pos hreach, if_neg]
  · exact hreach
  · rw [h]
    simp

/-- Running a condition leaves the state that evaluating it leaves. -/
theorem state_runCondition (scope : FunctionScope) (cond : Expr) (r : Run) :
    (scope.runCondition cond r).2.state = (scope.eval cond r).2.state := by
  rw [runCondition, Eval.bind_apply]
  cases (scope.eval cond r).1.truthiness <;> split <;> rfl

/-- The condition of a block is evaluated in the state after the items before it. -/
theorem runItems_condition {items : List BlockItem} {start : ProgramState}
    (hitems : items.getLast? = some (.condition cond))
    (hs : (Fixpoint.runItems scope.transfer items.dropLast start).isReachable = true) :
    Fixpoint.runItems scope.transfer items start =
      (scope.eval cond ⟨Fixpoint.runItems scope.transfer items.dropLast start, none⟩).2.state := by
  have hlast : items.dropLast ++ [.condition cond] = items :=
    List.dropLast_append_getLast? _ hitems
  rw [← state_runCondition, runItems_eq items, ← hlast, List.foldl_append, hlast,
    ← runItems_eq items.dropLast]
  show (scope.runItem (.condition cond) ⟨_, none⟩).2.state = _
  rw [runItem_eq hs]

theorem getLast?_of_condition? {source : Block} (h : source.condition? = some cond) :
    source.items.getLast? = some (.condition cond) := by
  unfold Block.condition? at h
  split at h
  · next hlast =>
      cases h
      exact hlast
  · cases h

theorem isReachable_of_truthiness (h : (scope.look cond s).truthiness = some o) :
    s.isReachable = true := by
  refine Bool.not_eq_false _ ▸ fun hs => ?_
  rw [look, eval, evalWithin_of_unreachable hs] at h
  cases h

variable {source : Block} {start : ProgramState} {edge : Edge}

/-- If a block whose condition reads only variables is run from any state and the condition turns
out to have a certain outcome, then the edge of that outcome can be taken. -/
theorem isReachable_followEdge (hsource : source.condition? = some cond)
    (hcond : cond.readsOnlyVariables = true)
    (hvalue : (scope.look cond
      (Fixpoint.runItems scope.transfer source.items.dropLast start)).truthiness = some o)
    (hkind : edge.kind.outcome? = some o) :
    (scope.followEdge edge source
      (Fixpoint.runItems scope.transfer source.items start)).isReachable = true := by
  have hs := isReachable_of_truthiness hvalue
  obtain ⟨-, -, hkeeps⟩ := settles_eval scope hcond
    ⟨Fixpoint.runItems scope.transfer source.items.dropLast start, none⟩ ⟨_, none⟩ hs (.refl _)
  rw [followEdge_eq_assume hkind hsource, runItems_condition (getLast?_of_condition? hsource) hs]
  refine isReachable_assume hcond (hkeeps.isReachable ▸ hs) ?_
  rwa [← look_same scope hcond hs hkeeps.same]

end Certain

end FunctionScope

namespace ProgramFacts

variable (facts : ProgramFacts) (g : FlowGraph)

/-- What the statements of the module are analyzed with, once all functions are summarized. -/
abbrev moduleScope : FunctionScope := facts.scope facts.bottomUp.table moduleId g

/-- The solution for the statements of the module. -/
abbrev moduleSolution : Fixpoint.Solution ProgramState :=
  facts.solve facts.bottomUp.table moduleId g none

/-- The state of the module after the given items, run from where a block is entered. -/
abbrev moduleState (b : Nat) (items : List BlockItem) : ProgramState :=
  Fixpoint.runItems (facts.moduleScope g).transfer items ((facts.moduleSolution g).entryOf b)

end ProgramFacts

section Counting

/-- What is known about the program that counts. -/
abbrev Program.counted : ProgramFacts := Program.counting.facts (.ofPreset .standard)

open Program (counted)

theorem certain_counted : (counted.graph? moduleId).any (fun g =>
    (g.block 3).condition?.any fun cond =>
      cond.readsOnlyVariables && ((counted.moduleScope g).look cond
        (counted.moduleState g 3 (g.block 3).items.dropLast)).truthiness = some true) = true := by
  decide +kernel

theorem isReachable_followEdge_counting : ∃ g, counted.graph? moduleId = some g ∧
    ((counted.moduleScope g).followEdge ⟨3, 5, .trueBranch⟩ (g.block 3)
      (counted.moduleState g 3 (g.block 3).items)).isReachable = true := by
  obtain ⟨g, hg, hblock⟩ := (Option.any_eq_true _ _).1 certain_counted
  obtain ⟨cond, hsource, hcond⟩ := (Option.any_eq_true _ _).1 hblock
  rw [Bool.and_eq_true, decide_eq_true_eq] at hcond
  exact ⟨g, hg, FunctionScope.isReachable_followEdge hsource hcond.1 hcond.2 rfl⟩

end Counting

section Appending

/-- A program that asks whether a list is empty and appends to it in the same condition. -/
def Program.appending : Program where
  body :=
    [.assign 1 (.name 2 "xs") (.collection 3 .list []),
      .ifElse 4
        (.boolOp 5 .and
          (.compare 6 .eq (.call 7 (.name 8 "len") [.name 9 "xs"]) (.literal 10 (.int 0)))
          (.compare 11 .is
            (.call 12 (.attr 13 (.name 14 "xs") "append") [.literal 15 (.int 1)])
            (.literal 16 .none)))
        [.assign 17 (.name 18 "y") (.literal 19 (.int 1))]
        [.assign 20 (.name 21 "y") (.literal 22 (.int 2))]]

/-- What is known about the program that appends. -/
abbrev Program.appended : ProgramFacts := Program.appending.facts (.ofPreset .standard)

open Program (appended)

theorem closed_appended : (appended.graph? moduleId).any (fun g =>
    (g.block 0).condition?.any fun cond =>
      (appended.moduleSolution g).converged && (appended.moduleSolution g).isReachable 0 &&
      (appended.moduleState g 0 (g.block 0).items).isReachable &&
      decide (((appended.moduleScope g).look cond
        (appended.moduleState g 0 (g.block 0).items.dropLast)).truthiness = some true) &&
      decide (⟨0, 2, .trueBranch⟩ ∈ g.edges) &&
      !((appended.moduleScope g).followEdge ⟨0, 2, .trueBranch⟩ (g.block 0)
        (appended.moduleState g 0 (g.block 0).items)).isReachable) = true := by
  decide +kernel

/-- A condition that changes the heap can be certain to hold and close the edge where it holds. -/
theorem exists_followEdge_closed :
    ∃ (p : Program) (config : Config) (g : FlowGraph) (cond : Expr) (edge : Edge),
      p.nodeIds.Nodup ∧ config.validate = .ok () ∧ (p.facts config).graph? moduleId = some g ∧
      ((p.facts config).moduleSolution g).converged = true ∧
      edge ∈ g.edges ∧ ((p.facts config).moduleSolution g).isReachable edge.source = true ∧
      (g.block edge.source).condition? = some cond ∧
      ((p.facts config).moduleState g edge.source (g.block edge.source).items).isReachable = true ∧
      (((p.facts config).moduleScope g).look cond ((p.facts config).moduleState g edge.source
        (g.block edge.source).items.dropLast)).truthiness = some true ∧
      edge.kind = .trueBranch ∧
      (((p.facts config).moduleScope g).followEdge edge (g.block edge.source)
        ((p.facts config).moduleState g edge.source (g.block edge.source).items)).isReachable =
          false := by
  obtain ⟨g, hg, hblock⟩ := (Option.any_eq_true _ _).1 closed_appended
  obtain ⟨cond, hsource, hall⟩ := (Option.any_eq_true _ _).1 hblock
  simp only [Bool.and_eq_true, decide_eq_true_eq, Bool.not_eq_true'] at hall
  obtain ⟨⟨⟨⟨⟨hconverged, hentered⟩, hexit⟩, hvalue⟩, hedge⟩, hclosed⟩ := hall
  exact ⟨.appending, .ofPreset .standard, g, cond, ⟨0, 2, .trueBranch⟩, by decide, rfl, hg,
    hconverged, hedge, hentered, hsource, hexit, hvalue, rfl, hclosed⟩

end Appending

end ValueFlow
