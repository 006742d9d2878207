import ValueFlow.Analysis.Condition
import ValueFlow.Proofs.Analysis.Runs
import ValueFlow.Proofs.State.Order
/-!
Narrowing by a condition keeps every store that the condition lets through.

Whatever is said of a store by a state survives a condition that turns out, in that store, as it is
assumed to, if it survives narrowing a variable by a description of its value. One induction over
the condition serves all such properties (`Narrows`). And whatever the condition and the outcome, a
state is only narrowed: the state after is below (`assume_leq`).
-/

namespace ValueFlow

namespace ProgramState

section Descending

variable (look : Expr → ProgramState → Value) (domains : DomainSet)

theorem compareWith_leq (op : CompOp) (side other : Expr) (s : ProgramState) :
    (s.compareWith look domains op side other).env.leq s.env = true := by
  unfold compareWith
  split
  · exact Environment.refine_leq _ _ _ _
  · exact Environment.leq_refl _

theorem narrow_leq (cond : Expr) (outcome : Bool) (s : ProgramState) :
    (s.narrow look domains cond outcome).env.leq s.env = true := by
  fun_induction ProgramState.narrow look domains cond outcome s with
  | case1 id operand outcome s ih => exact ih
  | case2 id op left right s ihl ihr => exact Environment.leq_trans ihr ihl
  | case3 => exact Environment.leq_refl _
  | case4 id op left right outcome s =>
      exact Environment.leq_trans (compareWith_leq look domains _ _ _ _)
        (compareWith_leq look domains _ _ _ _)
  | case5 => exact Environment.refine_leq _ _ _ _
  | case6 => exact Environment.leq_refl _

theorem heap_compareWith (op : CompOp) (side other : Expr) (s : ProgramState) :
    (compareWith look domains op side other s).heap = s.heap := by
  unfold compareWith
  split <;> rfl

theorem heap_narrow (cond : Expr) (outcome : Bool) (s : ProgramState) :
    (narrow look domains cond outcome s).heap = s.heap := by
  fun_induction narrow look domains cond outcome s with
  | case1 id operand outcome s ih => exact ih
  | case2 id op left right s ihl ihr => rw [ihr, ihl]
  | case3 id op left right outcome s hop => rfl
  | case4 id op left right outcome s => rw [heap_compareWith, heap_compareWith]
  | case5 id x outcome s => rfl
  | case6 cond outcome s hnot hbool hcompare hname => rfl

theorem assume_of_unreachable {s : ProgramState} (hs : s.isReachable = false) (cond : Expr)
    (outcome : Bool) : s.assume look domains cond outcome = s := by
  rw [assume, hs]
  rfl

/-- In a reachable state, what the narrowed variables leave is assumed. -/
theorem assume_eq {s : ProgramState} (hs : s.isReachable = true) (cond : Expr) (outcome : Bool) :
    s.assume look domains cond outcome =
      if (look cond s).truthiness = some (!outcome) then bottom
      else if (s.narrow look domains cond outcome).isReachable then
        s.narrow look domains cond outcome
      else bottom := by
  have hreach : (s.narrow look domains cond outcome).isReachable =
      (s.narrow look domains cond outcome).env.reachable := by
    rw [isReachable, heap_narrow, (isReachable_iff.1 hs).2, Bool.and_true]
  rw [assume, hs, hreach]
  rfl

/-- Assuming how a condition turns out leads to a state below. -/
theorem assume_leq (s : ProgramState) (cond : Expr) (outcome : Bool) :
    (s.assume look domains cond outcome).leq s = true := by
  cases hs : s.isReachable with
  | false =>
      rw [assume_of_unreachable look domains hs]
      exact leq_refl s
  | true =>
      rw [assume_eq look domains hs]
      split
      · exact bottom_leq s
      · split
        · exact leq_of_env (narrow_leq look domains cond outcome s)
            (heap_narrow look domains cond outcome s)
        · exact bottom_leq s

end Descending

section Heaps

variable {P : Heap → Prop} {s t : ProgramState} (hbottom : P .bottom)
include hbottom

theorem heap_normalize (hs : P s.heap) : P s.normalize.heap := by
  unfold normalize
  split
  · exact hs
  · exact hbottom

theorem heap_join (hjoin : ∀ {h k : Heap}, P h → P k → P (h.join k)) (hs : P s.heap)
    (ht : P t.heap) : P (s.join t).heap := by
  unfold join
  split
  · exact heap_normalize hbottom ht
  · split
    · exact hs
    · exact hjoin hs ht

theorem heap_widen {n : Nat} (hwiden : ∀ {h k : Heap}, P h → P k → P (h.widen k n))
    (hs : P s.heap) (ht : P t.heap) : P (s.widen t n).heap := by
  unfold widen
  split
  · exact heap_normalize hbottom ht
  · split
    · exact hs
    · exact hwiden hs ht

theorem heap_assume (look : Expr → ProgramState → Value) (domains : DomainSet) (hs : P s.heap)
    (cond : Expr) (outcome : Bool) : P (s.assume look domains cond outcome).heap := by
  unfold assume
  split
  · exact hs
  · split
    · exact hbottom
    · dsimp only
      split
      · rw [heap_narrow]
        exact hs
      · exact hbottom

end Heaps

/-- A property of states, about a store, that says what is known of the variables and survives
narrowing a variable by a description of its value. -/
structure Narrows (domains : DomainSet) (σ : Store) (P : ProgramState → Prop) : Prop where
  isReachable : ∀ {s}, P s → s.isReachable = true
  get : ∀ {s x u}, P s → σ.scalar? x = some u → (s.env.get x).describes u = true
  refine : ∀ {s x u v}, P s → σ.scalar? x = some u → v.describes u = true → P (s.refine x v domains)

section Keeping

variable {domains : DomainSet} {σ : Store} {P : ProgramState → Prop}
  {look : Expr → ProgramState → Value} {call : String → List Scalar → Option Scalar}
  {G : Expr → Prop} {s : ProgramState} {u : Scalar}

/-- Comparing narrows the variable that was compared. -/
theorem Narrows.compareWith (h : Narrows domains σ P)
    (hlook : ∀ {e s u}, G e → P s → e.eval? call σ = some u → (look e s).describes u = true)
    {op : CompOp} {side other : Expr} {v : Scalar} (hs : P s) (hother : G other)
    (hu : side.eval? call σ = some u) (hv : other.eval? call σ = some v)
    (hop : Scalar.compare? op u v = some true) : P (s.compareWith look domains op side other) := by
  cases side with
  | name id x =>
      have hx : σ.scalar? x = some u := by rwa [Expr.eval?] at hu
      exact h.refine hs hx (Value.describes_restrict (h.get hs hx) (hlook hother hs hv) hop)
  | literal | binOp | boolOp | unaryOp | compare | attr | subscript | call | collection
  | unsupported => exact hs

/-- A property of states for a store in which a condition turns out as it is assumed to survives
narrowing by the condition. -/
theorem Narrows.narrow (h : Narrows domains σ P)
    (hchild : ∀ {e c : Expr}, G e → c ∈ e.children → G c)
    (hlook : ∀ {e s u}, G e → P s → e.eval? call σ = some u → (look e s).describes u = true)
    {cond : Expr} {outcome : Bool} (hs : P s) (hcond : G cond)
    (hu : cond.eval? call σ = some u) (ho : u.truth = outcome) :
    P (s.narrow look domains cond outcome) := by
  fun_induction ProgramState.narrow look domains cond outcome s generalizing u with
  | case1 id operand outcome s ih =>
      obtain ⟨v, hv, he⟩ := Expr.eval?_unaryOp hu
      cases he
      refine ih hs (hchild hcond (List.mem_singleton_self _)) hv ?_
      rw [← ho, Scalar.truth_ofBool, Bool.not_not]
  | case2 id op left right s ihl ihr =>
      -- both sides turned out alike, for otherwise the left side had decided the other way
      obtain ⟨v, hv, ⟨hvo, hr⟩ | ⟨hvo, rfl⟩⟩ := Expr.eval?_boolOp hu
      · exact ihr (ihl hs (hchild hcond List.mem_cons_self) hv hvo)
          (hchild hcond (List.mem_cons_of_mem _ List.mem_cons_self)) hr ho
      · exact absurd ho hvo
  | case3 => exact hs
  | case4 id op left right outcome s =>
      obtain ⟨v, w, o, hv, hw, hc, rfl⟩ := Expr.eval?_compare hu
      rw [Scalar.truth_ofBool] at ho
      subst ho
      have holds : Scalar.compare? (if o then op else op.negate) v w = some true := by
        cases o with
        | true => exact hc
        | false =>
            rw [if_neg Bool.false_ne_true, Scalar.compare?_negate, hc]
            rfl
      have hleft := h.compareWith hlook hs
        (hchild hcond (List.mem_cons_of_mem _ List.mem_cons_self)) hv hw holds
      refine h.compareWith hlook hleft (hchild hcond List.mem_cons_self) hw hv ?_
      rw [Scalar.compare?_flip, holds]
  | case5 id x outcome s =>
      have hx : σ.scalar? x = some u := by rwa [Expr.eval?] at hu
      refine h.refine hs hx ?_
      cases outcome with
      | true => exact Value.describes_truthy (h.get hs hx) ho
      | false => exact Value.describes_falsy (h.get hs hx) ho
  | case6 => exact hs

/-- A property of states for a store in which a condition turns out as it is assumed to survives
the assumption. -/
theorem Narrows.assume (h : Narrows domains σ P)
    (hchild : ∀ {e c : Expr}, G e → c ∈ e.children → G c)
    (hlook : ∀ {e s u}, G e → P s → e.eval? call σ = some u → (look e s).describes u = true)
    {cond : Expr} {outcome : Bool} (hs : P s) (hcond : G cond)
    (hu : cond.eval? call σ = some u) (ho : u.truth = outcome) :
    P (s.assume look domains cond outcome) := by
  have hnarrow := h.narrow hchild hlook hs hcond hu ho
  have hpossible : (look cond s).truthiness ≠ some (!outcome) := by
    intro ht
    rw [Value.truth_of_truthiness (hlook hcond hs hu) ht] at ho
    cases outcome <;> cases ho
  rw [assume_eq look domains (h.isReachable hs), if_neg hpossible,
    if_pos (h.isReachable hnarrow)]
  exact hnarrow

theorem narrows_describes (domains : DomainSet) (σ : Store) :
    Narrows domains σ (Describes domains · σ) where
  isReachable hs := hs.isReachable
  get hs hx := hs.env.get hx
  refine hs hx hv := hs.refine hx hv

end Keeping

end ProgramState

end ValueFlow
