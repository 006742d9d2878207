import ValueFlow.Proofs.State.Order
/-!
States that say the same of every variable.

A state keeps another when it is below and has the same values. Domains that are not tracked may
have different components in states with the same values, but whatever is done to the variables
after leads to the same values again (`Same.refine`). Narrowing a variable to its own value and
joining with a state below keep a state.
-/

namespace ValueFlow

namespace Value

variable {c c' m : Value} {domains : DomainSet}

/-- Replacing components of values with the same reduction gives values with the same one. -/
theorem reduce_writtenOver_congr (h : c.reduce = c'.reduce) (hm : m.Finer c.reduce) :
    (m.writtenOver domains c).reduce = (m.writtenOver domains c').reduce := by
  have below {d d' : Value} (hd : d.reduce = d'.reduce) (hmd : m.Finer d.reduce) :
      (m.writtenOver domains d).reduce.Finer (m.writtenOver domains d') := by
    have hover : (m.writtenOver domains d).reduce.Finer d :=
      (reduce_finer _).trans (writtenOver_finer (hmd.trans (reduce_finer d)) (.refl d))
    refine finer_writtenOver (reduce_finer _) (hover.reduce.trans ?_)
    rw [hd]
    exact reduce_finer d'
  exact reduce_congr (below h hm) (below h.symm (h ▸ hm))

theorem writtenOver_self (domains : DomainSet) (v : Value) : v.writtenOver domains v = v := by
  simp only [writtenOver, ite_self]

/-- Replacing components by those of the reduced value does not change the reduction. -/
theorem reduce_writtenOver_reduce (c : Value) :
    (c.reduce.writtenOver domains c).reduce = c.reduce := by
  have hreduced : c.reduce.reduce = c.reduce := isReduced_reduce c
  rw [reduce_writtenOver_congr hreduced.symm (.refl _), writtenOver_self, hreduced]

end Value

namespace ProgramState

variable {s t r : ProgramState} {x : String} {v w : Value} {domains : DomainSet}

/-- Whether two states are both unreachable or have the same values. -/
structure Same (s t : ProgramState) : Prop where
  isReachable : s.isReachable = t.isReachable
  get : s.isReachable = true → ∀ x, s.env.get x = t.env.get x

/-- Whether nothing is lost and nothing is learned about variables from one state to a later one. -/
structure Keeps (s t : ProgramState) : Prop where
  isReachable : s.isReachable = t.isReachable
  leq : t.env.leq s.env = true
  get : s.isReachable = true → ∀ x, s.env.get x = t.env.get x

namespace Same

theorem refl (s : ProgramState) : s.Same s := ⟨rfl, fun _ _ => rfl⟩

theorem symm (h : s.Same t) : t.Same s :=
  ⟨h.isReachable.symm, fun ht x => (h.get (h.isReachable.trans ht) x).symm⟩

theorem trans (hst : s.Same t) (htr : t.Same r) : s.Same r :=
  ⟨hst.isReachable.trans htr.isReachable, fun hs x =>
    (hst.get hs x).trans (htr.get (hst.isReachable.symm.trans hs) x)⟩

end Same

namespace Keeps

theorem refl (s : ProgramState) : s.Keeps s := ⟨rfl, Environment.leq_refl _, fun _ _ => rfl⟩

theorem same (h : s.Keeps t) : s.Same t := ⟨h.isReachable, h.get⟩

theorem trans (hst : s.Keeps t) (htr : t.Keeps r) : s.Keeps r :=
  have hsame := hst.same.trans htr.same
  ⟨hsame.isReachable, Environment.leq_trans htr.leq hst.leq, hsame.get⟩

end Keeps

/-- A state from which no reachable one comes says nothing. -/
theorem same_of_unreachable (hs : s.isReachable = false) (ht : t.isReachable = false) :
    s.Same t := by
  refine ⟨hs.trans ht.symm, fun hreach => ?_⟩
  rw [hs] at hreach
  cases hreach

theorem isReachable_of_leq (h : t.env.leq s.env = true) (hheap : t.heap = s.heap)
    (ht : t.isReachable = true) : s.isReachable = true := by
  obtain ⟨henv, hreach⟩ := isReachable_iff.1 ht
  exact isReachable_iff.2 ⟨(Environment.leq_iff.1 h henv).1, hheap ▸ hreach⟩

theorem isReachable_eq_false_of_leq (h : t.env.leq s.env = true) (hheap : t.heap = s.heap)
    (hs : s.isReachable = false) : t.isReachable = false :=
  Bool.eq_false_iff.2 fun ht =>
    absurd (hs.symm.trans (isReachable_of_leq h hheap ht)) Bool.false_ne_true

/-- A variable is narrowed alike in states with the same values. -/
theorem Same.refine (h : s.Same t) (hv : s.isReachable = true → v = w) :
    (s.refine x v domains).Same (t.refine x w domains) := by
  cases hs : s.isReachable with
  | false =>
      exact same_of_unreachable
        (isReachable_eq_false_of_leq (s := s) (Environment.refine_leq _ _ _ _) rfl hs)
        (isReachable_eq_false_of_leq (s := t) (Environment.refine_leq _ _ _ _) rfl
          (h.isReachable ▸ hs))
  | true =>
      obtain rfl := hv hs
      obtain ⟨henv, hheap⟩ := isReachable_iff.1 hs
      obtain ⟨henv', hheap'⟩ := isReachable_iff.1 (h.isReachable ▸ hs)
      have hget := h.get hs
      cases hm : ((s.env.get x).meet v).isBottom with
      | true =>
          apply same_of_unreachable
          · rw [refine, Environment.refine_of_isBottom henv hm]
            rfl
          · rw [refine, Environment.refine_of_isBottom henv' (hget x ▸ hm)]
            rfl
      | false =>
          have hm' : ((t.env.get x).meet v).isBottom = false := hget x ▸ hm
          have hreach : (s.refine x v domains).isReachable = true :=
            isReachable_iff.2 ⟨Environment.reachable_refine henv hm, hheap⟩
          have hreach' : (t.refine x v domains).isReachable = true :=
            isReachable_iff.2 ⟨Environment.reachable_refine henv' hm', hheap'⟩
          refine ⟨hreach.trans hreach'.symm, fun _ y => ?_⟩
          have hy := hget y
          rw [refine, refine, Environment.get_eq (Environment.reachable_refine henv hm),
            Environment.get_eq (Environment.reachable_refine henv' hm'),
            Environment.components_refine henv hm, Environment.components_refine henv' hm']
          rw [Environment.get_eq henv, Environment.get_eq henv'] at hy
          split
          · next hyx =>
              subst hyx
              rw [← hget]
              refine Value.reduce_writtenOver_congr hy ?_
              rw [← Environment.get_eq henv]
              exact Value.meet_finer_left _ _
          · exact hy

/-- Narrowing a variable to its own value keeps the state. -/
theorem keeps_refine (hs : s.isReachable = true) (hx : (s.env.get x).Agrees) :
    s.Keeps (s.refine x (s.env.get x) domains) := by
  obtain ⟨henv, hheap⟩ := isReachable_iff.1 hs
  have hmeet : (s.env.get x).meet (s.env.get x) = s.env.get x := hx.meet_eq_self (.refl _)
  have hm : ((s.env.get x).meet (s.env.get x)).isBottom = false := by
    rw [hmeet]
    exact hx.notBottom
  have hreach : (s.refine x (s.env.get x) domains).isReachable = true :=
    isReachable_iff.2 ⟨Environment.reachable_refine henv hm, hheap⟩
  refine ⟨hs.trans hreach.symm, Environment.refine_leq _ _ _ _, fun _ y => ?_⟩
  rw [refine, Environment.get_eq (Environment.reachable_refine henv hm),
    Environment.components_refine henv hm, hmeet, Environment.get_eq henv, Environment.get_eq henv]
  split
  · next hyx =>
      subst hyx
      exact (Value.reduce_writtenOver_reduce _).symm
  · rfl

/-- Joining with a state below keeps the state. -/
theorem keeps_join (hs : s.isReachable = true)
    (h : t.isReachable = true → t.env.leq s.env = true) : s.Keeps (s.join t) := by
  rw [join, hs]
  cases ht : t.isReachable with
  | false => exact .refl s
  | true =>
      have h := h ht
      obtain ⟨henv, hheap⟩ := isReachable_iff.1 hs
      obtain ⟨henv', hheap'⟩ := isReachable_iff.1 ht
      have hreach : (s.env.join t.env).reachable = true := by
        rw [Environment.join_eq henv henv']
      have hbelow (x : String) :
          ((s.env.join t.env).components x).Finer (s.env.components x) := by
        obtain ⟨-, hfiner⟩ := Environment.leq_iff.1 h henv'
        rw [Environment.components_join henv henv']
        exact ⟨Sign.join_leq (Sign.leq_refl _) (hfiner x).sign,
          Nullability.join_leq (Nullability.leq_refl _) (hfiner x).nullability,
          Interval.join_leq (Interval.leq_refl _) (hfiner x).range⟩
      have habove (x : String) :
          (s.env.components x).Finer ((s.env.join t.env).components x) := by
        rw [Environment.components_join henv henv']
        exact ⟨Sign.leq_join_left _ _, Nullability.leq_join_left _ _, Interval.leq_join_left _ _⟩
      refine ⟨?_, Environment.leq_iff.2 fun _ => ⟨henv, hbelow⟩, fun _ x => ?_⟩
      · exact hs.trans (isReachable_iff.2 ⟨hreach, Heap.reachable_mergeBy _ hheap hheap'⟩).symm
      · show s.env.get x = (s.env.join t.env).get x
        rw [Environment.get_eq henv, Environment.get_eq hreach]
        exact Value.reduce_congr ((Value.reduce_finer _).trans (habove x))
          ((Value.reduce_finer _).trans (hbelow x))

end ProgramState

end ValueFlow
