import ValueFlow.Analysis.Summarize
import ValueFlow.Proofs.Analysis.Steps
/-!
What is known on the way that a condition opens.

A state that knows of a store goes on knowing of it, in whatever domains are tracked, when it is
assumed that a condition turns out as it does in that store; and nothing is known less
(`admits_assume`). Expressions may be looked up in any way that over-approximates their values, and
the analysis itself looks them up in such a way (`looksUp_look`).
-/

namespace ValueFlow

namespace ProgramState

/-- Whether looking up a condition and its parts, in whatever state, gives descriptions of their
values in the stores that the state admits. -/
def LooksUp (look : Expr → ProgramState → Value) (call : String → List Scalar → Option Scalar)
    (cond : Expr) : Prop :=
  ∀ e ∈ cond.walk, ∀ {s : ProgramState} {σ : Store} {u : Scalar}, s.isReachable = true →
    s.env.Admits σ → e.eval? call σ = some u → (look e s).describes u = true

variable {look : Expr → ProgramState → Value} {call : String → List Scalar → Option Scalar}
  {domains : DomainSet} {s : ProgramState} {σ : Store} {cond : Expr} {u : Scalar} {outcome : Bool}

theorem narrows_admits (domains : DomainSet) (σ : Store) :
    Narrows domains σ fun s => s.isReachable = true ∧ s.env.Admits σ where
  isReachable hs := hs.1
  get hs hx := hs.2.get hx
  refine {s x u v} hs hx hv := by
    have hrefined : (s.env.refine x v domains).Admits σ := hs.2.refine hx hv
    exact ⟨isReachable_iff.2 ⟨hrefined.reachable, (isReachable_iff.1 hs.1).2⟩, hrefined⟩

/-- Assuming that a condition turns out as it does in a store keeps a state that admits the store
reachable and admitting it, and leads to a state below. -/
theorem admits_assume (hlook : LooksUp look call cond) (hs : s.isReachable = true)
    (hσ : s.env.Admits σ) (hu : cond.eval? call σ = some u) (ho : u.truth = outcome) :
    (s.assume look domains cond outcome).env.Admits σ ∧
      (s.assume look domains cond outcome).isReachable = true ∧
      (s.assume look domains cond outcome).leq s = true := by
  have hgood : ∀ {e c : Expr}, e.walk ⊆ cond.walk → c ∈ e.children → c.walk ⊆ cond.walk :=
    fun he hc => List.Subset.trans (Expr.walk_subset_of_mem_children hc) he
  have hkept := (narrows_admits domains σ).assume (G := fun e => e.walk ⊆ cond.walk) hgood
    (fun he hs => hlook _ (he (Expr.mem_walk_self _)) hs.1 hs.2) ⟨hs, hσ⟩ (List.Subset.refl _) hu ho
  exact ⟨hkept.2, hkept.1, assume_leq look domains s cond outcome⟩

end ProgramState

/-- Where all domains are tracked, to admit a store is to describe it. -/
theorem Environment.Admits.describes {e : Environment} {σ : Store} (h : e.Admits σ) :
    e.Describes .all σ where
  reachable := h.reachable
  tracked _ := ⟨nofun, nofun, nofun⟩
  value hx := by
    have hget := h.get hx
    rwa [Environment.get_eq h.reachable, Value.describes_reduce_iff] at hget

/-- The analysis looks up what is made of names, literals and operators in a way that
over-approximates the values, where all domains are tracked. -/
theorem FunctionScope.looksUp_look {scope : FunctionScope} (h : scope.domains = .all)
    (cond : Expr) : ProgramState.LooksUp scope.look (fun _ _ => none) cond := by
  intro e _ s σ u hs hσ hu
  have hdescribes : s.Describes scope.domains σ :=
    ⟨h ▸ hσ.describes, (ProgramState.isReachable_iff.1 hs).2⟩
  exact FunctionScope.sound_look scope (fun _ _ => none) σ e.height
    ⟨Nat.le_refl _, fun _ _ hcall => by cases hcall⟩ hdescribes hu

/-- The scope of a function in a program without statements. -/
def FunctionScope.bare : FunctionScope :=
  ⟨.ofIndex (.build ⟨[]⟩) (.ofPreset .standard), moduleName, 0, ∅⟩

/-- The condition `not (10 <= i or i == 0)`. -/
def Expr.digit : Expr :=
  .unaryOp 1 .not (.boolOp 2 .or (.compare 3 .ltE (.literal 4 (.int 10)) (.name 5 "i"))
    (.compare 6 .eq (.name 7 "i") (.literal 8 (.int 0))))

/-- What is known of `i` if it lies between zero and twenty. -/
def ProgramState.upToTwenty : ProgramState :=
  ⟨Environment.top.set "i" (.intIn (.finite 0 20)) .all, .top⟩

theorem ProgramState.admits_assume_digit :
    upToTwenty.isReachable = true ∧
    upToTwenty.env.Admits (Store.set (fun _ => none) "i" (.scalar (.int 7))) ∧
    Expr.digit.eval? (fun _ _ => none) (Store.set (fun _ => none) "i" (.scalar (.int 7))) =
      some (.ofBool true) ∧
    (upToTwenty.assume FunctionScope.bare.look .all Expr.digit true).env.Admits
      (Store.set (fun _ => none) "i" (.scalar (.int 7))) ∧
    (upToTwenty.assume FunctionScope.bare.look .all Expr.digit true).isReachable = true ∧
    (upToTwenty.assume FunctionScope.bare.look .all Expr.digit true).leq upToTwenty = true := by
  have hreach : upToTwenty.isReachable = true := by decide
  have hσ : upToTwenty.env.Admits (Store.set (fun _ => none) "i" (.scalar (.int 7))) := by
    have hdescribes := (Environment.describes_top .all fun _ => none).set (x := "i")
      (v := .intIn (.finite 0 20)) (u := .int 7) (by decide)
    exact ⟨hdescribes.reachable, hdescribes.get⟩
  have hu : Expr.digit.eval? (fun _ _ => none)
      (Store.set (fun _ => none) "i" (.scalar (.int 7))) = some (.ofBool true) := by decide
  exact ⟨hreach, hσ, hu,
    admits_assume (FunctionScope.looksUp_look rfl Expr.digit) hreach hσ hu rfl⟩

end ValueFlow
