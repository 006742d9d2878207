import ValueFlow.Analysis.Report
import ValueFlow.Proofs.Analysis.Hereditary
import ValueFlow.Proofs.Analysis.Steps
/-!
Where findings come from.

Observing a run changes nothing but what is seen, so the pass that makes findings goes through the
states of the solution: every finding is made by an item from the state at its place
(`exists_place_of_finding`). A finding about a condition comes from a place where the condition has
one outcome in the state there (`exists_place_of_branch`).
-/

namespace ValueFlow

namespace Diagnostic

variable {α : Type} {same : α → α → Bool}

/-- A repetition of the first element is dropped; otherwise the first element stays. -/
theorem dropRepeats_cons_cons (a b : α) (rest : List α) : dropRepeats same (a :: b :: rest) =
    if same a b then dropRepeats same (a :: rest) else a :: dropRepeats same (b :: rest) := by
  have kept (rest : List α) (last : α) (acc : List α) :
      (rest.foldl (fun (acc : α × List α) b =>
        if same acc.1 b then acc else (b, b :: acc.2)) (last, acc)).2 =
      (rest.foldl (fun (acc : α × List α) b =>
        if same acc.1 b then acc else (b, b :: acc.2)) (last, [])).2 ++ acc := by
    induction rest generalizing last acc with
    | nil => rfl
    | cons c rest ih =>
        rw [List.foldl_cons, List.foldl_cons]
        dsimp only
        split
        · exact ih last acc
        · rw [ih c (c :: acc), ih c [c], List.append_assoc]
          rfl
  simp only [dropRepeats, List.foldl_cons]
  split
  · rfl
  · rw [kept, List.reverse_append]
    rfl

theorem dropRepeats_subset (l : List α) : dropRepeats same l ⊆ l := by
  cases l with
  | nil => exact fun _ hb => hb
  | cons a rest =>
      induction rest generalizing a with
      | nil => exact fun _ hb => hb
      | cons b rest ih =>
          rw [dropRepeats_cons_cons]
          split
          · exact List.Subset.trans (ih a)
              (List.cons_subset_cons a (List.subset_cons_self b rest))
          · exact List.cons_subset_cons a (ih b)

theorem dropRepeats_of_pairwise {l : List α} (h : l.Pairwise fun a b => same a b = false) :
    dropRepeats same l = l := by
  cases l with
  | nil => rfl
  | cons a rest =>
      induction rest generalizing a with
      | nil => rfl
      | cons b rest ih =>
          have hb : same a b = false := (List.pairwise_cons.1 h).1 b List.mem_cons_self
          rw [dropRepeats_cons_cons, hb, if_neg Bool.false_ne_true,
            ih b (List.pairwise_cons.1 h).2]

section Keys

variable {κ : Type} [DecidableEq κ] {key : α → κ}

/-- Of elements with one key some stays. -/
theorem exists_mem_dropRepeats {l : List α} {b : α} (hb : b ∈ l) :
    ∃ a ∈ dropRepeats (fun a b => decide (key a = key b)) l, key a = key b := by
  cases l with
  | nil => cases hb
  | cons a rest =>
      induction rest generalizing a b with
      | nil =>
          rw [List.mem_singleton.1 hb]
          exact ⟨a, List.mem_cons_self, rfl⟩
      | cons c rest ih =>
          rw [dropRepeats_cons_cons]
          split
          · next hsame =>
              rcases List.mem_cons.1 hb with rfl | hb
              · exact ih _ List.mem_cons_self
              · rcases List.mem_cons.1 hb with rfl | hb
                · obtain ⟨d, hd, hkey⟩ := ih a List.mem_cons_self
                  exact ⟨d, hd, hkey.trans (of_decide_eq_true hsame)⟩
                · exact ih a (List.mem_cons_of_mem _ hb)
          · rcases List.mem_cons.1 hb with rfl | hb
            · exact ⟨b, List.mem_cons_self, rfl⟩
            · obtain ⟨d, hd, hkey⟩ := ih c hb
              exact ⟨d, List.mem_cons_of_mem _ hd, hkey⟩

variable [SortKey κ]

/-- Where keys never go down, those that stay go up. -/
theorem pairwise_dropRepeats {l : List α}
    (h : l.Pairwise fun a b => SortKey.before (key b) (key a) = false) :
    (dropRepeats (fun a b => decide (key a = key b)) l).Pairwise fun a b =>
      SortKey.before (key a) (key b) = true := by
  cases l with
  | nil => exact List.Pairwise.nil
  | cons a rest =>
      induction rest generalizing a with
      | nil => exact List.pairwise_singleton _ _
      | cons b rest ih =>
          obtain ⟨ha, hrest⟩ := List.pairwise_cons.1 h
          rw [dropRepeats_cons_cons]
          split
          · refine ih a (List.pairwise_cons.2 ⟨fun c hc => ?_, (List.pairwise_cons.1 hrest).2⟩)
            exact ha c (List.mem_cons_of_mem _ hc)
          · next hsame =>
              refine List.pairwise_cons.2 ⟨fun c hc => ?_, ih b hrest⟩
              have hab : SortKey.before (key a) (key b) = true := by
                rw [← Bool.not_eq_false]
                refine fun hnot => hsame (decide_eq_true ?_)
                exact SortKey.before_connected _ _ hnot (ha b List.mem_cons_self)
              rcases List.mem_cons.1 (dropRepeats_subset _ hc) with rfl | hc
              · exact hab
              · exact SortKey.before_of_before_of_not hab ((List.pairwise_cons.1 hrest).1 c hc)

end Keys

theorem mem_sort {ds : List Diagnostic} {d : Diagnostic} : d ∈ sort ds ↔ d ∈ ds :=
  List.mem_mergeSort

/-- Whether findings are in order and no two are about one place, kind and function. -/
def InOrder (ds : List Diagnostic) : Prop :=
  ds.Pairwise fun d e => SortKey.before d.sortKey e.sortKey = true

instance (ds : List Diagnostic) : Decidable (InOrder ds) :=
  inferInstanceAs (Decidable (ds.Pairwise _))

theorem pairwise_sort (ds : List Diagnostic) :
    (sort ds).Pairwise fun d e => SortKey.before e.sortKey d.sortKey = false := by
  refine (List.pairwise_mergeSort (fun a b c hab hbc => ?_) (fun a b => ?_) ds).imp fun h => ?_
  · rw [ordered, Bool.not_eq_true'] at hab hbc ⊢
    rw [← Bool.not_eq_true] at hbc ⊢
    exact fun hca => hbc (SortKey.before_of_before_of_not hca hab)
  · rw [ordered, ordered, Bool.or_eq_true, Bool.not_eq_true', Bool.not_eq_true']
    cases hab : SortKey.before a.sortKey b.sortKey with
    | true => exact .inl (SortKey.asymm hab)
    | false => exact .inr rfl
  · rwa [ordered, Bool.not_eq_true'] at h

/-- Sorting findings and dropping repetitions puts them in order. -/
theorem inOrder_dedup_sort (ds : List Diagnostic) : InOrder (dedup (sort ds)) :=
  pairwise_dropRepeats (pairwise_sort ds)

namespace InOrder

variable {ds : List Diagnostic} (h : InOrder ds)
include h

theorem sort_eq : sort ds = ds := by
  refine List.mergeSort_of_pairwise (h.imp fun hbefore => ?_)
  rw [ordered, SortKey.asymm hbefore]
  rfl

theorem dedup_eq : dedup ds = ds :=
  dropRepeats_of_pairwise (h.imp fun hbefore => decide_eq_false (SortKey.ne_of_before hbefore))

theorem dropRepeats_eq : dropRepeats (fun d e => decide (d = e)) ds = ds := by
  refine dropRepeats_of_pairwise (h.imp fun hbefore => decide_eq_false fun heq => ?_)
  exact SortKey.ne_of_before hbefore (congrArg sortKey heq)

end InOrder

end Diagnostic

/-- Whether observing a step from a state changes nothing but what is seen, and all that it finds
has a property. -/
def FindsAt {α : Type} (P : Diagnostic → Prop) (m : Eval α) (s : ProgramState) : Prop :=
  ∀ o, (m ⟨s, none⟩).2.seen = none ∧ ∃ o', m ⟨s, some o⟩ =
    ((m ⟨s, none⟩).1, ⟨(m ⟨s, none⟩).2.state, some o'⟩) ∧
      ∀ d ∈ o'.diagnostics, d ∈ o.diagnostics ∨ P d

/-- Whether all that a step finds has a property, from whatever state it starts. -/
def Finds {α : Type} (P : Diagnostic → Prop) (m : Eval α) : Prop := ∀ s, FindsAt P m s

namespace FindsAt

variable {α β : Type} {P Q : Diagnostic → Prop} {m : Eval α} {f : α → Eval β} {s : ProgramState}

theorem imp (h : FindsAt P m s) (hPQ : ∀ d, P d → Q d) : FindsAt Q m s := by
  intro o
  obtain ⟨hnone, o', heq, hfound⟩ := h o
  exact ⟨hnone, o', heq, fun d hd => (hfound d hd).imp_right (hPQ d)⟩

/-- What has every property that all findings of a step have is all that it finds. -/
theorem all (h : FindsAt P m s) : FindsAt (fun d => ∀ Q, FindsAt Q m s → Q d) m s := by
  intro o
  obtain ⟨hnone, o', heq, -⟩ := h o
  refine ⟨hnone, o', heq, fun d hd => ?_⟩
  by_cases ho : d ∈ o.diagnostics
  · exact .inl ho
  · right
    intro Q hQ
    obtain ⟨-, o'', heq', hfound⟩ := hQ o
    cases heq.symm.trans heq'
    exact (hfound d hd).resolve_left ho

/-- Where nobody observes before a step, nobody does after it. -/
theorem run_eq (h : FindsAt P m s) : (m ⟨s, none⟩).2 = ⟨(m ⟨s, none⟩).2.state, none⟩ :=
  congrArg (Run.mk _) (h .empty).1

theorem bind_run (h : FindsAt P m s) (f : α → Eval β) :
    (m >>= f) ⟨s, none⟩ = f (m ⟨s, none⟩).1 ⟨(m ⟨s, none⟩).2.state, none⟩ :=
  congrArg (f (m ⟨s, none⟩).1) h.run_eq

theorem bind (hm : FindsAt P m s)
    (hf : FindsAt P (f (m ⟨s, none⟩).1) (m ⟨s, none⟩).2.state) : FindsAt P (m >>= f) s := by
  intro o
  obtain ⟨-, o₁, heq, hfound⟩ := hm o
  obtain ⟨hnone', o₂, heq', hfound'⟩ := hf o₁
  have hseen : (m >>= f) ⟨s, some o⟩ = f (m ⟨s, none⟩).1 ⟨(m ⟨s, none⟩).2.state, some o₁⟩ := by
    show f (m ⟨s, some o⟩).1 (m ⟨s, some o⟩).2 = _
    rw [heq]
  rw [hm.bind_run, hseen]
  refine ⟨hnone', o₂, heq', fun d hd => ?_⟩
  rcases hfound' d hd with hd | hd
  · exact hfound d hd
  · exact .inr hd

end FindsAt

namespace Finds

variable {α β : Type} {P : Diagnostic → Prop}

theorem bind {m : Eval α} {f : α → Eval β} (hm : Finds P m) (hf : ∀ a, Finds P (f a)) :
    Finds P (m >>= f) := fun s => (hm s).bind (hf _ _)

/-- A step that takes no notice of observers finds nothing. -/
theorem silent {m : Eval α} (hm : ∀ s seen, m ⟨s, seen⟩ =
    ((m ⟨s, none⟩).1, ⟨(m ⟨s, none⟩).2.state, seen⟩)) : Finds P m :=
  fun s o => ⟨congrArg (fun r => r.2.seen) (hm s none), o, hm s (some o), fun _ hd => .inl hd⟩

theorem observe {f : Observations → Observations}
    (hf : ∀ o, ∀ d ∈ (f o).diagnostics, d ∈ o.diagnostics ∨ P d) : Finds P (Run.observe f) :=
  fun _ o => ⟨rfl, f o, rfl, hf o⟩

theorem report {d : Diagnostic} (hd : P d) : Finds P (Run.report d) := by
  refine observe fun o d' hd' => ?_
  rcases List.mem_cons.1 hd' with rfl | hd'
  · exact .inr hd
  · exact .inl hd'

end Finds

namespace FunctionScope

variable (scope : FunctionScope)

theorem hereditary_finds (P : Diagnostic → Prop) :
    scope.Hereditary P fun _ => Finds P where
  pure _ := .silent fun _ _ => rfl
  bind := Finds.bind
  current := .silent fun _ _ => rfl
  become _ := .silent fun _ _ => rfl
  changeHeap _ := .silent fun _ _ => rfl
  assign _ _ := .silent fun _ _ => rfl
  report := Finds.report
  recordTargets _ := Finds.observe fun _ _ hd => .inl hd
  recordCall _ _ _ _ := Finds.observe fun _ _ hd => .inl hd

theorem finds_runItem (i : BlockItem) : Finds (fun _ => True) (scope.runItem i) :=
  (scope.hereditary_finds _).runItem (fun _ _ _ => trivial) fun _ _ => trivial

/-- Whether a finding is made when an item is run from a state. -/
def FoundAt (i : BlockItem) (s : ProgramState) (d : Diagnostic) : Prop :=
  ∀ P, FindsAt P (scope.runItem i) s → P d

/-- What the observed run of the items of a block finds. -/
theorem found_runItems (its : List BlockItem) (s : ProgramState) (o : Observations) :
    ∃ o', (its.forM scope.runItem ⟨s, some o⟩).2.seen = some o' ∧
      ∀ d ∈ o'.diagnostics, d ∈ o.diagnostics ∨ ∃ k i, its[k]? = some i ∧
        scope.FoundAt i ((its.take k).foldl (fun s i => scope.transfer.item i s) s) d := by
  induction its generalizing s o with
  | nil => exact ⟨o, rfl, fun d hd => .inl hd⟩
  | cons i rest ih =>
      obtain ⟨-, o₁, heq, hfound⟩ := (scope.finds_runItem i s).all o
      obtain ⟨o₂, hseen, hrest⟩ := ih (scope.transfer.item i s) o₁
      refine ⟨o₂, ?_, fun d hd => ?_⟩
      · show (rest.forM scope.runItem (scope.runItem i ⟨s, some o⟩).2).2.seen = some o₂
        rw [heq]
        exact hseen
      · rcases hrest d hd with hd | ⟨k, j, hj, hd⟩
        · exact (hfound d hd).imp_right fun hd => ⟨0, i, rfl, hd⟩
        · exact .inr ⟨k + 1, j, hj, hd⟩

variable {scope} in
/-- Every finding comes from an item at some place, run from the state there. -/
theorem exists_place_of_finding {g : FlowGraph} {sol : Fixpoint.Solution ProgramState}
    {d : Diagnostic} (hd : d ∈ (scope.replay g sol).findings) :
    ∃ b k i, (g.block b).items[k]? = some i ∧
      scope.FoundAt i (((g.block b).items.take k).foldl (fun s i => scope.transfer.item i s)
        (sol.entryOf b)) d := by
  have hd : d ∈ (scope.replay g sol).diagnostics := List.mem_reverse.1 hd
  unfold replay at hd
  revert hd
  generalize List.range g.size = blocks
  have hseen : d ∉ Observations.empty.diagnostics := List.not_mem_nil
  generalize Observations.empty = seen at hseen
  induction blocks generalizing seen with
  | nil => exact fun hd => absurd hd hseen
  | cons b rest ih =>
      rw [List.foldl_cons]
      by_cases hd : d ∈ (if sol.isReachable b then
          ((((g.block b).items.forM scope.runItem) ⟨sol.entryOf b, some seen⟩).2.seen.getD seen)
        else seen).diagnostics
      · intro _
        split at hd
        · obtain ⟨o', hfinal, hfound⟩ := scope.found_runItems (g.block b).items
            (sol.entryOf b) seen
          rw [hfinal, Option.getD_some] at hd
          rcases hfound d hd with hd | ⟨k, i, hi, hd⟩
          · exact absurd hd hseen
          · exact ⟨b, k, i, hi, hd⟩
        · exact absurd hd hseen
      · exact ih _ hd

section Branches

theorem finds_eval (e : Expr) :
    Finds (fun d => d.kind ≠ .unreachableBranch) (scope.eval e) :=
  (hereditary_finds scope _).eval (fun _ hd _ => hd) e

/-- Whether a finding is not about a condition, or is that a condition always turns out one way in
a state. -/
def AboutBranch (cond : Expr) (s : ProgramState) (d : Diagnostic) : Prop :=
  d.kind ≠ .unreachableBranch ∨ ∃ outcome, d = .unreachableBranch cond.id scope.name outcome ∧
    (scope.look cond s).truthiness = some outcome

theorem finds_runCondition (cond : Expr) (s : ProgramState) :
    FindsAt (scope.AboutBranch cond s) (scope.runCondition cond) s := by
  -- the evaluation finds nothing about conditions, and what follows reports at most one outcome
  refine ((scope.finds_eval cond s).imp fun d hd => .inl hd).bind ?_
  have h := scope.hereditary_finds (scope.AboutBranch cond s)
  split
  · split
    · next outcome ho => exact h.report (.inr ⟨outcome, rfl, ho⟩) _
    · exact h.pure _ _
  · exact h.pure _ _

variable {scope}

/-- A finding about a condition is made where the condition has one outcome. -/
theorem branch_of_foundAt {i : BlockItem} {s : ProgramState} {d : Diagnostic}
    (hd : scope.FoundAt i s d) (hkind : d.kind = .unreachableBranch) :
    ∃ cond outcome, i = .condition cond ∧ d = .unreachableBranch cond.id scope.name outcome ∧
      (scope.look cond s).truthiness = some outcome := by
  cases i with
  | condition cond =>
      have hfinds : FindsAt (scope.AboutBranch cond s) (scope.runItem (.condition cond)) s := by
        refine FindsAt.bind (fun o => ⟨rfl, o, rfl, fun _ hd => .inl hd⟩) ?_
        show FindsAt _ (if s.isReachable then scope.runCondition cond else pure ⟨⟩) s
        split
        · exact scope.finds_runCondition cond s
        · exact (scope.hereditary_finds _).pure _ _
      obtain ⟨outcome, heq, ho⟩ := (hd _ hfinds).resolve_left (absurd hkind)
      exact ⟨cond, outcome, rfl, heq, ho⟩
  | statement | evaluate | bind =>
      refine absurd hkind (hd (fun d => d.kind ≠ .unreachableBranch) ?_)
      refine (scope.hereditary_finds _).runItem (fun _ hd _ => hd) ?_ s
      exact nofun

/-- A finding about a condition comes from a place where the condition has one outcome. -/
theorem exists_place_of_branch {g : FlowGraph} {sol : Fixpoint.Solution ProgramState}
    {d : Diagnostic} (hd : d ∈ (scope.replay g sol).findings) (hkind : d.kind = .unreachableBranch) :
    ∃ b k cond outcome, (g.block b).items[k]? = some (.condition cond) ∧
      d = .unreachableBranch cond.id scope.name outcome ∧
      (scope.look cond (((g.block b).items.take k).foldl (fun s i => scope.transfer.item i s)
        (sol.entryOf b))).truthiness = some outcome := by
  obtain ⟨b, k, i, hi, hfound⟩ := exists_place_of_finding hd
  obtain ⟨cond, outcome, rfl, heq, ho⟩ := branch_of_foundAt hfound hkind
  exact ⟨b, k, cond, outcome, hi, heq, ho⟩

end Branches

end FunctionScope

end ValueFlow
