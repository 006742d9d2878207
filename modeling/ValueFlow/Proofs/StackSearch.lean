import Mathlib.Data.List.Nodup
import ValueFlow.Data.StackSearch
import ValueFlow.Proofs.Search
/-!
What a depth-first search with a stack finds, and in which order it leaves the nodes.

Every node is left along with a path to it whose other nodes are left later, and each of its
successors is on that path or was left before (`Underway.tree`). Main statements: a search runs to
its end (`stack_search`), it leaves exactly the nodes that its root leads to (`mem_left_search`),
and it leaves them along such paths (`tree_search`).
-/

namespace ValueFlow

namespace Search

variable {α : Type}

/-- A path between two nodes, with all nodes on it, the last one in front. -/
inductive Path (next : α → List α) (a : α) : α → List α → Prop
  | start : Path next a a [a]
  | step {b c nodes} : Path next a b nodes → c ∈ next b → Path next a c (c :: nodes)

variable {next : α → List α} {a b : α} {nodes : List α}

namespace Path

theorem head?_eq (h : Path next a b nodes) : nodes.head? = some b := by
  cases h with
  | start => rfl
  | step => rfl

/-- What stands on a path before its last node is a path. -/
theorem tail {x y : α} (h : Path next a b (x :: y :: nodes)) : Path next a y (y :: nodes) := by
  cases h with
  | step h _ =>
      cases h.head?_eq
      exact h

theorem leads (h : Path next a b nodes) : Leads next a b := by
  induction h with
  | start => exact .refl
  | step _ hc ih => exact ih.tail hc

/-- The start of a path leads to every node on it. -/
theorem leads_mem (h : Path next a b nodes) {c : α} (hc : c ∈ nodes) : Leads next a c := by
  induction h with
  | start => exact List.mem_singleton.1 hc ▸ .refl
  | step h hb ih =>
      rcases List.mem_cons.1 hc with rfl | hc
      · exact (h.step hb).leads
      · exact ih hc

theorem exists_of_leads (h : Leads next a b) : ∃ nodes, Path next a b nodes := by
  induction h with
  | refl => exact ⟨_, .start⟩
  | tail _ hc ih =>
      obtain ⟨nodes, h⟩ := ih
      exact ⟨_, h.step hc⟩

end Path

theorem Leads.mem (hnodes : ∀ a ∈ nodes, ∀ b ∈ next a, b ∈ nodes) (h : Leads next a b)
    (ha : a ∈ nodes) : b ∈ nodes := by
  induction h with
  | refl => exact ha
  | tail _ hc ih => exact hnodes _ ih _ hc

end Search

namespace StackSearch

open Search (Leads Path)

variable {α : Type} {next : α → List α} {root : α} {s : StackSearch α}

def opened (s : StackSearch α) : List α := s.stack.map Prod.fst

/-- A node was left along a path to it. The other nodes of the path are left later or still open,
and each successor of the node is on the path or was left before. -/
structure Branch (next : α → List α) (root : α) (opened left : List α) (a : α)
    (nodes : List α) : Prop where
  path : Path next root a nodes
  nodup : nodes.Nodup
  above : ∀ p ∈ nodes, p ≠ a → p ∈ opened ∨ [p, a].Sublist left
  below : ∀ b ∈ next a, b ∈ nodes ∨ [a, b].Sublist left

namespace Branch

variable {opened left nodes : List α} {a b : α}

theorem enter (h : Branch next root opened left a nodes) (b : α) :
    Branch next root (b :: opened) left a nodes where
  path := h.path
  nodup := h.nodup
  above p hp hne := (h.above p hp hne).imp_left (List.mem_cons_of_mem b)
  below := h.below

/-- A node that is left later may be on the path. -/
theorem leave (h : Branch next root (b :: opened) left a nodes) (ha : a ∈ left) :
    Branch next root opened (b :: left) a nodes where
  path := h.path
  nodup := h.nodup
  above p hp hne := by
    rcases h.above p hp hne with hopen | hsub
    · rcases List.mem_cons.1 hopen with rfl | hopen
      · exact .inr ((List.singleton_sublist.2 ha).cons_cons p)
      · exact .inl hopen
    · exact .inr (hsub.cons b)
  below c hc := (h.below c hc).imp_right fun hsub => hsub.cons b

end Branch

/-- What holds of a search from a root after every step. -/
structure Underway (next : α → List α) (root : α) (s : StackSearch α) : Prop where
  path : ∀ a below, s.opened = a :: below → Path next root a (a :: below)
  nodup : (s.opened ++ s.left).Nodup
  entered_iff : ∀ a, a ∈ s.entered ↔ a ∈ s.opened ∨ a ∈ s.left
  read : ∀ p ∈ s.stack, ∀ b ∈ (next p.1).take p.2, b ∈ s.entered
  tree : ∀ a ∈ s.left, ∃ nodes, Branch next root s.opened s.left a nodes
  ended : s.opened = [] → s.left.head? = some root

namespace Underway

theorem start (next : α → List α) (root : α) : Underway next root (start root) where
  path a below h := by
    cases h
    exact .start
  nodup := List.nodup_singleton root
  entered_iff a := by simp [StackSearch.start, opened]
  read p hp b hb := by
    cases List.mem_singleton.1 hp
    cases hb
  tree a h := absurd h List.not_mem_nil
  ended h := absurd h (List.cons_ne_nil _ _)

variable {entered left : List α} {below : List (α × Nat)} {a : α} {i : Nat}

/-- Reading a successor that was entered before changes nothing else. -/
theorem skip (h : Underway next root ⟨(a, i) :: below, entered, left⟩) {b : α}
    (hb : (next a)[i]? = some b) (hmem : b ∈ entered) :
    Underway next root ⟨(a, i + 1) :: below, entered, left⟩ where
  path := h.path
  nodup := h.nodup
  entered_iff := h.entered_iff
  read p hp c hc := by
    rcases List.mem_cons.1 hp with rfl | hp
    · rw [List.take_add_one, hb, List.mem_append] at hc
      rcases hc with hc | hc
      · exact h.read _ List.mem_cons_self c hc
      · exact List.mem_singleton.1 hc ▸ hmem
    · exact h.read p (List.mem_cons_of_mem _ hp) c hc
  tree := h.tree
  ended := h.ended

/-- A successor that is entered goes on the stack. -/
theorem push (h : Underway next root ⟨(a, i) :: below, entered, left⟩) {b : α}
    (hb : (next a)[i]? = some b) (hmem : b ∉ entered) :
    Underway next root ⟨(b, 0) :: (a, i + 1) :: below, b :: entered, left⟩ where
  path c rest hc := by
    cases hc
    exact (h.path a _ rfl).step (List.mem_of_getElem? hb)
  nodup := by
    refine List.nodup_cons.2 ⟨fun hin => hmem ((h.entered_iff b).2 ?_), h.nodup⟩
    exact List.mem_append.1 hin
  entered_iff c := by
    simp only [List.mem_cons, h.entered_iff, opened, List.map_cons, or_assoc]
  read p hp c hc := by
    rcases List.mem_cons.1 hp with rfl | hp
    · cases hc
    · rcases List.mem_cons.1 hp with rfl | hp
      · rw [List.take_add_one, hb, List.mem_append] at hc
        rcases hc with hc | hc
        · exact List.mem_cons_of_mem _ (h.read _ List.mem_cons_self c hc)
        · exact List.mem_singleton.1 hc ▸ List.mem_cons_self
      · exact List.mem_cons_of_mem _ (h.read p (List.mem_cons_of_mem _ hp) c hc)
  tree c hc := by
    obtain ⟨nodes, hbranch⟩ := h.tree c hc
    exact ⟨nodes, hbranch.enter b⟩
  ended hnil := absurd hnil (List.cons_ne_nil _ _)

/-- The node on top of the stack is left along the stack. -/
theorem pop (h : Underway next root ⟨(a, i) :: below, entered, left⟩)
    (hi : (next a)[i]? = none) : Underway next root ⟨below, entered, a :: left⟩ where
  path c rest hc := by
    refine (h.path a (c :: rest) ?_).tail
    exact congrArg (a :: ·) hc
  nodup := List.nodup_middle.2 h.nodup
  entered_iff c := by
    rw [h.entered_iff c]
    simp only [opened, List.map_cons, List.mem_cons, or_assoc, or_left_comm]
  read p hp := h.read p (List.mem_cons_of_mem _ hp)
  tree c hc := by
    rcases List.mem_cons.1 hc with rfl | hc
    · refine ⟨_, h.path c _ rfl, (List.nodup_append.1 h.nodup).1, fun p hp hne => ?_, ?_⟩
      · exact .inl ((List.mem_cons.1 hp).resolve_left hne)
      · intro b hb
        have hlen := List.getElem?_eq_none_iff.1 hi
        have hread := h.read (c, i) List.mem_cons_self b (by rwa [List.take_of_length_le hlen])
        rcases (h.entered_iff b).1 hread with hopen | hleft
        · exact .inl hopen
        · exact .inr ((List.singleton_sublist.2 hleft).cons_cons c)
    · obtain ⟨nodes, hbranch⟩ := h.tree c hc
      exact ⟨nodes, hbranch.leave hc⟩
  ended hnil := by
    have hpath : Path next root a [a] := h.path a [] (congrArg (a :: ·) hnil)
    cases hpath with
    | start => rfl
    | step hpath => cases hpath.head?_eq

/-- Open nodes are among the nodes that the root leads to. -/
theorem opened_mem (h : Underway next root s) {nodes : List α}
    (hnodes : ∀ a ∈ nodes, ∀ b ∈ next a, b ∈ nodes) (hroot : root ∈ nodes) {a : α}
    (ha : a ∈ s.opened) : a ∈ nodes := by
  cases hopened : s.opened with
  | nil =>
      rw [hopened] at ha
      exact absurd ha List.not_mem_nil
  | cons top below =>
      rw [hopened] at ha
      exact ((h.path top below hopened).leads_mem ha).mem hnodes hroot

variable [BEq α] [LawfulBEq α]

theorem step (h : Underway next root s) : Underway next root (s.step next) := by
  obtain ⟨stack, entered, left⟩ := s
  cases stack with
  | nil => exact h
  | cons top below =>
      obtain ⟨a, i⟩ := top
      simp only [StackSearch.step]
      cases hb : (next a)[i]? with
      | none => exact h.pop hb
      | some b =>
          by_cases hmem : b ∈ entered
          · simp only [List.contains_iff_mem.2 hmem, if_true]
            exact h.skip hb hmem
          · simp only [List.contains_eq_mem, hmem, decide_false, Bool.false_eq_true, if_false]
            exact h.push hb hmem

theorem run (h : Underway next root s) (n : Nat) : Underway next root (s.run next n) := by
  induction n generalizing s with
  | zero => exact h
  | succ n ih => exact ih h.step

end Underway

section Steps

variable {nodes : List α}

theorem steps_filter_mono {p q : α → Bool} (hpq : ∀ a, p a = true → q a = true) :
    steps next (nodes.filter p) ≤ steps next (nodes.filter q) := by
  induction nodes with
  | nil => exact Nat.le_refl _
  | cons a nodes ih =>
      rw [List.filter_cons, List.filter_cons]
      cases hp : p a with
      | true =>
          rw [hpq a hp]
          exact Nat.add_le_add_left ih _
      | false =>
          cases q a with
          | true => exact Nat.le_trans ih (Nat.le_add_left _ _)
          | false => exact ih

variable [BEq α]

/-- The number of steps that a stack still takes, not counting those of nodes that are entered. -/
def owed (next : α → List α) : List (α × Nat) → Nat
  | [] => 0
  | (a, i) :: below => (next a).length - i + 1 + owed next below

def work (next : α → List α) (nodes : List α) (s : StackSearch α) : Nat :=
  steps next (nodes.filter fun a => !s.entered.contains a) + owed next s.stack

theorem step_of_ended (h : s.stack = []) : s.step next = s := by
  rw [step, h]

theorem run_of_ended (h : s.stack = []) (n : Nat) : s.run next n = s := by
  induction n with
  | zero => rfl
  | succ n ih => rw [run, step_of_ended h, ih]

variable [LawfulBEq α]

/-- Entering a node takes its steps from those of the nodes that are not entered. -/
theorem steps_enter (next : α → List α) {b : α} {entered : List α} (hb : b ∈ nodes)
    (hnew : b ∉ entered) :
    steps next (nodes.filter fun a => !(b :: entered).contains a) + ((next b).length + 1) ≤
      steps next (nodes.filter fun a => !entered.contains a) := by
  induction nodes with
  | nil => exact absurd hb List.not_mem_nil
  | cons a nodes ih =>
      by_cases hab : a = b
      · subst hab
        rw [List.filter_cons_of_neg (by simp), List.filter_cons_of_pos (by simpa using hnew), steps,
          Nat.add_comm]
        refine Nat.add_le_add_left (steps_filter_mono fun c hc => ?_) _
        rw [List.contains_cons, Bool.not_or, Bool.and_eq_true] at hc
        exact hc.2
      · have hrest := ih ((List.mem_cons.1 hb).resolve_left (Ne.symm hab))
        have hsame : (b :: entered).contains a = entered.contains a := by
          rw [List.contains_cons, beq_eq_false_iff_ne.2 hab, Bool.false_or]
        rw [List.filter_cons, List.filter_cons, hsame]
        cases entered.contains a with
        | true => exact hrest
        | false =>
            simp only [Bool.not_false, if_true, steps]
            omega

variable (hnodes : ∀ a ∈ nodes, ∀ b ∈ next a, b ∈ nodes)
include hnodes

theorem work_step (hstack : s.stack ≠ []) (hopened : ∀ a ∈ s.opened, a ∈ nodes) :
    work next nodes (s.step next) < work next nodes s := by
  obtain ⟨stack, entered, left⟩ := s
  cases stack with
  | nil => exact absurd rfl hstack
  | cons top below =>
      obtain ⟨a, i⟩ := top
      simp only [step]
      cases hb : (next a)[i]? with
      | none =>
          simp only [work, owed]
          omega
      | some b =>
          have hi : i < (next a).length := (List.getElem?_eq_some_iff.1 hb).1
          by_cases hmem : b ∈ entered
          · simp only [List.contains_iff_mem.2 hmem, if_true, work, owed]
            omega
          · have hnode := hnodes a (hopened a List.mem_cons_self) b (List.mem_of_getElem? hb)
            have henter := steps_enter next hnode hmem
            simp only [List.contains_eq_mem, hmem, decide_false, Bool.false_eq_true, if_false, work,
              owed] at henter ⊢
            omega

/-- A search with a node on its stack has a step left, so it runs to its end in the steps that it
has left. -/
theorem stack_run (hroot : root ∈ nodes) (h : Underway next root s) {n : Nat}
    (hn : work next nodes s ≤ n) : (s.run next n).stack = [] := by
  induction n generalizing s with
  | zero =>
      cases hstack : s.stack with
      | nil => rw [run, hstack]
      | cons top below =>
          rw [work, hstack, owed] at hn
          omega
  | succ n ih =>
      by_cases hstack : s.stack = []
      · rw [run_of_ended hstack, hstack]
      · refine ih h.step (Nat.le_of_lt_succ (Nat.lt_of_lt_of_le (work_step hnodes hstack ?_) hn))
        intro a ha
        exact h.opened_mem hnodes hroot ha

end Steps

section Search

variable [BEq α] [LawfulBEq α] {nodes : List α}

theorem underway_search (next : α → List α) (nodes : List α) (root : α) :
    Underway next root (search next nodes root) :=
  (Underway.start next root).run _

theorem nodup_left_search (next : α → List α) (nodes : List α) (root : α) :
    (search next nodes root).left.Nodup :=
  (List.nodup_append.1 (underway_search next nodes root).nodup).2.1

variable (hnodes : ∀ a ∈ nodes, ∀ b ∈ next a, b ∈ nodes) (hroot : root ∈ nodes)
include hnodes hroot

/-- A search of nodes that lead to no others runs to its end. -/
theorem stack_search : (search next nodes root).stack = [] := by
  refine stack_run hnodes hroot (Underway.start next root) ?_
  have henter := steps_enter next hroot (List.not_mem_nil : root ∉ [])
  have hall : (nodes.filter fun a => !([] : List α).contains a) = nodes :=
    List.filter_eq_self.2 fun _ _ => rfl
  rw [hall] at henter
  simpa [work, start, owed] using henter

theorem opened_search : (search next nodes root).opened = [] :=
  List.map_eq_nil_iff.2 (stack_search hnodes hroot)

theorem mem_entered_search {a : α} :
    a ∈ (search next nodes root).entered ↔ a ∈ (search next nodes root).left := by
  rw [(underway_search next nodes root).entered_iff, opened_search hnodes hroot]
  simp

theorem head?_left_search : (search next nodes root).left.head? = some root :=
  (underway_search next nodes root).ended (opened_search hnodes hroot)

/-- Every node is left along a path to it whose other nodes are left later. Each of its successors
is on the path or was left before. The list has the node left last in front. -/
theorem tree_search {a : α} (ha : a ∈ (search next nodes root).left) :
    ∃ path, Branch next root [] (search next nodes root).left a path := by
  have htree := (underway_search next nodes root).tree a ha
  rwa [opened_search hnodes hroot] at htree

/-- A search leaves exactly the nodes that its root leads to. -/
theorem mem_left_search {a : α} : a ∈ (search next nodes root).left ↔ Leads next root a := by
  constructor
  · intro ha
    obtain ⟨path, hbranch⟩ := tree_search hnodes hroot ha
    exact hbranch.path.leads
  · intro h
    induction h with
    | refl => exact List.mem_of_head? (head?_left_search hnodes hroot)
    | @tail b c _ hc ih =>
        obtain ⟨path, hbranch⟩ := tree_search hnodes hroot ih
        rcases hbranch.below c hc with hpath | hsub
        · by_cases hcb : c = b
          · exact hcb ▸ ih
          · exact ((hbranch.above c hpath hcb).resolve_left List.not_mem_nil).mem List.mem_cons_self
        · exact hsub.mem (List.mem_cons_of_mem _ List.mem_cons_self)

end Search

end StackSearch

end ValueFlow
