import Mathlib.Data.List.Sort
import Mathlib.Logic.Function.Basic
import ValueFlow.Proofs.CallGraph.Condensation
/-!
Components from one search with a stack, by the least index that a node is known to lead to.

The algorithm is Tarjan's in the form that keeps one number for each node and fills the stack when
nodes are left. It runs along with the search that orders the components, and a component is
complete when its first node is left. Main statement: `tarjan_eq_classes`.
-/

namespace ValueFlow

/-- What a search for components knows of a node. -/
inductive Mark where
  | unseen
  /-- The least index that the node is known to lead to. -/
  | low (index : Nat)
  /-- The component of the node is complete. -/
  | done
deriving DecidableEq

/-- Whether a mark is less than another; a complete node is above all indices. -/
def Mark.before : Mark → Mark → Bool
  | low i, low j => decide (i < j)
  | unseen, low _ | unseen, done | low _, done => true
  | _, _ => false

/-- A search for components: the next index, the marks, the nodes that were left and wait for their
component, and the components so far; stack and components are kept latest first. -/
structure Tarjan where
  index : Nat
  mark : Nat → Mark
  stack : List Nat
  emitted : List (List Nat)

namespace Tarjan

def start : Tarjan := ⟨1, fun _ => .unseen, [], []⟩

def enter (t : Tarjan) (a : Nat) : Tarjan :=
  { t with index := t.index + 1, mark := Function.update t.mark a (.low t.index) }

/-- Takes over the mark of a node that another leads to, if it is less. -/
def look (a b : Nat) (q : Tarjan × Bool) : Tarjan × Bool :=
  if (q.1.mark b).before (q.1.mark a) then
    ({ q.1 with mark := Function.update q.1.mark a (q.1.mark b) }, false)
  else q

/-- Leaves a node. If nothing less was seen from it, then it completes a component: those nodes on
the stack whose marks are not less. -/
def leave (a : Nat) (q : Tarjan × Bool) : Tarjan :=
  if q.2 then
    let members := q.1.stack.takeWhile fun b => !(q.1.mark b).before (q.1.mark a)
    { index := q.1.index - (members.length + 1)
      mark := fun b => if b ∈ a :: members then .done else q.1.mark b
      stack := q.1.stack.drop members.length
      emitted := (members.reverse ++ [a]) :: q.1.emitted }
  else { q.1 with stack := a :: q.1.stack }

/-- Visits a node that is unseen. The number bounds the length of a path without repetition. -/
def visit (next : Nat → List Nat) : Nat → Nat → Tarjan → Tarjan
  | 0, _, t => t
  | n + 1, a, t =>
      leave a ((next a).foldl (fun q b =>
        look a b (if q.1.mark b = .unseen then visit next n b q.1 else q.1, q.2)) (t.enter a, true))

def visitAll (next : Nat → List Nat) (bound : Nat) (roots : List Nat) : Tarjan :=
  roots.foldl (fun t a => if t.mark a = .unseen then visit next bound a t else t) start

/-- Whether a node was entered and its component is not complete. -/
def Open (t : Tarjan) (a : Nat) : Prop := ∃ i, t.mark a = .low i

theorem open_of_ne {t : Tarjan} {a : Nat} (hseen : t.mark a ≠ .unseen) (hdone : t.mark a ≠ .done) :
    t.Open a := by
  cases hmark : t.mark a with
  | unseen => exact absurd hmark hseen
  | low i => exact ⟨i, hmark⟩
  | done => exact absurd hmark hdone

theorem Open.ne_done {t : Tarjan} {a : Nat} (h : t.Open a) : t.mark a ≠ .done := by
  obtain ⟨i, hi⟩ := h
  rw [hi]
  exact fun heq => nomatch heq

theorem Open.ne_unseen {t : Tarjan} {a : Nat} (h : t.Open a) : t.mark a ≠ .unseen := by
  obtain ⟨i, hi⟩ := h
  rw [hi]
  exact fun heq => nomatch heq

end Tarjan

open Search (Leads Linked Underway)

open Relation (ReflTransGen)

namespace Tarjan

variable {next cls : Nat → List Nat} {idx idx' : Nat → Nat} {path : List Nat} {s s' : Search Nat}
  {t t' : Tarjan} {a b : Nat}

/-- A search for components that runs along with a search. Open nodes have an index each. -/
structure Traces (next cls : Nat → List Nat) (idx : Nat → Nat) (path : List Nat) (s : Search Nat)
    (t : Tarjan) : Prop where
  unseen : ∀ a, t.mark a = .unseen ↔ a ∉ s.entered
  complete : ∀ a, t.mark a = .done → ∀ b ∈ next a, t.mark b = .done
  onPath : ∀ a ∈ path, t.Open a
  stack : t.stack = s.left.filter fun a => t.mark a ≠ .done
  index : t.index = 1 + path.length + t.stack.length
  le : ∀ a i, t.mark a = .low i → i ≤ idx a ∧ idx a < t.index
  leads : ∀ a i, t.mark a = .low i → ∃ b, t.Open b ∧ idx b = i ∧ Leads next a b
  ahead : ∀ a ∈ t.stack, ∀ i, t.mark a = .low i → ∀ b ∈ next a,
    t.mark b = .done ∨ t.Open b ∧ i ≤ idx b
  linked : ∀ a ∈ t.stack, ∃ p ∈ path, Linked next p a
  emitted : t.emitted.map (·.mergeSort) =
    ((s.left.filter fun a => t.mark a = .done).map cls).eraseDups

/-- What a visit leaves as it is: open nodes keep their marks and indices, and those that become
open get greater indices. -/
structure Keeps (idx idx' : Nat → Nat) (t t' : Tarjan) : Prop where
  mark : ∀ a i, t.mark a = .low i → t'.mark a = .low i ∧ idx' a = idx a
  done : ∀ a, t.mark a = .done → t'.mark a = .done
  fresh : ∀ a, t'.Open a → t.Open a ∨ t.index ≤ idx' a

theorem Keeps.refl (idx : Nat → Nat) (t : Tarjan) : Keeps idx idx t t :=
  ⟨fun _ _ h => ⟨h, rfl⟩, fun _ h => h, fun _ h => .inl h⟩

theorem Keeps.isOpen (h : Keeps idx idx' t t') (ha : t.Open a) : t'.Open a ∧ idx' a = idx a := by
  obtain ⟨i, hi⟩ := ha
  exact ⟨⟨i, (h.mark a i hi).1⟩, (h.mark a i hi).2⟩

section Traces

variable (hs : Underway next path s) (h : Traces next cls idx path s t)
include hs h

/-- Open nodes are on the path or on the stack. -/
theorem Traces.mem_of_open (ha : t.Open a) : a ∈ path ∨ a ∈ t.stack := by
  have hentered : a ∈ s.entered := by
    by_contra hne
    exact ha.ne_unseen ((h.unseen a).2 hne)
  refine ((hs.entered_iff a).1 hentered).imp_right fun hleft => ?_
  rw [h.stack]
  exact List.mem_filter.2 ⟨hleft, decide_eq_true ha.ne_done⟩

theorem Traces.open_of_mem_stack (ha : a ∈ t.stack) : t.Open a := by
  rw [h.stack] at ha
  obtain ⟨hleft, hdone⟩ := List.mem_filter.1 ha
  refine open_of_ne (fun hunseen => ?_) (of_decide_eq_true hdone)
  exact (h.unseen a).1 hunseen ((hs.entered_iff a).2 (.inr hleft))

/-- Every open node is linked with a node of the path. -/
theorem Traces.exists_linked (ha : t.Open a) : ∃ p ∈ path, Linked next p a := by
  rcases h.mem_of_open hs ha with hpath | hstack
  · exact ⟨a, hpath, Linked.refl next a⟩
  · exact h.linked a hstack

end Traces

theorem Traces.done_of_leads (h : Traces next cls idx path s t) (ha : t.mark a = .done)
    (hab : Leads next a b) : t.mark b = .done := by
  induction hab with
  | refl => exact ha
  | tail _ hbc ih => exact h.complete _ ih _ hbc

/-- What a visit of a node has left. If its component is not complete, then all nodes that wait for
theirs since have marks that are not less. -/
structure Visited (next cls : Nat → List Nat) (idx : Nat → Nat) (path : List Nat) (t : Tarjan)
    (a : Nat) (s' : Search Nat) (t' : Tarjan) (idx' : Nat → Nat) (new : List Nat) : Prop where
  traces : Traces next cls idx' path s' t'
  keeps : Keeps idx idx' t t'
  stack : t'.stack = new ++ t.stack
  high : ∀ b ∈ new, t.index ≤ idx' b
  outcome : t'.mark a = .done ∧ new = [] ∨
    ∃ m, t'.mark a = .low m ∧ ∀ b ∈ new, ∀ j, t'.mark b = .low j → m ≤ j

/-- What is known at a node that was entered, after a look at some of the nodes it leads to. -/
structure Looked (next cls : Nat → List Nat) (idx : Nat → Nat) (path : List Nat) (t : Tarjan)
    (a : Nat) (seen : List Nat) (s' : Search Nat) (q : Tarjan × Bool) (idx' : Nat → Nat)
    (new : List Nat) (m : Nat) : Prop where
  underway : Underway next (a :: path) s'
  traces : Traces next cls idx' (a :: path) s' q.1
  keeps : Keeps idx idx' t q.1
  own : idx' a = t.index
  stack : q.1.stack = new ++ t.stack
  high : ∀ b ∈ new, t.index ≤ idx' b
  mark : q.1.mark a = .low m
  least : ∀ b ∈ new, ∀ j, q.1.mark b = .low j → m ≤ j
  ahead : ∀ b ∈ seen, q.1.mark b = .done ∨ q.1.Open b ∧ m ≤ idx' b
  root : q.2 = true ↔ m = t.index

/-- A node that was seen before is not visited again. -/
theorem visited_of_seen (h : Traces next cls idx path s t) (hb : t.mark b ≠ .unseen) :
    Visited next cls idx path t b s t idx [] where
  traces := h
  keeps := .refl idx t
  stack := rfl
  high c hc := (List.not_mem_nil hc).elim
  outcome := by
    cases hmark : t.mark b with
    | unseen => exact absurd hmark hb
    | low m => exact .inr ⟨m, rfl, fun c hc => (List.not_mem_nil hc).elim⟩
    | done => exact .inl ⟨rfl, rfl⟩

section Enter

variable (hs : Underway next path s) (h : Traces next cls idx path s t) (ha : a ∉ s.entered)
include hs h ha

theorem Traces.enter : Traces next cls (Function.update idx a t.index) (a :: path)
    { s with entered := a :: s.entered } (t.enter a) := by
  have hunseen : t.mark a = .unseen := (h.unseen a).2 ha
  have hself : (t.enter a).mark a = .low t.index := Function.update_self ..
  have hother {b : Nat} (hb : b ≠ a) : (t.enter a).mark b = t.mark b := Function.update_of_ne hb ..
  have hidx {b : Nat} (hb : b ≠ a) : Function.update idx a t.index b = idx b :=
    Function.update_of_ne hb ..
  have hne {b : Nat} (hb : t.mark b ≠ .unseen) : b ≠ a := fun heq => hb (heq ▸ hunseen)
  have hopen {b : Nat} (hb : t.Open b) :
      (t.enter a).Open b ∧ Function.update idx a t.index b = idx b := by
    obtain ⟨i, hi⟩ := hb
    have hba := hne (Open.ne_unseen ⟨i, hi⟩)
    exact ⟨⟨i, (hother hba).trans hi⟩, hidx hba⟩
  have hdone {b : Nat} : (t.enter a).mark b = .done ↔ t.mark b = .done := by
    by_cases hb : b = a
    · rw [hb, hself, hunseen]
      exact ⟨fun heq => (nomatch heq), fun heq => (nomatch heq)⟩
    · rw [hother hb]
  have hstack : t.stack = s.left.filter fun b => (t.enter a).mark b ≠ .done := by
    rw [h.stack]
    exact List.filter_congr fun b _ => decide_eq_decide.2 (not_congr hdone.symm)
  have hlow {b i : Nat} (hb : (t.enter a).mark b = .low i) (hba : b ≠ a) : t.mark b = .low i :=
    (hother hba).symm.trans hb
  refine ⟨?_, ?_, ?_, hstack, ?_, ?_, ?_, ?_, ?_, ?_⟩
  · intro b
    by_cases hb : b = a
    · rw [hb, hself]
      simp
    · rw [hother hb, h.unseen, List.mem_cons, not_or]
      exact ⟨fun hnot => ⟨hb, hnot⟩, And.right⟩
  · intro b hb c hc
    exact hdone.2 (h.complete b (hdone.1 hb) c hc)
  · intro b hb
    rcases List.mem_cons.1 hb with rfl | hb
    · exact ⟨_, hself⟩
    · exact (hopen (h.onPath b hb)).1
  · have hindex := h.index
    show t.index + 1 = 1 + (path.length + 1) + t.stack.length
    omega
  · intro b i hb
    show i ≤ Function.update idx a t.index b ∧ Function.update idx a t.index b < t.index + 1
    by_cases hba : b = a
    · rw [hba, hself] at hb
      cases hb
      rw [hba, Function.update_self]
      exact ⟨Nat.le_refl _, Nat.lt_succ_self _⟩
    · obtain ⟨hle, hlt⟩ := h.le b i (hlow hb hba)
      rw [hidx hba]
      exact ⟨hle, Nat.lt_succ_of_lt hlt⟩
  · intro b i hb
    by_cases hba : b = a
    · rw [hba, hself] at hb
      cases hb
      exact ⟨a, ⟨_, hself⟩, Function.update_self .., hba ▸ ReflTransGen.refl⟩
    · obtain ⟨c, hc, hci, hbc⟩ := h.leads b i (hlow hb hba)
      exact ⟨c, (hopen hc).1, (hopen hc).2.trans hci, hbc⟩
  · intro b hbs i hb c hc
    have hba := hne (h.open_of_mem_stack hs hbs).ne_unseen
    rcases h.ahead b hbs i (hlow hb hba) c hc with hc | ⟨hc, hle⟩
    · exact .inl (hdone.2 hc)
    · exact .inr ⟨(hopen hc).1, (hopen hc).2.symm ▸ hle⟩
  · intro b hb
    obtain ⟨p, hp, hlinked⟩ := h.linked b hb
    exact ⟨p, List.mem_cons_of_mem _ hp, hlinked⟩
  · rw [show (t.enter a).emitted = t.emitted from rfl, h.emitted]
    refine congrArg (fun l => (List.map cls l).eraseDups) (List.filter_congr fun b _ => ?_)
    exact decide_eq_decide.2 hdone.symm

/-- A node that was just entered. -/
theorem looked_enter : Looked next cls idx path t a [] { s with entered := a :: s.entered }
    (t.enter a, true) (Function.update idx a t.index) [] t.index where
  underway := hs.enter ha
  traces := h.enter hs ha
  keeps := by
    have hunseen : t.mark a = .unseen := (h.unseen a).2 ha
    refine ⟨?_, ?_, ?_⟩
    · intro b i hb
      have hba : b ≠ a := fun heq => by
        rw [heq, hunseen] at hb
        cases hb
      exact ⟨(Function.update_of_ne hba ..).trans hb, Function.update_of_ne hba ..⟩
    · intro b hb
      have hba : b ≠ a := fun heq => by
        rw [heq, hunseen] at hb
        cases hb
      exact (Function.update_of_ne hba ..).trans hb
    · rintro b ⟨i, hi⟩
      by_cases hba : b = a
      · right
        rw [hba, Function.update_self]
      · exact .inl ⟨i, (Function.update_of_ne hba ..).symm.trans hi⟩
  own := Function.update_self ..
  stack := rfl
  high b hb := (List.not_mem_nil hb).elim
  mark := Function.update_self ..
  least b hb := (List.not_mem_nil hb).elim
  ahead b hb := (List.not_mem_nil hb).elim
  root := ⟨fun _ => rfl, fun _ => rfl⟩

end Enter

/-- A node of the path may take over a lesser mark. -/
theorem Traces.lower (h : Traces next cls idx path s t) (ha : a ∉ t.stack) {m i : Nat}
    (hmark : t.mark a = .low m) (him : i < m) (hleads : ∃ b, t.Open b ∧ idx b = i ∧ Leads next a b) :
    Traces next cls idx path s { t with mark := Function.update t.mark a (.low i) } := by
  have hself : Function.update t.mark a (.low i) a = .low i := Function.update_self ..
  have hother {b : Nat} (hb : b ≠ a) : Function.update t.mark a (.low i) b = t.mark b :=
    Function.update_of_ne hb ..
  have hdone {b : Nat} : Function.update t.mark a (.low i) b = .done ↔ t.mark b = .done := by
    by_cases hb : b = a
    · rw [hb, hself, hmark]
      simp
    · rw [hother hb]
  have hunseen {b : Nat} : Function.update t.mark a (.low i) b = .unseen ↔ t.mark b = .unseen := by
    by_cases hb : b = a
    · rw [hb, hself, hmark]
      simp
    · rw [hother hb]
  have hopen {b : Nat} (hb : t.Open b) :
      Open { t with mark := Function.update t.mark a (.low i) } b :=
    open_of_ne (fun heq => hb.ne_unseen (hunseen.1 heq)) fun heq => hb.ne_done (hdone.1 heq)
  refine ⟨?_, ?_, fun b hb => hopen (h.onPath b hb), ?_, h.index, ?_, ?_, ?_, h.linked, ?_⟩
  · exact fun b => hunseen.trans (h.unseen b)
  · exact fun b hb c hc => hdone.2 (h.complete b (hdone.1 hb) c hc)
  · rw [h.stack]
    exact List.filter_congr fun b _ => decide_eq_decide.2 (not_congr hdone.symm)
  · intro b j hb
    by_cases hba : b = a
    · rw [hba] at hb ⊢
      cases hself.symm.trans hb
      obtain ⟨hle, hlt⟩ := h.le a m hmark
      exact ⟨Nat.le_trans (Nat.le_of_lt him) hle, hlt⟩
    · exact h.le b j ((hother hba).symm.trans hb)
  · intro b j hb
    by_cases hba : b = a
    · rw [hba] at hb
      cases hself.symm.trans hb
      obtain ⟨c, hc, hci, hac⟩ := hleads
      exact ⟨c, hopen hc, hci, hba ▸ hac⟩
    · obtain ⟨c, hc, hcj, hbc⟩ := h.leads b j ((hother hba).symm.trans hb)
      exact ⟨c, hopen hc, hcj, hbc⟩
  · intro b hbs j hb c hc
    have hba : b ≠ a := fun heq => ha (heq ▸ hbs)
    rcases h.ahead b hbs j ((hother hba).symm.trans hb) c hc with hc | ⟨hc, hle⟩
    · exact .inl (hdone.2 hc)
    · exact .inr ⟨hopen hc, hle⟩
  · rw [h.emitted]
    refine congrArg (fun l => (List.map cls l).eraseDups) (List.filter_congr fun b _ => ?_)
    exact decide_eq_decide.2 hdone.symm

theorem Keeps.trans {idx'' : Nat → Nat} {t'' : Tarjan} (h : Keeps idx idx' t t')
    (h' : Keeps idx' idx'' t' t'') (hindex : t.index ≤ t'.index) : Keeps idx idx'' t t'' where
  mark a i hi := ⟨(h'.mark a i (h.mark a i hi).1).1,
    (h'.mark a i (h.mark a i hi).1).2.trans (h.mark a i hi).2⟩
  done a ha := h'.done a (h.done a ha)
  fresh := by
    intro a ha
    rcases h'.fresh a ha with hopen | hle
    · rcases h.fresh a hopen with hold | hle
      · exact .inl hold
      · exact .inr ((h'.isOpen hopen).2 ▸ hle)
    · exact .inr (Nat.le_trans hindex hle)

/-- What a node that was entered takes over is nothing that has to be kept. -/
theorem Keeps.lower (h : Keeps idx idx' t t') (ha : t.mark a = .unseen) {m : Nat}
    (hmark : t'.mark a = .low m) (i : Nat) :
    Keeps idx idx' t { t' with mark := Function.update t'.mark a (.low i) } where
  mark b j hb := by
    have hba : b ≠ a := fun heq => by
      rw [heq, ha] at hb
      cases hb
    exact ⟨(Function.update_of_ne hba ..).trans (h.mark b j hb).1, (h.mark b j hb).2⟩
  done b hb := by
    have hba : b ≠ a := fun heq => by
      rw [heq, ha] at hb
      cases hb
    exact (Function.update_of_ne hba ..).trans (h.done b hb)
  fresh := by
    rintro b ⟨j, hj⟩
    by_cases hba : b = a
    · exact h.fresh b ⟨m, hba ▸ hmark⟩
    · exact h.fresh b ⟨j, (Function.update_of_ne hba ..).symm.trans hj⟩

section Look

variable {seen new newer : List Nat} {q : Tarjan × Bool} {m : Nat} {s'' : Search Nat}
  {t'' : Tarjan} {idx'' : Nat → Nat}

theorem Looked.index_le (h : Looked next cls idx path t a seen s' q idx' new m)
    (ht : Traces next cls idx path s t) : t.index ≤ q.1.index := by
  have hindex := ht.index
  have hindex' := h.traces.index
  rw [h.stack, List.length_append, List.length_cons] at hindex'
  omega

/-- A visit of a node that the node leads to and the look at its mark after. -/
theorem Looked.step (h : Looked next cls idx path t a seen s' q idx' new m)
    (ht : Traces next cls idx path s t) (ha : t.mark a = .unseen) (hb : b ∈ next a)
    (hunderway : Underway next (a :: path) s'')
    (hv : Visited next cls idx' (a :: path) q.1 b s'' t'' idx'' newer) :
    ∃ m', Looked next cls idx path t a (b :: seen) s'' (look a b (t'', q.2)) idx''
      (newer ++ new) m' := by
  have hkeeps := h.keeps.trans hv.keeps (h.index_le ht)
  have hmark := (hv.keeps.mark a m h.mark).1
  have hown : idx'' a = t.index := (hv.keeps.mark a m h.mark).2.trans h.own
  have hstack : t''.stack = (newer ++ new) ++ t.stack := by
    rw [hv.stack, h.stack, List.append_assoc]
  have hnew {c : Nat} (hc : c ∈ new) : q.1.Open c := by
    refine h.traces.open_of_mem_stack h.underway ?_
    rw [h.stack]
    exact List.mem_append_left _ hc
  have hhigh : ∀ c ∈ newer ++ new, t.index ≤ idx'' c := by
    intro c hc
    rcases List.mem_append.1 hc with hc | hc
    · exact Nat.le_trans (h.index_le ht) (hv.high c hc)
    · rw [(hv.keeps.isOpen (hnew hc)).2]
      exact h.high c hc
  have hold : ∀ c ∈ new, ∀ j, t''.mark c = .low j → m ≤ j := by
    intro c hc j hj
    obtain ⟨i, hi⟩ := hnew hc
    cases (hv.keeps.mark c i hi).1.symm.trans hj
    exact h.least c hc _ hi
  have hseen : ∀ c ∈ seen, t''.mark c = .done ∨ t''.Open c ∧ m ≤ idx'' c := by
    intro c hc
    rcases h.ahead c hc with hdone | ⟨hopen, hle⟩
    · exact .inl (hv.keeps.done c hdone)
    · exact .inr ⟨(hv.keeps.isOpen hopen).1, (hv.keeps.isOpen hopen).2.symm ▸ hle⟩
  rcases hv.outcome with ⟨hdone, rfl⟩ | ⟨i, hi, hleast⟩
  · have hlook : look a b (t'', q.2) = (t'', q.2) := by
      rw [look, if_neg]
      rw [hdone, hmark]
      exact Bool.false_ne_true
    rw [hlook]
    refine ⟨m, hunderway, hv.traces, hkeeps, hown, hstack, hhigh, hmark, hold, ?_, h.root⟩
    exact List.forall_mem_cons.2 ⟨.inl hdone, hseen⟩
  · have hib : i ≤ idx'' b := (hv.traces.le b i hi).1
    by_cases him : i < m
    · have hlook : look a b (t'', q.2) =
          ({ t'' with mark := Function.update t''.mark a (.low i) }, false) := by
        rw [look, if_pos]
        · rw [hi]
        · rw [hi, hmark]
          exact decide_eq_true him
      have hself : Function.update t''.mark a (.low i) a = .low i := Function.update_self ..
      have hother {c : Nat} (hc : c ≠ a) : Function.update t''.mark a (.low i) c = t''.mark c :=
        Function.update_of_ne hc ..
      have hopen {c : Nat} (hc : t''.Open c) :
          Open { t'' with mark := Function.update t''.mark a (.low i) } c := by
        by_cases hca : c = a
        · exact ⟨i, hca ▸ hself⟩
        · obtain ⟨j, hj⟩ := hc
          exact ⟨j, (hother hca).trans hj⟩
      have hnot : a ∉ t''.stack := by
        rw [hv.traces.stack]
        exact fun hmem => hunderway.not_left a List.mem_cons_self (List.mem_filter.1 hmem).1
      obtain ⟨c, hc, hci, hbc⟩ := hv.traces.leads b i hi
      rw [hlook]
      refine ⟨i, hunderway, hv.traces.lower hnot hmark him ⟨c, hc, hci, ReflTransGen.head hb hbc⟩,
        hkeeps.lower ha hmark i, hown, hstack, hhigh, hself, ?_, ?_, ?_⟩
      · intro c hc j hj
        by_cases hca : c = a
        · cases hself.symm.trans (hca ▸ hj)
          exact Nat.le_refl _
        · have hj := (hother hca).symm.trans hj
          rcases List.mem_append.1 hc with hc | hc
          · exact hleast c hc j hj
          · exact Nat.le_trans (Nat.le_of_lt him) (hold c hc j hj)
      · refine List.forall_mem_cons.2 ⟨.inr ⟨hopen ⟨i, hi⟩, hib⟩, fun c hc => ?_⟩
        rcases hseen c hc with hdone | ⟨hc, hle⟩
        · have hca : c ≠ a := fun heq => by
            rw [heq, hmark] at hdone
            cases hdone
          exact .inl ((hother hca).trans hdone)
        · exact .inr ⟨hopen hc, Nat.le_trans (Nat.le_of_lt him) hle⟩
      · have hle := (hv.traces.le a m hmark).1
        rw [hown] at hle
        exact ⟨fun heq => (nomatch heq), fun heq => by omega⟩
    · have hlook : look a b (t'', q.2) = (t'', q.2) := by
        rw [look, if_neg]
        rw [hi, hmark]
        simpa [Mark.before] using him
      have hmi : m ≤ i := Nat.le_of_not_lt him
      rw [hlook]
      refine ⟨m, hunderway, hv.traces, hkeeps, hown, hstack, hhigh, hmark, ?_, ?_, h.root⟩
      · intro c hc j hj
        rcases List.mem_append.1 hc with hc | hc
        · exact Nat.le_trans hmi (hleast c hc j hj)
        · exact hold c hc j hj
      · exact List.forall_mem_cons.2 ⟨.inr ⟨⟨i, hi⟩, Nat.le_trans hmi hib⟩, hseen⟩

end Look

/-- What is needed of the classes of linked nodes. -/
structure Classes (next cls : Nat → List Nat) (nodes : List Nat) : Prop where
  linked : ∀ a, ∀ b ∈ cls a, Linked next a b
  mem : ∀ a ∈ nodes, ∀ b, Linked next a b → b ∈ cls a
  same : ∀ a ∈ nodes, ∀ b, Linked next a b → cls a = cls b
  sorted : ∀ a, (cls a).Pairwise (· < ·)

/-- A list of all members of a class is the class when it is sorted. -/
theorem Classes.mergeSort_eq {nodes members : List Nat} (h : Classes next cls nodes)
    (ha : a ∈ nodes) (hnodup : members.Nodup) (hmembers : ∀ b, b ∈ members ↔ Linked next a b) :
    members.mergeSort = cls a := by
  have hperm : members.mergeSort.Perm (cls a) := by
    refine (List.mergeSort_perm _ _).trans ((List.perm_ext_iff_of_nodup hnodup ?_).2 fun b => ?_)
    · exact (h.sorted a).imp Nat.ne_of_lt
    · exact (hmembers b).trans ⟨h.mem a ha b, h.linked a b⟩
  exact hperm.eq_of_pairwise' (List.pairwise_mergeSort' (· ≤ ·) members)
    ((h.sorted a).imp Nat.le_of_lt)

section Leave

variable {nodes seen new : List Nat} {q : Tarjan × Bool} {m : Nat}
  (h : Looked next cls idx path t a seen s' q idx' new m)
include h

theorem Looked.open_of_mem_new (hb : b ∈ new) : q.1.Open b := by
  refine h.traces.open_of_mem_stack h.underway ?_
  rw [h.stack]
  exact List.mem_append_left _ hb

theorem Looked.open_self : q.1.Open a := ⟨m, h.mark⟩

theorem Looked.not_mem_new : a ∉ new := by
  intro ha
  have hmem : a ∈ q.1.stack := h.stack ▸ List.mem_append_left _ ha
  rw [h.traces.stack] at hmem
  exact h.underway.not_left a List.mem_cons_self (List.mem_filter.1 hmem).1

section Old

variable (hs : Underway next path s) (ht : Traces next cls idx path s t)
include ht

theorem Looked.lt_of_open (hb : t.Open b) : idx' b < t.index := by
  obtain ⟨i, hi⟩ := hb
  rw [(h.keeps.mark b i hi).2]
  exact (ht.le b i hi).2

/-- An open node that has nothing less than the index of the node was entered since. -/
theorem Looked.not_open_of_mem (hb : b ∈ a :: new) : ¬t.Open b := by
  intro hold
  have hlt := h.lt_of_open ht hold
  rcases List.mem_cons.1 hb with rfl | hb
  · rw [h.own] at hlt
    exact Nat.lt_irrefl _ hlt
  · exact Nat.not_lt.2 (h.high b hb) hlt

include hs

/-- An open node whose index is not less than that of the node is that node or waits for its
component. -/
theorem Looked.mem_of_le (hb : q.1.Open b) (hle : t.index ≤ idx' b) : b ∈ a :: new := by
  have hnot : ¬t.Open b := fun hold => Nat.not_lt.2 hle (h.lt_of_open ht hold)
  rcases h.traces.mem_of_open h.underway hb with hpath | hstack
  · rcases List.mem_cons.1 hpath with rfl | hpath
    · exact List.mem_cons_self
    · exact absurd (ht.onPath b hpath) hnot
  · rw [h.stack] at hstack
    rcases List.mem_append.1 hstack with hnew | hold
    · exact List.mem_cons_of_mem _ hnew
    · exact absurd (ht.open_of_mem_stack hs hold) hnot

/-- If a node leads to an index less than its own, then it is linked with the path and waits. -/
theorem Looked.leave_open (hpath : ∀ p ∈ path, Leads next p a) (hseen : ∀ b ∈ next a, b ∈ seen)
    (hm : m < t.index) : Visited next cls idx path t a { s' with left := a :: s'.left } (leave a q)
      idx' (a :: new) := by
  have hleave : leave a q = { q.1 with stack := a :: q.1.stack } := by
    rw [leave, if_neg]
    intro hroot
    exact absurd (h.root.1 hroot) (Nat.ne_of_lt hm)
  have hlinked : ∃ p ∈ path, Linked next p a := by
    obtain ⟨b, hb, hbm, hab⟩ := h.traces.leads a m h.mark
    have hold : t.Open b := (h.keeps.fresh b hb).resolve_right fun hle => by omega
    obtain ⟨p, hp, hpb⟩ := ht.exists_linked hs hold
    exact ⟨p, hp, hpath p hp, ReflTransGen.trans hab hpb.2⟩
  have hT := h.traces
  rw [hleave]
  refine ⟨⟨hT.unseen, hT.complete, fun p hp => hT.onPath p (List.mem_cons_of_mem _ hp), ?_, ?_,
    hT.le, hT.leads, ?_, ?_, ?_⟩, ⟨h.keeps.mark, h.keeps.done, h.keeps.fresh⟩, ?_, ?_, ?_⟩
  · show a :: q.1.stack = (a :: s'.left).filter fun b => q.1.mark b ≠ .done
    rw [List.filter_cons, if_pos (decide_eq_true h.open_self.ne_done), ← hT.stack]
  · have hindex := hT.index
    rw [List.length_cons] at hindex
    show q.1.index = 1 + path.length + (q.1.stack.length + 1)
    omega
  · refine List.forall_mem_cons.2 ⟨fun i hi b hb => ?_, hT.ahead⟩
    cases h.mark.symm.trans hi
    exact h.ahead b (hseen b hb)
  · refine List.forall_mem_cons.2 ⟨hlinked, fun b hb => ?_⟩
    obtain ⟨p, hp, hpb⟩ := hT.linked b hb
    rcases List.mem_cons.1 hp with rfl | hp
    · obtain ⟨r, hr, hrp⟩ := hlinked
      exact ⟨r, hr, hrp.trans hpb⟩
    · exact ⟨p, hp, hpb⟩
  · show q.1.emitted.map _ = (((a :: s'.left).filter fun b => q.1.mark b = .done).map cls).eraseDups
    rw [List.filter_cons, if_neg (fun heq => h.open_self.ne_done (of_decide_eq_true heq)),
      hT.emitted]
  · show a :: q.1.stack = a :: new ++ t.stack
    rw [h.stack, List.cons_append]
  · exact List.forall_mem_cons.2 ⟨Nat.le_of_eq h.own.symm, h.high⟩
  · refine .inr ⟨m, h.mark, List.forall_mem_cons.2 ⟨fun j hj => ?_, h.least⟩⟩
    cases h.mark.symm.trans hj
    exact Nat.le_refl _

/-! If a node leads to no index less than its own, then its component is complete. -/

section Root

variable (hseen : ∀ b ∈ next a, b ∈ seen) (hm : m = t.index)

/-- Nothing leads out of the component and those that were complete before. -/
theorem Looked.gone_of_leads {c : Nat} (hseen : ∀ b ∈ next a, b ∈ seen) (hm : m = t.index)
    (hb : q.1.mark b = .done ∨ b ∈ a :: new) (hbc : Leads next b c) :
    q.1.mark c = .done ∨ c ∈ a :: new := by
  have hgone {c : Nat} (hc : q.1.mark c = .done ∨ q.1.Open c ∧ m ≤ idx' c) :
      q.1.mark c = .done ∨ c ∈ a :: new :=
    hc.imp_right fun hc => h.mem_of_le hs ht hc.1 (hm ▸ hc.2)
  induction hbc with
  | refl => exact hb
  | @tail c d _ hcd ih =>
      rcases ih with hdone | hmem
      · exact .inl (h.traces.complete c hdone d hcd)
      · rcases List.mem_cons.1 hmem with rfl | hnew
        · exact hgone (h.ahead d (hseen d hcd))
        · obtain ⟨i, hi⟩ := h.open_of_mem_new hnew
          have hstack : c ∈ q.1.stack := h.stack ▸ List.mem_append_left _ hnew
          refine hgone ((h.traces.ahead c hstack i hi d hcd).imp_right fun hd => ?_)
          exact ⟨hd.1, Nat.le_trans (h.least c hnew i hi) hd.2⟩

omit hs in
theorem Looked.not_gone (hb : t.Open b) : ¬(q.1.mark b = .done ∨ b ∈ a :: new) := by
  rintro (hdone | hmem)
  · exact (h.keeps.isOpen hb).1.ne_done hdone
  · exact h.not_open_of_mem ht hmem hb

include hseen hm

/-- The component holds the nodes that are linked with the node. -/
theorem Looked.mem_iff_linked : b ∈ a :: new ↔ Linked next a b := by
  constructor
  · intro hb
    rcases List.mem_cons.1 hb with rfl | hnew
    · exact Linked.refl next _
    · have hstack : b ∈ q.1.stack := h.stack ▸ List.mem_append_left _ hnew
      obtain ⟨p, hp, hpb⟩ := h.traces.linked b hstack
      rcases List.mem_cons.1 hp with rfl | hp
      · exact hpb
      · exact absurd (h.gone_of_leads hs ht hseen hm (.inr hb) hpb.2)
          (h.not_gone ht (ht.onPath p hp))
  · intro hab
    refine (h.gone_of_leads hs ht hseen hm (.inr List.mem_cons_self) hab.1).resolve_left ?_
    exact fun hdone => h.open_self.ne_done (h.traces.done_of_leads hdone hab.2)

omit hseen in
theorem Looked.leave_eq : leave a q =
    { index := t.index
      mark := fun b => if b ∈ a :: new then .done else q.1.mark b
      stack := t.stack
      emitted := (new.reverse ++ [a]) :: q.1.emitted } := by
  have hmembers : (q.1.stack.takeWhile fun b => !(q.1.mark b).before (q.1.mark a)) = new := by
    rw [h.stack, List.takeWhile_append_of_pos]
    · cases hstack : t.stack with
      | nil => exact List.append_nil _
      | cons b rest =>
          have hb : t.Open b := ht.open_of_mem_stack hs (hstack ▸ List.mem_cons_self)
          obtain ⟨j, hj⟩ := (h.keeps.isOpen hb).1
          have hlt : j < m := by
            rw [hm]
            exact Nat.lt_of_le_of_lt (h.traces.le b j hj).1 (h.lt_of_open ht hb)
          rw [List.takeWhile_cons, if_neg, List.append_nil]
          rw [hj, h.mark]
          simpa [Mark.before] using hlt
    · intro b hb
      obtain ⟨j, hj⟩ := h.open_of_mem_new hb
      rw [hj, h.mark]
      simpa [Mark.before] using h.least b hb j hj
  have hindex : q.1.index - (new.length + 1) = t.index := by
    have hbefore := ht.index
    have hafter := h.traces.index
    rw [h.stack, List.length_append, List.length_cons] at hafter
    omega
  rw [leave, if_pos (h.root.2 hm), hmembers]
  dsimp only
  rw [hindex, h.stack, List.drop_left]

/-- If a node leads to no index less than its own, then its component is complete when it is
left. -/
theorem Looked.leave_root {nodes : List Nat} (hcls : Classes next cls nodes) (ha : a ∈ nodes) :
    Visited next cls idx path t a { s' with left := a :: s'.left } (leave a q) idx' [] := by
  have hmem {b : Nat} : b ∈ a :: new ↔ Linked next a b := h.mem_iff_linked hs ht hseen hm
  have hgone {b : Nat} : (if b ∈ a :: new then Mark.done else q.1.mark b) = .done ↔
      q.1.mark b = .done ∨ b ∈ a :: new := by
    by_cases hb : b ∈ a :: new <;> simp only [hb, if_true, if_false, or_true, or_false]
  -- the nodes that stay open are those that were open when the node was entered
  have hlow {b i : Nat} : (if b ∈ a :: new then Mark.done else q.1.mark b) = .low i ↔
      t.mark b = .low i := by
    constructor
    · intro hb
      by_cases hbm : b ∈ a :: new
      · rw [if_pos hbm] at hb
        cases hb
      · rw [if_neg hbm] at hb
        have hopen : t.Open b := (h.keeps.fresh b ⟨i, hb⟩).resolve_right fun hle =>
          hbm (h.mem_of_le hs ht ⟨i, hb⟩ hle)
        obtain ⟨j, hj⟩ := hopen
        cases (h.keeps.mark b j hj).1.symm.trans hb
        exact hj
    · intro hb
      rw [if_neg fun hbm => h.not_open_of_mem ht hbm ⟨i, hb⟩]
      exact (h.keeps.mark b i hb).1
  have hunseen {b : Nat} : (if b ∈ a :: new then Mark.done else q.1.mark b) = .unseen ↔
      q.1.mark b = .unseen := by
    by_cases hb : b ∈ a :: new
    · rw [if_pos hb]
      refine ⟨fun heq => (nomatch heq), fun heq => ?_⟩
      rcases List.mem_cons.1 hb with rfl | hb
      · exact absurd heq h.open_self.ne_unseen
      · exact absurd heq (h.open_of_mem_new hb).ne_unseen
    · rw [if_neg hb]
  have hnodup : (a :: new).Nodup := by
    have hsub : new.Sublist s'.left := by
      refine (List.sublist_append_left new t.stack).trans ?_
      rw [← h.stack, h.traces.stack]
      exact List.filter_sublist
    exact List.nodup_cons.2 ⟨h.not_mem_new, hsub.nodup h.underway.left_nodup⟩
  have hidx {b : Nat} (hb : t.Open b) : idx' b = idx b := (h.keeps.isOpen hb).2
  rw [h.leave_eq hs ht hm]
  refine ⟨⟨?_, ?_, ?_, ?_, ht.index, ?_, ?_, ?_, ht.linked, ?_⟩, ⟨?_, ?_, ?_⟩, rfl, ?_, ?_⟩
  · exact fun b => hunseen.trans (h.traces.unseen b)
  · exact fun b hb c hc => hgone.2 (h.gone_of_leads hs ht hseen hm (hgone.1 hb)
      (ReflTransGen.single hc))
  · intro p hp
    obtain ⟨i, hi⟩ := ht.onPath p hp
    exact ⟨i, hlow.2 hi⟩
  · show t.stack = (a :: s'.left).filter fun b =>
      (if b ∈ a :: new then Mark.done else q.1.mark b) ≠ .done
    have hstay : (s'.left.filter fun b =>
        (if b ∈ a :: new then Mark.done else q.1.mark b) ≠ .done) =
        q.1.stack.filter fun b => b ∉ a :: new := by
      rw [h.traces.stack, List.filter_filter]
      refine List.filter_congr fun b _ => ?_
      rw [← Bool.decide_and]
      exact decide_eq_decide.2 ((not_congr (hgone.trans or_comm)).trans not_or)
    have hself : ¬(decide ((if a ∈ a :: new then Mark.done else q.1.mark a) ≠ .done) = true) := by
      simp
    rw [List.filter_cons, if_neg hself, hstay, h.stack, List.filter_append,
      List.filter_eq_nil_iff.2 fun b hb => ?_, List.nil_append, List.filter_eq_self.2 fun b hb => ?_]
    · exact decide_eq_true fun hbm =>
        h.not_open_of_mem ht hbm (ht.open_of_mem_stack hs hb)
    · exact fun heq => of_decide_eq_true heq (List.mem_cons_of_mem _ hb)
  · intro b i hb
    have hb := hlow.1 hb
    rw [hidx ⟨i, hb⟩]
    exact ht.le b i hb
  · intro b i hb
    obtain ⟨c, ⟨j, hj⟩, hci, hbc⟩ := ht.leads b i (hlow.1 hb)
    exact ⟨c, ⟨j, hlow.2 hj⟩, (hidx ⟨j, hj⟩).trans hci, hbc⟩
  · intro b hb i hi c hc
    rcases ht.ahead b hb i (hlow.1 hi) c hc with hdone | ⟨⟨j, hj⟩, hle⟩
    · exact .inl (hgone.2 (.inl (h.keeps.done c hdone)))
    · exact .inr ⟨⟨j, hlow.2 hj⟩, (hidx ⟨j, hj⟩).symm ▸ hle⟩
  · have hsort : (new.reverse ++ [a]).mergeSort = cls a := by
      refine hcls.mergeSort_eq ha ?_ fun b => ?_
      · have hperm : (new.reverse ++ [a]).Perm (a :: new) :=
          List.perm_append_comm.trans ((List.reverse_perm new).cons a)
        exact hperm.nodup_iff.2 hnodup
      · rw [← hmem, List.mem_append, List.mem_reverse, List.mem_singleton, List.mem_cons, or_comm]
    have hself : decide ((if a ∈ a :: new then Mark.done else q.1.mark a) = .done) = true := by
      simp
    show (new.reverse ++ [a]).mergeSort :: q.1.emitted.map _ = (((a :: s'.left).filter fun b =>
      (if b ∈ a :: new then Mark.done else q.1.mark b) = .done).map cls).eraseDups
    rw [List.filter_cons, if_pos hself, List.map_cons, List.eraseDups_cons, hsort,
      h.traces.emitted, List.filter_map, List.filter_filter]
    refine congrArg (fun l => cls a :: (List.map cls l).eraseDups) (List.filter_congr fun b _ => ?_)
    rw [Bool.eq_iff_iff, Bool.and_eq_true, decide_eq_true_eq, decide_eq_true_eq, hgone]
    constructor
    · intro hdone
      refine ⟨?_, .inl hdone⟩
      have hne : cls b ≠ cls a := fun heq => by
        have hba := hcls.linked b a (heq ▸ hcls.mem a ha a (Linked.refl next a))
        exact h.open_self.ne_done (h.traces.done_of_leads hdone hba.1)
      simpa using hne
    · rintro ⟨hne, hdone | hnew⟩
      · exact hdone
      · have hne : cls b ≠ cls a := by simpa using hne
        exact absurd (hcls.same a ha b (hmem.1 hnew)).symm hne
  · exact fun b i hb => ⟨hlow.2 hb, hidx ⟨i, hb⟩⟩
  · exact fun b hb => hgone.2 (.inl (h.keeps.done b hb))
  · rintro b ⟨i, hi⟩
    exact .inl ⟨i, hlow.1 hi⟩
  · exact fun b hb => (List.not_mem_nil hb).elim
  · exact .inl ⟨hgone.2 (.inr List.mem_cons_self), rfl⟩

end Root

end Old

end Leave

section Visit

variable {nodes : List Nat} (hcls : Classes next cls nodes)
  (hnodes : ∀ a ∈ nodes, ∀ b ∈ next a, b ∈ nodes)

theorem visit_of_mem (n : Nat) (hb : b ∈ s.entered) : Search.visit next n b s = s := by
  cases n with
  | zero => rfl
  | succ n => rw [Search.visit, if_pos (List.contains_iff_mem.2 hb)]

include hnodes

/-- Looks at all nodes that a node leads to, with visits of those that are unseen. -/
theorem looked_foldl {n : Nat} (hpath : ∀ p ∈ path, Leads next p a) (ha : a ∈ nodes)
    (ht : Traces next cls idx path s t) (hunseen : t.mark a = .unseen)
    (hvisit : ∀ (b : Nat) (s' : Search Nat) (t' : Tarjan) (idx' : Nat → Nat), b ∈ next a →
      Underway next (a :: path) s' → Traces next cls idx' (a :: path) s' t' → b ∉ s'.entered →
      Search.unentered nodes s' ≤ n → ∃ idx'' new, Visited next cls idx' (a :: path) t' b
        (Search.visit next n b s') (visit next n b t') idx'' new)
    (bs : List Nat) (hbs : ∀ b ∈ bs, b ∈ next a) {seen new : List Nat} {q : Tarjan × Bool} {m : Nat}
    (h : Looked next cls idx path t a seen s' q idx' new m)
    (hn : Search.unentered nodes s' ≤ n) :
    ∃ idx'' new' m', Looked next cls idx path t a (bs.reverse ++ seen)
      (bs.foldl (fun s b => Search.visit next n b s) s')
      (bs.foldl (fun q b =>
        look a b (if q.1.mark b = .unseen then visit next n b q.1 else q.1, q.2)) q)
      idx'' new' m' := by
  induction bs generalizing seen s' q idx' new m with
  | nil => exact ⟨idx', new, m, h⟩
  | cons b rest ih =>
      have hb := hbs b List.mem_cons_self
      have hleads : ∀ p ∈ a :: path, Leads next p b := by
        refine List.forall_mem_cons.2 ⟨ReflTransGen.single hb, fun p hp => ?_⟩
        exact ReflTransGen.tail (hpath p hp) hb
      have hachieves := Search.achieves_visit hnodes n b (a :: path) s' h.underway hleads
        (hnodes a ha b hb) hn
      have hvisited : ∃ idx'' newer, Visited next cls idx' (a :: path) q.1 b
          (Search.visit next n b s')
          (if q.1.mark b = .unseen then visit next n b q.1 else q.1) idx'' newer := by
        by_cases hmark : q.1.mark b = .unseen
        · rw [if_pos hmark]
          exact hvisit b s' q.1 idx' hb h.underway h.traces ((h.traces.unseen b).1 hmark) hn
        · have hentered : b ∈ s'.entered :=
            Classical.byContradiction fun hne => hmark ((h.traces.unseen b).2 hne)
          rw [if_neg hmark, visit_of_mem n hentered]
          exact ⟨idx', [], visited_of_seen h.traces hmark⟩
      obtain ⟨idx'', newer, hvisited⟩ := hvisited
      obtain ⟨m', hstep⟩ := h.step ht hunseen hb hachieves.underway hvisited
      have hrest := ih (fun c hc => hbs c (List.mem_cons_of_mem _ hc)) hstep
        (Nat.le_trans (Search.unentered_mono nodes hachieves.grows) hn)
      rw [List.reverse_cons, List.append_assoc]
      exact hrest

include hcls

/-- A visit runs along with the visit of the search. -/
theorem visited_visit (n : Nat) (a : Nat) (path : List Nat) (s : Search Nat) (t : Tarjan)
    (idx : Nat → Nat) (hs : Underway next path s) (ht : Traces next cls idx path s t)
    (hpath : ∀ p ∈ path, Leads next p a) (ha : a ∈ nodes) (hnew : a ∉ s.entered)
    (hn : Search.unentered nodes s ≤ n) : ∃ idx' new, Visited next cls idx path t a
      (Search.visit next n a s) (visit next n a t) idx' new := by
  induction n generalizing a path s t idx with
  | zero => exact absurd (Search.unentered_enter ha hnew) (by omega)
  | succ n ih =>
      have hcount := Nat.le_of_lt_succ (Nat.lt_of_lt_of_le (Search.unentered_enter ha hnew) hn)
      have hfold := looked_foldl hnodes hpath ha ht ((ht.unseen a).2 hnew)
        (fun b s' t' idx' hb hs' ht' hnew' hn' => ih b (a :: path) s' t' idx' hs' ht'
          (List.forall_mem_cons.2 ⟨ReflTransGen.single hb, fun p hp =>
            ReflTransGen.tail (hpath p hp) hb⟩) (hnodes a ha b hb) hnew' hn')
        (next a) (fun _ hb => hb) (looked_enter hs ht hnew) hcount
      obtain ⟨idx', new, m, hlooked⟩ := hfold
      have hseen : ∀ b ∈ next a, b ∈ (next a).reverse ++ [] := fun b hb =>
        List.mem_append_left _ (List.mem_reverse.2 hb)
      have hle : m ≤ t.index := hlooked.own ▸ (hlooked.traces.le a m hlooked.mark).1
      rw [Search.visit, if_neg (by simpa using hnew), visit]
      rcases Nat.lt_or_eq_of_le hle with hlt | heq
      · exact ⟨idx', a :: new, hlooked.leave_open hs ht hpath hseen hlt⟩
      · exact ⟨idx', [], hlooked.leave_root hs ht hseen heq hcls ha⟩

theorem traces_foldl {n : Nat} (roots : List Nat) (hroots : roots ⊆ nodes)
    (hs : Underway next [] s) (ht : Traces next cls idx [] s t)
    (hn : Search.unentered nodes s ≤ n) : ∃ idx', Traces next cls idx' []
      (roots.foldl (fun s a => Search.visit next n a s) s)
      (roots.foldl (fun t a => if t.mark a = .unseen then visit next n a t else t) t) := by
  induction roots generalizing s t idx with
  | nil => exact ⟨idx, ht⟩
  | cons a rest ih =>
      have ha := hroots List.mem_cons_self
      have hno : ∀ p ∈ ([] : List Nat), Leads next p a := fun p hp => (List.not_mem_nil hp).elim
      have hachieves := Search.achieves_visit hnodes n a [] s hs hno ha hn
      have htraces : ∃ idx', Traces next cls idx' [] (Search.visit next n a s)
          (if t.mark a = .unseen then visit next n a t else t) := by
        by_cases hmark : t.mark a = .unseen
        · obtain ⟨idx', new, hvisited⟩ := visited_visit hcls hnodes n a [] s t idx hs ht hno ha
            ((ht.unseen a).1 hmark) hn
          rw [if_pos hmark]
          exact ⟨idx', hvisited.traces⟩
        · have hentered : a ∈ s.entered :=
            Classical.byContradiction fun hne => hmark ((ht.unseen a).2 hne)
          rw [if_neg hmark, visit_of_mem n hentered]
          exact ⟨idx, ht⟩
      obtain ⟨idx', htraces⟩ := htraces
      exact ih (fun b hb => hroots (List.mem_cons_of_mem _ hb)) hachieves.underway htraces
        (Nat.le_trans (Search.unentered_mono nodes hachieves.grows) hn)

omit hnodes hcls in
theorem traces_start (idx : Nat → Nat) : Traces next cls idx [] Search.start start where
  unseen _ := ⟨fun _ => List.not_mem_nil, fun _ => rfl⟩
  complete _ h := nomatch h
  onPath _ h := (List.not_mem_nil h).elim
  stack := rfl
  index := rfl
  le _ _ h := nomatch h
  leads _ _ h := nomatch h
  ahead _ h := (List.not_mem_nil h).elim
  linked _ h := (List.not_mem_nil h).elim
  emitted := rfl

/-- Sorted, the components are the classes of the nodes in the order in which they were left. -/
theorem emitted_visitAll {bound : Nat} (hbound : nodes.length ≤ bound) :
    (visitAll next bound nodes).emitted.map (·.mergeSort) =
      ((Search.visitAll next bound nodes).left.map cls).eraseDups := by
  obtain ⟨idx, h⟩ := traces_foldl hcls hnodes nodes (List.Subset.refl _) (Underway.start next)
    (traces_start id) (Nat.le_trans List.countP_le_length hbound)
  have hstack : (visitAll next bound nodes).stack = [] := by
    refine List.eq_nil_iff_forall_not_mem.2 fun a ha => ?_
    obtain ⟨p, hp, -⟩ := h.linked a ha
    exact List.not_mem_nil hp
  have hdone := h.stack.symm.trans hstack
  rw [List.filter_eq_nil_iff] at hdone
  refine h.emitted.trans ?_
  rw [List.filter_eq_self.2 fun a ha => by simpa using hdone a ha]
  rfl

end Visit

end Tarjan

namespace CallGraph

variable {g : CallGraph}

/-- The components of a graph as one search with a stack finds them, callees before callers. -/
def tarjan (g : CallGraph) : List (List Nat) :=
  (Tarjan.visitAll g.successors g.functions.size (List.range g.functions.size)).emitted.reverse

theorem classes_classIn (h : g.Closed) :
    Tarjan.Classes g.successors g.classIn (List.range g.functions.size) where
  linked a b hb := by
    by_cases ha : a < g.functions.size
    · exact (mem_classIn h ha).1 hb
    · have hnone : ((List.range g.functions.size).map g.reachable).toArray[a]? = none :=
        Array.getElem?_eq_none (by simpa using ha)
      rw [classIn, classOf, List.mem_filter, Array.getD_eq_getD_getElem?, hnone] at hb
      simp at hb
  mem a ha b hab := (mem_classIn h (List.mem_range.1 ha)).2 hab
  same a ha b hab := classIn_eq_of_linked h (List.mem_range.1 ha) hab
  sorted a := sorted_classOf _ a

/-- The components that one search with a stack finds are the classes, in the same order. -/
theorem tarjan_eq_classes (h : g.Closed) : g.tarjan.map (·.mergeSort) = g.classes := by
  rw [tarjan, List.map_reverse, Tarjan.emitted_visitAll (classes_classIn h) h.range
    (Nat.le_of_eq List.length_range), classes_eq]

/-- The components of a graph of calls between its functions are made of the members that one search
with a stack finds, in its order. They are the condensation of the graph, and their levels list each
of them once. -/
theorem condensation_of_bounded (h : g.Bounded) :
    g.components = g.componentsOf (g.tarjan.map (·.mergeSort)) ∧
      g.IsCondensation g.components ∧
      g.ListsLevels g.components (Component.levels g.components) := by
  refine ⟨?_, isCondensation_components h.closed, listsLevels_levels h.closed⟩
  rw [tarjan_eq_classes h.closed]
  rfl

/-- Two functions that call each other, and a third one that one of them calls. -/
def mutualPair : CallGraph where
  functions := #["a", "b", "c"]
  sites := .ofList [(1, ⟨1, 0, .direct, .ofList [1], true⟩), (2, ⟨2, 1, .direct, .ofList [0, 2], true⟩)]

theorem condensation_of_mutualPair : mutualPair.Bounded ∧
    mutualPair.components = [⟨[2], false, 0⟩, ⟨[0, 1], true, 1⟩] ∧
    Component.levels mutualPair.components = [[0], [1]] ∧
    mutualPair.IsCondensation mutualPair.components := by
  have h : mutualPair.Bounded := by
    intro s hs
    have hsites : mutualPair.sites.values =
        [⟨1, 0, .direct, .ofList [1], true⟩, ⟨2, 1, .direct, .ofList [0, 2], true⟩] := rfl
    rw [hsites] at hs
    rcases List.mem_cons.1 hs with rfl | hs
    · decide
    · rw [List.mem_singleton.1 hs]
      decide
  exact ⟨h, by decide, by decide, (condensation_of_bounded h).2.1⟩

end CallGraph

end ValueFlow
