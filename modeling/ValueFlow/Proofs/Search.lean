import Mathlib.Logic.Relation
import ValueFlow.Data.Search
/-!
What a depth-first search finds, and in which order it leaves the nodes.

Main statements: a search enters exactly the nodes that its roots lead to (`mem_entered_visitAll`),
and when one node leads to a second that does not lead back, some node linked with the first is
left after the second (`ordered_visitAll`).
-/

namespace ValueFlow

namespace Search

open Relation (ReflTransGen)

variable {α : Type}

/-- A node leads to another along any number of steps. -/
def Leads (next : α → List α) : α → α → Prop := ReflTransGen fun a b => b ∈ next a

/-- Two nodes lead to each other. -/
def Linked (next : α → List α) (a b : α) : Prop := Leads next a b ∧ Leads next b a

theorem Linked.trans {next : α → List α} {a b c : α} (h : Linked next a b)
    (k : Linked next b c) : Linked next a c :=
  ⟨ReflTransGen.trans h.1 k.1, ReflTransGen.trans k.2 h.2⟩

theorem Linked.symm {next : α → List α} {a b : α} (h : Linked next a b) : Linked next b a :=
  ⟨h.2, h.1⟩

theorem Linked.refl (next : α → List α) (a : α) : Linked next a a :=
  ⟨ReflTransGen.refl, ReflTransGen.refl⟩

/-- A search in progress: the nodes of `path` are entered and not yet left. A node that was left
either leads to nothing but nodes that were left, or is linked with a node of the path. -/
structure Underway (next : α → List α) (path : List α) (s : Search α) : Prop where
  entered_iff : ∀ a, a ∈ s.entered ↔ a ∈ path ∨ a ∈ s.left
  not_left : ∀ a ∈ path, a ∉ s.left
  left_nodup : s.left.Nodup
  next_entered : ∀ a ∈ s.left, ∀ b ∈ next a, b ∈ s.entered
  settled : ∀ a ∈ s.left, (∀ b, Leads next a b → b ∈ s.left) ∨ ∃ p ∈ path, Linked next p a
  ordered : ∀ a ∈ s.left, ∀ b ∈ s.left, Leads next a b → ¬ Leads next b a →
    (∃ p ∈ path, Linked next p a) ∨ ∃ c, Linked next c a ∧ [c, b].Sublist s.left

namespace Underway

variable {next : α → List α} {path : List α} {s : Search α} {a : α}

theorem start (next : α → List α) : Underway next [] (Search.start : Search α) where
  entered_iff a := by simp [Search.start]
  not_left a h := absurd h List.not_mem_nil
  left_nodup := List.nodup_nil
  next_entered a h := absurd h List.not_mem_nil
  settled a h := absurd h List.not_mem_nil
  ordered a h := absurd h List.not_mem_nil

theorem enter (h : Underway next path s) (ha : a ∉ s.entered) :
    Underway next (a :: path) { s with entered := a :: s.entered } where
  entered_iff b := by
    simp only [List.mem_cons, h.entered_iff, or_assoc]
  not_left b hb hl := by
    rcases List.mem_cons.1 hb with rfl | hb
    · exact ha ((h.entered_iff b).2 (.inr hl))
    · exact h.not_left b hb hl
  left_nodup := h.left_nodup
  next_entered b hb c hc := List.mem_cons_of_mem _ (h.next_entered b hb c hc)
  settled b hb := (h.settled b hb).imp_right fun ⟨p, hp, hl⟩ =>
    ⟨p, List.mem_cons_of_mem _ hp, hl⟩
  ordered b hb c hc hbc hcb := (h.ordered b hb c hc hbc hcb).imp_left fun ⟨p, hp, hl⟩ =>
    ⟨p, List.mem_cons_of_mem _ hp, hl⟩

/-- When a node is left that no node further up the path is linked with, everything that it leads
to was left before. -/
theorem leads_left (h : Underway next (a :: path) s) (hnext : ∀ b ∈ next a, b ∈ s.entered)
    (hpath : ∀ p ∈ path, Leads next p a) (hno : ∀ p ∈ path, ¬ Linked next p a) {b : α}
    (hb : Leads next a b) : b ∈ a :: s.left := by
  -- a node of the path that `a` leads to would be linked with `a`
  have entered_left : ∀ c, Leads next a c → c ∈ s.entered → c ∈ a :: s.left := by
    intro c hc he
    rcases (h.entered_iff c).1 he with hp | hl
    · rcases List.mem_cons.1 hp with rfl | hp
      · exact List.mem_cons_self
      · exact absurd ⟨hpath c hp, hc⟩ (hno c hp)
    · exact List.mem_cons_of_mem _ hl
  induction hb with
  | refl => exact List.mem_cons_self
  | @tail b c hab hbc ih =>
      have hac : Leads next a c := ReflTransGen.tail hab hbc
      rcases List.mem_cons.1 ih with rfl | hl
      · exact entered_left c hac (hnext c hbc)
      · exact entered_left c hac (h.next_entered b hl c hbc)

theorem leave (h : Underway next (a :: path) s) (ha : a ∉ path)
    (hnext : ∀ b ∈ next a, b ∈ s.entered) (hpath : ∀ p ∈ path, Leads next p a) :
    Underway next path { s with left := a :: s.left } where
  entered_iff b := by
    rw [h.entered_iff, List.mem_cons, List.mem_cons, or_assoc, or_left_comm]
  not_left b hb hl := by
    rcases List.mem_cons.1 hl with rfl | hl
    · exact ha hb
    · exact h.not_left b (List.mem_cons_of_mem _ hb) hl
  left_nodup := List.nodup_cons.2 ⟨h.not_left a List.mem_cons_self, h.left_nodup⟩
  next_entered b hb c hc := by
    rcases List.mem_cons.1 hb with rfl | hb
    · exact hnext c hc
    · exact h.next_entered b hb c hc
  settled b hb := by
    by_cases hlink : ∃ p ∈ path, Linked next p b
    · exact .inr hlink
    · left
      intro c hbc
      -- everything below `a` is left, unless `a` itself is linked with the path
      have below : Linked next a b → c ∈ a :: s.left := fun hab =>
        h.leads_left hnext hpath
          (fun p hp hpa => hlink ⟨p, hp, hpa.trans hab⟩) (ReflTransGen.trans hab.1 hbc)
      rcases List.mem_cons.1 hb with rfl | hb
      · exact below (Linked.refl next b)
      · rcases h.settled b hb with hleft | ⟨p, hp, hpb⟩
        · exact List.mem_cons_of_mem _ (hleft c hbc)
        · rcases List.mem_cons.1 hp with rfl | hp
          · exact below hpb
          · exact absurd ⟨p, hp, hpb⟩ hlink
  ordered b hb c hc hbc hcb := by
    rcases List.mem_cons.1 hb with rfl | hbl
    · rcases List.mem_cons.1 hc with rfl | hcl
      · exact absurd ReflTransGen.refl hcb
      · exact .inr ⟨b, Linked.refl next b, (List.singleton_sublist.2 hcl).cons_cons b⟩
    · rcases List.mem_cons.1 hc with rfl | hcl
      · rcases h.settled b hbl with hleft | ⟨p, hp, hpb⟩
        · exact absurd (hleft c hbc) (h.not_left c List.mem_cons_self)
        · rcases List.mem_cons.1 hp with rfl | hp
          · exact absurd hpb.1 hcb
          · exact .inl ⟨p, hp, hpb⟩
      · rcases h.ordered b hbl c hcl hbc hcb with ⟨p, hp, hpb⟩ | ⟨d, hd, hsub⟩
        · rcases List.mem_cons.1 hp with rfl | hp
          · exact .inr ⟨p, hpb, (List.singleton_sublist.2 hcl).cons_cons p⟩
          · exact .inl ⟨p, hp, hpb⟩
        · exact .inr ⟨d, hd, hsub.cons a⟩

end Underway

section Visit

variable [BEq α] [LawfulBEq α] {next : α → List α} {nodes : List α}

/-- How many of some nodes a search has not entered. -/
def unentered (nodes : List α) (s : Search α) : Nat :=
  nodes.countP fun b => !s.entered.contains b

theorem unentered_mono (nodes : List α) {s t : Search α} (h : s.entered ⊆ t.entered) :
    unentered nodes t ≤ unentered nodes s := by
  refine List.countP_mono_left fun b _ hb => ?_
  simp only [Bool.not_eq_true', List.contains_eq_mem, decide_eq_false_iff_not] at hb ⊢
  exact fun hs => hb (h hs)

theorem unentered_enter {s : Search α} {a : α} (ha : a ∈ nodes) (hs : a ∉ s.entered) :
    unentered nodes { s with entered := a :: s.entered } < unentered nodes s := by
  obtain ⟨l, r, rfl⟩ := List.append_of_mem ha
  have hl := unentered_mono l (List.subset_cons_self a s.entered)
    (t := { s with entered := a :: s.entered })
  have hr := unentered_mono r (List.subset_cons_self a s.entered)
    (t := { s with entered := a :: s.entered })
  simp only [unentered, List.countP_append, List.countP_cons] at hl hr ⊢
  simp only [List.contains_eq_mem, List.mem_cons, true_or, decide_true, Bool.not_true,
    Bool.false_eq_true, if_false, hs, decide_false, Bool.not_false, if_true] at hl hr ⊢
  omega

/-- What a visit achieves while some path is open. -/
structure Achieves (next : α → List α) (path roots : List α) (s t : Search α) : Prop where
  underway : Underway next path t
  grows : s.entered ⊆ t.entered
  enters : roots ⊆ t.entered

theorem achieves_foldl (nodes : List α) {path : List α} {n : Nat} (bs : List α)
    (hvisit : ∀ b ∈ bs, ∀ s, Underway next path s → unentered nodes s ≤ n →
      Achieves next path [b] s (visit next n b s)) (s : Search α) (hs : Underway next path s)
    (hn : unentered nodes s ≤ n) :
    Achieves next path bs s (bs.foldl (fun s b => visit next n b s) s) := by
  induction bs generalizing s with
  | nil => exact ⟨hs, List.Subset.refl _, List.nil_subset _⟩
  | cons b bs ih =>
      have first := hvisit b List.mem_cons_self s hs hn
      have rest := ih (fun c hc => hvisit c (List.mem_cons_of_mem _ hc)) _ first.underway
        (Nat.le_trans (unentered_mono nodes first.grows) hn)
      refine ⟨rest.underway, fun c hc => rest.grows (first.grows hc), ?_⟩
      intro c hc
      rcases List.mem_cons.1 hc with rfl | hc
      · exact rest.grows (first.enters List.mem_cons_self)
      · exact rest.enters hc

/-- A visit with a bound of at least the number of nodes left to enter runs to its end. -/
theorem achieves_visit (hnodes : ∀ a ∈ nodes, ∀ b ∈ next a, b ∈ nodes) (n : Nat) (a : α)
    (path : List α) (s : Search α) (hs : Underway next path s)
    (hpath : ∀ p ∈ path, Leads next p a) (ha : a ∈ nodes) (hn : unentered nodes s ≤ n) :
    Achieves next path [a] s (visit next n a s) := by
  induction n generalizing a path s with
  | zero =>
      have hmem : a ∈ s.entered := Classical.byContradiction fun hne =>
        absurd (unentered_enter ha hne) (by omega)
      exact ⟨hs, List.Subset.refl _, List.cons_subset.2 ⟨hmem, List.nil_subset _⟩⟩
  | succ n ih =>
      unfold visit
      by_cases hmem : a ∈ s.entered
      · rw [if_pos (List.contains_iff_mem.2 hmem)]
        exact ⟨hs, List.Subset.refl _, List.cons_subset.2 ⟨hmem, List.nil_subset _⟩⟩
      · rw [if_neg (by simpa using hmem)]
        have hapath : a ∉ path := fun h => hmem ((hs.entered_iff a).2 (.inl h))
        have below := achieves_foldl nodes (next a)
          (fun b hb t ht hc => ih b (a :: path) t ht
            (by
              intro p hp
              rcases List.mem_cons.1 hp with rfl | hp
              · exact ReflTransGen.single hb
              · exact ReflTransGen.tail (hpath p hp) hb)
            (hnodes a ha b hb) hc) _ (hs.enter hmem)
          (Nat.le_of_lt_succ (Nat.lt_of_lt_of_le (unentered_enter ha hmem) hn))
        refine ⟨below.underway.leave hapath (fun b hb => below.enters hb) hpath, ?_, ?_⟩
        · exact fun b hb => below.grows (List.mem_cons_of_mem _ hb)
        · exact List.cons_subset.2 ⟨below.grows List.mem_cons_self, List.nil_subset _⟩

omit [LawfulBEq α] in
/-- A visit enters only nodes that its node leads to. -/
theorem leads_of_mem_visit (n : Nat) (a : α) (s : Search α) {b : α}
    (hb : b ∈ (visit next n a s).entered) : b ∈ s.entered ∨ Leads next a b := by
  induction n generalizing a s b with
  | zero => exact .inl hb
  | succ n ih =>
      unfold visit at hb
      split at hb
      · exact .inl hb
      · have fold : ∀ (bs : List α) (t : Search α),
            b ∈ (bs.foldl (fun s c => visit next n c s) t).entered →
              b ∈ t.entered ∨ ∃ c ∈ bs, Leads next c b := by
          intro bs
          induction bs with
          | nil => exact fun t h => .inl h
          | cons c bs ihb =>
              intro t h
              rcases ihb _ h with h | ⟨d, hd, hl⟩
              · exact (ih c t h).imp_right fun hl => ⟨c, List.mem_cons_self, hl⟩
              · exact .inr ⟨d, List.mem_cons_of_mem _ hd, hl⟩
        rcases fold _ _ hb with h | ⟨c, hc, hl⟩
        · rcases List.mem_cons.1 h with rfl | h
          · exact .inr ReflTransGen.refl
          · exact .inl h
        · exact .inr (ReflTransGen.head hc hl)

variable {bound : Nat} {roots : List α}

theorem achieves_visitAll (hnodes : ∀ a ∈ nodes, ∀ b ∈ next a, b ∈ nodes)
    (hbound : nodes.length ≤ bound) (hroots : roots ⊆ nodes) :
    Achieves next [] roots start (visitAll next bound roots) := by
  refine achieves_foldl nodes roots (fun b hb s hs hn => ?_) start
    (Underway.start next) (Nat.le_trans List.countP_le_length hbound)
  exact achieves_visit hnodes bound b [] s hs (fun p hp => absurd hp List.not_mem_nil)
    (hroots hb) hn

/-- A search enters exactly the nodes that one of its roots leads to. -/
theorem mem_entered_visitAll (hnodes : ∀ a ∈ nodes, ∀ b ∈ next a, b ∈ nodes)
    (hbound : nodes.length ≤ bound) (hroots : roots ⊆ nodes) {b : α} :
    b ∈ (visitAll next bound roots).entered ↔ ∃ r ∈ roots, Leads next r b := by
  have done := achieves_visitAll hnodes hbound hroots
  have entered_left : ∀ a, a ∈ (visitAll next bound roots).entered →
      a ∈ (visitAll next bound roots).left := fun a ha => by
    simpa using (done.underway.entered_iff a).1 ha
  constructor
  · -- nothing else is entered: by induction over the roots
    have fold : ∀ (rs : List α) (s : Search α),
        b ∈ (rs.foldl (fun s a => visit next bound a s) s).entered →
          b ∈ s.entered ∨ ∃ r ∈ rs, Leads next r b := by
      intro rs
      induction rs with
      | nil => exact fun s h => .inl h
      | cons r rs ih =>
          intro s h
          rcases ih _ h with h | ⟨q, hq, hl⟩
          · exact (leads_of_mem_visit bound r s h).imp_right fun hl =>
              ⟨r, List.mem_cons_self, hl⟩
          · exact .inr ⟨q, List.mem_cons_of_mem _ hq, hl⟩
    intro h
    exact (fold roots start h).resolve_left List.not_mem_nil
  · rintro ⟨r, hr, hl⟩
    induction hl with
    | refl => exact done.enters hr
    | tail _ hbc ih => exact done.underway.next_entered _ (entered_left _ ih) _ hbc

/-- The nodes that a search leaves are those that it enters, each once. -/
theorem mem_left_visitAll (hnodes : ∀ a ∈ nodes, ∀ b ∈ next a, b ∈ nodes)
    (hbound : nodes.length ≤ bound) (hroots : roots ⊆ nodes) {b : α} :
    b ∈ (visitAll next bound roots).left ↔ ∃ r ∈ roots, Leads next r b := by
  have done := achieves_visitAll hnodes hbound hroots
  rw [← mem_entered_visitAll hnodes hbound hroots, done.underway.entered_iff b]
  simp

theorem nodup_left_visitAll (hnodes : ∀ a ∈ nodes, ∀ b ∈ next a, b ∈ nodes)
    (hbound : nodes.length ≤ bound) (hroots : roots ⊆ nodes) :
    (visitAll next bound roots).left.Nodup :=
  (achieves_visitAll hnodes hbound hroots).underway.left_nodup

/-- If a node leads to another and not the other way around, then some node linked with the first
is left after the second. The list has the node left last in front. -/
theorem ordered_visitAll (hnodes : ∀ a ∈ nodes, ∀ b ∈ next a, b ∈ nodes)
    (hbound : nodes.length ≤ bound) (hroots : roots ⊆ nodes) {a b : α}
    (ha : a ∈ (visitAll next bound roots).left) (hab : Leads next a b)
    (hba : ¬ Leads next b a) :
    ∃ c, Linked next c a ∧ [c, b].Sublist (visitAll next bound roots).left := by
  have done := achieves_visitAll hnodes hbound hroots
  obtain ⟨r, hr, hra⟩ := (mem_left_visitAll hnodes hbound hroots).1 ha
  have hb := (mem_left_visitAll hnodes hbound hroots).2 ⟨r, hr, ReflTransGen.trans hra hab⟩
  rcases done.underway.ordered a ha b hb hab hba with ⟨p, hp, _⟩ | h
  · exact absurd hp List.not_mem_nil
  · exact h

end Visit

end Search

end ValueFlow
