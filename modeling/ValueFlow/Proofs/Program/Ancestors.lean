import Mathlib.Data.List.Nodup
import Mathlib.Logic.Relation
import ValueFlow.Program.ClassTable
/-!
The order in which the bases of a class are met.

The order is that of a recursive search, which visits classes one after the other, each followed at
once by its bases. The loop keeps the bases in front of the classes that are still pending, so what
it does with them is what the search does. Main statement: `ancestors_depthFirst`.
-/

namespace ValueFlow

namespace ClassTable

open Relation (ReflTransGen)

/-- A recursive search visits some classes one after the other, each followed by its bases. Classes
that were visited before and classes that the program does not define are passed over. The last two
lists are the classes visited before and after it, in the order of the visits. -/
inductive Visits (t : ClassTable) : List String → List String → List String → Prop
  | nil {met} : Visits t [] met met
  | undefined {c rest met after} (hc : t.class? c = none) (hrest : Visits t rest met after) :
      Visits t (c :: rest) met after
  | again {c rest met after} (hmet : c ∈ met) (hrest : Visits t rest met after) :
      Visits t (c :: rest) met after
  | enter {c info rest met below after} (hc : t.class? c = some info) (hmet : c ∉ met)
      (hbases : Visits t info.bases (met ++ [c]) below) (hrest : Visits t rest below after) :
      Visits t (c :: rest) met after

/-- A class of the program names another as one of its bases. -/
def HasBase (t : ClassTable) (c d : String) : Prop := ∃ info, t.class? c = some info ∧ d ∈ info.bases

variable {t : ClassTable} {c d : String} {names rest met after : List String} {info : ClassInfo}

theorem contains_iff : t.contains c = true ↔ ∃ info, t.class? c = some info :=
  Option.isSome_iff_exists

theorem climb_nil (met : List String) : t.climb [] met = met := by rw [climb]

theorem climb_undefined (hc : t.class? c = none) (rest met : List String) :
    t.climb (c :: rest) met = t.climb rest met := by
  rw [climb]
  split
  · rfl
  · next h => cases hc.symm.trans h

theorem climb_again (hmet : c ∈ met) (rest : List String) :
    t.climb (c :: rest) met = t.climb rest met := by
  rw [climb]
  split
  · rfl
  · rw [dif_pos hmet]

theorem climb_enter (hc : t.class? c = some info) (hmet : c ∉ met) (rest : List String) :
    t.climb (c :: rest) met = t.climb (info.bases ++ rest) (c :: met) := by
  rw [climb]
  split
  · next h => cases hc.symm.trans h
  · next h =>
      cases hc.symm.trans h
      rw [dif_neg hmet]

namespace Visits

/-- A search goes through the classes in front of a list, then through the others. -/
theorem split (h : t.Visits (names ++ rest) met after) :
    ∃ between, t.Visits names met between ∧ t.Visits rest between after := by
  generalize heq : names ++ rest = all at h
  induction h generalizing names with
  | nil =>
      obtain ⟨rfl, rfl⟩ := List.append_eq_nil_iff.1 heq
      exact ⟨_, .nil, .nil⟩
  | undefined hc hrest ih =>
      rcases List.append_eq_cons_iff.1 heq with ⟨rfl, rfl⟩ | ⟨names, rfl, rfl⟩
      · exact ⟨_, .nil, .undefined hc hrest⟩
      · obtain ⟨between, hnames, hafter⟩ := ih rfl
        exact ⟨between, .undefined hc hnames, hafter⟩
  | again hmet hrest ih =>
      rcases List.append_eq_cons_iff.1 heq with ⟨rfl, rfl⟩ | ⟨names, rfl, rfl⟩
      · exact ⟨_, .nil, .again hmet hrest⟩
      · obtain ⟨between, hnames, hafter⟩ := ih rfl
        exact ⟨between, .again hmet hnames, hafter⟩
  | enter hc hmet hbases hrest _ ih =>
      rcases List.append_eq_cons_iff.1 heq with ⟨rfl, rfl⟩ | ⟨names, rfl, rfl⟩
      · exact ⟨_, .nil, .enter hc hmet hbases hrest⟩
      · obtain ⟨between, hnames, hafter⟩ := ih rfl
        exact ⟨between, .enter hc hmet hbases hnames, hafter⟩

/-- What the search does with some classes, the loop does before it comes to those behind them. -/
theorem climb (h : t.Visits names met after) (pending : List String) :
    t.climb (names ++ pending) met.reverse = t.climb pending after.reverse := by
  induction h generalizing pending with
  | nil => rfl
  | undefined hc _ ih => rw [List.cons_append, climb_undefined hc, ih]
  | again hmet _ ih => rw [List.cons_append, climb_again (List.mem_reverse.2 hmet), ih]
  | enter hc hmet _ _ ihbases ihrest =>
      rw [List.cons_append, climb_enter hc (mt List.mem_reverse.1 hmet), ← List.reverse_concat,
        ihbases, ihrest]

theorem subset (h : t.Visits names met after) : met ⊆ after := by
  induction h with
  | nil => exact List.Subset.refl _
  | undefined _ _ ih | again _ _ ih => exact ih
  | enter _ _ _ _ ihbases ihrest =>
      exact fun a ha => ihrest (ihbases (List.mem_append_left _ ha))

theorem nodup (h : t.Visits names met after) (hmet : met.Nodup) : after.Nodup := by
  induction h with
  | nil => exact hmet
  | undefined _ _ ih | again _ _ ih => exact ih hmet
  | enter _ hnew _ _ ihbases ihrest =>
      refine ihrest (ihbases (List.nodup_append.2 ⟨hmet, List.nodup_singleton _, ?_⟩))
      rintro a ha b hb rfl
      exact hnew (List.mem_singleton.1 hb ▸ ha)

/-- Only classes of the program are visited, and only such as some name leads to. -/
theorem leads (h : t.Visits names met after) (hd : d ∈ after) :
    d ∈ met ∨ t.contains d = true ∧ ∃ n ∈ names, ReflTransGen t.HasBase n d := by
  induction h with
  | nil => exact .inl hd
  | undefined _ _ ih | again _ _ ih =>
      exact (ih hd).imp_right fun ⟨hdef, n, hn, h⟩ => ⟨hdef, n, List.mem_cons_of_mem _ hn, h⟩
  | @enter c info _ _ _ _ hc _ _ _ ihbases ihrest =>
      rcases ihrest hd with hbelow | ⟨hdef, n, hn, h⟩
      · rcases ihbases hbelow with hmet | ⟨hdef, b, hb, h⟩
        · rcases List.mem_append.1 hmet with hmet | hself
          · exact .inl hmet
          · cases List.mem_singleton.1 hself
            exact .inr ⟨contains_iff.2 ⟨info, hc⟩, _, List.mem_cons_self, .refl⟩
        · exact .inr ⟨hdef, c, List.mem_cons_self, .head ⟨info, hc, hb⟩ h⟩
      · exact .inr ⟨hdef, n, List.mem_cons_of_mem _ hn, h⟩

theorem mem_of_mem (h : t.Visits names met after) (hc : c ∈ names) (hdef : t.contains c = true) :
    c ∈ after := by
  induction h with
  | nil => cases hc
  | undefined hnone _ ih =>
      rcases List.mem_cons.1 hc with rfl | hc
      · obtain ⟨info, hsome⟩ := contains_iff.1 hdef
        cases hnone.symm.trans hsome
      · exact ih hc
  | again hmet hrest ih =>
      rcases List.mem_cons.1 hc with rfl | hc
      · exact hrest.subset hmet
      · exact ih hc
  | enter _ _ hbases hrest _ ihrest =>
      rcases List.mem_cons.1 hc with rfl | hc
      · exact hrest.subset (hbases.subset (List.mem_append_right _ List.mem_cons_self))
      · exact ihrest hc

/-- A class is visited with its bases. -/
theorem mem_of_hasBase (h : t.Visits names met after) (hc : c ∈ after) (hnew : c ∉ met)
    (hbase : t.HasBase c d) (hdef : t.contains d = true) : d ∈ after := by
  induction h with
  | nil => exact absurd hc hnew
  | undefined _ _ ih | again _ _ ih => exact ih hc hnew
  | @enter e info _ met below _ he _ hbases hrest ihbases ihrest =>
      by_cases hbelow : c ∈ below
      · by_cases hself : c = e
        · obtain ⟨info', hinfo, hd⟩ := hbase
          subst hself
          cases he.symm.trans hinfo
          exact hrest.subset (hbases.mem_of_mem hd hdef)
        · refine hrest.subset (ihbases hbelow fun hmem => ?_)
          rcases List.mem_append.1 hmem with hmem | hmem
          · exact hnew hmem
          · exact hself (List.mem_singleton.1 hmem)
      · exact ihrest hc hbelow

end Visits

/-- The search comes to an end, and the loop gives its result. -/
theorem visits_climb (t : ClassTable) (names met : List String) :
    t.Visits names met.reverse (t.climb names met).reverse := by
  induction names, met using climb.induct t with
  | case1 met =>
      rw [climb_nil]
      exact .nil
  | case2 met c rest hc ih =>
      rw [climb_undefined hc]
      exact .undefined hc ih
  | case3 met c rest info hc hmet ih =>
      rw [climb_again hmet]
      exact .again (List.mem_reverse.2 hmet) ih
  | case4 met c rest info hc hmet ih =>
      rw [climb_enter hc hmet]
      obtain ⟨below, hbases, hrest⟩ := ih.split
      rw [List.reverse_cons] at hbases
      exact .enter hc (mt List.mem_reverse.1 hmet) hbases hrest

theorem visits_iff : t.Visits names met after ↔ after = (t.climb names met.reverse).reverse := by
  constructor
  · intro h
    have hclimb := h.climb []
    rw [List.append_nil, climb_nil] at hclimb
    rw [hclimb, List.reverse_reverse]
  · rintro rfl
    have h := t.visits_climb names met.reverse
    rwa [List.reverse_reverse] at h

theorem visits_ancestors (t : ClassTable) (c : String) : t.Visits [c] [] (t.ancestors c) :=
  visits_iff.2 rfl

theorem mem_ancestors_iff :
    d ∈ t.ancestors c ↔ t.contains d = true ∧ ReflTransGen t.HasBase c d := by
  have hvisits := t.visits_ancestors c
  constructor
  · intro hd
    obtain ⟨hdef, n, hn, h⟩ := (hvisits.leads hd).resolve_left List.not_mem_nil
    exact ⟨hdef, List.mem_singleton.1 hn ▸ h⟩
  · rintro ⟨hdef, h⟩
    induction h with
    | refl => exact hvisits.mem_of_mem List.mem_cons_self hdef
    | tail _ hbase ih =>
        obtain ⟨info, hinfo, -⟩ := id hbase
        exact hvisits.mem_of_hasBase (ih (contains_iff.2 ⟨info, hinfo⟩)) List.not_mem_nil hbase hdef

/-- The ancestors of a class are those that a recursive search from it visits, in its order: depth
first, the bases of a class from left to right, without undefined classes and without repetitions.
They are the classes of the program that the class leads to through base lists. A method is looked
up in the first of them that defines it. -/
theorem ancestors_depthFirst (t : ClassTable) (c : String) :
    (∀ order, t.Visits [c] [] order ↔ order = t.ancestors c) ∧ (t.ancestors c).Nodup ∧
    (∀ d, d ∈ t.ancestors c ↔ t.contains d = true ∧ ReflTransGen t.HasBase c d) ∧
    ∀ method, (∀ f, t.lookup? c method = some f ↔ ∃ before d after,
        t.ancestors c = before ++ d :: after ∧ t.ownMethod? d method = some f ∧
        ∀ e ∈ before, t.ownMethod? e method = none) ∧
      (t.lookup? c method = none ↔ ∀ d ∈ t.ancestors c, t.ownMethod? d method = none) :=
  ⟨fun _ => visits_iff, (t.visits_ancestors c).nodup List.nodup_nil, fun _ => mem_ancestors_iff,
    fun _ => ⟨fun _ => List.findSome?_eq_some_iff, List.findSome?_eq_none_iff⟩⟩

end ClassTable

end ValueFlow
