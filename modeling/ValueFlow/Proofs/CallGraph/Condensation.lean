import Mathlib.Data.List.Induction
import Mathlib.Data.List.Perm.Basic
import Mathlib.Order.Bounds.Basic
import ValueFlow.Proofs.CallGraph.Components
/-!
The condensation of a call graph.

The components are the classes of functions that reach each other, each with the length of the
longest chain of calls through other components. Main statement: `isCondensation_components`.
-/

namespace ValueFlow

namespace CallGraph

open Relation (ReflTransGen TransGen)

open Search (Leads Linked)

/-- Whether one function may call another. -/
def Calls (g : CallGraph) (a b : Nat) : Prop := (a, b) ∈ g.edges

/-- Whether calls lead from one function to another. -/
def Reaches (g : CallGraph) : Nat → Nat → Prop := ReflTransGen g.Calls

/-- Whether all call sites lie in functions of the graph and call only such. -/
def Bounded (g : CallGraph) : Prop :=
  ∀ s ∈ g.sites.values, s.caller < g.functions.size ∧ ∀ t ∈ s.targets, t < g.functions.size

/-- Whether a function of one component may call a function of another one. -/
def Above (g : CallGraph) (c d : Component) : Prop :=
  c ≠ d ∧ ∃ a ∈ c.members, ∃ b ∈ d.members, g.Calls a b

/-- Whether a chain of a given length leads from a component through others that are called. -/
inductive Descends (g : CallGraph) : Component → Nat → Prop
  | here (c : Component) : Descends g c 0
  | step {c d : Component} {n : Nat} (hd : d ∈ g.components) (hcd : g.Above c d)
      (rest : Descends g d n) : Descends g c (n + 1)

/-- Whether components are a condensation of a graph, callees before callers. -/
structure IsCondensation (g : CallGraph) (cs : List Component) : Prop where
  partition : ∀ a < g.functions.size, ∃! i : Nat, ∃ c : Component,
    cs[i]? = some c ∧ a ∈ c.members
  linked : ∀ c ∈ cs, c.members ≠ [] ∧ ∀ a ∈ c.members, a < g.functions.size ∧
    ∀ b, b ∈ c.members ↔ g.Reaches a b ∧ g.Reaches b a
  sorted : ∀ c ∈ cs, c.members.Pairwise (· < ·)
  ordered : ∀ {i j : Nat} {c d : Component}, cs[i]? = some c → cs[j]? = some d → g.Above c d →
    j < i ∧ d.level < c.level
  longest : ∀ c ∈ cs, IsGreatest {n | g.Descends c n} c.level
  recursive : ∀ c ∈ cs, (c.recursive = true ↔ ∃ a ∈ c.members, TransGen g.Calls a a)
  /-- Each component is made of those in front of it, which hold all functions that it calls. -/
  found : ∀ {i : Nat} {c : Component}, cs[i]? = some c →
    c = componentOf g.edges.toList (cs.take i) c.members ∧
    ∀ a ∈ c.members, ∀ b ∉ c.members, g.Calls a b →
      ((cs.take i).find? fun d => d.members.contains b).isSome = true

/-- Whether levels list the positions of components, callees before callers. -/
structure ListsLevels (g : CallGraph) (cs : List Component) (levels : List (List Nat)) : Prop where
  perm : levels.flatten.Perm (List.range cs.length)
  apart : ∀ level ∈ levels, ∀ i ∈ level, ∀ j ∈ level, ∀ c d : Component, cs[i]? = some c →
    cs[j]? = some d → ¬ g.Above c d

variable {g : CallGraph} {a b : Nat} {c d : Component} {i : Nat}

theorem mem_successors_iff : b ∈ g.successors a ↔ g.Calls a b := mem_successors

theorem leads_iff : Leads g.successors a b ↔ g.Reaches a b := by
  have hrel : (fun a b => b ∈ g.successors a) = g.Calls := by
    funext a b
    exact propext mem_successors_iff
  rw [Leads, Reaches, hrel]

theorem Bounded.closed (h : g.Bounded) : g.Closed := by
  intro a b hb
  obtain ⟨s, hs, -, ht⟩ := mem_edges.1 (mem_successors.1 hb)
  exact (h s hs).2 b ht

theorem map_members_componentsOf (classes : List (List Nat)) :
    (g.componentsOf classes).map Component.members = classes := by
  induction classes using List.reverseRecOn with
  | nil => rfl
  | append_singleton pre members ih =>
      rw [componentsOf_append, List.map_append, ih]
      rfl

theorem nodup_components (g : CallGraph) : g.components.Nodup := by
  have hmembers := g.nodup_classes
  rw [← map_members_componentsOf (g := g) g.classes] at hmembers
  exact hmembers.of_map

theorem length_componentsOf (classes : List (List Nat)) :
    (g.componentsOf classes).length = classes.length := by
  rw [← List.length_map, map_members_componentsOf]

/-- Where a component stands, its members stand among the classes, and what is in front of it is
made of the classes in front. -/
theorem exists_split_of_getElem? (hc : g.components[i]? = some c) :
    ∃ pre post, g.classes = pre ++ c.members :: post ∧ pre.length = i ∧
      g.components.take i = g.componentsOf pre ∧
      c = componentOf g.edges.toList (g.componentsOf pre) c.members := by
  have hi : i < g.classes.length := by
    rw [← length_componentsOf (g := g)]
    exact (List.getElem?_eq_some_iff.1 hc).1
  have hsplit : g.classes = g.classes.take i ++ g.classes[i] :: g.classes.drop (i + 1) := by
    rw [← List.drop_eq_getElem_cons hi, List.take_append_drop]
  have hlen : (g.classes.take i).length = i := List.length_take_of_le (Nat.le_of_lt hi)
  have hgrows := g.componentsOf_grows (g.classes.take i ++ [g.classes[i]]) (g.classes.drop (i + 1))
  rw [List.append_assoc, List.singleton_append, ← hsplit, componentsOf_append] at hgrows
  obtain ⟨rest, hrest⟩ := hgrows
  have hcomponents : g.components = g.componentsOf (g.classes.take i) ++
      (componentOf g.edges.toList (g.componentsOf (g.classes.take i)) g.classes[i] :: rest) := by
    rw [← List.singleton_append, ← List.append_assoc]
    exact hrest.symm
  have hpre : (g.componentsOf (g.classes.take i)).length = i := by
    rw [length_componentsOf, hlen]
  have heq : c = componentOf g.edges.toList (g.componentsOf (g.classes.take i)) g.classes[i] := by
    rw [hcomponents, List.getElem?_append_right (Nat.le_of_eq hpre), hpre, Nat.sub_self,
      List.getElem?_cons_zero] at hc
    exact (Option.some.inj hc).symm
  have hmembers : c.members = g.classes[i] := by rw [heq, componentOf]
  refine ⟨g.classes.take i, g.classes.drop (i + 1), ?_, hlen, ?_, ?_⟩
  · rw [hmembers]
    exact hsplit
  · rw [hcomponents, List.take_left' hpre]
  · rw [hmembers]
    exact heq

theorem sorted_classOf (reach : Array (List Nat)) (function : Nat) :
    (classOf reach function).Pairwise (· < ·) := List.pairwise_lt_range.filter _

theorem foldl_max_eq_or_mem (l : List Nat) (n : Nat) :
    l.foldl max n = n ∨ l.foldl max n ∈ l := by
  induction l generalizing n with
  | nil => exact .inl rfl
  | cons x rest ih =>
      rw [List.foldl_cons]
      rcases ih (max n x) with h | h
      · rw [h]
        rcases Nat.le_total n x with hle | hle
        · exact .inr (by simp [Nat.max_eq_right hle])
        · exact .inl (Nat.max_eq_left hle)
      · exact .inr (List.mem_cons_of_mem _ h)

/-- A component is on level zero, or one of those in front that it calls is just below it. -/
theorem level_componentOf_cases (edges : List (Nat × Nat)) (below : List Component)
    (members : List Nat) : (componentOf edges below members).level = 0 ∨
      ∃ e ∈ edges, e.1 ∈ members ∧ e.2 ∉ members ∧
        ∃ d ∈ below, e.2 ∈ d.members ∧ (componentOf edges below members).level = d.level + 1 := by
  refine (foldl_max_eq_or_mem _ 0).imp_right fun hmem => ?_
  obtain ⟨e, he, hlevel⟩ := List.mem_filterMap.1 hmem
  obtain ⟨hedge, hfrom⟩ := List.mem_filter.1 he
  split at hlevel
  · cases hlevel
  · next hto =>
      obtain ⟨d, hd, heq⟩ := Option.map_eq_some_iff.1 hlevel
      have hfound := List.find?_some hd
      refine ⟨e, hedge, List.contains_iff_mem.1 hfrom, fun h => hto (List.contains_iff_mem.2 h), d,
        List.mem_of_find?_eq_some hd, List.contains_iff_mem.1 hfound, heq.symm⟩

section Closed

variable (h : g.Closed)
include h

theorem mem_members_iff (hc : c ∈ g.components) (ha : a ∈ c.members) :
    b ∈ c.members ↔ g.Reaches a b ∧ g.Reaches b a := by
  obtain ⟨pre, members, post, hsplit, rfl⟩ := exists_split hc
  obtain ⟨x, hx, rfl⟩ := (mem_classes h).1 (hsplit ▸ List.mem_append_right _ List.mem_cons_self)
  have hxa : Linked g.successors x a := (mem_classIn h hx).1 ha
  rw [← leads_iff, ← leads_iff]
  constructor
  · intro hb
    exact hxa.symm.trans ((mem_classIn h hx).1 hb)
  · intro hab
    exact (mem_classIn h hx).2 (hxa.trans hab)

theorem members_ne_nil (hc : c ∈ g.components) : c.members ≠ [] := by
  obtain ⟨pre, members, post, hsplit, rfl⟩ := exists_split hc
  obtain ⟨x, hx, rfl⟩ := (mem_classes h).1 (hsplit ▸ List.mem_append_right _ List.mem_cons_self)
  exact List.ne_nil_of_mem ((mem_classIn h hx).2 (Linked.refl _ _))

theorem sorted_members (hc : c ∈ g.components) : c.members.Pairwise (· < ·) := by
  obtain ⟨pre, members, post, hsplit, rfl⟩ := exists_split hc
  obtain ⟨x, hx, rfl⟩ := (mem_classes h).1 (hsplit ▸ List.mem_append_right _ List.mem_cons_self)
  exact sorted_classOf _ x

/-- What a component calls outside of itself was found in front of it. -/
theorem find?_of_calls (hc : g.components[i]? = some c) (ha : a ∈ c.members) (hb : b ∉ c.members)
    (hab : g.Calls a b) :
    ((g.components.take i).find? fun d => d.members.contains b).isSome = true := by
  obtain ⟨pre, post, hsplit, -, htake, -⟩ := exists_split_of_getElem? hc
  have hpre := mem_pre_of_edge h hsplit ha (mem_successors_iff.2 hab) hb
  obtain ⟨p, q, rfl⟩ := List.append_of_mem hpre
  rw [htake, List.find?_isSome]
  refine ⟨_, componentOf_mem rfl, List.contains_iff_mem.2 ?_⟩
  exact (mem_classIn h (h a b (mem_successors_iff.2 hab))).2 (Linked.refl _ _)

theorem ordered_of_above {j : Nat} (hc : g.components[i]? = some c)
    (hd : g.components[j]? = some d) (hcd : g.Above c d) : j < i ∧ d.level < c.level := by
  obtain ⟨hne, a, ha, b, hb, hab⟩ := hcd
  have hcm := List.mem_of_getElem? hc
  have hdm := List.mem_of_getElem? hd
  have hbc : b ∉ c.members := fun hbc => hne (component_unique h hcm hdm hbc hb)
  obtain ⟨d', hd'⟩ := Option.isSome_iff_exists.1 (find?_of_calls h hc ha hbc hab)
  have hmem := List.mem_of_find?_eq_some hd'
  have hcontains := List.find?_some hd'
  have heq : d' = d := component_unique h (List.mem_of_mem_take hmem) hdm
    (List.contains_iff_mem.1 hcontains) hb
  subst heq
  obtain ⟨k, hk⟩ := List.mem_iff_getElem?.1 hmem
  have hki : k < i := by
    have hlt := (List.getElem?_eq_some_iff.1 hk).1
    rw [List.length_take] at hlt
    omega
  rw [List.getElem?_take_of_lt hki] at hk
  have hjk : j = k :=
     (List.getElem?_inj (List.getElem?_eq_some_iff.1 hd).1 g.nodup_components).1
      (hd.trans hk.symm)
  refine ⟨hjk ▸ hki, ?_⟩
  obtain ⟨pre, post, hsplit, -, htake, hmade⟩ := exists_split_of_getElem? hc
  rw [hmade]
  rw [htake] at hd'
  exact level_lt_of_outgoing hab ha hbc hd'

theorem level_le_of_descends {n : Nat} (hc : c ∈ g.components) (hn : g.Descends c n) :
    n ≤ c.level := by
  induction hn with
  | here c => exact Nat.zero_le _
  | @step c d n hd hcd _ ih =>
      obtain ⟨i, hi⟩ := List.mem_iff_getElem?.1 hc
      obtain ⟨j, hj⟩ := List.mem_iff_getElem?.1 hd
      have hlt := (ordered_of_above h hi hj hcd).2
      have hle := ih hd
      omega

theorem descends_level (hc : g.components[i]? = some c) : g.Descends c c.level := by
  induction i using Nat.strongRecOn generalizing c with
  | ind i ih =>
      obtain ⟨pre, post, hsplit, -, htake, hmade⟩ := exists_split_of_getElem? hc
      rcases level_componentOf_cases g.edges.toList (g.componentsOf pre) c.members with
        hzero | ⟨e, he, hfrom, hto, d, hd, hin, hlevel⟩
      · rw [← hmade] at hzero
        rw [hzero]
        exact .here c
      · rw [← hmade] at hlevel
        rw [← htake] at hd
        have hdm := List.mem_of_mem_take hd
        obtain ⟨j, hj⟩ := List.mem_iff_getElem?.1 hdm
        have habove : g.Above c d := by
          refine ⟨?_, e.1, hfrom, e.2, hin, he⟩
          rintro rfl
          exact hto hin
        rw [hlevel]
        exact .step hdm habove (ih j (ordered_of_above h hc hj habove).1 hj)

/-- A component is recursive when a call leads from a member back to it. -/
theorem recursive_iff (hc : c ∈ g.components) :
    c.recursive = true ↔ ∃ a ∈ c.members, TransGen g.Calls a a := by
  constructor
  · intro hrec
    have hsorted := sorted_members h hc
    obtain ⟨i, hi⟩ := List.mem_iff_getElem?.1 hc
    obtain ⟨pre, post, -, -, -, hmade⟩ := exists_split_of_getElem? hi
    rw [hmade, componentOf, Bool.or_eq_true, decide_eq_true_eq, List.any_eq_true] at hrec
    rcases hrec with hlen | ⟨e, he, hself⟩
    · rcases hm : c.members with _ | ⟨a, _ | ⟨b, rest⟩⟩
      · rw [hm] at hlen
        cases hlen
      · rw [hm] at hlen
        exact absurd hlen (Nat.lt_irrefl 1)
      · have ha : a ∈ c.members := hm ▸ List.mem_cons_self
        have hb : b ∈ c.members := hm ▸ List.mem_cons_of_mem _ List.mem_cons_self
        have hne : a ≠ b := by
          rw [hm] at hsorted
          exact Nat.ne_of_lt ((List.pairwise_cons.1 hsorted).1 b List.mem_cons_self)
        obtain ⟨hab, hba⟩ := (mem_members_iff h hc ha).1 hb
        rcases Relation.reflTransGen_iff_eq_or_transGen.1 hab with heq | hab
        · exact absurd heq.symm hne
        · exact ⟨a, List.mem_cons_self, hab.trans_left hba⟩
    · obtain ⟨hedge, hfrom⟩ := List.mem_filter.1 he
      have heq : e.1 = e.2 := of_decide_eq_true hself
      refine ⟨e.1, List.contains_iff_mem.1 hfrom, TransGen.single ?_⟩
      obtain ⟨x, y⟩ := e
      cases heq
      exact hedge
  · rintro ⟨a, ha, hcycle⟩
    obtain ⟨b, hab, hba⟩ := TransGen.head'_iff.1 hcycle
    have hb : b ∈ c.members := (mem_members_iff h hc ha).2 ⟨ReflTransGen.single hab, hba⟩
    obtain ⟨i, hi⟩ := List.mem_iff_getElem?.1 hc
    obtain ⟨pre, post, -, -, -, hmade⟩ := exists_split_of_getElem? hi
    rw [hmade]
    exact recursive_of_edge hab ha hb

theorem isCondensation_components : g.IsCondensation g.components where
  partition := by
    intro a ha
    obtain ⟨c, hc, hac⟩ := exists_component h ha
    obtain ⟨i, hi⟩ := List.mem_iff_getElem?.1 hc
    refine ⟨i, ⟨c, hi, hac⟩, ?_⟩
    rintro j ⟨d, hj, had⟩
    have heq := component_unique h (List.mem_of_getElem? hj) hc had hac
    subst heq
    exact (List.getElem?_inj (List.getElem?_eq_some_iff.1 hj).1 g.nodup_components).1
      (hj.trans hi.symm)
  linked := by
    intro c hc
    refine ⟨members_ne_nil h hc, fun a ha => ⟨mem_lt_of_mem_components h hc ha, fun b => ?_⟩⟩
    exact mem_members_iff h hc ha
  sorted c hc := sorted_members h hc
  ordered := ordered_of_above h
  longest := by
    intro c hc
    obtain ⟨i, hi⟩ := List.mem_iff_getElem?.1 hc
    exact ⟨descends_level h hi, fun n hn => level_le_of_descends h hc hn⟩
  recursive c hc := recursive_iff h hc
  found := by
    intro i c hc
    refine ⟨?_, fun a ha b hb hab => find?_of_calls h hc ha hb hab⟩
    obtain ⟨pre, post, -, -, htake, hmade⟩ := exists_split_of_getElem? hc
    rw [htake]
    exact hmade

end Closed

theorem mem_atLevel_iff {cs : List Component} {level : Nat} :
    i ∈ Component.atLevel cs level ↔ ∃ c, cs[i]? = some c ∧ c.level = level := by
  constructor
  · intro hi
    obtain ⟨⟨c, j⟩, hp, rfl⟩ := List.mem_map.1 hi
    obtain ⟨hp, hlevel⟩ := List.mem_filter.1 hp
    exact ⟨c, List.mk_mem_zipIdx_iff_getElem?.1 hp, of_decide_eq_true hlevel⟩
  · rintro ⟨c, hc, hlevel⟩
    exact List.mem_map.2 ⟨(c, i), List.mem_filter.2
      ⟨List.mk_mem_zipIdx_iff_getElem?.2 hc, decide_eq_true hlevel⟩, rfl⟩

theorem nodup_atLevel (cs : List Component) (level : Nat) : (Component.atLevel cs level).Nodup := by
  have hsub : (Component.atLevel cs level).Sublist (cs.zipIdx.map Prod.snd) :=
    List.filter_sublist.map _
  rw [List.zipIdx_map_snd] at hsub
  exact hsub.nodup (List.nodup_range' ..)

/-- Every position stands on the level of its component and on no other. -/
theorem perm_flatten_levels (cs : List Component) :
    (Component.levels cs).flatten.Perm (List.range cs.length) := by
  refine (List.perm_ext_iff_of_nodup ?_ List.nodup_range).2 fun i => ?_
  · rw [Component.levels_eq, List.nodup_flatten]
    constructor
    · intro level hlevel
      obtain ⟨k, -, rfl⟩ := List.mem_map.1 hlevel
      exact nodup_atLevel cs k
    · rw [List.pairwise_map]
      refine List.nodup_range.imp fun {k l} hkl i hk hl => hkl ?_
      obtain ⟨c, hc, rfl⟩ := mem_atLevel_iff.1 hk
      obtain ⟨d, hd, rfl⟩ := mem_atLevel_iff.1 hl
      cases hc.symm.trans hd
      rfl
  · rw [Component.levels_eq, List.mem_flatten, List.mem_range]
    constructor
    · rintro ⟨level, hlevel, hi⟩
      obtain ⟨k, -, rfl⟩ := List.mem_map.1 hlevel
      obtain ⟨c, hc, -⟩ := mem_atLevel_iff.1 hi
      exact (List.getElem?_eq_some_iff.1 hc).1
    · intro hi
      have hc := List.getElem?_eq_getElem hi
      refine ⟨_, List.mem_map_of_mem (List.mem_range.2 (Component.level_lt_depth
        (List.mem_of_getElem? hc))), mem_atLevel_iff.2 ⟨_, hc, rfl⟩⟩

theorem listsLevels_levels (h : g.Closed) :
    g.ListsLevels g.components (Component.levels g.components) where
  perm := perm_flatten_levels _
  apart := by
    intro level hlevel i hi j hj c d hc hd hcd
    rw [Component.levels_eq] at hlevel
    obtain ⟨k, -, rfl⟩ := List.mem_map.1 hlevel
    obtain ⟨c', hc', hck⟩ := mem_atLevel_iff.1 hi
    obtain ⟨d', hd', hdk⟩ := mem_atLevel_iff.1 hj
    cases hc.symm.trans hc'
    cases hd.symm.trans hd'
    have hlt := (ordered_of_above h hc hd hcd).2
    omega

end CallGraph

end ValueFlow
