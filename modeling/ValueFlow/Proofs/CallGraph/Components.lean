import Mathlib.Data.List.Nodup
import ValueFlow.CallGraph.Component
import ValueFlow.Proofs.Maps
import ValueFlow.Proofs.Search
/-!
Components of a call graph stand after the components that they call.

Every function lies in a component. A call leads to a function of the same component, which is
recursive then, or to a component on a lower level (`exists_lower`).
-/

namespace ValueFlow

namespace CallGraph

open Search (Leads Linked)

variable {g : CallGraph} {a b c : Nat}

theorem mem_values {s : CallSite} : s ∈ g.sites.values ↔ ∃ node, g.site? node = some s := by
  rw [SortedMap.values, List.mem_map]
  constructor
  · rintro ⟨⟨node, t⟩, ht, rfl⟩
    exact ⟨node, SortedMap.get?_eq_some_iff.2 ht⟩
  · rintro ⟨node, h⟩
    exact ⟨(node, s), SortedMap.get?_eq_some_iff.1 h, rfl⟩

theorem mem_edges : (a, b) ∈ g.edges ↔ ∃ s ∈ g.sites.values, s.caller = a ∧ b ∈ s.targets := by
  rw [edges, SortedSet.mem_ofList, List.mem_flatMap]
  constructor
  · rintro ⟨s, hs, h⟩
    obtain ⟨t, ht, he⟩ := List.mem_map.1 h
    cases he
    exact ⟨s, hs, rfl, ht⟩
  · rintro ⟨s, hs, rfl, hb⟩
    exact ⟨s, hs, List.mem_map_of_mem hb⟩

theorem mem_callees : b ∈ g.callees a ↔ ∃ s ∈ g.sites.values, s.caller = a ∧ b ∈ s.targets := by
  have fold : ∀ (l : List CallSite) (acc : SortedSet Nat),
      b ∈ l.foldl (fun acc s => if s.caller = a then acc.union s.targets else acc) acc ↔
        b ∈ acc ∨ ∃ s ∈ l, s.caller = a ∧ b ∈ s.targets := by
    intro l
    induction l with
    | nil => simp
    | cons s rest ih =>
        intro acc
        rw [List.foldl_cons, ih]
        by_cases hs : s.caller = a
        · rw [if_pos hs, SortedSet.mem_union]
          simp [hs, or_assoc]
        · rw [if_neg hs]
          simp [hs]
  rw [callees, fold]
  exact or_iff_right SortedSet.not_mem_empty

theorem mem_successors : b ∈ g.successors a ↔ (a, b) ∈ g.edges := by
  rw [successors, List.mem_reverse, mem_edges]
  exact mem_callees

/-- Whether calls reach only numbers of functions. -/
def Closed (g : CallGraph) : Prop := ∀ a, ∀ b ∈ g.successors a, b < g.functions.size

/-- The members of the component of a function. -/
def classIn (g : CallGraph) (function : Nat) : List Nat :=
  classOf ((List.range g.functions.size).map g.reachable).toArray function

section Classes

variable (h : g.Closed)
include h

theorem Closed.range : ∀ a ∈ List.range g.functions.size, ∀ b ∈ g.successors a,
    b ∈ List.range g.functions.size :=
  fun a _ b hb => List.mem_range.2 (h a b hb)

theorem mem_reachable (ha : a < g.functions.size) : b ∈ g.reachable a ↔ Leads g.successors a b := by
  rw [reachable, Search.mem_entered_visitAll h.range (Nat.le_of_eq List.length_range)
    fun x hx => List.mem_singleton.1 hx ▸ List.mem_range.2 ha]
  simp

theorem lt_of_leads (ha : a < g.functions.size) (hab : Leads g.successors a b) :
    b < g.functions.size := by
  induction hab with
  | refl => exact ha
  | tail _ hbc _ => exact h _ _ hbc

/-- A component holds the functions that are linked with each other. -/
theorem mem_classIn (ha : a < g.functions.size) :
    b ∈ g.classIn a ↔ Linked g.successors a b := by
  have reach : ∀ x < g.functions.size,
      ((List.range g.functions.size).map g.reachable).toArray.getD x [] = g.reachable x := by
    intro x hx
    rw [Array.getD_eq_getD_getElem?, List.getElem?_toArray, List.getElem?_map,
      List.getElem?_range hx]
    rfl
  rw [classIn, classOf, List.mem_filter, List.mem_range, List.size_toArray, List.length_map,
    List.length_range, Bool.and_eq_true, List.contains_iff_mem, List.contains_iff_mem, reach a ha,
    mem_reachable h ha]
  constructor
  · rintro ⟨hb, hab, hba⟩
    rw [reach b hb, mem_reachable h hb] at hba
    exact ⟨hab, hba⟩
  · rintro ⟨hab, hba⟩
    have hb := lt_of_leads h ha hab
    rw [reach b hb, mem_reachable h hb]
    exact ⟨hb, hab, hba⟩

theorem classIn_eq_of_linked (ha : a < g.functions.size) (hab : Linked g.successors a b) :
    g.classIn a = g.classIn b := by
  have hb := lt_of_leads h ha hab.1
  have same : ∀ x, x ∈ g.classIn a ↔ x ∈ g.classIn b := fun x => by
    rw [mem_classIn h ha, mem_classIn h hb]
    exact ⟨hab.symm.trans, hab.trans⟩
  refine List.filter_congr fun x hx => Bool.eq_iff_iff.2 ?_
  have hsame := same x
  rw [classIn, classIn, classOf, classOf, List.mem_filter, List.mem_filter] at hsame
  exact ⟨fun hp => (hsame.1 ⟨hx, hp⟩).2, fun hp => (hsame.2 ⟨hx, hp⟩).2⟩

/-- The functions in the order in which the search left them, the last one first. -/
abbrev order (g : CallGraph) : List Nat :=
  (Search.visitAll g.successors g.functions.size (List.range g.functions.size)).left

theorem mem_order : a ∈ g.order ↔ a < g.functions.size := by
  rw [Search.mem_left_visitAll h.range (Nat.le_of_eq List.length_range) (List.Subset.refl _)]
  constructor
  · rintro ⟨r, hr, hra⟩
    exact lt_of_leads h (List.mem_range.1 hr) hra
  · exact fun ha => ⟨a, List.mem_range.2 ha, Relation.ReflTransGen.refl⟩

end Classes

theorem classes_eq (g : CallGraph) : g.classes = (g.order.map g.classIn).eraseDups.reverse := rfl

/-- Erasing repetitions keeps the order of first occurrences. -/
theorem mem_before_of_eraseDups {α : Type} [BEq α] [LawfulBEq α] {x y : α} {l pre post : List α}
    (h : [x, y].Sublist l.eraseDups) (hl : l = pre ++ y :: post) : x ∈ pre := by
  induction hn : l.length using Nat.strongRecOn generalizing l pre post with
  | ind n ih =>
      cases l with
      | nil => cases h
      | cons a rest =>
          rw [List.eraseDups_cons] at h
          have differs : ∀ {z}, z ∈ (rest.filter fun b => !b == a).eraseDups → z ≠ a :=
            fun hz he => by simp [he] at hz
          have hy : y ≠ a ∧ (x = a ∨ [x, y].Sublist (rest.filter fun b => !b == a).eraseDups) := by
            cases h with
            | cons _ h => exact ⟨differs (h.subset (by simp)), .inr h⟩
            | cons_cons _ h => exact ⟨differs (h.subset List.mem_cons_self), .inl rfl⟩
          cases pre with
          | nil => exact absurd (List.cons.inj hl).1.symm hy.1
          | cons p pre =>
              have hrest : rest = pre ++ y :: post := (List.cons.inj hl).2
              cases (List.cons.inj hl).1
              rcases hy.2 with rfl | hsub
              · exact List.mem_cons_self
              · have hfilter : rest.filter (fun b => !b == a) =
                    pre.filter (fun b => !b == a) ++ y :: post.filter (fun b => !b == a) := by
                  rw [hrest, List.filter_append, List.filter_cons_of_pos (by simp [hy.1])]
                have hlen : (rest.filter fun b => !b == a).length < n := by
                  rw [← hn]
                  exact Nat.lt_succ_of_le (List.length_filter_le _ _)
                have hx := ih _ hlen hsub hfilter rfl
                exact List.mem_cons_of_mem _ (List.mem_filter.1 hx).1

/-- In a list without repetition, what comes before an element is in front of it. -/
theorem mem_left_of_sublist {α : Type} {x y : α} {l l₁ l₂ : List α} (hl : l = l₁ ++ y :: l₂)
    (hnodup : l.Nodup) (hsub : [x, y].Sublist l) : x ∈ l₁ := by
  obtain ⟨r₁, r₂, rfl, hx, hy⟩ := List.cons_sublist_iff.1 hsub
  have hyr : y ∉ r₁ := fun hyr =>
    (List.nodup_append.1 hnodup).2.2 y hyr y (List.singleton_sublist.1 hy) rfl
  rcases List.append_eq_append_iff.1 hl with ⟨t, rfl, -⟩ | ⟨t, rfl, ht⟩
  · exact List.mem_append_left _ hx
  · cases t with
    | nil => rwa [List.append_nil] at hx
    | cons z t =>
        cases (List.cons.inj ht).1
        exact absurd (List.mem_append_right _ List.mem_cons_self) hyr

section Order

variable (h : g.Closed)
include h

theorem mem_classes {members : List Nat} :
    members ∈ g.classes ↔ ∃ x < g.functions.size, g.classIn x = members := by
  rw [classes_eq, List.mem_reverse, List.mem_eraseDups, List.mem_map]
  constructor
  · rintro ⟨x, hx, rfl⟩
    exact ⟨x, (mem_order h).1 hx, rfl⟩
  · rintro ⟨x, hx, rfl⟩
    exact ⟨x, (mem_order h).2 hx, rfl⟩

/-- Where one function leads to another and not the other way around, a function of the first's
component was left after the other. -/
theorem exists_before {l₁ l₂ : List Nat} (ha : a < g.functions.size)
    (horder : g.order = l₁ ++ b :: l₂) (hab : Leads g.successors a b)
    (hba : ¬ Leads g.successors b a) : ∃ c ∈ l₁, g.classIn c = g.classIn a := by
  have hbound := Nat.le_of_eq (List.length_range (n := g.functions.size))
  obtain ⟨c, hca, hsub⟩ := Search.ordered_visitAll h.range hbound (List.Subset.refl _)
    ((mem_order h).2 ha) hab hba
  refine ⟨c, mem_left_of_sublist horder
    (Search.nodup_left_visitAll h.range hbound (List.Subset.refl _)) hsub, ?_⟩
  exact classIn_eq_of_linked h ((mem_order h).1 (hsub.subset List.mem_cons_self)) hca

/-- What a component calls stands in front of it. -/
theorem mem_pre_of_edge {pre post : List (List Nat)} {members : List Nat}
    (hc : g.classes = pre ++ members :: post) (ha : a ∈ members) (hab : b ∈ g.successors a)
    (hb : b ∉ members) : g.classIn b ∈ pre := by
  obtain ⟨x, hx, rfl⟩ := (mem_classes h).1 (hc ▸ List.mem_append_right _ List.mem_cons_self)
  have hxa := (mem_classIn h hx).1 ha
  have halt := lt_of_leads h hx hxa.1
  have hblt := h a b hab
  have hne : g.classIn b ≠ g.classIn x := fun he =>
    hb (he ▸ (mem_classIn h hblt).2 (Linked.refl _ _))
  have hmembers := (mem_classes h).2 ⟨b, hblt, rfl⟩
  rw [hc, List.mem_append, List.mem_cons] at hmembers
  refine hmembers.resolve_right fun hrest => ?_
  have hsub : [g.classIn b, g.classIn x].Sublist (g.order.map g.classIn).eraseDups := by
    rw [classes_eq, List.reverse_eq_iff] at hc
    rw [hc, List.reverse_append, List.reverse_cons, List.append_assoc]
    exact (List.singleton_sublist.2 (List.mem_reverse.2 (hrest.resolve_left hne))).append
      (List.singleton_sublist.2 List.mem_cons_self)
  obtain ⟨before, after, hsplit, hfirst⟩ := List.eq_append_cons_of_mem
    (List.mem_map_of_mem (f := g.classIn) ((mem_order h).2 hblt))
  obtain ⟨l₁, l₂, horder, rfl, hl₂⟩ := List.map_eq_append_iff.1 hsplit
  obtain ⟨y, l₂, rfl, hy, -⟩ := List.map_eq_cons_iff.1 hl₂
  have hylt : y < g.functions.size :=
    (mem_order h).1 (horder ▸ List.mem_append_right _ List.mem_cons_self)
  have hby : Linked g.successors b y :=
    (mem_classIn h hblt).1 (hy ▸ (mem_classIn h hylt).2 (Linked.refl _ _))
  have hay : Leads g.successors a y := Relation.ReflTransGen.head hab hby.1
  have hya : ¬ Leads g.successors y a := fun hya =>
    hb ((mem_classIn h hx).2 (hxa.trans
      ⟨Relation.ReflTransGen.single hab, Relation.ReflTransGen.trans hby.1 hya⟩))
  obtain ⟨c, hcmem, hcclass⟩ := exists_before h halt horder hay hya
  obtain ⟨k₁, k₂, rfl⟩ := List.append_of_mem hcmem
  have hk : g.order.map g.classIn = k₁.map g.classIn ++ g.classIn x ::
      (k₂.map g.classIn ++ (y :: l₂).map g.classIn) := by
    rw [horder, List.map_append, List.map_append, List.map_cons, hcclass,
      ← classIn_eq_of_linked h hx hxa, List.append_assoc]
    rfl
  refine hfirst ?_
  rw [List.map_append]
  exact List.mem_append_left _ (mem_before_of_eraseDups hsub hk)

end Order

theorem nodup_classes (g : CallGraph) : g.classes.Nodup := by
  rw [classes_eq, List.nodup_reverse]
  refine List.nodup_iff_sublist.2 fun members hsub => ?_
  obtain ⟨pre, post, hsplit, hfirst⟩ :=
    List.eq_append_cons_of_mem (List.mem_eraseDups.1 (hsub.subset List.mem_cons_self))
  exact hfirst (mem_before_of_eraseDups hsub hsplit)

section Levels

def componentsOf (g : CallGraph) (classes : List (List Nat)) : List Component :=
  classes.foldl (fun below members => below ++ [componentOf g.edges.toList below members]) []

theorem componentsOf_append (g : CallGraph) (pre : List (List Nat)) (members : List Nat) :
    g.componentsOf (pre ++ [members]) =
      g.componentsOf pre ++ [componentOf g.edges.toList (g.componentsOf pre) members] := by
  rw [componentsOf, List.foldl_append]
  rfl

theorem componentsOf_grows (g : CallGraph) (pre rest : List (List Nat)) :
    g.componentsOf pre <+: g.componentsOf (pre ++ rest) := by
  induction rest generalizing pre with
  | nil =>
      exact (List.append_nil pre).symm ▸ List.prefix_rfl
  | cons members rest ih =>
      have hstep : g.componentsOf pre <+: g.componentsOf (pre ++ [members]) := by
        rw [componentsOf_append]
        exact List.prefix_append _ _
      have hrest := ih (pre ++ [members])
      rw [List.append_assoc] at hrest
      exact hstep.trans hrest

/-- Every component is made of a class and the components in front of it. -/
theorem exists_split_of_mem_componentsOf {pre rest : List (List Nat)} {c : Component}
    (hc : c ∈ g.componentsOf (pre ++ rest)) (hpre : c ∉ g.componentsOf pre) :
    ∃ mid members post, pre ++ rest = mid ++ members :: post ∧
      c = componentOf g.edges.toList (g.componentsOf mid) members := by
  induction rest generalizing pre with
  | nil => exact absurd (List.append_nil pre ▸ hc) hpre
  | cons members rest ih =>
      by_cases hmem : c ∈ g.componentsOf (pre ++ [members])
      · rw [componentsOf_append, List.mem_append, List.mem_singleton] at hmem
        exact ⟨pre, members, rest, rfl, hmem.resolve_left hpre⟩
      · have happ : pre ++ members :: rest = (pre ++ [members]) ++ rest := by simp
        rw [happ] at hc ⊢
        exact ih hc hmem

theorem exists_split {c : Component} (hc : c ∈ g.components) :
    ∃ pre members post, g.classes = pre ++ members :: post ∧
      c = componentOf g.edges.toList (g.componentsOf pre) members := by
  have hall : c ∈ g.componentsOf ([] ++ g.classes) := hc
  exact exists_split_of_mem_componentsOf hall List.not_mem_nil

theorem componentOf_mem {classes pre post : List (List Nat)} {members : List Nat}
    (hc : classes = pre ++ members :: post) :
    componentOf g.edges.toList (g.componentsOf pre) members ∈ g.componentsOf classes := by
  have hprefix := g.componentsOf_grows (pre ++ [members]) post
  rw [componentsOf_append, List.append_assoc] at hprefix
  rw [hc]
  exact hprefix.subset (List.mem_append_right _ (List.mem_singleton_self _))

theorem le_foldl_max (l : List Nat) (n : Nat) :
    (∀ x ∈ l, x ≤ l.foldl max n) ∧ n ≤ l.foldl max n := by
  induction l generalizing n with
  | nil => exact ⟨fun _ hx => absurd hx List.not_mem_nil, Nat.le_refl n⟩
  | cons x rest ih =>
      obtain ⟨hrest, hn⟩ := ih (max n x)
      refine ⟨fun y hy => ?_, Nat.le_trans (Nat.le_max_left n x) hn⟩
      rcases List.mem_cons.1 hy with rfl | hy
      · exact Nat.le_trans (Nat.le_max_right n y) hn
      · exact hrest y hy

theorem level_lt_of_outgoing {edges : List (Nat × Nat)} {below : List Component} {members : List Nat}
    {lower : Component} (hedge : (a, b) ∈ edges) (ha : a ∈ members) (hb : b ∉ members)
    (hlower : below.find? (fun c => c.members.contains b) = some lower) :
    lower.level < (componentOf edges below members).level := by
  refine Nat.lt_of_succ_le ((le_foldl_max _ 0).1 _ ?_)
  refine List.mem_filterMap.2 ⟨(a, b), List.mem_filter.2 ⟨hedge, by simpa using ha⟩, ?_⟩
  rw [if_neg (by simpa using hb), hlower]
  rfl

theorem recursive_of_edge {edges : List (Nat × Nat)} {below : List Component} {members : List Nat}
    (hedge : (a, b) ∈ edges) (ha : a ∈ members) (hb : b ∈ members) :
    (componentOf edges below members).recursive = true := by
  rw [componentOf, Bool.or_eq_true, decide_eq_true_eq, List.any_eq_true]
  by_cases hab : a = b
  · exact .inr ⟨(a, b), List.mem_filter.2 ⟨hedge, List.contains_iff_mem.2 ha⟩, decide_eq_true hab⟩
  · left
    match members, ha, hb with
    | [x], ha, hb => exact absurd ((List.mem_singleton.1 ha).trans (List.mem_singleton.1 hb).symm) hab
    | _ :: _ :: _, _, _ => simp

variable (h : g.Closed)
include h

theorem exists_component (ha : a < g.functions.size) : ∃ c ∈ g.components, a ∈ c.members := by
  obtain ⟨pre, post, hsplit⟩ := List.append_of_mem ((mem_classes h).2 ⟨a, ha, rfl⟩)
  exact ⟨_, componentOf_mem hsplit, (mem_classIn h ha).2 (Linked.refl _ _)⟩

theorem mem_lt_of_mem_components {c : Component} (hc : c ∈ g.components) (ha : a ∈ c.members) :
    a < g.functions.size := by
  obtain ⟨pre, members, post, hsplit, rfl⟩ := exists_split hc
  obtain ⟨x, hx, rfl⟩ := (mem_classes h).1 (hsplit ▸ List.mem_append_right _ List.mem_cons_self)
  exact lt_of_leads h hx ((mem_classIn h hx).1 ha).1

/-- A function is a member of one component only. -/
theorem component_unique {c c' : Component} (hc : c ∈ g.components) (hc' : c' ∈ g.components)
    (ha : a ∈ c.members) (ha' : a ∈ c'.members) : c = c' := by
  obtain ⟨pre, members, post, hsplit, rfl⟩ := exists_split hc
  obtain ⟨pre', members', post', hsplit', rfl⟩ := exists_split hc'
  have hclass : ∀ {l : List Nat}, l ∈ g.classes → a ∈ l → l = g.classIn a := by
    intro l hl hal
    obtain ⟨x, hx, rfl⟩ := (mem_classes h).1 hl
    exact classIn_eq_of_linked h hx ((mem_classIn h hx).1 hal)
  have hm := hclass (hsplit ▸ List.mem_append_right _ List.mem_cons_self) ha
  have hm' := hclass (hsplit' ▸ List.mem_append_right _ List.mem_cons_self) ha'
  have hnodup := g.nodup_classes
  subst hm hm'
  have hpre : g.classIn a ∉ pre ∧ g.classIn a ∉ post := by
    rw [hsplit, List.nodup_middle, List.nodup_cons, List.mem_append, not_or] at hnodup
    exact hnodup.1
  rw [hsplit] at hsplit'
  obtain ⟨rfl, -, -⟩ := (List.append_cons_inj_of_notMem hpre.1 hpre.2).1 hsplit'
  rfl

/-- A call leads to a function of the same component, which is recursive then, or to a component
on a lower level. -/
theorem exists_lower {c : Component} (hc : c ∈ g.components) (ha : a ∈ c.members)
    (hab : b ∈ g.successors a) :
    b ∈ c.members ∧ c.recursive = true ∨
      ∃ lower ∈ g.components, b ∈ lower.members ∧ lower.level < c.level := by
  obtain ⟨pre, members, post, hsplit, rfl⟩ := exists_split hc
  have hedge : (a, b) ∈ g.edges.toList := mem_successors.1 hab
  by_cases hb : b ∈ members
  · exact .inl ⟨hb, recursive_of_edge hedge ha hb⟩
  · obtain ⟨p, q, rfl⟩ := List.append_of_mem (mem_pre_of_edge h hsplit ha hab hb)
    have hfound : ((g.componentsOf (p ++ g.classIn b :: q)).find?
        fun c => c.members.contains b).isSome = true := by
      refine List.find?_isSome.2 ⟨_, componentOf_mem rfl, ?_⟩
      exact List.contains_iff_mem.2 ((mem_classIn h (h a b hab)).2 (Linked.refl _ _))
    obtain ⟨lower, hlower⟩ := Option.isSome_iff_exists.1 hfound
    have hmem := List.find?_some hlower
    have hprefix := g.componentsOf_grows (p ++ g.classIn b :: q) (members :: post)
    rw [← hsplit] at hprefix
    exact .inr ⟨lower, hprefix.subset (List.mem_of_find?_eq_some hlower),
      List.contains_iff_mem.1 hmem,
      level_lt_of_outgoing hedge ha hb hlower⟩

end Levels

end CallGraph

namespace Component

/-- The positions of the components of a level. -/
def atLevel (components : List Component) (level : Nat) : List Nat :=
  (components.zipIdx.filter fun p => p.1.level = level).map Prod.snd

def depth (components : List Component) : Nat := (components.map fun c => c.level + 1).foldl max 0

theorem levels_eq (components : List Component) :
    levels components = (List.range (depth components)).map (atLevel components) := rfl

/-- The positions of the components of a level hold just these. -/
theorem mem_atLevel {components : List Component} {level : Nat} {c : Component} :
    c ∈ (atLevel components level).filterMap (fun i => components[i]?) ↔
      c ∈ components ∧ c.level = level := by
  constructor
  · intro hc
    obtain ⟨i, hi, hget⟩ := List.mem_filterMap.1 hc
    obtain ⟨⟨c', j⟩, hp, rfl⟩ := List.mem_map.1 hi
    obtain ⟨hp, hlevel⟩ := List.mem_filter.1 hp
    have hc' := List.mk_mem_zipIdx_iff_getElem?.1 hp
    cases hget.symm.trans hc'
    exact ⟨List.mem_of_getElem? hget, of_decide_eq_true hlevel⟩
  · rintro ⟨hc, rfl⟩
    obtain ⟨i, hi⟩ := List.mem_iff_getElem?.1 hc
    exact List.mem_filterMap.2 ⟨i, List.mem_map.2 ⟨(c, i), List.mem_filter.2
      ⟨List.mk_mem_zipIdx_iff_getElem?.2 hi, decide_eq_true rfl⟩, rfl⟩, hi⟩

/-- Every component is on some level. -/
theorem level_lt_depth {components : List Component} {c : Component} (hc : c ∈ components) :
    c.level < depth components :=
  Nat.lt_of_succ_le ((CallGraph.le_foldl_max _ 0).1 _ (List.mem_map.2 ⟨c, hc, rfl⟩))

end Component

end ValueFlow
