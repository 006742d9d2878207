import ValueFlow.Proofs.Analysis.Passing
import ValueFlow.Proofs.Analysis.Stability
/-!
Every call finds a summary of what it calls.

A function is analysed from the summaries of lower levels, together with those of its own component
from the round before if that is recursive, and in the end from all summaries. Whatever it calls is
among them, so no call is taken for one that never returns only because its summary is missing.
Main statement: `summaries_present`.
-/

namespace ValueFlow

namespace Expr

theorem eq_or_mem_children {e part : Expr} (h : part ∈ e.walk) :
    part = e ∨ ∃ c ∈ e.children, part ∈ c.walk := by
  have all : ∀ {l : List Expr}, part ∈ walkAll l → ∃ c ∈ l, part ∈ c.walk := by
    intro l
    induction l with
    | nil => exact fun h => nomatch h
    | cons c rest ih =>
        intro h
        rw [walkAll] at h
        rcases List.mem_append.1 h with h | h
        · exact ⟨c, List.mem_cons_self, h⟩
        · obtain ⟨d, hd, h⟩ := ih h
          exact ⟨d, List.mem_cons_of_mem _ hd, h⟩
  cases e with
  | literal | name | unsupported =>
      rw [walk] at h
      exact .inl (List.mem_singleton.1 h)
  | unaryOp | attr =>
      rw [walk] at h
      exact (List.mem_cons.1 h).imp_right fun h => ⟨_, List.mem_cons_self, h⟩
  | binOp | boolOp | compare | subscript =>
      rw [walk] at h
      refine (List.mem_cons.1 h).imp_right fun h => ?_
      rcases List.mem_append.1 h with h | h
      · exact ⟨_, List.mem_cons_self, h⟩
      · exact ⟨_, List.mem_cons_of_mem _ List.mem_cons_self, h⟩
  | call =>
      rw [walk] at h
      refine (List.mem_cons.1 h).imp_right fun h => ?_
      rcases List.mem_append.1 h with h | h
      · exact ⟨_, List.mem_cons_self, h⟩
      · obtain ⟨c, hc, h⟩ := all h
        exact ⟨c, List.mem_cons_of_mem _ hc, h⟩
  | collection =>
      rw [walk] at h
      exact (List.mem_cons.1 h).imp_right all

/-- The parts of a part are parts of the whole. -/
theorem walk_subset {e part : Expr} (h : part ∈ e.walk) : part.walk ⊆ e.walk := by
  induction hn : e.height using Nat.strongRecOn generalizing e with
  | ind n ih =>
      rcases eq_or_mem_children h with rfl | ⟨c, hc, h⟩
      · exact List.Subset.refl _
      · have hlt := height_lt_of_mem_children hc
        exact List.Subset.trans (ih c.height (hn ▸ hlt) h rfl) (walk_subset_of_mem_children hc)

end Expr

namespace ProgramFacts

/-- The tables of summaries from which a function is analysed. -/
inductive ReadsFrom (facts : ProgramFacts) (i : Nat) : SummaryTable → Prop
  /-- A function that cannot call itself is summarized once. -/
  | once {c : Component} (hc : c ∈ facts.components) (hi : i ∈ c.members)
      (hrecursive : c.recursive = false) : ReadsFrom facts i (facts.tableBelow c.level)
  /-- A function of a recursive component is summarized again in every round. -/
  | round {c : Component} (hc : c ∈ facts.components) (hi : i ∈ c.members)
      (hrecursive : c.recursive = true) (n : Nat) :
      ReadsFrom facts i (overlay (facts.tableBelow c.level)
        (c.members.map fun f => (f, facts.afterRounds (facts.tableBelow c.level) c.members n f)))
  /-- Every function is reported on from all summaries. -/
  | report : ReadsFrom facts i facts.bottomUp.table

/-- Whether a table says all that another one says. -/
def Extends (S T : SummaryTable) : Prop := ∀ j s, S.get? j = some s → T.get? j = some s

theorem Extends.sameFor {S T : SummaryTable} (h : Extends S T) {j : Nat}
    (hj : (S.get? j).isSome = true) : S.SameFor T j := by
  obtain ⟨s, hs⟩ := Option.isSome_iff_exists.1 hj
  rw [SummaryTable.SameFor, hs, h j s hs]

end ProgramFacts

namespace Program

variable {p : Program} {config : Config} {c : Component} {T : SummaryTable} {i j : Nat}

theorem keys_summarizeComponent (S : SummaryTable) (c : Component) :
    (((p.facts config).summarizeComponent S c).1).map Prod.fst = c.members := by
  obtain ⟨new, hnew, -⟩ := (p.facts config).publishes_summarizeComponent S c
  rw [hnew, List.map_map]
  exact List.map_id _

/-- Above its level every function of a component has a summary. -/
theorem isSome_above {k : Nat} (hc : c ∈ (p.facts config).components) (hj : j ∈ c.members)
    (hlt : c.level < k) : (((p.facts config).tableBelow k).get? j).isSome = true := by
  refine (p.facts config).isSome_tableBelow hc hlt ?_
  rw [keys_summarizeComponent]
  exact hj

theorem isSome_bottomUp_table (hj : j < (p.facts config).calls.functions.size) :
    ((p.facts config).bottomUp.table.get? j).isSome = true := by
  obtain ⟨c, hc, hjc⟩ := CallGraph.exists_component (p.closed_facts config) hj
  rw [← ProgramFacts.components_ofIndex] at hc
  rw [ProgramFacts.table_bottomUp]
  exact isSome_above hc hjc (Component.level_lt_depth hc)

/-- Whatever a function calls has a summary where the function is analysed. -/
theorem isSome_of_readsFrom (hT : (p.facts config).ReadsFrom i T)
    (hj : j ∈ (p.facts config).calls.successors i) : (T.get? j).isSome = true := by
  have lower {c : Component} (hc : c ∈ (p.facts config).components) (hi : i ∈ c.members) :
      (j ∈ c.members ∧ c.recursive = true) ∨
        (((p.facts config).tableBelow c.level).get? j).isSome = true := by
    have hcalls := hc
    rw [ProgramFacts.components_ofIndex] at hcalls
    rcases CallGraph.exists_lower (p.closed_facts config) hcalls hi hj with
      hown | ⟨lower, hl, hjl, hlt⟩
    · exact .inl hown
    · rw [← ProgramFacts.components_ofIndex] at hl
      exact .inr (isSome_above hl hjl hlt)
  cases hT with
  | once hc hi hrecursive =>
      rcases lower hc hi with ⟨-, hr⟩ | h
      · rw [hrecursive] at hr
        cases hr
      · exact h
  | round hc hi hrecursive n =>
      refine ProgramFacts.isSome_get?_overlay ?_
      rcases lower hc hi with ⟨hjc, -⟩ | h
      · refine .inl ?_
        rw [List.map_map]
        exact List.mem_map.2 ⟨j, hjc, rfl⟩
      · exact .inr h
  | report => exact isSome_bottomUp_table (p.closed_facts config i j hj)

theorem mem_successors_of_mayCall (hids : (ProgramIndex.build p).nodeIds.Nodup) {g : FlowGraph}
    (hg : (p.facts config).graph? i = some g) {b : Nat} {item : BlockItem}
    (hitem : item ∈ (g.block b).items) {e : Expr} (he : e ∈ item.exprs)
    (hcall : ((p.facts config).scope T i g).MayCall e j) :
    j ∈ (p.facts config).calls.successors i := by
  obtain ⟨node, func, args, site, hmem, hsite, hj⟩ := hcall
  exact mem_successors_of_item hids hg hitem he hmem hsite hj

/-- No call sees a missing summary. Wherever a function is analysed, every evaluation of an
expression of its body, from whatever state, and every pass over its states call only functions
that have a summary. So nothing hangs on what is taken for a missing one: with any further
summaries, the states and what is seen in them stay the same. -/
theorem summaries_present (p : Program) (config : Config)
    (hids : (ProgramIndex.build p).nodeIds.Nodup) {i : Nat} {T : SummaryTable}
    (hT : (p.facts config).ReadsFrom i T) {g : FlowGraph} (hg : (p.facts config).graph? i = some g) :
    (∀ b, ∀ item ∈ (g.block b).items, ∀ e ∈ item.exprs, ∀ part ∈ e.walk, ∀ n s,
      ∀ c ∈ ((p.facts config).scope T i g).passedWithin n part s,
        (p.facts config).isMalformed c.1 = false → (T.get? c.1).isSome = true) ∧
    (∀ solution, ∀ c ∈ ((p.facts config).scope T i g).passedIn g solution,
      (p.facts config).isMalformed c.1 = false → (T.get? c.1).isSome = true) ∧
    ∀ T', ProgramFacts.Extends T T' → ∀ seed,
      (p.facts config).solve T' i g seed = (p.facts config).solve T i g seed ∧
      ∀ solution, ((p.facts config).scope T' i g).replay g solution =
        ((p.facts config).scope T i g).replay g solution := by
  refine ⟨?_, ?_, ?_⟩
  · intro b item hitem e he part hpart n s c hc _
    have hcall := (FunctionScope.named_of_mem_passedWithin hc).1.mono (Expr.walk_subset hpart)
    exact isSome_of_readsFrom hT (mem_successors_of_mayCall hids hg hitem he hcall)
  · intro solution c hc _
    obtain ⟨b, item, hitem, e, he, hcall, -⟩ := FunctionScope.exists_of_mem_passedIn hc
    exact isSome_of_readsFrom hT (mem_successors_of_mayCall hids hg hitem he hcall)
  · intro T' hext seed
    have hagrees : ∀ b, ∀ item ∈ (g.block b).items,
        ((p.facts config).scope T i g).AgreesItem T' item :=
      agreesItem_of_same hids hg fun j hj => hext.sameFor (isSome_of_readsFrom hT hj)
    have hwith : (p.facts config).scope T' i g = ((p.facts config).scope T i g).withSummaries T' := rfl
    rw [hwith]
    exact ⟨(p.facts config).solve_congr hagrees seed, FunctionScope.replay_congr hagrees⟩

/-- A program whose functions call each other and a method that is not defined once. -/
def relay : Program where
  body :=
    [.functionDef 1 2 "even" ["n"]
        [.ret 3 (some (.call 4 (.name 5 "odd") [.name 6 "n"]))],
      .functionDef 7 8 "odd" ["n"]
        [.ret 9 (some (.call 10 (.name 11 "even") [.name 12 "n"]))],
      .expr 13 (.call 14 (.name 15 "odd") [.literal 16 (.int 3)])]

/-- The summaries of both functions after one round. -/
def relayRound : SummaryTable :=
  ProgramFacts.overlay ∅ ([1, 2].map fun f =>
    (f, (relay.facts (.ofPreset .standard)).afterRounds ∅ [1, 2] 1 f))

set_option maxRecDepth 10000 in
theorem summaries_present_relay :
    (ProgramIndex.build relay).nodeIds.Nodup ∧
    (relay.facts (.ofPreset .standard)).ReadsFrom 1 relayRound ∧
    ∃ g, (relay.facts (.ofPreset .standard)).graph? 1 = some g ∧
      ∃ c ∈ ((relay.facts (.ofPreset .standard)).scope relayRound 1 g).passedIn g
        ((relay.facts (.ofPreset .standard)).solve relayRound 1 g none),
        (relay.facts (.ofPreset .standard)).isMalformed c.1 = false ∧
          (relayRound.get? c.1).isSome = true := by
  have hids : (ProgramIndex.build relay).nodeIds.Nodup := by decide
  have hc : (⟨[1, 2], true, 0⟩ : Component) ∈ (relay.facts (.ofPreset .standard)).components := by
    decide +kernel
  have hT : (relay.facts (.ofPreset .standard)).ReadsFrom 1 relayRound :=
    .round hc List.mem_cons_self rfl 1
  have hpassed : ((relay.facts (.ofPreset .standard)).graph? 1).any (fun g =>
      (((relay.facts (.ofPreset .standard)).scope relayRound 1 g).passedIn g
        ((relay.facts (.ofPreset .standard)).solve relayRound 1 g none)).any fun c =>
          !(relay.facts (.ofPreset .standard)).isMalformed c.1) = true := by
    decide +kernel
  obtain ⟨g, hg, hany⟩ := (Option.any_eq_true _ _).1 hpassed
  obtain ⟨c, hcalled, hformed⟩ := List.any_eq_true.1 hany
  have hformed : (relay.facts (.ofPreset .standard)).isMalformed c.1 = false := by
    simpa using hformed
  obtain ⟨-, hpresent, -⟩ := summaries_present relay (.ofPreset .standard) hids hT hg
  exact ⟨hids, hT, g, hg, c, hcalled, hformed, hpresent _ c hcalled hformed⟩

end Program

end ValueFlow
