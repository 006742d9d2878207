import Mathlib.Data.List.Basic
import Mathlib.Data.Option.Basic
import ValueFlow.Data.SortKey
import ValueFlow.Program.Walk
/-!
The order in which walks meet the nodes of a tree.

A place in a tree is a list of numbers, each of which picks a child. Places are compared as lists
are, so a node comes before what is below it, and what is below one child before what is below the
next. Main statements: `lists_walk`, a recursive walk lists what stands at the places of a tree in
this order, each place once, and `visits_preorder`, the loops over expressions and statements do.
-/

namespace ValueFlow

namespace SourceOrder

variable {α : Type}

/-- Whether some nodes are those at the places of a tree, in the order of the places. -/
def Lists (node? : List Nat → Option α) (nodes : List α) : Prop :=
  ∃ places : List (List Nat), places.Pairwise (· < ·) ∧
    (∀ p, p ∈ places ↔ (node? p).isSome = true) ∧ places.map node? = nodes.map some

/-- A tree has only one list of its nodes. -/
theorem Lists.unique {node? : List Nat → Option α} {l m : List α} (hl : Lists node? l)
    (hm : Lists node? m) : l = m := by
  obtain ⟨places, hsorted, hmem, hmap⟩ := hl
  obtain ⟨places', hsorted', hmem', hmap'⟩ := hm
  have hplaces : places = places' := eq_of_sorted (· < ·) List.lt_irrefl
    (fun _ _ _ => List.lt_trans) hsorted hsorted' fun p => (hmem p).trans (hmem' p).symm
  rw [hplaces, hmap'] at hmap
  exact (List.map_injective_iff.2 (Option.some_injective α) hmap).symm

variable (children : α → List α)

def node? : α → List Nat → Option α
  | a, [] => some a
  | a, i :: p => (children a)[i]?.bind fun c => node? c p

/-- The node at a place below one of several; the first number picks the one. -/
def forest? (trees : List α) : List Nat → Option α
  | [] => none
  | i :: p => trees[i]?.bind fun a => node? children a p

theorem node?_append (a : α) (p q : List Nat) :
    node? children a (p ++ q) = (node? children a p).bind fun c => node? children c q := by
  induction p generalizing a with
  | nil => rfl
  | cons i p ih =>
      rw [List.cons_append, node?, node?]
      cases (children a)[i]? with
      | none => rfl
      | some c => exact ih c

theorem forest?_append {trees : List α} {p q : List Nat} {a : α}
    (h : forest? children trees p = some a) :
    forest? children trees (p ++ q) = node? children a q := by
  cases p with
  | nil => cases h
  | cons i p =>
      rw [List.cons_append, forest?] at *
      obtain ⟨b, hb, h⟩ := Option.bind_eq_some_iff.1 h
      rw [hb, Option.bind_some, node?_append, h, Option.bind_some]

variable {children}

theorem lists_forest_nil : Lists (forest? children []) [] :=
  ⟨[], .nil, fun p => by cases p <;> simp [forest?], rfl⟩

/-- A place below one of several trees, when another tree is put in front of them. -/
def later (p : List Nat) : List Nat := p.modifyHead (· + 1)

theorem later_lt_later {p q : List Nat} (h : p < q) : later p < later q := by
  cases q with
  | nil => exact absurd h (List.not_lt_nil p)
  | cons j q =>
      cases p with
      | nil => exact List.nil_lt_cons _ _
      | cons i p =>
          rw [List.cons_lt_cons_iff] at h
          exact List.cons_lt_cons_iff.2 (h.imp Nat.succ_lt_succ fun h => ⟨congrArg _ h.1, h.2⟩)

theorem forest?_later (a : α) (rest : List α) (p : List Nat) :
    forest? children (a :: rest) (later p) = forest? children rest p := by
  cases p <;> rfl

variable {a : α} {rest : List α} {places places' : List (List Nat)}

/-- The places below the first tree begin with zero and come before those below the others. -/
theorem sorted_forest_cons (h : places.Pairwise (· < ·)) (h' : places'.Pairwise (· < ·))
    (hne : [] ∉ places') : (places.map (0 :: ·) ++ places'.map later).Pairwise (· < ·) := by
  refine List.pairwise_append.2 ⟨?_, ?_, ?_⟩
  · exact List.pairwise_map.2 (h.imp fun h => List.cons_lt_cons_iff.2 (.inr ⟨rfl, h⟩))
  · exact List.pairwise_map.2 (h'.imp later_lt_later)
  · intro p hp q hq
    obtain ⟨p, -, rfl⟩ := List.mem_map.1 hp
    obtain ⟨q, hmem, rfl⟩ := List.mem_map.1 hq
    cases q with
    | nil => exact absurd hmem hne
    | cons j q => exact List.cons_lt_cons_iff.2 (.inl (Nat.succ_pos j))

theorem mem_forest_cons (h : ∀ p, p ∈ places ↔ (node? children a p).isSome = true)
    (h' : ∀ p, p ∈ places' ↔ (forest? children rest p).isSome = true) (p : List Nat) :
    p ∈ places.map (0 :: ·) ++ places'.map later ↔
      (forest? children (a :: rest) p).isSome = true := by
  have hne : [] ∉ places' := fun hmem => Bool.false_ne_true ((h' []).1 hmem)
  have hlater : p ∈ places'.map later ↔ ∃ i q, i :: q ∈ places' ∧ (i + 1) :: q = p := by
    rw [List.mem_map]
    constructor
    · rintro ⟨q, hq, rfl⟩
      cases q with
      | nil => exact absurd hq hne
      | cons i q => exact ⟨i, q, hq, rfl⟩
    · rintro ⟨i, q, hq, rfl⟩
      exact ⟨i :: q, hq, rfl⟩
  rw [List.mem_append, hlater, List.mem_map]
  cases p with
  | nil => simp [forest?]
  | cons i p =>
      cases i with
      | zero => simp [forest?, h]
      | succ i => simp [h', forest?]

theorem lists_forest_cons {l m : List α} (hl : Lists (node? children a) l)
    (hm : Lists (forest? children rest) m) : Lists (forest? children (a :: rest)) (l ++ m) := by
  obtain ⟨places, hsorted, hmem, hmap⟩ := hl
  obtain ⟨places', hsorted', hmem', hmap'⟩ := hm
  refine ⟨places.map (0 :: ·) ++ places'.map later,
    sorted_forest_cons hsorted hsorted' fun h => Bool.false_ne_true ((hmem' []).1 h),
    mem_forest_cons hmem hmem', ?_⟩
  rw [List.map_append, List.map_append, List.map_map, List.map_map, ← hmap, ← hmap']
  exact congrArg₂ (· ++ ·) rfl (List.map_congr_left fun q _ => forest?_later a rest q)

theorem lists_forest {walk : α → List α} {trees : List α}
    (h : ∀ a ∈ trees, Lists (node? children a) (walk a)) :
    Lists (forest? children trees) (trees.flatMap walk) := by
  induction trees with
  | nil => exact lists_forest_nil
  | cons a rest ih =>
      rw [List.flatMap_cons]
      exact lists_forest_cons (h a List.mem_cons_self)
        (ih fun b hb => h b (List.mem_cons_of_mem _ hb))

/-- The place of a node itself comes before the places below it. -/
theorem lists_node {a : α} {m : List α} (hm : Lists (forest? children (children a)) m) :
    Lists (node? children a) (a :: m) := by
  obtain ⟨places, hsorted, hmem, hmap⟩ := hm
  have hne : ∀ p ∈ places, [] < p := fun p hp => by
    cases p with
    | nil => exact absurd ((hmem []).1 hp) Bool.false_ne_true
    | cons i p => exact List.nil_lt_cons i p
  refine ⟨[] :: places, List.pairwise_cons.2 ⟨hne, hsorted⟩, fun p => ?_, ?_⟩
  · cases p with
    | nil => exact iff_of_true List.mem_cons_self rfl
    | cons i p =>
        rw [List.mem_cons]
        exact (or_iff_right (List.cons_ne_nil i p)).trans (hmem (i :: p))
  · rw [List.map_cons, List.map_cons, ← hmap]
    refine congrArg (some a :: ·) (List.map_congr_left fun p hp => ?_)
    cases p with
    | nil => exact absurd (hne [] hp) (List.lt_irrefl [])
    | cons i p => rfl

/-- A walk that meets a node and then walks over its children lists the nodes of a tree. -/
theorem lists_walk {walk : α → List α} (hwalk : ∀ a, walk a = a :: (children a).flatMap walk)
    (a : α) : Lists (node? children a) (walk a) := by
  generalize hn : (walk a).length = n
  induction n using Nat.strongRecOn generalizing a with
  | ind n ih =>
      rw [hwalk a]
      refine lists_node (lists_forest fun c hc => ih (walk c).length ?_ c rfl)
      have hlt : (walk c).length < (walk a).length := by
        obtain ⟨l, r, heq⟩ := List.append_of_mem hc
        rw [hwalk a, heq, List.flatMap_append, List.flatMap_cons, List.length_cons,
          List.length_append, List.length_append]
        omega
      exact hn ▸ hlt

end SourceOrder

namespace Expr

/-- The loop meets what the recursive walks over the expressions on its stack meet. -/
theorem visit_eq (stack : List Expr) : visit stack = walkAll stack := by
  induction stack using visit.induct with
  | case1 => rw [visit, walkAll]
  | case2 e stack ih =>
      rw [visit, ih, pushParts_eq, walkAll_append, walkAll, walk_eq, List.cons_append]

theorem visit_singleton (e : Expr) : visit [e] = e.walk := by
  rw [visit_eq, walkAll, walkAll, List.append_nil]

end Expr

namespace Stmt

/-- The statements that a statement controls, in source order. A definition controls none. -/
def controlled : Stmt → List Stmt
  | ifElse _ _ body orelse => body ++ orelse
  | whileLoop _ _ body | forLoop _ _ _ body => body
  | assign _ _ _ | expr _ _ | ret _ _ | brk _ | cont _ | pass _ => []
  | functionDef _ _ _ _ _ | classDef _ _ _ _ _ => []

theorem flatten_nestedBodies (s : Stmt) : s.nestedBodies.flatten = s.controlled := by
  cases s <;> simp [nestedBodies, controlled]

/-- The loop meets what the recursive walks over the statements on its stack meet. -/
theorem visit_eq (stack : List Stmt) : visit stack = walkAll stack := by
  induction stack using visit.induct with
  | case1 => rw [visit, walkAll]
  | case2 s stack ih =>
      rw [visit, ih, pushBodies_eq, walkAll_append, walkAll, walk_eq, List.cons_append]

/-- Nothing is below a definition. -/
theorem node?_definition {s : Stmt} (h : s.function?.isSome = true ∨ s.class?.isSome = true)
    {q : List Nat} (hq : q ≠ []) : SourceOrder.node? controlled s q = none := by
  cases q with
  | nil => exact absurd rfl hq
  | cons i q =>
      cases s with
      | functionDef | classDef => rfl
      | assign | expr | ifElse | whileLoop | forLoop | ret | brk | cont | pass =>
          rcases h with h | h <;> cases h

end Stmt

theorem visitExprs_eq (body : List Stmt) : visitExprs body = walkExprs body := by
  simp only [visitExprs, walkExprs, Stmt.visit_eq, Expr.visit_singleton, Expr.walkAll_eq]

open SourceOrder in
/-- The loop over an expression meets its parts in source preorder, each place once: what stands at
the places below it, a callee before the arguments. The loop over a body does so for the statements
below it, the first branch before the second, and does not enter definitions. Both meet what the
recursive walks meet, also together. -/
theorem visits_preorder :
    (∀ e parts, Lists (node? Expr.children e) parts ↔ parts = Expr.visit [e]) ∧
    (∀ body stmts, Lists (forest? Stmt.controlled body) stmts ↔ stmts = Stmt.visit body) ∧
    (∀ body p q s, forest? Stmt.controlled body p = some s →
      s.function?.isSome = true ∨ s.class?.isSome = true → q ≠ [] →
      forest? Stmt.controlled body (p ++ q) = none) ∧
    (∀ e, Expr.visit [e] = e.walk) ∧
    (∀ body, Stmt.visit body = Stmt.walkAll body) ∧
    (∀ body, visitExprs body = walkExprs body) := by
  have hexpr (e : Expr) : Lists (node? Expr.children e) (Expr.visit [e]) := by
    rw [Expr.visit_singleton]
    exact lists_walk (fun e => by rw [Expr.walk_eq, Expr.walkAll_eq]) e
  have hbody (body : List Stmt) : Lists (forest? Stmt.controlled body) (Stmt.visit body) := by
    rw [Stmt.visit_eq, Stmt.walkAll_eq]
    refine lists_forest fun s _ => lists_walk (fun s => ?_) s
    rw [Stmt.walk_eq, Stmt.flatten_nestedBodies, Stmt.walkAll_eq]
  refine ⟨fun e parts => ⟨fun h => h.unique (hexpr e), fun h => h ▸ hexpr e⟩,
    fun body stmts => ⟨fun h => h.unique (hbody body), fun h => h ▸ hbody body⟩, ?_,
    Expr.visit_singleton, Stmt.visit_eq, visitExprs_eq⟩
  intro body p q s hs hdef hq
  rw [forest?_append Stmt.controlled hs, Stmt.node?_definition hdef hq]

/-- The body of a function is not entered, and a branch is met before the next one. -/
theorem visits_preorder_definition :
    let body : List Stmt := [.functionDef 0 1 "f" [] [.pass 2],
      .ifElse 3 (.name 4 "x") [.pass 5] [.pass 6]]
    let call : Expr := .call 7 (.name 8 "f") [.literal 9 (.int 1), .name 10 "x"]
    SourceOrder.forest? Stmt.controlled body [0, 0] = none ∧
      (Stmt.visit body).map Stmt.id = [0, 3, 5, 6] ∧
      (Expr.visit [call]).map Expr.id = [7, 8, 9, 10] := by
  intro body call
  obtain ⟨-, -, hdef, hexpr, hbody, -⟩ := visits_preorder
  refine ⟨?_, ?_, ?_⟩
  · exact hdef body [0] [0] _ rfl (.inl rfl) (List.cons_ne_nil _ _)
  · rw [hbody]
    rfl
  · rw [hexpr]
    rfl

end ValueFlow
