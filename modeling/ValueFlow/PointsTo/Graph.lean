import ValueFlow.Data.Budget
import ValueFlow.PointsTo.Facts
import ValueFlow.PointsTo.Generate
/-!
The objects that the variables, expressions and fields of a program may refer to.

Every function is analysed in its root context and in every context in which a call reaches it.
Passes over the constraints of all functions reached so far are repeated until a pass adds no fact
and reaches no new function. The result forgets contexts, except that objects created in different
contexts stay apart.
-/

namespace ValueFlow

/-- How much work an analysis of references took. -/
structure PointsToStats where
  objects : Nat
  contexts : Nat
  constraints : Nat
  iterations : Nat
deriving DecidableEq

/-- What the places of a program may refer to. -/
structure PointsTo where
  objects : Array HeapObject
  locals : SortedMap (Nat × String) (SortedSet Nat)
  nodes : SortedMap Nat (SortedSet Nat)
  returns : SortedMap Nat (SortedSet Nat)
  fields : SortedMap (Nat × PointerField) (SortedSet Nat)
  /-- The methods that calls run on the objects their receivers may be. -/
  targets : SortedMap Nat (SortedSet Nat)
  stats : PointsToStats

/-- The analysis of references between two passes. -/
structure PointerSearch where
  generated : Generated
  facts : PointerFacts
  contexts : ContextTable
  /-- The functions with their contexts whose constraints are generated. -/
  reached : List (Nat × Nat)
  /-- The functions with their contexts that were reached since. -/
  pending : List (Nat × Nat)
  iterations : Nat

namespace PointerSearch

variable (ix : ProgramIndex) (classes : ClassTable) (calls : CallGraph)

/-- Every function pending in its root context. The module's context has number zero. -/
def start (depth : Nat) : PointerSearch :=
  let (pending, contexts) := ix.ids.foldl (fun (acc : List (Nat × Nat) × ContextTable) function =>
    let (context, contexts) := acc.2.root function
    (acc.1 ++ [(function, context)], contexts)) ([], .ofDepth depth)
  { generated := .empty, facts := .empty, contexts, reached := [], pending, iterations := 0 }

def scopeOf (function context : Nat) : PointerScope where
  function := function
  context := context
  moduleContext := 0
  bound := ((ix.function? function).map FunctionInfo.boundNames).getD ∅

/-- Generates the constraints of a function in a context, once. -/
def visit (s : PointerSearch) (pair : Nat × Nat) : PointerSearch :=
  if s.reached.contains pair then s
  else
    let body := ((ix.function? pair.1).map FunctionInfo.body).getD []
    { s with
      generated := s.generated.ofBody calls (scopeOf ix pair.1 pair.2) body
      reached := pair :: s.reached }

/-- Generates the constraints of all pending functions. -/
def discover (s : PointerSearch) : PointerSearch :=
  { s.pending.foldl (visit ix calls) s with pending := [] }

def pass (s : PointerSearch) : PointerPass :=
  .run ⟨ix, classes, s.generated.objects⟩ s.generated.constraints.reverse s.facts s.contexts

/-- Generates pending constraints and passes over all of them once. -/
def step (s : PointerSearch) : PointerSearch :=
  let s := s.discover ix calls
  let p := s.pass ix classes
  { s with
    facts := p.facts
    contexts := p.contexts
    pending := p.reached.reverse.filter fun pair => !s.reached.contains pair
    iterations := s.iterations + 1 }

/-- Repeats steps until one adds no fact and reaches nothing new. -/
def iterate : Budget → PointerSearch → PointerSearch
  | .spent, s => s
  | .more rest, s =>
      let t := s.step ix classes calls
      if t.facts = s.facts && t.pending.isEmpty then t else iterate (rest ()) t

/-- The number of functions, parameters, statements and expressions of a program. -/
def programSize : Nat :=
  ix.functions.foldl (fun n f =>
    n + 1 + f.params.length + (Stmt.walkAll f.body).length + (walkExprs f.body).length) 0

/-- More steps than there are facts about the program in contexts of a depth. -/
def budget (depth : Nat) : Budget :=
  let contexts := Budget.words (.ofNat ix.functions.size) depth
  let size := programSize ix + 1
  (Budget.ofNat (4 * (size * size * size * size))).mul (contexts.mul contexts)

/-- The analysis of references at its end. -/
def run (depth : Nat) : PointerSearch :=
  iterate ix classes calls (budget ix depth) (start ix depth)

end PointerSearch

namespace PointsTo

def collapse (facts : PointerFacts) (objects : Array HeapObject) (stats : PointsToStats) :
    PointsTo :=
  let none : PointsTo := ⟨objects, ∅, ∅, ∅, facts.fields, facts.targets, stats⟩
  facts.vars.entries.foldl (fun g p =>
    match p.1 with
    | .named function _ name =>
        { g with locals := PointerFacts.grow g.locals (function, name) p.2 }
    | .value node _ => { g with nodes := PointerFacts.grow g.nodes node p.2 }
    | .result function _ => { g with returns := PointerFacts.grow g.returns function p.2 }) none

/-- What the places of a program may refer to, with contexts of a depth. -/
def analyze (ix : ProgramIndex) (classes : ClassTable) (calls : CallGraph) (depth : Nat) :
    PointsTo :=
  let s := PointerSearch.run ix classes calls depth
  collapse s.facts s.generated.objects
    { objects := s.generated.objects.size
      contexts := s.reached.length
      constraints := s.generated.constraints.length
      iterations := s.iterations }

def object? (g : PointsTo) (object : Nat) : Option HeapObject := g.objects[object]?

def ofVar (g : PointsTo) (function : Nat) (name : String) : SortedSet Nat :=
  g.locals.getD (function, name) ∅

def ofNode (g : PointsTo) (node : Nat) : SortedSet Nat := g.nodes.getD node ∅

def ofReturn (g : PointsTo) (function : Nat) : SortedSet Nat := g.returns.getD function ∅

def ofField (g : PointsTo) (object : Nat) (field : PointerField) : SortedSet Nat :=
  g.fields.getD (object, field) ∅

/-- The objects that an expression creates, one for each context. -/
def allocatedAt (g : PointsTo) (node : Nat) : List Nat :=
  (g.objects.toList.filter fun o => o.site = node).map HeapObject.id

/-- The methods that a call runs on the objects its receiver may be. -/
def targets? (g : PointsTo) (site : Nat) : Option (SortedSet Nat) := g.targets.get? site

def kindsAt (g : PointsTo) (node : Nat) : List ObjectKind :=
  (g.ofNode node).toList.filterMap fun o => (g.object? o).map HeapObject.kind

/-- Whether two variables of a function may be one object. -/
def mayAlias (g : PointsTo) (function : Nat) (a b : String) : Bool :=
  !((g.ofVar function a).inter (g.ofVar function b)).isEmpty

/-- The entries of the fields of an object, which follow each other. -/
def entriesOf (g : PointsTo) (object : Nat) : List ((Nat × PointerField) × SortedSet Nat) :=
  (g.fields.entriesFrom (object, .first)).takeWhile fun p => p.1.1 = object

/-- The objects that the fields of an object may hold. -/
def heldBy (g : PointsTo) (object : Nat) : List Nat :=
  (g.entriesOf object).flatMap fun p => p.2.toList

/-- How many objects the entries of objects that were not met hold. -/
def unmetOf (met : SortedSet Nat) : List ((Nat × PointerField) × SortedSet Nat) → Nat
  | [] => 0
  | p :: rest => (if met.contains p.1.1 then 0 else p.2.toList.length) + unmetOf met rest

theorem unmetOf_insert_le (met : SortedSet Nat) (object : Nat)
    (entries : List ((Nat × PointerField) × SortedSet Nat)) :
    unmetOf (met.insert object) entries ≤ unmetOf met entries := by
  induction entries with
  | nil => exact Nat.le_refl _
  | cons p rest ih =>
      rw [unmetOf, unmetOf]
      by_cases hp : p.1.1 ∈ met
      · rw [if_pos (SortedSet.contains_iff.2 (SortedSet.mem_insert.2 (.inr hp))), Nat.zero_add]
        exact Nat.le_trans ih (Nat.le_add_left _ _)
      · rw [if_neg (mt SortedSet.contains_iff.1 hp)]
        split <;> omega

/-- Meeting an object leaves less to meet, by what its own entries hold. -/
theorem unmetOf_insert {met : SortedSet Nat} {object : Nat} (hmet : object ∉ met)
    {own entries : List ((Nat × PointerField) × SortedSet Nat)} (h : own.Sublist entries)
    (hown : ∀ p ∈ own, p.1.1 = object) :
    (own.flatMap fun p => p.2.toList).length + unmetOf (met.insert object) entries ≤
      unmetOf met entries := by
  induction h with
  | slnil => exact Nat.le_of_eq (Nat.zero_add _)
  | @cons own entries p _ ih =>
      have hp := unmetOf_insert_le met object [p]
      simp only [unmetOf, Nat.add_zero] at hp ⊢
      have := ih hown
      omega
  | @cons_cons own entries p _ ih =>
      have hp : p.1.1 = object := hown p List.mem_cons_self
      rw [List.flatMap_cons, List.length_append, unmetOf, unmetOf,
        if_pos (SortedSet.contains_iff.2 (SortedSet.mem_insert.2 (.inl hp))),
        if_neg (mt SortedSet.contains_iff.1 (hp ▸ hmet))]
      have := ih fun q hq => hown q (List.mem_cons_of_mem _ hq)
      omega

theorem entriesOf_sublist (g : PointsTo) (object : Nat) :
    (g.entriesOf object).Sublist g.fields.entries :=
  (List.takeWhile_sublist _).trans (List.dropWhile_sublist _)

theorem owner_of_mem_entriesOf {g : PointsTo} {object : Nat}
    {p : (Nat × PointerField) × SortedSet Nat} (h : p ∈ g.entriesOf object) : p.1.1 = object :=
  of_decide_eq_true (List.all_eq_true.1 List.all_takeWhile p h)

/-- Meeting an object takes away from what is unmet at least as much as its fields hold. -/
theorem heldBy_unmetOf (g : PointsTo) {met : SortedSet Nat} {object : Nat} (h : object ∉ met) :
    (g.heldBy object).length + unmetOf (met.insert object) g.fields.entries ≤
      unmetOf met g.fields.entries :=
  unmetOf_insert h (g.entriesOf_sublist object) fun _ => owner_of_mem_entriesOf

/-- One round over a stack of objects. The top is met unless it was before, and what its fields may
hold goes onto the stack unless it was met. -/
def meetTop (g : PointsTo) : List Nat × SortedSet Nat → List Nat × SortedSet Nat
  | ([], met) => ([], met)
  | (o :: rest, met) =>
      if met.contains o then (rest, met)
      else
        let now := met.insert o
        (((g.heldBy o).filter fun t => !now.contains t).reverse ++ rest, now)

/-- The number of rounds until the stack is empty, at most. -/
def roundsLeft (g : PointsTo) (s : List Nat × SortedSet Nat) : Nat :=
  s.1.length + unmetOf s.2 g.fields.entries

theorem roundsLeft_meetTop (g : PointsTo) {s : List Nat × SortedSet Nat} (h : s.1 ≠ []) :
    g.roundsLeft (g.meetTop s) < g.roundsLeft s := by
  obtain ⟨_ | ⟨o, rest⟩, met⟩ := s
  · exact absurd rfl h
  · rw [meetTop]
    split
    · exact Nat.add_lt_add_right (Nat.lt_succ_self _) _
    · next hmet =>
        have hless := g.heldBy_unmetOf (mt SortedSet.contains_iff.2 hmet)
        have hpushed := List.length_filter_le (fun t => !(met.insert o).contains t) (g.heldBy o)
        simp only [roundsLeft, List.length_append, List.length_reverse, List.length_cons]
        omega

/-- Meets the objects on a stack until it is empty. -/
def closure (g : PointsTo) (s : List Nat × SortedSet Nat) : SortedSet Nat :=
  if s.1 = [] then s.2 else closure g (g.meetTop s)
termination_by g.roundsLeft s
decreasing_by exact g.roundsLeft_meetTop ‹_›

/-- The objects reachable from some objects through fields, these included. -/
def reachableFrom (g : PointsTo) (roots : List Nat) : SortedSet Nat := g.closure (roots.reverse, ∅)

end PointsTo

end ValueFlow
