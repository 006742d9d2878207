import Mathlib.Data.List.Forall2
import Mathlib.Data.List.Nodup
import ValueFlow.Proofs.Maps
import ValueFlow.Proofs.PointsTo.Derivation
/-!
What the numbers of contexts and objects stand for.

A table of contexts and a list of objects name call paths and creations by number. Numbers keep
their meaning while both grow, and no two numbers mean the same.
-/

namespace ValueFlow

namespace ContextTable

variable {t u v : ContextTable} {depth : Nat}

/-- Whether numbers stand for different paths within the depth. -/
structure Proper (depth : Nat) (t : ContextTable) : Prop where
  depth_eq : t.depth = depth
  nodup : t.paths.toList.Nodup

/-- Whether all numbers of a table keep their meaning in another. -/
def Extends (t u : ContextTable) : Prop :=
  ∀ ⦃c : Nat⦄ ⦃κ : List Nat⦄, t.paths[c]? = some κ → u.paths[c]? = some κ

theorem Extends.refl (t : ContextTable) : t.Extends t := fun _ _ h => h

theorem Extends.trans (htu : t.Extends u) (huv : u.Extends v) : t.Extends v :=
  fun _ _ h => huv (htu h)

theorem proper_ofDepth (depth : Nat) : (ofDepth depth).Proper depth := ⟨rfl, List.nodup_nil⟩

theorem Proper.injective (h : t.Proper depth) {c c' : Nat} {κ : List Nat}
    (hc : t.paths[c]? = some κ) (hc' : t.paths[c']? = some κ) : c = c' := by
  rw [← Array.getElem?_toList] at hc hc'
  exact (List.getElem?_inj (List.getElem?_eq_some_iff.1 hc).1 h.nodup).1 (hc.trans hc'.symm)

theorem extends_intern (t : ContextTable) (path : List Nat) : t.Extends (t.intern path).2 := by
  intro c κ hc
  unfold ContextTable.intern
  dsimp only
  split
  · exact hc
  · rw [Array.getElem?_push_lt (Array.getElem?_eq_some_iff.1 hc).1]
    exact (Array.getElem?_eq_getElem _).symm.trans hc

/-- A path that is numbered keeps its number, and a new path gets one. -/
theorem Proper.intern (h : t.Proper depth) (path : List Nat) :
    (t.intern path).2.Proper depth ∧
      (t.intern path).2.paths[(t.intern path).1]? = some (limit depth path) := by
  unfold ContextTable.intern
  rw [h.depth_eq]
  dsimp only
  cases hfind : t.paths.findIdx? (fun p => decide (p = limit depth path)) with
  | some id =>
      obtain ⟨hlt, hfound, -⟩ := Array.findIdx?_eq_some_iff_getElem.1 hfind
      refine ⟨h, ?_⟩
      rw [Array.getElem?_eq_getElem hlt, of_decide_eq_true hfound]
  | none =>
      have hnew : limit depth path ∉ t.paths.toList := by
        intro hmem
        have hnone := Array.findIdx?_eq_none_iff.1 hfind _ (Array.mem_toList_iff.1 hmem)
        simp at hnone
      refine ⟨⟨rfl, ?_⟩, Array.getElem?_push_size⟩
      rw [Array.toList_push, List.nodup_append]
      refine ⟨h.nodup, List.nodup_singleton _, ?_⟩
      rintro a ha b hb rfl
      exact hnew (List.mem_singleton.1 hb ▸ ha)

end ContextTable

/-- Contexts and objects by number. -/
structure Numbering where
  contexts : ContextTable
  objects : Array HeapObject

namespace Numbering

variable (N : Numbering)

def place? : PointerVar → Option Place
  | .named function context name => (N.contexts.paths[context]?).map (.named function · name)
  | .value node context => (N.contexts.paths[context]?).map (.value node ·)
  | .result function context => (N.contexts.paths[context]?).map (.result function ·)

/-- What an object stands for. -/
def creation? (object : Nat) : Option Creation := do
  let o ← N.objects[object]?
  let κ ← N.contexts.paths[o.context]?
  return ⟨o.site, κ, o.function, o.kind⟩

section Places

variable {N} {context : Nat} {κ : List Nat} (h : N.contexts.paths[context]? = some κ)
include h

theorem place?_named (function : Nat) (name : String) :
    N.place? (.named function context name) = some (.named function κ name) := by
  rw [place?, h, Option.map_some]

theorem place?_value (node : Nat) : N.place? (.value node context) = some (.value node κ) := by
  rw [place?, h, Option.map_some]

theorem place?_result (function : Nat) :
    N.place? (.result function context) = some (.result function κ) := by
  rw [place?, h, Option.map_some]

end Places

/-- How a call finds functions, in numbers and without. -/
inductive SaysTarget : CallTarget → FlowTarget → Prop
  | static (functions : List Nat) : SaysTarget (.static functions) (.static functions)
  | construct {object o} (ho : N.creation? object = some o) (constructor : Option Nat) :
      SaysTarget (.construct object constructor) (.construct o constructor)
  | dispatch (method : String) {v place} (hv : N.place? v = some place) :
      SaysTarget (.dispatch method v) (.dispatch method place)

/-- A call in numbers and without. -/
structure SaysCall (c : PointerCall) (d : FlowCall) : Prop where
  site : c.site = d.site
  context : N.contexts.paths[c.context]? = some d.context
  target : N.SaysTarget c.target d.target
  args : List.Forall₂ (fun v place => N.place? v = some place) c.args d.args
  result : N.place? c.result = some d.result

/-- A constraint and the flow it stands for. -/
inductive Says : Constraint → Flow → Prop
  | alloc {object dest o place} (ho : N.creation? object = some o)
      (hdest : N.place? dest = some place) : Says (.alloc object dest) (.alloc o place)
  | copy {source dest a b} (hsource : N.place? source = some a) (hdest : N.place? dest = some b) :
      Says (.copy source dest) (.copy a b)
  | load {base dest a b} (hbase : N.place? base = some a) (field : PointerField)
      (hdest : N.place? dest = some b) : Says (.load base field dest) (.load a field b)
  | store {base source a b} (hbase : N.place? base = some a) (field : PointerField)
      (hsource : N.place? source = some b) : Says (.store base field source) (.store a field b)
  | call {c d} (h : N.SaysCall c d) : Says (.call c) (.call d)

/-- Whether all numbers keep their meaning. -/
structure Extends (N M : Numbering) : Prop where
  contexts : N.contexts.Extends M.contexts
  objects : ∀ ⦃i : Nat⦄ ⦃o : HeapObject⦄, N.objects[i]? = some o → M.objects[i]? = some o

variable {N} {M : Numbering}

theorem Extends.trans {K : Numbering} (hNM : N.Extends M) (hMK : M.Extends K) : N.Extends K :=
  ⟨hNM.contexts.trans hMK.contexts, fun _ _ h => hMK.objects (hNM.objects h)⟩

section Stays

variable (hNM : N.Extends M)
include hNM

theorem Extends.place? {v : PointerVar} {place : Place} (h : N.place? v = some place) :
    M.place? v = some place := by
  cases v with
  | named | value | result =>
      obtain ⟨κ, hκ, rfl⟩ := Option.map_eq_some_iff.1 h
      rw [Numbering.place?, hNM.contexts hκ]
      rfl

theorem Extends.creation? {object : Nat} {o : Creation} (h : N.creation? object = some o) :
    M.creation? object = some o := by
  obtain ⟨a, ha, h⟩ := Option.bind_eq_some_iff.1 h
  obtain ⟨κ, hκ, h⟩ := Option.bind_eq_some_iff.1 h
  exact Option.bind_eq_some_iff.2 ⟨a, hNM.objects ha,
    Option.bind_eq_some_iff.2 ⟨κ, hNM.contexts hκ, h⟩⟩

theorem Extends.saysTarget {c : CallTarget} {d : FlowTarget} (h : N.SaysTarget c d) :
    M.SaysTarget c d := by
  cases h with
  | static functions => exact .static functions
  | construct ho constructor => exact .construct (hNM.creation? ho) constructor
  | dispatch method hv => exact .dispatch method (hNM.place? hv)

theorem Extends.saysCall {c : PointerCall} {d : FlowCall} (h : N.SaysCall c d) : M.SaysCall c d where
  site := h.site
  context := hNM.contexts h.context
  target := hNM.saysTarget h.target
  args := h.args.imp fun _ _ hv => hNM.place? hv
  result := hNM.place? h.result

theorem Extends.saysFlow {c : Constraint} {flow : Flow} (h : N.Says c flow) : M.Says c flow := by
  cases h with
  | alloc ho hdest => exact .alloc (hNM.creation? ho) (hNM.place? hdest)
  | copy hsource hdest => exact .copy (hNM.place? hsource) (hNM.place? hdest)
  | load hbase field hdest => exact .load (hNM.place? hbase) field (hNM.place? hdest)
  | store hbase field hsource => exact .store (hNM.place? hbase) field (hNM.place? hsource)
  | call h => exact .call (hNM.saysCall h)

end Stays

/-- Whether an object is created at a site in a context. -/
def MadeAt (N : Numbering) (object : Nat) (key : Nat × List Nat) : Prop :=
  ∃ made, N.creation? object = some made ∧ (made.site, made.context) = key

/-- Whether objects are numbered by position, and no two come from one place. -/
structure Proper (depth : Nat) (N : Numbering) : Prop where
  contexts : N.contexts.Proper depth
  id : ∀ ⦃i : Nat⦄ ⦃o : HeapObject⦄, N.objects[i]? = some o → o.id = i
  apart : ∀ ⦃i j : Nat⦄ ⦃a b : HeapObject⦄, N.objects[i]? = some a → N.objects[j]? = some b →
    a.site = b.site → a.context = b.context → i = j

section Proper

variable {depth : Nat} (h : N.Proper depth)
include h

theorem Proper.place?_injective {v w : PointerVar} {place : Place} (hv : N.place? v = some place)
    (hw : N.place? w = some place) : v = w := by
  cases v <;> obtain ⟨κ, hκ, rfl⟩ := Option.map_eq_some_iff.1 hv <;> cases w <;>
    obtain ⟨κ', hκ', heq⟩ := Option.map_eq_some_iff.1 hw <;> cases heq <;>
    rw [h.contexts.injective hκ hκ']

theorem Proper.eq_of_madeAt {i j : Nat} {key : Nat × List Nat} (hi : N.MadeAt i key)
    (hj : N.MadeAt j key) : i = j := by
  obtain ⟨made, hi, rfl⟩ := hi
  obtain ⟨made', hj, hkey⟩ := hj
  obtain ⟨a, ha, hi⟩ := Option.bind_eq_some_iff.1 hi
  obtain ⟨κ, hκ, hi⟩ := Option.bind_eq_some_iff.1 hi
  obtain ⟨b, hb, hj⟩ := Option.bind_eq_some_iff.1 hj
  obtain ⟨κ', hκ', hj⟩ := Option.bind_eq_some_iff.1 hj
  cases hi
  cases hj
  obtain ⟨hsite, rfl⟩ := Prod.mk.inj hkey
  exact h.apart ha hb hsite.symm (h.contexts.injective hκ hκ')

theorem Proper.creation?_injective {i j : Nat} {o : Creation} (hi : N.creation? i = some o)
    (hj : N.creation? j = some o) : i = j :=
  h.eq_of_madeAt ⟨o, hi, rfl⟩ ⟨o, hj, rfl⟩

end Proper

end Numbering

end ValueFlow
