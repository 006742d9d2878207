import ValueFlow.Analysis.Summary
import ValueFlow.Interchange.Findings
import ValueFlow.Interchange.Values
import ValueFlow.State.ProgramState
/-!
Documents of states, effects and summaries.
-/

namespace ValueFlow

namespace HeapField

def toJson : HeapField → Json
  | attr name => .obj [("kind", "attr"), ("name", name)]
  | elements => .obj [("kind", "elements")]
  | length => .obj [("kind", "length")]
  | mutationMarker => .obj [("kind", "mutation_marker")]

def ofJson? (j : Json) : Option HeapField := do
  match ← j.get? Json.str? "kind" with
  | "attr" => (j.get? Json.str? "name").map .attr
  | "elements" => some .elements
  | "length" => some .length
  | "mutation_marker" => some .mutationMarker
  | _ => none

end HeapField

namespace HeapValue

def toJson : HeapValue → Json
  | null => .obj [("kind", "null")]
  | primitive v => .obj [("kind", "primitive"), ("value", v.toJson)]
  | reference o => .obj [("kind", "reference"), ("value", o)]
  | merged v => .obj [("kind", "merged"), ("value", v.toJson)]

def ofJson? (j : Json) : Option HeapValue := do
  match ← j.get? Json.str? "kind" with
  | "null" => some .null
  | "primitive" => (j.get? Value.ofJson? "value").map .primitive
  | "reference" => (j.get? Json.id? "value").map .reference
  | "merged" => (j.get? Value.ofJson? "value").map .merged
  | _ => none

end HeapValue

namespace Environment

def toJson (e : Environment) : Json :=
  .obj [("reachable", e.reachable), ("sign", .ofMap (·) Sign.toJson e.sign),
    ("nullability", .ofMap (·) Nullability.toJson e.nullability),
    ("range", .ofMap (·) Interval.toJson e.range)]

def ofJson? (j : Json) : Option Environment := do
  let signs ← j.get? (Json.fields? Sign.ofJson?) "sign"
  let nulls ← j.get? (Json.fields? Nullability.ofJson?) "nullability"
  let ranges ← j.get? (Json.fields? Interval.ofJson?) "range"
  some ⟨← j.get? Json.bool? "reachable", .ofList signs, .ofList nulls, .ofList ranges⟩

end Environment

namespace Heap

def keyText (key : FieldKey) : String := s!"o{key.1}" ++ key.2.render

def toJson (h : Heap) : Json :=
  .obj [("reachable", h.reachable), ("fields", .ofMap keyText HeapValue.toJson h.fields),
    ("initialized", .ofIds h.initialized), ("allocated", .ofIds h.allocated),
    ("summary", .ofIds h.summary),
    ("must_written", .ofSet (fun key => .arr [key.1, key.2.toJson]) h.mustWritten),
    ("may_written", .ofMap keyText HeapValue.toJson h.mayWritten),
    ("invalidated", .ofIds h.invalidated)]

end Heap

namespace ProgramState

def toJson (s : ProgramState) : Json := .obj [("env", s.env.toJson), ("heap", s.heap.toJson)]

end ProgramState

namespace HeapEffects

def toJson (e : HeapEffects) : Json :=
  let write (w : HeapWrite) : Json :=
    .obj [("object", w.object), ("field", w.field.toJson), ("value", w.value.toJson)]
  .obj [("allocations", .ofList (fun a => .obj [("object", a.object), ("summary", a.summary)])
      e.allocations),
    ("must_writes", .ofList write e.mustWrites), ("may_writes", .ofList write e.mayWrites),
    ("invalidated", .ofIds e.invalidated)]

def ofJson? (j : Json) : Option HeapEffects := do
  let allocation? (j : Json) : Option Allocation := do
    some ⟨← j.get? Json.id? "object", ← j.get? Json.bool? "summary"⟩
  let write? (j : Json) : Option HeapWrite := do
    some ⟨← j.get? Json.id? "object", ← j.get? HeapField.ofJson? "field",
      ← j.get? HeapValue.ofJson? "value"⟩
  some
    { allocations := ← j.get? (Json.list? allocation?) "allocations"
      mustWrites := ← j.get? (Json.list? write?) "must_writes"
      mayWrites := ← j.get? (Json.list? write?) "may_writes"
      invalidated := ← j.get? Json.ids? "invalidated" }

end HeapEffects

namespace FunctionSummary

def toJson (s : FunctionSummary) : Json :=
  .obj [("function", s.function), ("params", .ofStrings s.params),
    ("input", .ofMap (·) Value.toJson s.input), ("return_value", s.returnValue.toJson),
    ("effects", s.effects.toJson),
    ("call_targets", .ofMap toString (.ofSet .str) s.callTargets),
    ("exit_state", .ofMap (·) Value.toJson s.exitState),
    ("diagnostics", .ofList Diagnostic.toJson s.diagnostics), ("degraded", s.degraded),
    ("rounds", s.rounds)]

end FunctionSummary

end ValueFlow
