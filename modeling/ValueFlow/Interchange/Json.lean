import ValueFlow.Data.SortedMap
import ValueFlow.Data.SortedSet
/-!
The JSON documents in which programs, states and reports are exchanged.

Readers give nothing for a document of the wrong shape or a number out of range.
-/

namespace ValueFlow

/-- A JSON document whose numbers are integers. -/
inductive Json where
  | null
  | bool (b : Bool)
  | int (n : Int)
  /-- A number that is no integer; no reader accepts it. -/
  | fraction
  | str (s : String)
  | arr (items : List Json)
  | obj (fields : List (String × Json))
deriving Inhabited

namespace Json

instance : Coe String Json := ⟨.str⟩

instance : Coe Bool Json := ⟨.bool⟩

instance : Coe Int Json := ⟨.int⟩

instance : Coe Nat Json := ⟨fun n => .int n⟩

instance : Coe Int64 Json := ⟨fun n => .int n.toInt⟩

variable {α β : Type}

mutual

/-- How many levels of arrays and objects a document has, counted from one. -/
def height : Json → Nat
  | .arr items => heightAll items + 1
  | .obj fields => heightFields fields + 1
  | _ => 1

def heightAll : List Json → Nat
  | [] => 0
  | j :: rest => max j.height (heightAll rest)

/-- The greatest height of the values of several fields. -/
def heightFields : List (String × Json) → Nat
  | [] => 0
  | (_, j) :: rest => max j.height (heightFields rest)

end

def ofOption (f : α → Json) : Option α → Json
  | some a => f a
  | none => .null

def ofList (f : α → Json) (l : List α) : Json := .arr (l.map f)

def ofSet [SortKey α] (f : α → Json) (s : SortedSet α) : Json := ofList f s.toList

def ofIds (s : SortedSet Nat) : Json := ofSet (fun n : Nat => (n : Json)) s

def ofNats (l : List Nat) : Json := ofList (fun n : Nat => (n : Json)) l

def ofNat? (n : Option Nat) : Json := ofOption (fun n : Nat => (n : Json)) n

def ofStrings (l : List String) : Json := ofList .str l

def ofMap [SortKey α] (key : α → String) (f : β → Json) (m : SortedMap α β) : Json :=
  .obj (m.entries.map fun p => (key p.1, f p.2))

def field? (j : Json) (name : String) : Option Json :=
  match j with
  | .obj fields => (fields.find? fun p => p.1 = name).map Prod.snd
  | _ => none

def onlyField? : Json → Option (String × Json)
  | .obj [p] => some p
  | _ => none

def str? : Json → Option String
  | .str s => some s
  | _ => none

/-- Reads the name of a case without content. -/
def case? : Json → Option String
  | .str s => some s
  | .obj [(s, .null)] => some s
  | _ => none

def bool? : Json → Option Bool
  | .bool b => some b
  | _ => none

/-- Reads a natural number below a limit. -/
def below? (limit : Nat) : Json → Option Nat
  | .int n => if 0 ≤ n ∧ n < limit then some n.toNat else none
  | _ => none

/-- Reads an identifier, a number of 32 bits. -/
def id? : Json → Option Nat := below? UInt32.size

/-- Reads a count, a number of 64 bits. -/
def count? : Json → Option Nat := below? UInt64.size

def int64? : Json → Option Int64
  | .int n =>
      if Int64.minValue.toInt ≤ n ∧ n ≤ Int64.maxValue.toInt then some (Int64.ofInt n) else none
  | _ => none

def list? (f : Json → Option α) : Json → Option (List α)
  | .arr items => items.mapM f
  | _ => none

def fields? (f : Json → Option α) : Json → Option (List (String × α))
  | .obj fields => fields.mapM fun p => (f p.2).map (p.1, ·)
  | _ => none

def ids? (j : Json) : Option (SortedSet Nat) := (list? id? j).map SortedSet.ofList

def option? (f : Json → Option α) : Json → Option (Option α)
  | .null => some none
  | j => (f j).map some

def get? (f : Json → Option α) (j : Json) (name : String) : Option α := j.field? name >>= f

def opt? (f : Json → Option α) (j : Json) (name : String) : Option (Option α) :=
  match j.field? name with
  | none => some none
  | some v => option? f v

end Json

end ValueFlow
