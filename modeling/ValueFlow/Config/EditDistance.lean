/-!
The edit distance of two texts, one row of the table at a time.
-/

namespace ValueFlow

namespace EditDistance

/-- The cells right of a known cell: `diagonal` is the cell above the last known one. -/
def extendRow (c : Char) (diagonal left : Nat) : List Char → List Nat → List Nat
  | d :: ds, above :: row =>
      let cell := min (min (above + 1) (left + 1)) (diagonal + if c = d then 0 else 1)
      cell :: extendRow c above cell ds row
  | _, _ => []

/-- The row after one more character of the first text. -/
def nextRow (t : List Char) (row : List Nat) (c : Char) : List Nat :=
  match row with
  | [] => []
  | first :: rest => (first + 1) :: extendRow c first (first + 1) t rest

/-- The distances of every beginning of the second text to the first text. -/
def lastRow (s t : List Char) : List Nat :=
  s.foldl (nextRow t) (List.range (t.length + 1))

end EditDistance

/-- The least number of insertions, deletions and substitutions of characters that turn the first
text into the second. -/
def editDistance (s t : String) : Nat :=
  (EditDistance.lastRow s.toList t.toList).getLastD 0

/-- The first candidate at the least distance from a text. -/
def closest? (s : String) (candidates : List String) : Option String :=
  candidates.foldl
    (fun best c =>
      match best with
      | none => some c
      | some b => if editDistance s c < editDistance s b then some c else some b)
    none

end ValueFlow
