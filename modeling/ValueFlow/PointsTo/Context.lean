/-!
Calling contexts: the functions on a call path, of which the last few are kept.

A context ends with the function that is being analysed. Contexts are numbered in the order in
which they first occur.
-/

namespace ValueFlow

/-- The numbered contexts, each a path of functions of bounded length. -/
structure ContextTable where
  depth : Nat
  paths : Array (List Nat)

namespace ContextTable

def ofDepth (depth : Nat) : ContextTable := ⟨depth, #[]⟩

/-- The end of a path, no longer than the depth. -/
def limit (depth : Nat) (path : List Nat) : List Nat := path.drop (path.length - depth)

theorem length_limit_le (depth : Nat) (path : List Nat) : (limit depth path).length ≤ depth := by
  rw [limit, List.length_drop]
  omega

/-- The number of a path, which is added if it is new. -/
def intern (t : ContextTable) (path : List Nat) : Nat × ContextTable :=
  let path := limit t.depth path
  match t.paths.findIdx? (· = path) with
  | some id => (id, t)
  | none => (t.paths.size, { t with paths := t.paths.push path })

def path (t : ContextTable) (id : Nat) : List Nat := t.paths.getD id []

def root (t : ContextTable) (function : Nat) : Nat × ContextTable := t.intern [function]

/-- The context of a function called from another context. -/
def push (t : ContextTable) (caller callee : Nat) : Nat × ContextTable :=
  t.intern (t.path caller ++ [callee])

end ContextTable

end ValueFlow
