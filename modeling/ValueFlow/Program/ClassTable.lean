import ValueFlow.Program.Index
/-!
The classes of a program and how they inherit.

A method is looked up in the class itself and then in its bases, depth first and from left to
right. A base that the program does not define contributes nothing, and no class is met twice, so
base lists may be cyclic.
-/

namespace ValueFlow

/-- A class with the methods its body defines. -/
structure ClassInfo where
  name : String
  bases : List String
  methods : SortedMap String Nat

/-- The classes of a program by name; of two definitions the later counts. -/
structure ClassTable where
  classes : SortedMap String ClassInfo

namespace ClassTable

def constructorName : String := "__init__"

def infoOf (ix : ProgramIndex) (c : ClassDef) : ClassInfo where
  name := c.name
  bases := c.bases
  methods := .ofList <| c.methods.filterMap fun m =>
    (ix.lookup? (c.name ++ "." ++ m.name)).map (m.name, ·)

def build (ix : ProgramIndex) : ClassTable :=
  ⟨.ofList (ix.classes.map fun c => (c.name, infoOf ix c))⟩

def class? (t : ClassTable) (name : String) : Option ClassInfo := t.classes.get? name

def contains (t : ClassTable) (name : String) : Bool := t.classes.contains name

/-- How many classes and bases of classes among some entries have not been met. -/
def unmetOf (met : List String) : List (String × ClassInfo) → Nat
  | [] => 0
  | e :: rest => (if e.1 ∉ met then e.2.bases.length + 1 else 0) + unmetOf met rest

/-- How many classes and bases of classes have not been met. -/
def unmet (t : ClassTable) (met : List String) : Nat := unmetOf met t.classes.entries

theorem unmetOf_cons (met : List String) (e : String × ClassInfo)
    (rest : List (String × ClassInfo)) : unmetOf met (e :: rest) =
      (if e.1 ∉ met then e.2.bases.length + 1 else 0) + unmetOf met rest := rfl

theorem unmetOf_met_cons_le (c : String) (met : List String)
    (entries : List (String × ClassInfo)) : unmetOf (c :: met) entries ≤ unmetOf met entries := by
  induction entries with
  | nil => exact Nat.le_refl _
  | cons e rest ih =>
      rw [unmetOf_cons, unmetOf_cons]
      by_cases he : e.1 ∈ met
      · simpa [he] using ih
      · by_cases hc : e.1 = c
        · simp [hc]
          omega
        · simp [he, hc, ih]

theorem unmetOf_met_cons_lt {entries : List (String × ClassInfo)} {met : List String} {c : String}
    {info : ClassInfo} (hc : (c, info) ∈ entries) (hm : c ∉ met) :
    info.bases.length + unmetOf (c :: met) entries < unmetOf met entries := by
  induction entries with
  | nil => exact nomatch hc
  | cons e rest ih =>
      rw [unmetOf_cons, unmetOf_cons]
      rcases List.mem_cons.1 hc with rfl | hc
      · have hle := unmetOf_met_cons_le c met rest
        simp only [List.mem_cons, true_or, not_true_eq_false, if_false, hm, not_false_eq_true,
          if_true]
        omega
      · have hlt := ih hc
        by_cases he : e.1 ∈ c :: met
        · rw [if_neg (not_not_intro he)]
          omega
        · rw [if_pos he, if_pos fun hmet => he (List.mem_cons_of_mem _ hmet)]
          omega

/-- Meeting a class of the table leaves less to meet, its bases counted. -/
theorem unmet_cons_lt {t : ClassTable} {met : List String} {c : String} {info : ClassInfo}
    (h : t.class? c = some info) (hm : c ∉ met) :
    info.bases.length + t.unmet (c :: met) < t.unmet met :=
  unmetOf_met_cons_lt (SortedMap.get?_eq_some_iff.1 h) hm

/-- Meets the pending classes in order, each followed by its bases. The classes met are kept
latest first. -/
def climb (t : ClassTable) (pending met : List String) : List String :=
  match pending with
  | [] => met
  | c :: rest =>
      match _h : t.class? c with
      | none => climb t rest met
      | some info =>
          if _hm : c ∈ met then climb t rest met
          else climb t (info.bases ++ rest) (c :: met)
termination_by t.unmet met + pending.length
decreasing_by
  · exact Nat.lt_succ_self _
  · exact Nat.lt_succ_self _
  · have := unmet_cons_lt _h _hm
    rw [List.length_append, List.length_cons]
    omega

/-- A class and the classes it inherits from, in the order in which methods are looked up. -/
def ancestors (t : ClassTable) (name : String) : List String := (t.climb [name] []).reverse

/-- The method that a class defines itself. -/
def ownMethod? (t : ClassTable) (name method : String) : Option Nat := do
  (← t.class? name).methods.get? method

/-- The nearest definition of a method. -/
def lookup? (t : ClassTable) (name method : String) : Option Nat :=
  (t.ancestors name).findSome? (t.ownMethod? · method)

/-- The method that a constructor call of a class runs. -/
def constructor? (t : ClassTable) (name : String) : Option Nat := t.lookup? name constructorName

/-- Every definition of a method in any class. -/
def definitions (t : ClassTable) (method : String) : SortedSet Nat :=
  .ofList (t.classes.values.filterMap fun info => info.methods.get? method)

def isSubclass (t : ClassTable) (name ancestor : String) : Bool :=
  (t.ancestors name).contains ancestor

/-- The methods that a call runs on receivers of the given classes. -/
def dispatch (t : ClassTable) (method : String) (classes : List String) : SortedSet Nat :=
  .ofList (classes.filterMap (t.lookup? · method))

end ClassTable

end ValueFlow
