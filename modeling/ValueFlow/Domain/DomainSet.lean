/-!
Selections of the value domains an analysis tracks.
-/

namespace ValueFlow

/-- One of the three value domains. -/
inductive DomainKind where
  | sign
  | nullability
  | range
deriving DecidableEq, Repr

namespace DomainKind

/-- All domains in the order in which they are listed. -/
def all : List DomainKind := [.sign, .nullability, .range]

def name : DomainKind → String
  | sign => "sign"
  | nullability => "nullability"
  | range => "range"

/-- The domain of a name, in any letter case; every name consists of ASCII letters. -/
def ofName? (s : String) : Option DomainKind :=
  match s.toLower with
  | "sign" => some .sign
  | "nullability" => some .nullability
  | "range" | "interval" => some .range
  | _ => none

end DomainKind

structure DomainSet where
  sign : Bool
  nullability : Bool
  range : Bool
deriving DecidableEq, Repr

namespace DomainSet

def all : DomainSet := ⟨true, true, true⟩

def empty : DomainSet := ⟨false, false, false⟩

def contains (s : DomainSet) : DomainKind → Bool
  | .sign => s.sign
  | .nullability => s.nullability
  | .range => s.range

def insert (s : DomainSet) : DomainKind → DomainSet
  | .sign => { s with sign := true }
  | .nullability => { s with nullability := true }
  | .range => { s with range := true }

def only (d : DomainKind) : DomainSet := empty.insert d

def isEmpty (s : DomainSet) : Bool := !s.sign && !s.nullability && !s.range

def toList (s : DomainSet) : List DomainKind := DomainKind.all.filter s.contains

def names (s : DomainSet) : List String := s.toList.map DomainKind.name

def ofList (l : List DomainKind) : DomainSet := l.foldl insert empty

end DomainSet

end ValueFlow
