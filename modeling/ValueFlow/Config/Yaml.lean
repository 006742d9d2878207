/-!
A reader for the part of YAML that configuration documents use: block mappings and lists, flow
collections, plain and quoted scalars, comments, and one document with optional markers.
-/

namespace ValueFlow

namespace Yaml

/-- A node of a document. Keys are scalars, so their texts stand for them. -/
inductive Node where
  | scalar (text : String) (plain : Bool)
  | seq (items : List Node)
  | map (entries : List (String × Node))

def Node.blank : Node := .scalar "" true

namespace Node

/-- The node, unless it stands for a missing value. -/
def present? : Node → Option Node
  | .scalar text true =>
      if ["", "~", "null", "Null", "NULL"].contains text then none else some (.scalar text true)
  | node => some node

def text? : Node → Option String
  | .scalar text _ => some text
  | _ => none

/-- The truth value of a plain scalar. -/
def bool? : Node → Option Bool
  | .scalar text true =>
      if ["true", "True", "TRUE"].contains text then some true
      else if ["false", "False", "FALSE"].contains text then some false
      else none
  | _ => none

def texts? : Node → Option (List String)
  | .seq items => items.mapM text?
  | _ => none

end Node

/-- A line without its indentation and line end. -/
structure Line where
  indent : Nat
  text : List Char

/-- Whether a character separates words within a line. -/
def isSpace (c : Char) : Bool := c = ' ' || c = '\t'

def trimStart (cs : List Char) : List Char := cs.dropWhile isSpace

def trimEnd (cs : List Char) : List Char := (cs.reverse.dropWhile isSpace).reverse

/-- Whether nothing or only a comment is left of a line. -/
def isDone (cs : List Char) : Bool :=
  match trimStart cs with
  | [] => true
  | '#' :: _ => true
  | _ => false

/-- Whether only white space is left of a line, or a comment set off by white space. -/
def isClosed : List Char → Bool
  | [] => true
  | c :: cs => isSpace c && isDone cs

/-- Splits a text at its line ends. -/
def splitLines : List Char → List (List Char)
  | [] => [[]]
  | '\r' :: '\n' :: cs => [] :: splitLines cs
  | c :: cs =>
      if c = '\n' || c = '\r' then [] :: splitLines cs
      else
        match splitLines cs with
        | [] => [[c]]
        | line :: rest => (c :: line) :: rest

def Line.ofChars (cs : List Char) : Line :=
  ⟨(cs.takeWhile (· = ' ')).length, cs.dropWhile (· = ' ')⟩

def isItem : List Char → Bool
  | ['-'] => true
  | '-' :: c :: _ => isSpace c
  | _ => false

/-- Whether a plain scalar may start with the first character. -/
def startsPlain : List Char → Bool
  | [] => false
  | c :: cs =>
      if ['-', '?', ':'].contains c then
        match cs with
        | [] => false
        | d :: _ => !isSpace d
      else !(isSpace c || [',', '[', ']', '\x7b', '\x7d', '#', '&', '*', '!', '|', '>', '\'', '"',
        '%', '@', '\x60'].contains c)

/-- Whether a colon in front of these characters ends a block key. -/
def endsKey : List Char → Bool
  | [] => true
  | c :: _ => isSpace c || c = '\n'

/-- A plain scalar of a block line up to a comment or a colon that ends a key. -/
def plainChars (previous : Char) : List Char → List Char × List Char
  | [] => ([], [])
  | c :: cs =>
      if (c = ':' && endsKey cs) || (c = '#' && isSpace previous) then ([], c :: cs)
      else
        let (word, rest) := plainChars c cs
        (c :: word, rest)

def hexDigit? (c : Char) : Option Nat :=
  if '0' ≤ c ∧ c ≤ '9' then some (c.toNat - '0'.toNat)
  else if 'a' ≤ c ∧ c ≤ 'f' then some (c.toNat - 'a'.toNat + 10)
  else if 'A' ≤ c ∧ c ≤ 'F' then some (c.toNat - 'A'.toNat + 10)
  else none

def number? (base : Nat) (digits : List Char) : Option Nat :=
  if digits.isEmpty then none
  else
    digits.foldl
      (fun acc c => do
        let n ← acc
        let d ← hexDigit? c
        if d < base then some (n * base + d) else none)
      (some 0)

/-- The number written by a plain scalar: decimal without leading zeros, or with a base mark, after
an optional plus sign. -/
def unsigned? (text : String) : Option Nat :=
  let digits :=
    match text.toList with
    | '+' :: cs => cs
    | cs => cs
  match digits with
  | '0' :: 'x' :: cs => number? 16 cs
  | '0' :: 'o' :: cs => number? 8 cs
  | '0' :: 'b' :: cs => number? 2 cs
  | '0' :: _ :: _ => none
  | cs => number? 10 cs

def Node.numberBelow? (limit : Nat) : Node → Option Nat
  | .scalar text true => do
      let n ← unsigned? text
      if n < limit then some n else none
  | _ => none

def codePoint? (digits : List Char) : Option Char := do
  let n ← number? 16 digits
  if n.isValidChar then some (Char.ofNat n) else none

def simpleEscape? : Char → Option Char
  | '0' => some '\x00'
  | 'a' => some '\x07'
  | 'b' => some '\x08'
  | 't' => some '\t'
  | '\t' => some '\t'
  | 'n' => some '\n'
  | 'v' => some '\x0b'
  | 'f' => some '\x0c'
  | 'r' => some '\r'
  | 'e' => some '\x1b'
  | ' ' => some ' '
  | '"' => some '"'
  | '/' => some '/'
  | '\\' => some '\\'
  | 'N' => some '\u0085'
  | '_' => some '\u00a0'
  | 'L' => some '\u2028'
  | 'P' => some '\u2029'
  | _ => none

/-- A double-quoted scalar after its opening quote, and what follows it. -/
def doubleQuoted : List Char → Option (List Char × List Char)
  | [] => none
  | '"' :: cs => some ([], cs)
  | '\\' :: 'x' :: a :: b :: cs => do
      let c ← codePoint? [a, b]
      let (text, rest) ← doubleQuoted cs
      some (c :: text, rest)
  | '\\' :: 'u' :: a :: b :: c :: d :: cs => do
      let e ← codePoint? [a, b, c, d]
      let (text, rest) ← doubleQuoted cs
      some (e :: text, rest)
  | '\\' :: 'U' :: a :: b :: c :: d :: e :: f :: g :: h :: cs => do
      let i ← codePoint? [a, b, c, d, e, f, g, h]
      let (text, rest) ← doubleQuoted cs
      some (i :: text, rest)
  | '\\' :: c :: cs => do
      let e ← simpleEscape? c
      let (text, rest) ← doubleQuoted cs
      some (e :: text, rest)
  | c :: cs =>
      if c = '\n' then none
      else do
        let (text, rest) ← doubleQuoted cs
        some (c :: text, rest)

/-- A single-quoted scalar after its opening quote, and what follows it; a quote in it is doubled. -/
def singleQuoted : List Char → Option (List Char × List Char)
  | [] => none
  | '\'' :: '\'' :: cs => do
      let (text, rest) ← singleQuoted cs
      some ('\'' :: text, rest)
  | '\'' :: cs => some ([], cs)
  | c :: cs =>
      if c = '\n' then none
      else do
        let (text, rest) ← singleQuoted cs
        some (c :: text, rest)

/-- A quoted scalar at the start of a text, and what follows it. -/
def quoted? : List Char → Option (String × List Char)
  | '"' :: cs => (doubleQuoted cs).map fun p => (String.ofList p.1, p.2)
  | '\'' :: cs => (singleQuoted cs).map fun p => (String.ofList p.1, p.2)
  | _ => none

/-- The key at the start of a line of a block mapping, and what follows its colon. -/
def key? (cs : List Char) : Option (String × List Char) :=
  match quoted? cs with
  | some (key, rest) =>
      match trimStart rest with
      | ':' :: after => if endsKey after then some (key, after) else none
      | _ => none
  | none =>
      if startsPlain cs then
        match plainChars ' ' cs with
        | (word, ':' :: after) => some (String.ofList (trimEnd word), after)
        | _ => none
      else none

/-- Skips white space, line ends and comments between the parts of a flow collection. -/
def skipFlow (comment : Bool) : List Char → List Char
  | [] => []
  | c :: cs =>
      if comment then skipFlow (c != '\n') cs
      else if isSpace c || c = '\n' then
        match cs with
        | '#' :: _ => skipFlow true cs
        | _ => skipFlow false cs
      else c :: cs

/-- Whether a character ends a plain scalar of a flow collection. -/
def isFlowIndicator (c : Char) : Bool := [',', '[', ']', '\x7b', '\x7d'].contains c

/-- Whether a colon in front of these characters ends a flow key. -/
def endsFlowKey : List Char → Bool
  | [] => true
  | c :: _ => isSpace c || c = '\n' || isFlowIndicator c

/-- A plain scalar of a flow collection, and what follows it. -/
def flowPlain (previous : Char) : List Char → List Char × List Char
  | [] => ([], [])
  | c :: cs =>
      if isFlowIndicator c || c = '\n' || (c = ':' && endsFlowKey cs)
          || (c = '#' && isSpace previous) then ([], c :: cs)
      else
        let (word, rest) := flowPlain c cs
        (c :: word, rest)

/-- A scalar of a flow collection, and what follows it. -/
def flowScalar? (cs : List Char) : Option (String × Bool × List Char) :=
  match quoted? cs with
  | some (text, rest) => some (text, false, rest)
  | none =>
      if startsPlain cs then
        let (word, rest) := flowPlain ' ' cs
        some (String.ofList (trimEnd word), true, rest)
      else none

mutual

/-- A flow node, and what follows it. The number bounds the length of the text. -/
def flowNode : Nat → List Char → Option (Node × List Char)
  | 0, _ => none
  | n + 1, '[' :: cs => do
      let (items, rest) ← flowItems n (skipFlow false cs)
      some (.seq items, rest)
  | n + 1, '\x7b' :: cs => do
      let (entries, rest) ← flowEntries n (skipFlow false cs)
      some (.map entries, rest)
  | _ + 1, cs => do
      let (text, plain, rest) ← flowScalar? cs
      some (.scalar text plain, rest)

/-- The items of a flow list up to its closing bracket, and what follows it. -/
def flowItems : Nat → List Char → Option (List Node × List Char)
  | 0, _ => none
  | _ + 1, ']' :: cs => some ([], cs)
  | n + 1, cs => do
      let (item, rest) ← flowNode n cs
      match skipFlow false rest with
      | ',' :: rest => do
          let (items, rest) ← flowItems n (skipFlow false rest)
          some (item :: items, rest)
      | ']' :: rest => some ([item], rest)
      | _ => none

/-- The entries of a flow mapping up to its closing brace, and what follows it. -/
def flowEntries : Nat → List Char → Option (List (String × Node) × List Char)
  | 0, _ => none
  | _ + 1, '\x7d' :: cs => some ([], cs)
  | n + 1, cs => do
      let (key, plain, rest) ← flowScalar? cs
      let (value, rest) ←
        match skipFlow false rest with
        | ':' :: rest =>
            if plain && !endsFlowKey rest then none
            else
              match skipFlow false rest with
              | ',' :: rest => some (Node.blank, ',' :: rest)
              | '\x7d' :: rest => some (Node.blank, '\x7d' :: rest)
              | rest => flowNode n rest
        | rest => some (Node.blank, rest)
      match skipFlow false rest with
      | ',' :: rest => do
          let (entries, rest) ← flowEntries n (skipFlow false rest)
          some ((key, value) :: entries, rest)
      | '\x7d' :: rest => some ([(key, value)], rest)
      | _ => none

end

/-- The lines that continue a plain scalar below a given indentation, and the others. -/
def continuation (indent : Nat) : List Line → Option (List Char × List Line)
  | [] => some ([], [])
  | line :: rest =>
      if line.indent ≤ indent then some ([], line :: rest)
      else
        match plainChars ' ' line.text with
        | (word, []) => do
            let (more, rest) ← continuation indent rest
            some (' ' :: trimEnd word ++ more, rest)
        | (word, '#' :: _) => some (' ' :: trimEnd word, rest)
        | _ => none

/-- A value that starts within a line, below a mapping or list of the given indentation. -/
def inlineValue (indent : Nat) (cs : List Char) (lines : List Line) : Option (Node × List Line) :=
  match cs with
  | '"' :: _ | '\'' :: _ => do
      let (text, rest) ← quoted? cs
      if isClosed rest then some (.scalar text false, lines) else none
  | '[' :: _ | '\x7b' :: _ => do
      let text := lines.foldl (fun acc line => acc ++ '\n' :: line.text) cs
      let (node, rest) ← flowNode (text.length + 1) text
      let kept := (rest.filter (· = '\n')).length
      if isClosed (rest.takeWhile (· ≠ '\n')) then some (node, lines.drop (lines.length - kept))
      else none
  | _ =>
      if startsPlain cs then
        match plainChars ' ' cs with
        | (word, []) => do
            let (more, rest) ← continuation indent lines
            some (.scalar (String.ofList (trimEnd word ++ more)) true, rest)
        | (word, '#' :: _) => some (.scalar (String.ofList (trimEnd word)) true, lines)
        | _ => none
      else none

mutual

/-- The node whose first line comes first. The number bounds the depth of the reading. -/
def block : Nat → List Line → Option (Node × List Line)
  | 0, _ => none
  | _ + 1, [] => none
  | n + 1, line :: rest =>
      if isItem line.text then do
        let (items, rest) ← items n line.indent (line :: rest)
        some (.seq items, rest)
      else if (key? line.text).isSome then do
        let (entries, rest) ← entries n line.indent (line :: rest)
        some (.map entries, rest)
      else inlineValue (line.indent - 1) line.text rest

/-- The value below a line of the given indentation that holds none itself. `aligned` admits a
list at the same indentation. -/
def below : Nat → Bool → Nat → List Line → Option (Node × List Line)
  | 0, _, _, _ => none
  | _ + 1, _, _, [] => some (.blank, [])
  | n + 1, aligned, indent, line :: rest =>
      if indent < line.indent then block n (line :: rest)
      else if aligned && line.indent = indent && isItem line.text then do
        let (items, rest) ← items n indent (line :: rest)
        some (.seq items, rest)
      else some (.blank, line :: rest)

/-- The entries of a block mapping of the given indentation. -/
def entries : Nat → Nat → List Line → Option (List (String × Node) × List Line)
  | 0, _, _ => none
  | _ + 1, _, [] => some ([], [])
  | n + 1, indent, line :: rest =>
      if line.indent < indent then some ([], line :: rest)
      else if indent < line.indent || isItem line.text then none
      else do
        let (key, after) ← key? line.text
        let (value, rest) ←
          if isDone after then below n true indent rest
          else inlineValue indent (trimStart after) rest
        let (more, rest) ← entries n indent rest
        some ((key, value) :: more, rest)

/-- The items of a block list of the given indentation. -/
def items : Nat → Nat → List Line → Option (List Node × List Line)
  | 0, _, _ => none
  | _ + 1, _, [] => some ([], [])
  | n + 1, indent, line :: rest =>
      if line.indent < indent then some ([], line :: rest)
      else if indent < line.indent then none
      else if !isItem line.text then some ([], line :: rest)
      else do
        let after := line.text.drop 1
        let content := trimStart after
        let (value, rest) ←
          if isDone after then below n false indent rest
          else if isItem content || (key? content).isSome then
            block n (⟨indent + 1 + (after.length - content.length), content⟩ :: rest)
          else inlineValue indent content rest
        let (more, rest) ← items n indent rest
        some (value :: more, rest)

end

/-- Whether a line is a document marker made of the given character. -/
def isMarker (mark : Char) (line : Line) : Bool :=
  line.indent = 0 &&
    match line.text with
    | a :: b :: c :: rest => a = mark && b = mark && c = mark && endsKey rest
    | _ => false

/-- The only node of a document. -/
def document (lines : List Line) : Option Node := do
  let size := lines.foldl (fun n line => n + line.indent + line.text.length + 1) 1
  let (head, body) :=
    match lines with
    | first :: rest => if isMarker '-' first then (first.text.drop 3, rest) else ([], lines)
    | [] => ([], [])
  let content := body.takeWhile fun line => !isMarker '.' line
  let ending := body.dropWhile fun line => !isMarker '.' line
  if content.any (isMarker '-') || !ending.all (isMarker '.') then none
  else
    let (node, rest) ←
      if isDone head then block (2 * size) content
      else inlineValue 0 (trimStart head) content
    if rest.isEmpty then some node else none

def withoutMark : List Char → List Char
  | '\ufeff' :: cs => cs
  | cs => cs

/-- Reads a document; a text that is none, or more than one, gives nothing. -/
def read (text : String) : Option Node :=
  let lines := (splitLines (withoutMark text.toList)).map Line.ofChars
  document (lines.filter fun line => !isDone line.text)

end Yaml

end ValueFlow
