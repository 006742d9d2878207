import Mathlib.Tactic.IntervalCases
import ValueFlow.Config.Yaml
/-!
How words and numbers are read.

Keys, names and numbers of a document consist of letters, digits and underscores, so none of their
characters means anything to the reader. Main statements: `key?_word`, `inlineValue_word` and
`unsigned?_toString`.
-/

namespace ValueFlow

namespace Yaml

def isWordChar (c : Char) : Bool := c.isAlphanum || c = '_'

/-- Whether a text is one word. -/
structure IsWord (cs : List Char) : Prop where
  nonempty : cs ≠ []
  chars : ∀ c ∈ cs, isWordChar c = true

instance (cs : List Char) : Decidable (IsWord cs) :=
  decidable_of_iff (cs ≠ [] ∧ cs.all isWordChar = true)
    ⟨fun h => ⟨h.1, List.all_eq_true.1 h.2⟩, fun h => ⟨h.1, List.all_eq_true.2 h.2⟩⟩

theorem ne_of_isWordChar {c d : Char} (hc : isWordChar c = true) (hd : isWordChar d = false) :
    c ≠ d := by
  rintro rfl
  rw [hc] at hd
  cases hd

theorem not_mem_of_isWordChar {c : Char} {marks : List Char} (hc : isWordChar c = true)
    (hmarks : marks.any isWordChar = false) : c ∉ marks :=
  fun hmem => List.any_eq_false.1 hmarks c hmem hc

theorem isSpace_of_isWordChar {c : Char} (hc : isWordChar c = true) : isSpace c = false := by
  rw [isSpace, decide_eq_false (ne_of_isWordChar hc (by decide)),
    decide_eq_false (ne_of_isWordChar hc (by decide)), Bool.or_self]

variable {w tail : List Char}

theorem IsWord.exists_cons (h : IsWord w) :
    ∃ c cs, w = c :: cs ∧ isWordChar c = true := by
  cases w with
  | nil => exact absurd rfl h.nonempty
  | cons c cs => exact ⟨c, cs, rfl, h.chars c List.mem_cons_self⟩

theorem trimStart_word (h : IsWord w) (tail : List Char) : trimStart (w ++ tail) = w ++ tail := by
  obtain ⟨c, cs, rfl, hc⟩ := h.exists_cons
  rw [List.cons_append, trimStart, List.dropWhile_cons_of_neg]
  rw [isSpace_of_isWordChar hc]
  exact Bool.false_ne_true

theorem trimEnd_word (h : ∀ c ∈ w, isWordChar c = true) : trimEnd w = w := by
  cases hw : w.reverse with
  | nil => rw [trimEnd, hw, List.reverse_eq_nil_iff.1 hw]; rfl
  | cons c cs =>
      have hc := h c (List.mem_reverse.1 (hw ▸ List.mem_cons_self))
      rw [trimEnd, hw, List.dropWhile_cons_of_neg, ← hw, List.reverse_reverse]
      rw [isSpace_of_isWordChar hc]
      exact Bool.false_ne_true

theorem isDone_word (h : IsWord w) (tail : List Char) : isDone (w ++ tail) = false := by
  obtain ⟨c, cs, rfl, hc⟩ := h.exists_cons
  rw [isDone, trimStart_word h, List.cons_append]
  split
  · next heq => cases heq
  · next heq => exact absurd (List.cons.inj heq).1 (ne_of_isWordChar hc (by decide))
  · rfl

theorem trimStart_space (cs : List Char) : trimStart (' ' :: cs) = trimStart cs := rfl

theorem isDone_space (cs : List Char) : isDone (' ' :: cs) = isDone cs := rfl

theorem isItem_word (h : IsWord w) (tail : List Char) : isItem (w ++ tail) = false := by
  obtain ⟨c, cs, rfl, hc⟩ := h.exists_cons
  have hne : c ≠ '-' := ne_of_isWordChar hc (by decide)
  rw [List.cons_append]
  unfold isItem
  split
  · next heq => exact absurd (List.cons.inj heq).1 hne
  · next heq => exact absurd (List.cons.inj heq).1 hne
  · rfl

theorem startsPlain_word (h : IsWord w) (tail : List Char) : startsPlain (w ++ tail) = true := by
  obtain ⟨c, cs, rfl, hc⟩ := h.exists_cons
  have hmem {marks : List Char} (hmarks : marks.any isWordChar = false) :
      marks.contains c = false := by
    rw [← Bool.not_eq_true, List.contains_iff_mem]
    exact not_mem_of_isWordChar hc hmarks
  unfold startsPlain
  dsimp only [List.cons_append]
  rw [hmem (by decide), hmem (by decide), isSpace_of_isWordChar hc]
  rfl

theorem quoted?_word (h : IsWord w) (tail : List Char) : quoted? (w ++ tail) = none := by
  obtain ⟨c, cs, rfl, hc⟩ := h.exists_cons
  rw [List.cons_append]
  unfold quoted?
  split
  · next heq => exact absurd (List.cons.inj heq).1 (ne_of_isWordChar hc (by decide))
  · next heq => exact absurd (List.cons.inj heq).1 (ne_of_isWordChar hc (by decide))
  · rfl

/-- A word is part of a plain scalar as a whole. -/
theorem plainChars_append (h : ∀ c ∈ w, isWordChar c = true) (previous : Char) (tail : List Char) :
    ∃ last, plainChars previous (w ++ tail) =
      (w ++ (plainChars last tail).1, (plainChars last tail).2) := by
  induction w generalizing previous with
  | nil => exact ⟨previous, rfl⟩
  | cons c cs ih =>
      have hc := h c List.mem_cons_self
      obtain ⟨last, hlast⟩ := ih (fun d hd => h d (List.mem_cons_of_mem _ hd)) c
      refine ⟨last, ?_⟩
      rw [List.cons_append, plainChars, hlast,
        decide_eq_false (ne_of_isWordChar hc (d := ':') (by decide)),
        decide_eq_false (ne_of_isWordChar hc (d := '#') (by decide))]
      rfl

theorem plainChars_word (h : IsWord w) (previous : Char) : plainChars previous w = (w, []) := by
  obtain ⟨last, hlast⟩ := plainChars_append h.chars previous []
  rwa [List.append_nil, plainChars, List.append_nil] at hlast

theorem plainChars_key (h : IsWord w) (previous : Char) (htail : endsKey tail = true) :
    plainChars previous (w ++ ':' :: tail) = (w, ':' :: tail) := by
  obtain ⟨last, hlast⟩ := plainChars_append h.chars previous (':' :: tail)
  have hcolon : plainChars last (':' :: tail) = ([], ':' :: tail) := by
    simp [plainChars, htail]
  rw [hlast, hcolon, List.append_nil]

/-- A word in front of a colon is a key. -/
theorem key?_word (h : IsWord w) (htail : endsKey tail = true) :
    key? (w ++ ':' :: tail) = some (String.ofList w, tail) := by
  rw [key?, quoted?_word h, startsPlain_word h, if_pos rfl, plainChars_key h _ htail]
  show some (String.ofList (trimEnd w), tail) = _
  rw [trimEnd_word h.chars]

/-- A word alone is no key. -/
theorem key?_word_alone (h : IsWord w) : key? w = none := by
  have hquoted := quoted?_word h []
  have hplain := startsPlain_word h []
  rw [List.append_nil] at hquoted hplain
  rw [key?, hquoted, hplain, if_pos rfl, plainChars_word h]

/-- Whether the first of some lines, if there is one, does not continue what stands at an
indentation. -/
def Stops (indent : Nat) (lines : List Line) : Prop := ∀ line ∈ lines.head?, line.indent ≤ indent

theorem continuation_of_stops {indent : Nat} {lines : List Line} (h : Stops indent lines) :
    continuation indent lines = some ([], lines) := by
  cases lines with
  | nil => rfl
  | cons line rest => rw [continuation, if_pos (h line rfl)]

/-- A word is read as a plain scalar. -/
theorem inlineValue_word (h : IsWord w) {indent : Nat} {lines : List Line}
    (hlines : Stops indent lines) :
    inlineValue indent w lines = some (.scalar (String.ofList w) true, lines) := by
  have hplain := startsPlain_word h []
  rw [List.append_nil] at hplain
  obtain ⟨c, cs, rfl, hc⟩ := h.exists_cons
  unfold inlineValue
  split
  · next heq => exact absurd (List.cons.inj heq).1 (ne_of_isWordChar hc (by decide))
  · next heq => exact absurd (List.cons.inj heq).1 (ne_of_isWordChar hc (by decide))
  · next heq => exact absurd (List.cons.inj heq).1 (ne_of_isWordChar hc (by decide))
  · next heq => exact absurd (List.cons.inj heq).1 (ne_of_isWordChar hc (by decide))
  · rw [hplain, if_pos rfl, plainChars_word h]
    dsimp only
    rw [continuation_of_stops hlines]
    simp [trimEnd_word h.chars]

section Numbers

theorem hexDigit?_digitChar {d : Nat} (h : d < 10) : hexDigit? d.digitChar = some d := by
  interval_cases d <;> rfl

theorem foldl_toDigits (n : Nat) :
    (Nat.toDigits 10 n).foldl (fun acc c => do
      let m ← acc
      let d ← hexDigit? c
      if d < 10 then some (m * 10 + d) else none) (some 0) = some n := by
  induction n using Nat.strongRecOn with
  | ind n ih =>
      by_cases hn : n < 10
      · rw [Nat.toDigits_of_lt_base hn, List.foldl_cons, List.foldl_nil]
        simp [hexDigit?_digitChar hn, hn]
      · have hle : 10 ≤ n := Nat.le_of_not_lt hn
        have hmod : n % 10 < 10 := Nat.mod_lt n (by decide)
        rw [Nat.toDigits_of_base_le (by decide) hle, List.foldl_append,
          ih (n / 10) (by omega), List.foldl_cons, List.foldl_nil]
        simp only [Option.bind_eq_bind, Option.bind_some, hexDigit?_digitChar hmod, if_pos hmod]
        congr 1
        omega

/-- A decimal number starts with a digit, which is zero only for zero. -/
theorem exists_toDigits (n : Nat) : ∃ c cs, Nat.toDigits 10 n = c :: cs ∧ (c = '0' → n = 0) := by
  induction n using Nat.strongRecOn with
  | ind n ih =>
      by_cases hn : n < 10
      · refine ⟨_, [], Nat.toDigits_of_lt_base hn, ?_⟩
        interval_cases n <;> decide
      · have hle : 10 ≤ n := Nat.le_of_not_lt hn
        obtain ⟨c, cs, hdigits, hzero⟩ := ih (n / 10) (by omega)
        refine ⟨c, cs ++ [(n % 10).digitChar], ?_, fun hc => ?_⟩
        · rw [Nat.toDigits_of_base_le (by decide) hle, hdigits, List.cons_append]
        · have := hzero hc
          omega

theorem isWord_toDigits (n : Nat) : IsWord (Nat.toDigits 10 n) where
  nonempty := Nat.toDigits_ne_nil
  chars c hc := by
    have hdigit := Nat.isDigit_of_mem_toDigits (by decide) (by decide) hc
    rw [isWordChar, Char.isAlphanum, hdigit, Bool.or_true, Bool.true_or]

/-- A number is read as it was written. -/
theorem unsigned?_toString (n : Nat) : unsigned? (toString n) = some n := by
  obtain ⟨c, cs, hdigits, hzero⟩ := exists_toDigits n
  have hword := (isWord_toDigits n).chars c (hdigits ▸ List.mem_cons_self)
  have hnumber : number? 10 (c :: cs) = some n := by
    rw [← hdigits, number?, if_neg (by simp [hdigits])]
    exact foldl_toDigits n
  have hplus : c ≠ '+' := ne_of_isWordChar hword (by decide)
  by_cases hc : c = '0'
  · rw [hzero hc]
    decide
  · simp [unsigned?, hdigits, hplus, hc, hnumber]

end Numbers

end Yaml

end ValueFlow
