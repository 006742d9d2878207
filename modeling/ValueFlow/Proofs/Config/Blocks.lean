import Mathlib.Data.List.TakeWhile
import ValueFlow.Proofs.Config.Words
/-!
Block mappings are read as they are written.

`Writes` says which lines write a setting: one line for a word, a line for each item of a list, and
the lines of the settings below for a mapping. Main statements: `entries_writesAll`, the reader
gives back the settings that lines write, and `document_writesAll` for whole documents.
-/

namespace ValueFlow

namespace Yaml

mutual

/-- The lines that write a setting at an indentation. -/
inductive Writes : Nat → String → Node → List Line → Prop
  | word {indent : Nat} {key value : String} (hkey : IsWord key.toList)
      (hvalue : IsWord value.toList) :
      Writes indent key (.scalar value true)
        [⟨indent, key.toList ++ ':' :: ' ' :: value.toList⟩]
  | noItems {indent : Nat} {key : String} (hkey : IsWord key.toList) :
      Writes indent key (.seq []) [⟨indent, key.toList ++ [':', ' ', '[', ']']⟩]
  | list {indent : Nat} {key first : String} {more : List String} (hkey : IsWord key.toList)
      (hitems : ∀ item ∈ first :: more, IsWord item.toList) :
      Writes indent key (.seq ((first :: more).map (.scalar · true)))
        (⟨indent, key.toList ++ [':']⟩ ::
          (first :: more).map fun item => ⟨indent, '-' :: ' ' :: item.toList⟩)
  | map {indent inner : Nat} {key : String} {settings : List (String × Node)} {lines : List Line}
      (hkey : IsWord key.toList) (hinner : indent < inner) (hne : settings ≠ [])
      (h : WritesAll inner settings lines) :
      Writes indent key (.map settings) (⟨indent, key.toList ++ [':']⟩ :: lines)

/-- The lines that write settings one after the other at an indentation. -/
inductive WritesAll : Nat → List (String × Node) → List Line → Prop
  | nil {indent : Nat} : WritesAll indent [] []
  | cons {indent : Nat} {key : String} {node : Node} {lines more : List Line}
      {settings : List (String × Node)} (h : Writes indent key node lines)
      (hs : WritesAll indent settings more) :
      WritesAll indent ((key, node) :: settings) (lines ++ more)

end

/-- Whether a line consists of a word with an ending, or of an item that is a word. -/
def Line.IsWritten (line : Line) : Prop := ∃ w tail, IsWord w ∧
  (∀ c ∈ tail, c ∉ ['\n', '\r', '\ufeff']) ∧ (line.text = w ++ tail ∨ line.text = '-' :: ' ' :: w)

variable {indent n : Nat} {key : String} {node : Node} {lines rest : List Line}
  {settings : List (String × Node)}

theorem not_mem_marks {c : Char} (h : isWordChar c = true) : c ∉ ['\n', '\r', '\ufeff'] :=
  not_mem_of_isWordChar h rfl

mutual

theorem Writes.isWritten : ∀ {indent : Nat} {key : String} {node : Node} {lines : List Line},
    Writes indent key node lines → ∀ line ∈ lines, line.IsWritten
  | _, _, _, _, .word hkey hvalue => by
      intro line hline
      rw [List.mem_singleton.1 hline]
      refine ⟨_, _, hkey, fun c hc => ?_, .inl rfl⟩
      rcases List.mem_cons.1 hc with rfl | hc
      · decide
      · rcases List.mem_cons.1 hc with rfl | hc
        · decide
        · exact not_mem_marks (hvalue.chars c hc)
  | _, _, _, _, .noItems hkey => by
      intro line hline
      rw [List.mem_singleton.1 hline]
      exact ⟨_, _, hkey, by simp, .inl rfl⟩
  | _, _, _, _, .list hkey hitems => by
      intro line hline
      rcases List.mem_cons.1 hline with rfl | hline
      · exact ⟨_, _, hkey, by simp, .inl rfl⟩
      · obtain ⟨item, hitem, rfl⟩ := List.mem_map.1 hline
        exact ⟨_, [], hitems item hitem, List.forall_mem_nil _, .inr rfl⟩
  | _, _, _, _, .map hkey _ _ h => by
      intro line hline
      rcases List.mem_cons.1 hline with rfl | hline
      · exact ⟨_, _, hkey, by simp, .inl rfl⟩
      · exact h.isWritten line hline

theorem WritesAll.isWritten : ∀ {indent : Nat} {settings : List (String × Node)}
    {lines : List Line}, WritesAll indent settings lines → ∀ line ∈ lines, line.IsWritten
  | _, _, _, .nil => fun _ hline => nomatch hline
  | _, _, _, .cons h hs => by
      intro line hline
      rcases List.mem_append.1 hline with hline | hline
      · exact h.isWritten line hline
      · exact hs.isWritten line hline

end

/-- The first line that writes a setting holds its key. -/
theorem Writes.exists_cons (h : Writes indent key node lines) : ∃ tail more,
    lines = ⟨indent, key.toList ++ ':' :: tail⟩ :: more ∧ IsWord key.toList ∧
      endsKey tail = true := by
  cases h with
  | word hkey _ => exact ⟨_, _, rfl, hkey, rfl⟩
  | noItems hkey => exact ⟨_, _, rfl, hkey, rfl⟩
  | list hkey _ => exact ⟨_, _, rfl, hkey, rfl⟩
  | map hkey _ _ _ => exact ⟨_, _, rfl, hkey, rfl⟩

theorem WritesAll.exists_cons (h : WritesAll indent settings lines) (hne : settings ≠ []) :
    ∃ key tail more, lines = ⟨indent, key ++ ':' :: tail⟩ :: more ∧ IsWord key ∧
      endsKey tail = true := by
  cases h with
  | nil => exact absurd rfl hne
  | cons h _ =>
      obtain ⟨tail, more, rfl, hkey, htail⟩ := h.exists_cons
      exact ⟨_, tail, _, rfl, hkey, htail⟩

/-- Whether lines may follow a setting at an indentation. -/
structure Follows (indent : Nat) (rest : List Line) : Prop where
  head : ∀ line ∈ rest.head?,
    line.indent < indent ∨ line.indent = indent ∧ isItem line.text = false
  plain : ∀ line ∈ rest, '\n' ∉ line.text

theorem Follows.stops (h : Follows indent rest) : Stops indent rest :=
  fun line hline => (h.head line hline).elim Nat.le_of_lt fun h => Nat.le_of_eq h.1

/-- Words that are items are read as a list. -/
theorem items_words {words : List String} (hwords : ∀ item ∈ words, IsWord item.toList)
    (hrest : Follows indent rest) (hn : words.length < n) :
    items n indent (words.map (fun item => ⟨indent, '-' :: ' ' :: item.toList⟩) ++ rest) =
      some (words.map (.scalar · true), rest) := by
  induction words generalizing n with
  | nil =>
      obtain ⟨n, rfl⟩ := Nat.exists_eq_add_one_of_ne_zero (Nat.ne_of_gt hn)
      cases rest with
      | nil => rfl
      | cons line rest =>
          rw [List.map_nil, List.nil_append, items]
          rcases hrest.head line rfl with hlt | ⟨heq, hitem⟩
          · rw [if_pos hlt]
            rfl
          · rw [hitem, heq, if_neg (Nat.lt_irrefl _), if_neg (Nat.lt_irrefl _)]
            rfl
  | cons item words ih =>
      obtain ⟨n, rfl⟩ := Nat.exists_eq_add_one_of_ne_zero (Nat.ne_of_gt (Nat.zero_lt_of_lt hn))
      have hword := hwords item List.mem_cons_self
      have hmore := ih (fun a ha => hwords a (List.mem_cons_of_mem _ ha))
        (Nat.lt_of_succ_lt_succ hn)
      have hstops : Stops indent
          (words.map (fun item => ⟨indent, '-' :: ' ' :: item.toList⟩) ++ rest) := by
        cases words with
        | nil => exact hrest.stops
        | cons => exact fun line hline => Option.some.inj hline ▸ Nat.le_refl _
      have hspace := trimStart_word hword []
      have hdone := isDone_word hword []
      have hitem := isItem_word hword []
      rw [List.append_nil] at hspace hdone hitem
      rw [List.map_cons, List.cons_append, items]
      simp only [Nat.lt_irrefl, if_false, List.drop_succ_cons, List.drop_zero, trimStart_space,
        isDone_space, hspace, hdone, hitem, key?_word_alone hword, inlineValue_word hword hstops]
      have hfirst : isItem ('-' :: ' ' :: item.toList) = true := rfl
      simp [hfirst, hmore, String.ofList_toList]

/-- The texts of lines, each after a line end. -/
def joined (lines : List Line) : List Char := lines.flatMap fun line => '\n' :: line.text

theorem foldl_text (lines : List Line) (cs : List Char) :
    lines.foldl (fun acc line => acc ++ '\n' :: line.text) cs = cs ++ joined lines := by
  induction lines generalizing cs with
  | nil => rw [List.foldl_nil, joined, List.flatMap_nil, List.append_nil]
  | cons line lines ih => rw [List.foldl_cons, ih, joined, joined, List.flatMap_cons,
      List.append_assoc]

theorem length_filter_joined (h : ∀ line ∈ lines, '\n' ∉ line.text) :
    ((joined lines).filter (· = '\n')).length = lines.length := by
  induction lines with
  | nil => rfl
  | cons line lines ih =>
      have hline : line.text.filter (· = '\n') = [] := by
        rw [List.filter_eq_nil_iff]
        intro c hc heq
        exact h line List.mem_cons_self (of_decide_eq_true heq ▸ hc)
      have hmore := ih fun a ha => h a (List.mem_cons_of_mem _ ha)
      rw [joined] at hmore
      simp [joined, hline, hmore]

theorem takeWhile_joined (lines : List Line) :
    (joined lines).takeWhile (· ≠ '\n') = [] := by
  cases lines <;> rfl

/-- A list without items is read to its closing bracket. -/
theorem inlineValue_brackets (h : ∀ line ∈ rest, '\n' ∉ line.text) :
    inlineValue indent ['[', ']'] rest = some (.seq [], rest) := by
  have hnode (n : Nat) (tail : List Char) :
      flowNode (n + 2) ('[' :: ']' :: tail) = some (.seq [], tail) := rfl
  unfold inlineValue
  dsimp only
  rw [foldl_text, List.length_append, List.length_cons, List.length_singleton]
  rw [show 1 + 1 + (joined rest).length + 1 = (joined rest).length + 1 + 2 by omega]
  simp only [List.cons_append, List.nil_append, hnode, Option.bind_eq_bind, Option.bind_some,
    takeWhile_joined, length_filter_joined h, Nat.sub_self, List.drop_zero]
  rfl

theorem Line.IsWritten.plain {line : Line} (h : line.IsWritten) {c : Char} (hc : c ∈ line.text) :
    c ∉ ['\n', '\r', '\ufeff'] := by
  obtain ⟨w, tail, hw, htail, heq | heq⟩ := h
  · rw [heq] at hc
    rcases List.mem_append.1 hc with hc | hc
    · exact not_mem_marks (hw.chars c hc)
    · exact htail c hc
  · rw [heq] at hc
    rcases List.mem_cons.1 hc with rfl | hc
    · decide
    · rcases List.mem_cons.1 hc with rfl | hc
      · decide
      · exact not_mem_marks (hw.chars c hc)

/-- The lines of settings may follow a setting at their indentation or a deeper one. -/
theorem WritesAll.follows (h : WritesAll indent settings lines) {indent' : Nat}
    (hle : indent ≤ indent') (hrest : Follows indent' rest) : Follows indent' (lines ++ rest) where
  head := by
    cases h with
    | nil => exact hrest.head
    | cons h _ =>
        obtain ⟨tail, more, rfl, hkey, -⟩ := h.exists_cons
        rintro line hline
        cases hline
        exact (Nat.lt_or_eq_of_le hle).imp id fun heq => ⟨heq, isItem_word hkey _⟩
  plain := by
    intro line hline
    rcases List.mem_append.1 hline with hline | hline
    · exact fun hc => (h.isWritten line hline).plain hc List.mem_cons_self
    · exact hrest.plain line hline

/-- What is read from a line with a key: its value, and then what comes after. -/
theorem entries_step {w tail : List Char} (hkey : IsWord w) (htail : endsKey tail = true) :
    entries (n + 1) indent (⟨indent, w ++ ':' :: tail⟩ :: rest) =
      (if isDone tail then below n true indent rest
        else inlineValue indent (trimStart tail) rest).bind fun value =>
          (entries n indent value.2).map fun p => ((String.ofList w, value.1) :: p.1, p.2) := by
  rw [entries]
  simp only [Nat.lt_irrefl, if_false, decide_false, isItem_word hkey, Bool.or_self,
    Bool.false_eq_true, key?_word hkey htail, Option.bind_eq_bind, Option.bind_some,
    Option.map_eq_bind, Function.comp_def]
  split <;> rfl

theorem block_key {w tail : List Char} (hkey : IsWord w) (htail : endsKey tail = true) :
    block (n + 1) (⟨indent, w ++ ':' :: tail⟩ :: rest) =
      (entries n indent (⟨indent, w ++ ':' :: tail⟩ :: rest)).map fun p => (.map p.1, p.2) := by
  rw [block]
  simp only [isItem_word hkey, Bool.false_eq_true, if_false, key?_word hkey htail,
    Option.isSome_some, if_true, Option.bind_eq_bind]
  cases entries n indent (⟨indent, w ++ ':' :: tail⟩ :: rest) <;> rfl

/-- A line that is no item ends the value of a key at its indentation. -/
theorem entries_end (hrest : ∀ line ∈ rest.head?, line.indent < indent) :
    entries (n + 1) indent rest = some ([], rest) := by
  cases rest with
  | nil => rfl
  | cons line rest => rw [entries, if_pos (hrest line rfl)]

mutual

/-- A setting is read from the lines that write it. -/
theorem entries_writes : ∀ {indent : Nat} {key : String} {node : Node} {lines : List Line},
    Writes indent key node lines → ∀ {n : Nat} {rest : List Line}, Follows indent rest →
    3 * lines.length ≤ n → entries (n + 1) indent (lines ++ rest) =
      (entries n indent rest).map fun p => ((key, node) :: p.1, p.2)
  | indent, key, _, _, @Writes.word _ _ value hkey hvalue, n, rest, hrest, _ => by
      have hspace := trimStart_word hvalue []
      have hdone := isDone_word hvalue []
      rw [List.append_nil] at hspace hdone
      rw [List.singleton_append, entries_step hkey rfl, isDone_space, hdone,
        if_neg Bool.false_ne_true, trimStart_space, hspace, inlineValue_word hvalue hrest.stops,
        String.ofList_toList, String.ofList_toList]
      rfl
  | indent, key, _, _, .noItems hkey, n, rest, hrest, _ => by
      rw [List.singleton_append, entries_step hkey rfl]
      show (inlineValue indent ['[', ']'] rest).bind _ = _
      rw [inlineValue_brackets hrest.plain, String.ofList_toList]
      rfl
  | indent, key, _, _, @Writes.list _ _ first more hkey hitems, n, rest, hrest, hn => by
      rw [List.length_cons, List.length_map, List.length_cons] at hn
      obtain ⟨n, rfl⟩ := Nat.exists_eq_add_one_of_ne_zero (n := n) (by omega)
      have hwords := items_words (n := n) hitems hrest (by rw [List.length_cons]; omega)
      have hfirst : isItem ('-' :: ' ' :: first.toList) = true := rfl
      rw [List.cons_append, entries_step hkey rfl, String.ofList_toList]
      rw [List.map_cons, List.cons_append] at hwords ⊢
      rw [if_pos (show isDone [] = true from rfl), below, if_neg (Nat.lt_irrefl _), hwords, hfirst,
        decide_eq_true rfl]
      rfl
  | indent, key, _, _, .map hkey hinner hne h, n, rest, hrest, hn => by
      obtain ⟨w, tail, more, rfl, hw, htail⟩ := h.exists_cons hne
      rw [List.length_cons] at hn
      obtain ⟨n, rfl⟩ := Nat.exists_eq_add_of_le' (show 2 ≤ n by omega)
      have hinside := @entries_writesAll _ _ _ h n rest
        (fun line hline => Nat.lt_of_le_of_lt (hrest.stops line hline) hinner) hrest.plain
        (by omega)
      rw [List.cons_append] at hinside
      rw [List.cons_append, entries_step hkey rfl, String.ofList_toList,
        if_pos (show isDone [] = true from rfl), List.cons_append, below, if_pos hinner,
        block_key hw htail, hinside]
      rfl

/-- Settings are read from the lines that write them. -/
theorem entries_writesAll : ∀ {indent : Nat} {settings : List (String × Node)}
    {lines : List Line}, WritesAll indent settings lines → ∀ {n : Nat} {rest : List Line},
    (∀ line ∈ rest.head?, line.indent < indent) → (∀ line ∈ rest, '\n' ∉ line.text) →
    3 * lines.length < n → entries n indent (lines ++ rest) = some (settings, rest)
  | indent, _, _, .nil, n, rest, hhead, _, hn => by
      obtain ⟨n, rfl⟩ := Nat.exists_eq_add_one_of_ne_zero (Nat.ne_of_gt (Nat.zero_lt_of_lt hn))
      exact entries_end hhead
  | indent, _, _, @WritesAll.cons _ _ _ lines more _ h hs, n, rest, hhead, hplain, hn => by
      have hrest : Follows indent rest := ⟨fun line hline => .inl (hhead line hline), hplain⟩
      obtain ⟨tail, below, hlines, -, -⟩ := h.exists_cons
      rw [List.length_append] at hn
      have hpos : 0 < lines.length := by rw [hlines]; exact Nat.succ_pos _
      obtain ⟨n, rfl⟩ := Nat.exists_eq_add_one_of_ne_zero (Nat.ne_of_gt (Nat.zero_lt_of_lt hn))
      rw [List.append_assoc, entries_writes h (hs.follows (Nat.le_refl _) hrest) (by omega),
        entries_writesAll hs hhead hplain (by omega)]
      rfl

end

/-- A written line starts neither with white space nor with a mark. -/
theorem Line.IsWritten.exists_cons {line : Line} (h : line.IsWritten) : ∃ c cs,
    line.text = c :: cs ∧ (isWordChar c = true ∨ c = '-' ∧ ∃ tail, cs = ' ' :: tail) := by
  obtain ⟨w, tail, hw, -, heq | heq⟩ := h
  · obtain ⟨c, cs, rfl, hc⟩ := hw.exists_cons
    exact ⟨c, cs ++ tail, heq, .inl hc⟩
  · exact ⟨'-', ' ' :: w, heq, .inr ⟨rfl, w, rfl⟩⟩

theorem Line.IsWritten.isMarker {line : Line} (h : line.IsWritten) {mark : Char}
    (hmark : mark ∈ ['-', '.']) : isMarker mark line = false := by
  have hspace : ' ' ≠ mark := (ne_of_mem_of_not_mem hmark (by decide)).symm
  obtain ⟨c, cs, htext, hc | ⟨rfl, tail, rfl⟩⟩ := h.exists_cons
  · have hne := decide_eq_false (ne_of_mem_of_not_mem hmark (not_mem_of_isWordChar hc rfl)).symm
    rw [Yaml.isMarker, htext]
    split
    · next heq =>
        rw [← (List.cons.inj heq).1, hne]
        simp
    · exact Bool.and_false _
  · have hne := decide_eq_false hspace
    rw [Yaml.isMarker, htext]
    split
    · next heq =>
        rw [← (List.cons.inj (List.cons.inj heq).2).1, hne]
        simp
    · exact Bool.and_false _

theorem Line.IsWritten.isDone {line : Line} (h : line.IsWritten) : isDone line.text = false := by
  obtain ⟨w, tail, hw, -, heq | heq⟩ := h
  · rw [heq, isDone_word hw]
  · rw [heq]
    rfl

theorem le_foldl_size (h : ∀ line ∈ lines, line.IsWritten) (size : Nat) :
    size + 2 * lines.length ≤
      lines.foldl (fun n line => n + line.indent + line.text.length + 1) size := by
  induction lines generalizing size with
  | nil => exact Nat.le_refl _
  | cons line lines ih =>
      obtain ⟨c, cs, htext, -⟩ := (h line List.mem_cons_self).exists_cons
      have hmore := ih (fun a ha => h a (List.mem_cons_of_mem _ ha))
        (size + line.indent + line.text.length + 1)
      rw [htext, List.length_cons] at hmore
      rw [List.foldl_cons, List.length_cons, htext, List.length_cons]
      omega

/-- A document of written lines is read as a mapping. -/
theorem document_writesAll (h : WritesAll 0 settings lines) (hne : settings ≠ []) :
    document lines = some (.map settings) := by
  have hwritten := h.isWritten
  have hmarker {mark : Char} (hmark : mark ∈ ['-', '.']) : ∀ line ∈ lines,
      isMarker mark line = false := fun line hline => (hwritten line hline).isMarker hmark
  obtain ⟨w, tail, more, hlines, hw, htail⟩ := h.exists_cons hne
  have hfirst : isMarker '-' _ = false :=
    hmarker (by decide) _ (hlines ▸ List.mem_cons_self)
  have hcontent : lines.takeWhile (fun line => !isMarker '.' line) = lines :=
    List.takeWhile_eq_self_iff.2 fun line hline => by rw [hmarker (by decide) line hline]; rfl
  have hending : lines.dropWhile (fun line => !isMarker '.' line) = [] :=
    List.dropWhile_eq_nil_iff.2 fun line hline => by rw [hmarker (by decide) line hline]; rfl
  have hstart : lines.any (isMarker '-') = false :=
    List.any_eq_false.2 fun line hline =>
      ne_true_of_eq_false (hmarker (by decide) line hline)
  have hsize := le_foldl_size hwritten 1
  obtain ⟨n, hn⟩ := Nat.exists_eq_add_one_of_ne_zero
    (n := 2 * lines.foldl (fun n line => n + line.indent + line.text.length + 1) 1) (by omega)
  have hread := @entries_writesAll _ _ _ h n []
    (fun _ hline => (Option.not_mem_none _ hline).elim) (List.forall_mem_nil _) (by omega)
  rw [List.append_nil] at hread
  have hblock : block (n + 1) lines = some (.map settings, []) := by
    rw [hlines] at hread ⊢
    rw [block_key hw htail, hread]
    rfl
  unfold document
  rw [hlines] at hn hcontent hending hstart hblock ⊢
  simp only [hn, hfirst, Bool.false_eq_true, if_false, hcontent, hending, hstart, hblock,
    List.all_nil, Bool.not_true, Bool.or_self, Option.bind_eq_bind]
  rfl

def Line.chars (line : Line) : List Char := List.replicate line.indent ' ' ++ line.text

theorem ofChars_chars {line : Line} (h : line.IsWritten) : Line.ofChars line.chars = line := by
  obtain ⟨c, cs, htext, hc⟩ := h.exists_cons
  have hne : c ≠ ' ' := by
    rcases hc with hc | ⟨rfl, -⟩
    · exact ne_of_isWordChar hc (by decide)
    · decide
  have hspaces : ∀ d ∈ List.replicate line.indent ' ', decide (d = ' ') = true :=
    fun d hd => decide_eq_true (List.eq_of_mem_replicate hd)
  rw [Line.ofChars, Line.chars, List.takeWhile_append_of_pos hspaces,
    List.dropWhile_append_of_pos hspaces, htext, List.takeWhile_cons_of_neg (by simpa using hne),
    List.dropWhile_cons_of_neg (by simpa using hne), List.append_nil, List.length_replicate,
    ← htext]

theorem splitLines_line {cs : List Char} (h : ∀ c ∈ cs, c ∉ ['\n', '\r', '\ufeff'])
    (more : List Char) : splitLines (cs ++ '\n' :: more) = cs :: splitLines more := by
  induction cs with
  | nil => rfl
  | cons c cs ih =>
      have hc := h c List.mem_cons_self
      have hreturn : c ≠ '\r' := fun heq => hc (by rw [heq]; decide)
      have hend : c ≠ '\n' := fun heq => hc (by rw [heq]; decide)
      rw [List.cons_append, splitLines, ih fun d hd => h d (List.mem_cons_of_mem _ hd),
        decide_eq_false hend, decide_eq_false hreturn]
      · rfl
      · exact fun _ heq _ => hreturn heq

/-- Lines that are written one after the other are read. -/
theorem read_writesAll (h : WritesAll 0 settings lines) (hne : settings ≠ []) :
    read (String.ofList (lines.flatMap fun line => line.chars ++ ['\n'])) =
      some (.map settings) := by
  have hwritten := h.isWritten
  have hchars : ∀ line ∈ lines, ∀ c ∈ line.chars, c ∉ ['\n', '\r', '\ufeff'] := by
    intro line hline c hc
    rcases List.mem_append.1 hc with hc | hc
    · rw [List.eq_of_mem_replicate hc]
      decide
    · exact (hwritten line hline).plain hc
  have hsplit : splitLines (lines.flatMap fun line => line.chars ++ ['\n']) =
      lines.map Line.chars ++ [[]] := by
    clear h hne hwritten
    induction lines with
    | nil => rfl
    | cons line lines ih =>
        rw [List.flatMap_cons, List.append_assoc, List.singleton_append,
          splitLines_line (hchars line List.mem_cons_self),
          ih fun a ha => hchars a (List.mem_cons_of_mem _ ha)]
        rfl
  have hmark : withoutMark (lines.flatMap fun line => line.chars ++ ['\n']) =
      lines.flatMap fun line => line.chars ++ ['\n'] := by
    unfold withoutMark
    split
    · next cs heq =>
        have hmem : '\ufeff' ∈ lines.flatMap fun line => line.chars ++ ['\n'] :=
          heq ▸ List.mem_cons_self
        obtain ⟨line, hline, hc⟩ := List.mem_flatMap.1 hmem
        rcases List.mem_append.1 hc with hc | hc
        · exact absurd (by decide) (hchars line hline _ hc)
        · exact absurd hc (by decide)
    · rfl
  have hlines : (lines.map Line.chars).map Line.ofChars = lines := by
    rw [List.map_map]
    exact (List.map_congr_left fun line hline => ofChars_chars (hwritten line hline)).trans
      (List.map_id _)
  have hkept : lines.filter (fun line => !isDone line.text) = lines :=
    List.filter_eq_self.2 fun line hline => by rw [(hwritten line hline).isDone]; rfl
  rw [read, String.toList_ofList, hmark, hsplit, List.map_append, hlines, List.filter_append, hkept]
  show document (lines ++ []) = _
  rw [List.append_nil, document_writesAll h hne]

end Yaml

end ValueFlow
