import Mathlib.Data.String.Basic
import ValueFlow.Config.Document
import ValueFlow.Proofs.Config.Blocks
/-!
Documents of configurations are read back.

A document holds the settings in which a configuration differs from its preset. Main statement:
`parse_render`, reading the document of a configuration gives the configuration or the error of its
validation.
-/

namespace ValueFlow

namespace Config

open Yaml

/-- The node that a change is written as. -/
def Change.node : Change → Node
  | wideningThreshold n | maxSccIterations n | pointerContextDepth n | maxBlockVisits n =>
      .scalar (toString n.toNat) true
  | parallel b | reportUnreachableBranches b => .scalar (if b then "true" else "false") true
  | enabledDomains s => .seq (s.names.map (.scalar · true))

/-- The settings of the document of a configuration. -/
def settings (c : Config) : List (String × Node) :=
  ("version", .scalar "1" true) :: ("preset", .scalar c.preset.name true) ::
    if c.changes.isEmpty then []
    else [("overrides", .map (c.changes.map fun change => (change.name, change.node)))]

def settingNames : List String :=
  ["widening_threshold", "max_scc_iterations", "enabled_domains", "pointer_context_depth",
    "max_block_visits", "parallel", "report_unreachable_branches"]

/-- The words of documents apart from the numbers of a configuration. -/
def vocabulary : List String :=
  ["version", "1", "preset", "overrides", "true", "false", "fast", "balanced", "thorough", "custom",
    "sign", "nullability", "range"] ++ settingNames

theorem isWord_of_mem_vocabulary : ∀ word ∈ vocabulary, IsWord word.toList := by decide +kernel

theorem Change.name_mem (change : Change) : change.name ∈ settingNames := by
  cases change <;> simp [name, settingNames]

section Domains

theorem isWord_kind_name (kind : DomainKind) : IsWord kind.name.toList := by
  apply isWord_of_mem_vocabulary
  cases kind <;> simp [DomainKind.name, vocabulary]

theorem isWord_of_mem_names {s : DomainSet} {name : String} (h : name ∈ s.names) :
    IsWord name.toList := by
  obtain ⟨kind, -, rfl⟩ := List.mem_map.1 h
  exact isWord_kind_name kind

theorem isEmpty_names (s : DomainSet) : s.names.isEmpty = s.isEmpty := by
  rcases s with ⟨_ | _, _ | _, _ | _⟩ <;> rfl

theorem ofName?_name (kind : DomainKind) : DomainKind.ofName? kind.name = some kind := by
  cases kind <;> decide +kernel

theorem ofList_toList (s : DomainSet) : DomainSet.ofList s.toList = s := by
  rcases s with ⟨_ | _, _ | _, _ | _⟩ <;> rfl

theorem mapM_ofName? (s : DomainSet) : s.names.mapM DomainKind.ofName? = some s.toList := by
  rw [DomainSet.names]
  induction s.toList with
  | nil => rfl
  | cons kind kinds ih => rw [List.map_cons, List.mapM_cons, ofName?_name, ih]; rfl

theorem texts?_words (words : List String) :
    Node.texts? (.seq (words.map (.scalar · true))) = some words := by
  rw [Node.texts?]
  induction words with
  | nil => rfl
  | cons word words ih => rw [List.map_cons, List.mapM_cons, ih]; rfl

end Domains

section Writing

theorem Change.isWord_name (change : Change) : IsWord change.name.toList :=
  isWord_of_mem_vocabulary _ (List.mem_append_right _ change.name_mem)

theorem isWord_preset_name (preset : Preset) : IsWord preset.name.toList := by
  apply isWord_of_mem_vocabulary
  cases preset <;> simp [Preset.name, vocabulary]

theorem isWord_bool (b : Bool) : IsWord (if b then "true" else "false").toList := by
  apply isWord_of_mem_vocabulary
  cases b <;> simp [vocabulary]

theorem isWord_toString (n : Nat) : IsWord (toString n).toList := by
  rw [Nat.toString_eq_ofList_toDigits, String.toList_ofList]
  exact isWord_toDigits n

theorem writes_word {name value : String} (hname : IsWord name.toList)
    (hvalue : IsWord value.toList) : ∃ lines, Writes 2 name (.scalar value true) lines ∧
      ["  " ++ name ++ ": " ++ value].map String.toList = lines.map Line.chars :=
  ⟨_, .word hname hvalue, by simp [Line.chars]⟩

theorem writes_words {name : String} {words : List String} (hname : IsWord name.toList)
    (hwords : ∀ word ∈ words, IsWord word.toList) : ∃ lines,
      Writes 2 name (.seq (words.map (.scalar · true))) lines ∧
      (if words.isEmpty then ["  " ++ name ++ ": " ++ "[]"]
        else ("  " ++ name ++ ":") :: words.map ("  - " ++ ·)).map String.toList =
          lines.map Line.chars := by
  cases words with
  | nil => exact ⟨_, .noItems hname, by simp [Line.chars]⟩
  | cons first more => exact ⟨_, .list hname hwords, by simp [Line.chars, Function.comp_def]⟩

/-- The lines of a change write it. -/
theorem Change.exists_writes (change : Change) : ∃ lines,
    Writes 2 change.name change.node lines ∧
      change.lines.map String.toList = lines.map Line.chars := by
  have hname := change.isWord_name
  cases change with
  | wideningThreshold n => exact writes_word hname (isWord_toString _)
  | maxSccIterations n => exact writes_word hname (isWord_toString _)
  | pointerContextDepth n => exact writes_word hname (isWord_toString _)
  | maxBlockVisits n => exact writes_word hname (isWord_toString _)
  | parallel b => exact writes_word hname (isWord_bool b)
  | reportUnreachableBranches b => exact writes_word hname (isWord_bool b)
  | enabledDomains s =>
      have hwords := @writes_words _ s.names hname fun _ => isWord_of_mem_names
      rw [isEmpty_names] at hwords
      rw [Change.lines]
      cases hs : s.isEmpty <;> rw [hs] at hwords <;> exact hwords

theorem exists_writesAll_changes (changes : List Change) : ∃ lines,
    WritesAll 2 (changes.map fun change => (change.name, change.node)) lines ∧
      (changes.flatMap Change.lines).map String.toList = lines.map Line.chars := by
  induction changes with
  | nil => exact ⟨[], .nil, rfl⟩
  | cons change changes ih =>
      obtain ⟨first, hfirst, hchars⟩ := change.exists_writes
      obtain ⟨more, hmore, hcharsMore⟩ := ih
      exact ⟨first ++ more, .cons hfirst hmore, by
        rw [List.flatMap_cons, List.map_append, List.map_append, hchars, hcharsMore]⟩

theorem isEmpty_flatMap_lines (changes : List Change) :
    (changes.flatMap Change.lines).isEmpty = changes.isEmpty := by
  cases changes with
  | nil => rfl
  | cons change changes =>
      obtain ⟨line, lines, hlines⟩ : ∃ line lines, change.lines = line :: lines := by
        cases change with
        | enabledDomains s => rw [Change.lines]; cases s.isEmpty <;> exact ⟨_, _, rfl⟩
        | _ => exact ⟨_, _, rfl⟩
      rw [List.flatMap_cons, hlines]
      rfl

/-- The lines of a document write its settings. -/
theorem exists_writesAll (c : Config) : ∃ lines, WritesAll 0 c.settings lines ∧
    c.documentLines.map String.toList = lines.map Line.chars := by
  obtain ⟨lines, hlines, hchars⟩ := exists_writesAll_changes c.changes
  have hversion := @Writes.word 0 "version" "1"
    (isWord_of_mem_vocabulary _ (by simp [vocabulary]))
    (isWord_of_mem_vocabulary _ (by simp [vocabulary]))
  have hpreset := @Writes.word 0 "preset" c.preset.name
    (isWord_of_mem_vocabulary _ (by simp [vocabulary])) (isWord_preset_name c.preset)
  rw [settings, documentLines]
  simp only [isEmpty_flatMap_lines]
  cases hchanges : c.changes.isEmpty with
  | true =>
      refine ⟨_, .cons hversion (.cons hpreset .nil), ?_⟩
      simp [Line.chars]
  | false =>
      have hne : c.changes.map (fun change => (change.name, change.node)) ≠ [] := by
        simpa using hchanges
      have hoverrides := @Writes.map 0 2 "overrides" _ _
        (isWord_of_mem_vocabulary _ (by simp [vocabulary])) (by decide) hne hlines
      refine ⟨_, .cons hversion (.cons hpreset (.cons hoverrides .nil)), ?_⟩
      simp [Line.chars, ← hchars]

/-- A document that is written is read as its settings. -/
theorem read_render (c : Config) : read c.render = some (.map c.settings) := by
  obtain ⟨lines, hlines, hchars⟩ := c.exists_writesAll
  have htext : c.render = String.ofList (lines.flatMap fun line => line.chars ++ ['\n']) := by
    have hflat : (lines.map Line.chars).flatMap (· ++ ['\n']) =
        lines.flatMap fun line => line.chars ++ ['\n'] := List.flatMap_map _ _ _
    rw [← hflat, ← hchars, render, String.join_eq]
    simp [List.flatMap_def, Function.comp_def]
  rw [htext]
  exact read_writesAll hlines (List.cons_ne_nil _ _)

end Writing

section Reading

theorem present?_of_unsigned? {text : String} {n : Nat} (h : unsigned? text = some n) :
    Node.present? (.scalar text true) = some (.scalar text true) := by
  rw [Node.present?, if_neg]
  intro hmem
  have hnone : ∀ t ∈ ["", "~", "null", "Null", "NULL"], unsigned? t = none := by decide
  rw [hnone text (List.contains_iff_mem.1 hmem)] at h
  cases h

/-- A number is read as it is written, up to the largest one. -/
theorem read_number (n : UInt64) (make : UInt64 → Change) :
    (match Node.present? (.scalar (toString n.toNat) true) with
      | none => some none
      | some node => ((node.numberBelow? UInt64.size).map fun n => make n.toUInt64).map some) =
      some (some (make n)) := by
  have hread := unsigned?_toString n.toNat
  rw [present?_of_unsigned? hread]
  dsimp only
  rw [Node.numberBelow?, hread, Option.bind_eq_bind, Option.bind_some, if_pos n.toNat_lt_size,
    Option.map_some, Option.map_some]
  exact congrArg (fun m => some (some (make m))) UInt64.ofNat_toNat

/-- A change is read from its setting. -/
theorem readChange_node (change : Change) :
    readChange change.name change.node = some (some change) := by
  cases change with
  | wideningThreshold n => exact read_number n .wideningThreshold
  | maxSccIterations n => exact read_number n .maxSccIterations
  | pointerContextDepth n => exact read_number n .pointerContextDepth
  | maxBlockVisits n => exact read_number n .maxBlockVisits
  | parallel b => cases b <;> rfl
  | reportUnreachableBranches b => cases b <;> rfl
  | enabledDomains s =>
      show ((Node.texts? (.seq _)).bind fun names =>
        (names.mapM DomainKind.ofName?).bind fun kinds =>
          some (Change.enabledDomains (.ofList kinds))).map some = _
      rw [texts?_words, Option.bind_some, mapM_ofName?, Option.bind_some, ofList_toList]
      rfl

theorem nodup_names (c : Config) : (c.changes.map Change.name).Nodup := by
  have hone (differs : Bool) (change : Change) :
      ((if differs then [change] else []).map Change.name).Sublist [change.name] := by
    cases differs
    · exact List.nil_sublist _
    · exact List.Sublist.refl _
  have hall : settingNames.Nodup := by decide
  refine hall.sublist ?_
  rw [changes]
  simp only [List.map_append]
  exact (((((((hone _ _).append (hone _ _)).append (hone _ _)).append (hone _ _)).append
    (hone _ _)).append (hone _ _)).append (hone _ _))

theorem readOverrides_changes (c : Config) :
    readOverrides (.map (c.changes.map fun change => (change.name, change.node))) =
      some c.changes := by
  have hnames : distinctKeys (c.changes.map fun change => (change.name, change.node)) = true := by
    rw [distinctKeys, List.map_map]
    exact decide_eq_true c.nodup_names
  have hread (changes : List Change) :
      (changes.map fun change => (change.name, change.node)).mapM
        (fun e => readChange e.1 e.2) = some (changes.map some) := by
    induction changes with
    | nil => rfl
    | cons change changes ih => rw [List.map_cons, List.mapM_cons, ih, readChange_node]; rfl
  show (if distinctKeys _ then _ else none) = _
  rw [hnames, if_pos rfl, hread]
  simp

/-- The settings of a document tell the version, the preset and the changes. -/
theorem readDraft_settings (c : Config) :
    readDraft (.map c.settings) = some ⟨some 1, c.preset.name, c.changes⟩ := by
  have hversion : (Node.scalar "1" true).numberBelow? UInt32.size = some 1 := rfl
  have hpresent : (Node.scalar "1" true).present? = some (.scalar "1" true) :=
    present?_of_unsigned? (n := 1) rfl
  cases hchanges : c.changes.isEmpty with
  | true =>
      rw [List.isEmpty_iff] at hchanges
      simp [settings, hchanges, readDraft, distinctKeys, hversion, hpresent, Node.text?]
  | false =>
      have hread := c.readOverrides_changes
      simp [settings, hchanges, readDraft, distinctKeys, hversion, hpresent, Node.text?, hread]

end Reading

section Changing

/-- A setting that a configuration already has need not be changed. -/
theorem foldl_changed {α : Type} [BEq α] [LawfulBEq α] (d : Config) (make : α → Change) (x y : α)
    (h : d.apply (make y) = d) :
    (if x != y then [make x] else []).foldl apply d = d.apply (make x) := by
  cases hxy : x != y with
  | true => rfl
  | false =>
      rw [bne_eq_false_iff_eq.1 hxy, h]
      rfl

theorem preset_ofPreset (preset : Preset) : (ofPreset preset).preset = preset := by
  cases preset <;> rfl

/-- The changes lead from the preset to the configuration. -/
theorem foldl_changes (c : Config) : c.changes.foldl apply (ofPreset c.preset) = c := by
  rw [changes]
  simp only [List.foldl_append]
  rw [foldl_changed _ .wideningThreshold _ _ rfl, foldl_changed _ .maxSccIterations _ _ rfl,
    foldl_changed _ .enabledDomains _ _ rfl, foldl_changed _ .pointerContextDepth _ _ rfl,
    foldl_changed _ .maxBlockVisits _ _ rfl, foldl_changed _ .parallel _ _ rfl,
    foldl_changed _ .reportUnreachableBranches _ _ rfl]
  show { c with preset := (ofPreset c.preset).preset } = c
  rw [preset_ofPreset]

/-- A preset is found by its name. -/
theorem ofName?_preset_name (preset : Preset) : Preset.ofName? preset.name = some preset := by
  cases preset <;> decide +kernel

theorem preset_apply (c : Config) (change : Change) : (c.apply change).preset = c.preset := by
  cases change <;> rfl

theorem preset_foldl (changes : List Change) (c : Config) :
    (changes.foldl apply c).preset = c.preset := by
  induction changes generalizing c with
  | nil => rfl
  | cons change changes ih => rw [List.foldl_cons, ih, preset_apply]

end Changing

/-- Reading the document of a configuration gives the configuration if it is valid, and otherwise
the error of its validation. -/
theorem parse_render (preset : Preset) (changes : List Change) :
    let c := changes.foldl apply (ofPreset preset)
    parse c.render = c.validate.map (fun _ => c) ∧ c.preset = preset := by
  intro c
  refine ⟨?_, by rw [preset_foldl, preset_ofPreset]⟩
  rw [parse, read_render, Option.bind_some, readDraft_settings]
  dsimp only
  rw [Draft.check]
  dsimp only
  rw [ofName?_preset_name]
  dsimp only
  rw [foldl_changes]
  cases c.validate <;> rfl

end Config

end ValueFlow
