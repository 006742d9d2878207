import ValueFlow.Config.Basic
import ValueFlow.Config.Yaml
/-!
Configuration documents: a version, a preset and the settings that differ from it.
-/

namespace ValueFlow

namespace Config

def Change.name : Change → String
  | wideningThreshold _ => "widening_threshold"
  | maxSccIterations _ => "max_scc_iterations"
  | enabledDomains _ => "enabled_domains"
  | pointerContextDepth _ => "pointer_context_depth"
  | maxBlockVisits _ => "max_block_visits"
  | parallel _ => "parallel"
  | reportUnreachableBranches _ => "report_unreachable_branches"

/-- The lines that write a change below `overrides`. -/
def Change.lines (change : Change) : List String :=
  let value : String ⊕ List String :=
    match change with
    | wideningThreshold n | maxSccIterations n | pointerContextDepth n | maxBlockVisits n =>
        .inl (toString n.toNat)
    | parallel b | reportUnreachableBranches b => .inl (if b then "true" else "false")
    | enabledDomains s => if s.isEmpty then .inl "[]" else .inr s.names
  match value with
  | .inl scalar => ["  " ++ change.name ++ ": " ++ scalar]
  | .inr items => ("  " ++ change.name ++ ":") :: items.map ("  - " ++ ·)

def documentLines (c : Config) : List String :=
  let overrides := c.changes.flatMap Change.lines
  ["version: 1", "preset: " ++ c.preset.name]
    ++ if overrides.isEmpty then [] else "overrides:" :: overrides

def render (c : Config) : String := String.join (c.documentLines.map (· ++ "\n"))

/-- The change a setting of a document asks for; a missing value asks for none. -/
def readChange (name : String) (node : Yaml.Node) : Option (Option Change) :=
  let number (make : UInt64 → Change) (node : Yaml.Node) : Option Change :=
    (node.numberBelow? UInt64.size).map fun n => make n.toUInt64
  let make? : Option (Yaml.Node → Option Change) :=
    match name with
    | "widening_threshold" => some (number .wideningThreshold)
    | "max_scc_iterations" => some (number .maxSccIterations)
    | "enabled_domains" => some fun node => do
        let names ← node.texts?
        let kinds ← names.mapM DomainKind.ofName?
        some (.enabledDomains (.ofList kinds))
    | "pointer_context_depth" => some (number .pointerContextDepth)
    | "max_block_visits" => some (number .maxBlockVisits)
    | "parallel" => some fun node => node.bool?.map .parallel
    | "report_unreachable_branches" => some fun node => node.bool?.map .reportUnreachableBranches
    | _ => none
  make?.bind fun make =>
    match node.present? with
    | none => some none
    | some node => (make node).map some

def distinctKeys (entries : List (String × Yaml.Node)) : Bool :=
  decide (entries.map Prod.fst).Nodup

/-- The changes of the overrides of a document. -/
def readOverrides (node : Yaml.Node) : Option (List Change) :=
  match node.present? with
  | none => some []
  | some (.map entries) =>
      if distinctKeys entries then
        (entries.mapM fun e => readChange e.1 e.2).map (·.filterMap id)
      else none
  | some _ => none

/-- What a document says, before it is checked. -/
structure Draft where
  version : Option Nat
  preset : String
  changes : List Change

/-- Reads the fields of a document, which has a preset and no unknown field. -/
def readDraft (node : Yaml.Node) : Option Draft :=
  match node with
  | .map entries =>
      let find (name : String) := (entries.find? fun e => e.1 = name).map Prod.snd
      if distinctKeys entries
          && entries.all fun e => ["version", "preset", "overrides"].contains e.1 then do
        let preset ← (← find "preset").text?
        let version ←
          match (find "version").bind Yaml.Node.present? with
          | none => some none
          | some node => (node.numberBelow? UInt32.size).map some
        let changes ← ((find "overrides").map readOverrides).getD (some [])
        some ⟨version, preset, changes⟩
      else none
  | _ => none

/-- Checks the version and the preset of a draft, applies its changes and validates the result. -/
def Draft.check (draft : Draft) : Except ConfigError Config := do
  match draft.version with
  | none => .error .missingVersion
  | some version =>
      if supportedVersions.contains version then
        match Preset.ofName? draft.preset with
        | none => .error (.unknownPreset draft.preset)
        | some preset =>
            let config := draft.changes.foldl apply (ofPreset preset)
            config.validate
            return config
      else .error (.unsupportedVersion version)

def parse (text : String) : Except ConfigError Config :=
  match (Yaml.read text).bind readDraft with
  | none => .error .malformed
  | some draft => draft.check

end Config

end ValueFlow
