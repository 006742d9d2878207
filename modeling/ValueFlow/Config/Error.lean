import ValueFlow.Config.EditDistance
import ValueFlow.Domain.DomainSet
/-!
What can be wrong with a configuration.
-/

namespace ValueFlow

inductive LimitedField where
  | wideningThreshold
  | maxSccIterations
  | pointerContextDepth
  | maxBlockVisits
deriving DecidableEq, Repr

namespace LimitedField

def name : LimitedField → String
  | wideningThreshold => "widening_threshold"
  | maxSccIterations => "max_scc_iterations"
  | pointerContextDepth => "pointer_context_depth"
  | maxBlockVisits => "max_block_visits"

def least : LimitedField → Nat
  | wideningThreshold | pointerContextDepth => 0
  | maxSccIterations | maxBlockVisits => 1

def greatest : LimitedField → Nat
  | wideningThreshold => 64
  | maxSccIterations => 1000000
  | pointerContextDepth => 4
  | maxBlockVisits => 100000000

/-- Advice for a value outside the limits. -/
def hint : LimitedField → String
  | wideningThreshold => "Large thresholds delay loop convergence without improving precision"
  | maxSccIterations => "At least one round is needed to compute a summary"
  | pointerContextDepth =>
      "Call strings longer than 4 multiply heap objects without bound in practice"
  | maxBlockVisits => "The cap must allow the entry block to be visited"

end LimitedField

def supportedVersions : List Nat := [1]

/-- A reason to refuse a configuration. -/
inductive ConfigError where
  | outOfRange (field : LimitedField) (value : Nat)
  /-- A domain name that does not exist, with the closest one that does. -/
  | unknownDomain (name : String) (closest : Option String)
  /-- A document that does not tell its version. -/
  | missingVersion
  /-- A document of a version that cannot be read. -/
  | unsupportedVersion (found : Nat)
  /-- A preset name that does not exist. -/
  | unknownPreset (name : String)
  /-- A file that cannot be read. -/
  | unreadable
  /-- A document that is no configuration. -/
  | malformed
  | noDomain
deriving DecidableEq, Repr

namespace ConfigError

/-- The error for a name that is none of the valid domain names. -/
def ofUnknownDomain (name : String) (valid : List String) : ConfigError :=
  .unknownDomain name (closest? name valid)

def message : ConfigError → String
  | outOfRange field value =>
      s!"Invalid range for field '{field.name}': {value} not in {field.least}..={field.greatest}. {field.hint}"
  | unknownDomain name (some closest) => s!"Unknown domain '{name}'. Did you mean '{closest}'?"
  | unknownDomain name none => s!"Unknown domain '{name}'. No valid domains available"
  | missingVersion =>
      "Missing 'version' field in configuration file. Add 'version: 1' to the top of your YAML file."
  | unsupportedVersion found =>
      let versions := ", ".intercalate (supportedVersions.map toString)
      s!"Unsupported configuration version {found}. Supported versions: {versions}"
  | unknownPreset name =>
      s!"Unknown preset '{name}'. Valid presets: fast, balanced, thorough, custom"
  | unreadable => "IO error"
  | malformed => "YAML parsing error"
  | noDomain =>
      "Validation error: enabled_domains must name at least one of: sign, nullability, range"

end ConfigError

namespace DomainSet

/-- The selection of the named domains; the first unknown name is an error. -/
def ofNames (names : List String) : Except ConfigError DomainSet := do
  let kinds ← names.mapM fun n =>
    match DomainKind.ofName? n with
    | some d => .ok d
    | none => .error (.ofUnknownDomain n (DomainKind.all.map DomainKind.name))
  return ofList kinds

end DomainSet

end ValueFlow
