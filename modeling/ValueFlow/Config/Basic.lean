import ValueFlow.Config.Error
/-!
The configuration of an analysis run: presets, changes to them, and validation.
-/

namespace ValueFlow

/-- A named set of default settings. -/
inductive Preset where
  | fast
  | balanced
  | thorough
  | custom
deriving DecidableEq, Repr

namespace Preset

def name : Preset → String
  | fast => "fast"
  | balanced => "balanced"
  | thorough => "thorough"
  | custom => "custom"

/-- The preset of a name, in any letter case; every name consists of ASCII letters. -/
def ofName? (s : String) : Option Preset :=
  match s.toLower with
  | "fast" => some .fast
  | "balanced" => some .balanced
  | "thorough" => some .thorough
  | "custom" => some .custom
  | _ => none

/-- The preset that is used when none is named. -/
def standard : Preset := .balanced

end Preset

structure Config where
  /-- How often a loop header is joined before it is widened. -/
  wideningThreshold : UInt64
  /-- How many rounds a group of recursive functions may take. -/
  maxSccIterations : UInt64
  /-- The domains tracked for each variable. -/
  enabledDomains : DomainSet
  /-- The length of call strings; zero merges all contexts. -/
  pointerContextDepth : UInt64
  /-- How often each block of a function may be visited. -/
  maxBlockVisits : UInt64
  /-- Whether independent groups of functions may be analysed at once; results are the same. -/
  parallel : Bool
  /-- Whether conditions with a fixed outcome are reported. -/
  reportUnreachableBranches : Bool
  /-- The preset the settings started from. -/
  preset : Preset
deriving DecidableEq, Repr

namespace Config

def ofPreset (preset : Preset) : Config :=
  match preset with
  | .fast =>
      { wideningThreshold := 1, maxSccIterations := 100, enabledDomains := .all,
        pointerContextDepth := 0, maxBlockVisits := 10000, parallel := true,
        reportUnreachableBranches := false, preset }
  | .balanced | .custom =>
      { wideningThreshold := 2, maxSccIterations := 1000, enabledDomains := .all,
        pointerContextDepth := 1, maxBlockVisits := 100000, parallel := true,
        reportUnreachableBranches := true, preset }
  | .thorough =>
      { wideningThreshold := 4, maxSccIterations := 5000, enabledDomains := .all,
        pointerContextDepth := 2, maxBlockVisits := 1000000, parallel := true,
        reportUnreachableBranches := true, preset }

instance : Inhabited Config := ⟨ofPreset .standard⟩

inductive Change where
  | wideningThreshold (n : UInt64)
  | maxSccIterations (n : UInt64)
  | enabledDomains (s : DomainSet)
  | pointerContextDepth (n : UInt64)
  | maxBlockVisits (n : UInt64)
  | parallel (b : Bool)
  | reportUnreachableBranches (b : Bool)
deriving DecidableEq, Repr

def apply (c : Config) : Change → Config
  | .wideningThreshold n => { c with wideningThreshold := n }
  | .maxSccIterations n => { c with maxSccIterations := n }
  | .enabledDomains s => { c with enabledDomains := s }
  | .pointerContextDepth n => { c with pointerContextDepth := n }
  | .maxBlockVisits n => { c with maxBlockVisits := n }
  | .parallel b => { c with parallel := b }
  | .reportUnreachableBranches b => { c with reportUnreachableBranches := b }

/-- The changes that lead from the preset of a configuration to the configuration itself, in the
order of the settings. -/
def changes (c : Config) : List Change :=
  let base := ofPreset c.preset
  let changed (differs : Bool) (change : Change) : List Change := if differs then [change] else []
  changed (c.wideningThreshold != base.wideningThreshold) (.wideningThreshold c.wideningThreshold)
    ++ changed (c.maxSccIterations != base.maxSccIterations) (.maxSccIterations c.maxSccIterations)
    ++ changed (c.enabledDomains != base.enabledDomains) (.enabledDomains c.enabledDomains)
    ++ changed (c.pointerContextDepth != base.pointerContextDepth)
        (.pointerContextDepth c.pointerContextDepth)
    ++ changed (c.maxBlockVisits != base.maxBlockVisits) (.maxBlockVisits c.maxBlockVisits)
    ++ changed (c.parallel != base.parallel) (.parallel c.parallel)
    ++ changed (c.reportUnreachableBranches != base.reportUnreachableBranches)
        (.reportUnreachableBranches c.reportUnreachableBranches)

def checkLimit (field : LimitedField) (value : UInt64) : Except ConfigError Unit :=
  if field.least ≤ value.toNat ∧ value.toNat ≤ field.greatest then .ok ()
  else .error (.outOfRange field value.toNat)

/-- Checks every setting; the first fault is the error. -/
def validate (c : Config) : Except ConfigError Unit := do
  checkLimit .wideningThreshold c.wideningThreshold
  checkLimit .maxSccIterations c.maxSccIterations
  checkLimit .pointerContextDepth c.pointerContextDepth
  checkLimit .maxBlockVisits c.maxBlockVisits
  if c.enabledDomains.isEmpty then .error .noDomain else .ok ()

def validateAll (cs : List Config) : Except ConfigError Unit := cs.forM validate

end Config

end ValueFlow
