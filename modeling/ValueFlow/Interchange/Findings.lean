import ValueFlow.Analysis.Diagnostic
import ValueFlow.Config.Basic
import ValueFlow.Interchange.Json
/-!
Documents of findings and configurations.
-/

namespace ValueFlow

namespace Certainty

def toJson : Certainty → Json
  | definite => "Definite"
  | possible => "Possible"

def ofJson? (j : Json) : Option Certainty := do
  match ← j.case? with
  | "Definite" => some .definite
  | "Possible" => some .possible
  | _ => none

end Certainty

namespace Severity

def toJson : Severity → Json
  | info => "Info"
  | warning => "Warning"
  | error => "Error"

end Severity

namespace DiagnosticKind

def toJson : DiagnosticKind → Json
  | definiteNullDeref => .obj [("type", "DefiniteNullDeref")]
  | possibleNullDeref => .obj [("type", "PossibleNullDeref")]
  | outOfBounds c => .obj [("type", "OutOfBounds"), ("certainty", c.toJson)]
  | unreachableBranch => .obj [("type", "UnreachableBranch")]
  | analysisDegraded => .obj [("type", "AnalysisDegraded")]

def ofJson? (j : Json) : Option DiagnosticKind := do
  match ← j.get? Json.str? "type" with
  | "DefiniteNullDeref" => some .definiteNullDeref
  | "PossibleNullDeref" => some .possibleNullDeref
  | "OutOfBounds" => (j.get? Certainty.ofJson? "certainty").map .outOfBounds
  | "UnreachableBranch" => some .unreachableBranch
  | "AnalysisDegraded" => some .analysisDegraded
  | _ => none

end DiagnosticKind

namespace Diagnostic

def toJson (d : Diagnostic) : Json :=
  .obj [("kind", d.kind.toJson), ("location", d.location), ("function", d.function),
    ("message", d.message)]

end Diagnostic

namespace DomainSet

def toJson (s : DomainSet) : Json := .ofStrings s.names

end DomainSet

namespace Config

def toJson (c : Config) : Json :=
  .obj [("widening_threshold", c.wideningThreshold.toNat),
    ("max_scc_iterations", c.maxSccIterations.toNat),
    ("enabled_domains", c.enabledDomains.toJson),
    ("pointer_context_depth", c.pointerContextDepth.toNat),
    ("max_block_visits", c.maxBlockVisits.toNat),
    ("parallel", c.parallel),
    ("report_unreachable_branches", c.reportUnreachableBranches)]

end Config

end ValueFlow
