import ValueFlow.Config.Error
import ValueFlow.FlowGraph.Malformed
/-!
Reasons why an analysis gives no result.
-/

namespace ValueFlow

inductive AnalysisError where
  | malformed (body : MalformedBody)
  | cancelled
  | config (error : ConfigError)
deriving DecidableEq, Repr

namespace AnalysisError

def message : AnalysisError → String
  | malformed body => body.message
  | cancelled => "Analysis cancelled"
  | config error => "Configuration error: " ++ error.message

end AnalysisError

/-- Stops a run that was asked to stop. -/
def checkCancelled (requested : Bool) : Except AnalysisError Unit :=
  if requested then .error .cancelled else .ok ()

end ValueFlow
