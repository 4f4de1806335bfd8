import Callflow.Time

/-!
# What can go wrong

Mistakes in a program and refused delays are errors: they stop the evaluation or the run in which
they arise. A simulated failure, such as a request that is rejected, is not among them.
-/

namespace Callflow

/-- A mistake in a program. -/
inductive ProgramError where
  | undefinedSymbol (name : String)
  | notAService (name : String)
  | undefinedOperation (service operation : String)
  | noEnclosingService (name : String)
  | invalidRetryLimit (limit : Nat)
  | invalidPeriod (period : Time)

def ProgramError.message : ProgramError → String
  | .undefinedSymbol name => "undefined symbol '" ++ name ++ "'"
  | .notAService name => "'" ++ name ++ "' is not a service"
  | .undefinedOperation service operation =>
    "service '" ++ service ++ "' has no operation '" ++ operation ++ "'"
  | .noEnclosingService name => "operation '" ++ name ++ "' must be defined inside a service"
  | .invalidRetryLimit limit => "retry limit must be at least 1, found " ++ toString limit
  | .invalidPeriod period =>
    "client period must be positive, found " ++ Decimal.Layout.plain.render period

/-- An error of a simulation. -/
inductive SimulationError where
  | program (cause : ProgramError)
  | scheduling (cause : SchedulingError)

def SimulationError.message : SimulationError → String
  | .program cause => "Program error: " ++ cause.message
  | .scheduling cause => "Scheduling error: " ++ cause.message

end Callflow
