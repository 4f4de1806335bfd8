import Callflow.Journal.Basic
import Callflow.Text.RunId
import Callflow.Text.Timestamp

/-!
# Configurations and reports

What a simulation is set up with, and what it reports about its progress.
-/

namespace Callflow

/-- What a simulation is set up with. -/
structure SimulationConfig where
  -- Whether journal entries are kept.
  journal : Bool
  -- The most events that one run may dispatch.
  maxEvents : Option Nat
  deriving DecidableEq

/-- Entries are kept and runs are not limited. -/
def SimulationConfig.default : SimulationConfig := ⟨true, none⟩

/-- What a simulation reports. -/
structure SimulationReport where
  runId : RunId
  createdAt : Timestamp
  now : Time
  eventsDispatched : Nat
  pendingEvents : Nat
  requests : RequestStats
  fingerprint : String

end Callflow
