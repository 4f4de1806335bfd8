import Callflow.Format.Journal
import Callflow.Json.Reader
import Callflow.Json.Writer
import Callflow.Report.Basic

/-!
# Documents about simulations

The written forms of configurations and reports. A configuration may leave out any field, and by
position any fields at its end.
-/

namespace Callflow
namespace SimulationConfig

def fieldNames : List String := ["journal", "max_events"]

def toJson (c : SimulationConfig) : Json :=
  .obj [("journal", .bool c.journal), ("max_events", .ofOption .ofNat c.maxEvents)]

/-- Fields at the end may be missing. -/
def padded? : Json.Fields Json → Option (List (Option Json))
  | .named fields => fieldNames.mapM (Json.once? fields)
  | .listed items =>
    if items.length ≤ fieldNames.length then
      some (items.map some ++ List.replicate (fieldNames.length - items.length) none)
    else none

def ofValues? : List (Option Json) → Option SimulationConfig
  | [journal, maxEvents] => do
    let journal ← match journal with
      | none => some SimulationConfig.default.journal
      | some b => b.bool?
    return ⟨journal, ← Json.optional? (Json.nat? Json.word64) maxEvents⟩
  | _ => none

def ofJson? (v : Json) : Option SimulationConfig := do ofValues? (← padded? (← v.fields?))

/-- What is said about a text that holds no configuration. -/
def refusal : String := "Failed to parse simulation config"

def parse? (text : String) : Option SimulationConfig := (Json.parse? text).bind ofJson?

end SimulationConfig

namespace SimulationReport

def fieldNames : List String :=
  ["run_id", "created_at", "now", "events_dispatched", "pending_events", "requests", "fingerprint"]

def toJson (r : SimulationReport) : Json :=
  .obj [("run_id", .str r.runId.render), ("created_at", .str r.createdAt.render),
    ("now", .ofFloat r.now), ("events_dispatched", .ofNat r.eventsDispatched),
    ("pending_events", .ofNat r.pendingEvents), ("requests", r.requests.toJson),
    ("fingerprint", .str r.fingerprint)]

def ofJson? (v : Json) : Option SimulationReport := do
  match ← (← v.fields?).select? fieldNames with
  | [some runId, some createdAt, some now, some eventsDispatched, some pendingEvents, some requests,
      some fingerprint] =>
    return {
      runId := ← RunId.parse? (← runId.string?)
      createdAt := ← Timestamp.parse? (← createdAt.string?)
      now := ← now.float?
      eventsDispatched := ← eventsDispatched.nat? Json.word64
      pendingEvents := ← pendingEvents.nat? Json.word64
      requests := ← RequestStats.ofJson? requests
      fingerprint := ← fingerprint.string? }
  | _ => none

/-- The text of a report, indented. -/
def render (r : SimulationReport) : String := r.toJson.pretty

end SimulationReport
end Callflow
