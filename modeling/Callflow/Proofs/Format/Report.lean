import Callflow.Format.Text
import Callflow.Proofs.Format.Journal
import Callflow.Proofs.Json.Pretty

/-!
# Reports survive their texts

A report is read back from its indented text if its clock is finite. An infinite one is written as
`null`, which is no time, and then the text is not read at all: `parse?_render_eq`.
-/

namespace Callflow
namespace SimulationReport

/-- Whether the counts of a report are words, and its identifier and its time of creation are read
from their own texts. -/
structure Legible (r : SimulationReport) : Prop where
  runId : RunId.parse? r.runId.render = some r.runId
  createdAt : Timestamp.parse? r.createdAt.render = some r.createdAt
  eventsDispatched : r.eventsDispatched < Json.word64
  pendingEvents : r.pendingEvents < Json.word64
  requests : r.requests.Fits

variable {r : SimulationReport}

theorem distinct : fieldNames.Nodup := by decide

/-- The document of a report is read as it is, even if the clock has no written form. -/
theorem written_toJson (h : r.Legible) : Json.Written r.toJson := by
  simp [toJson, Json.codec_word64.written h.eventsDispatched,
    Json.codec_word64.written h.pendingEvents, RequestStats.codec.written h.requests]

/-- The values of a report, in the order of its fields. -/
def values (r : SimulationReport) : List Json :=
  [.str r.runId.render, .str r.createdAt.render, .ofFloat r.now, .ofNat r.eventsDispatched,
    .ofNat r.pendingEvents, r.requests.toJson, .str r.fingerprint]

/-- The document of a report holds the report if it holds its clock. -/
theorem ofJson?_toJson (h : r.Legible) :
    ofJson? r.toJson = (Json.ofFloat r.now).float?.map fun now => { r with now := now } := by
  have hdocument : r.toJson = .obj (fieldNames.zip r.values) := rfl
  have hselect : (Json.Fields.named (fieldNames.zip r.values)).select? fieldNames =
      some (r.values.map some) := Json.select?_zip distinct rfl
  rw [hdocument]
  simp only [ofJson?, Json.fields?, hselect, Option.bind_eq_bind, Option.bind_some]
  simp only [values, List.map_cons, List.map_nil, Json.string?, Json.codec_word64.read_write
    h.eventsDispatched, Json.codec_word64.read_write h.pendingEvents,
    RequestStats.codec.read_write h.requests, h.runId, h.createdAt, Option.bind_some,
    Option.pure_def]
  cases (Json.ofFloat r.now).float? <;> rfl

/-- The text of a report is read as the report if its clock is finite, and not at all otherwise. -/
theorem parse?_render_eq (h : r.Legible) :
    parse? r.render = if Decimal.isFinite r.now then some r else none := by
  have hwritten := written_toJson h
  have hread : parse? r.render = ofJson? r.toJson := by
    rw [parse?, render, Json.parse?_pretty hwritten.sound hwritten.readable, Option.bind_some]
  rw [hread, ofJson?_toJson h]
  by_cases hfinite : Decimal.isFinite r.now = true
  · rw [Json.codec_float.read_write hfinite, if_pos hfinite]
    rfl
  · have hnull : Json.ofFloat r.now = .null := if_neg hfinite
    rw [hnull, if_neg hfinite]
    rfl

end SimulationReport
end Callflow
