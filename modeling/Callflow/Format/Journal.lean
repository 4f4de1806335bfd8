import Callflow.Format.Request
import Callflow.Journal.Basic

/-!
# Documents about the journal

The written forms of event kinds and numbers, journal entries and request counts. An entry carries
its variant under `entry`.
-/

namespace Callflow

namespace EventKind

def all : List EventKind :=
  [.external, .delivery, .timeout, .think, .retry, .clientFiring, .reply]

def word : EventKind → String
  | .external => "external"
  | .delivery => "delivery"
  | .timeout => "timeout"
  | .think => "think"
  | .retry => "retry"
  | .clientFiring => "client_firing"
  | .reply => "reply"

def toJson (k : EventKind) : Json := .str k.word

def ofJson? (ahead : Bool) (v : Json) : Option EventKind := Json.bareVariant? ahead all word v

end EventKind

namespace EventId

def toJson (id : EventId) : Json := .ofNat id.seq

def ofJson? (v : Json) : Option EventId := (v.nat? Json.word64).map EventId.mk

end EventId

inductive EntryVariant where
  | dispatched
  | issued
  | settled
  | staleReply
  deriving DecidableEq

namespace EntryVariant

def all : List EntryVariant := [.dispatched, .issued, .settled, .staleReply]

def word : EntryVariant → String
  | .dispatched => "dispatched"
  | .issued => "issued"
  | .settled => "settled"
  | .staleReply => "stale_reply"

def fieldNames : EntryVariant → List String
  | .dispatched => ["time", "seq", "kind"]
  | .issued => ["time", "request", "caller", "service", "operation"]
  | .settled => ["time", "request", "status", "failure"]
  | .staleReply => ["time", "request", "attempted"]

end EntryVariant

namespace JournalEntry

def tag : String := "entry"

def tagged (variant : EntryVariant) (fields : List (String × Json)) : Json :=
  .obj ((tag, .str variant.word) :: fields)

def toJson : JournalEntry → Json
  | .dispatched time seq kind =>
    tagged .dispatched [("time", .ofFloat time), ("seq", .ofNat seq), ("kind", kind.toJson)]
  | .issued time request caller service operation =>
    tagged .issued [("time", .ofFloat time), ("request", request.toJson), ("caller", caller.toJson),
      ("service", .str service), ("operation", .str operation)]
  | .settled time request status failure =>
    tagged .settled [("time", .ofFloat time), ("request", request.toJson),
      ("status", status.toJson), ("failure", .ofOption Failure.toJson failure)]
  | .staleReply time request attempted =>
    tagged .staleReply [("time", .ofFloat time), ("request", request.toJson),
      ("attempted", attempted.toJson)]

def ofContent? : EntryVariant → List (Option Json) → Option JournalEntry
  | .dispatched, [some time, some seq, some kind] =>
    return .dispatched (← time.float?) (← seq.nat? Json.word64) (← EventKind.ofJson? true kind)
  | .issued, [some time, some request, some caller, some service, some operation] =>
    return .issued (← time.float?) (← RequestId.ofJson? request) (← Caller.ofJson? true caller)
      (← service.string?) (← operation.string?)
  | .settled, [some time, some request, some status, failure] =>
    return .settled (← time.float?) (← RequestId.ofJson? request) (← Status.ofJson? true status)
      (← Json.optional? (Failure.ofJson? true) failure)
  | .staleReply, [some time, some request, some attempted] =>
    return .staleReply (← time.float?) (← RequestId.ofJson? request)
      (← Status.ofJson? true attempted)
  | _, _ => none

def ofJson? (v : Json) : Option JournalEntry := do
  let (variant, values) ← (← v.fields?).content? tag
    (Json.variant? false EntryVariant.all EntryVariant.word) EntryVariant.fieldNames
  ofContent? variant values

end JournalEntry

namespace RequestStats

def fieldNames : List String := ["issued", "succeeded", "failed", "timed_out", "stale_replies"]

def toJson (s : RequestStats) : Json :=
  .obj [("issued", .ofNat s.issued), ("succeeded", .ofNat s.succeeded), ("failed", .ofNat s.failed),
    ("timed_out", .ofNat s.timedOut), ("stale_replies", .ofNat s.staleReplies)]

def ofValues? : List (Option Json) → Option RequestStats
  | [some issued, some succeeded, some failed, some timedOut, some staleReplies] =>
    return {
      issued := ← issued.nat? Json.word64
      succeeded := ← succeeded.nat? Json.word64
      failed := ← failed.nat? Json.word64
      timedOut := ← timedOut.nat? Json.word64
      staleReplies := ← staleReplies.nat? Json.word64 }
  | _ => none

def ofJson? (v : Json) : Option RequestStats := do
  ofValues? (← (← v.fields?).select? fieldNames)

end RequestStats
end Callflow
