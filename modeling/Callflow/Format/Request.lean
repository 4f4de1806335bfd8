import Callflow.Json.Record
import Callflow.Request.Basic

/-!
# Documents about requests

The written forms of request numbers, callers, states and failures. Each `toJson` has its
`ofJson?`; `ahead` is the flag of `Callflow.Json.Record`.
-/

namespace Callflow

namespace RequestId

def toJson (id : RequestId) : Json := .ofNat id.number

def ofJson? (v : Json) : Option RequestId := (v.nat? Json.word64).map RequestId.mk

end RequestId

/-! ## Callers -/

inductive CallerVariant where
  | host
  | client
  | operation
  deriving DecidableEq

namespace CallerVariant

def all : List CallerVariant := [.host, .client, .operation]

def word : CallerVariant → String
  | .host => "host"
  | .client => "client"
  | .operation => "operation"

end CallerVariant

namespace Caller

def toJson : Caller → Json
  | .host => .str "host"
  | .client name => .obj [("client", .str name)]
  | .operation service name =>
    .obj [("operation", .obj [("service", .str service), ("operation", .str name)])]

def ofContent? (ahead : Bool) (v : Json) : CallerVariant → Option Caller
  | .host => if Json.isNothing ahead v then some .host else none
  | .client => v.string?.map Caller.client
  | .operation => do
    let fields ← v.fields?
    match ← fields.select? ["service", "operation"] with
    | [some service, some name] => return .operation (← service.string?) (← name.string?)
    | _ => none

def ofJson? (ahead : Bool) : Json → Option Caller
  | .str s => if s = CallerVariant.host.word then some .host else none
  | .obj [(name, v)] => do
    let variant ← Json.variant? false CallerVariant.all CallerVariant.word (.str name)
    ofContent? ahead v variant
  | _ => none

end Caller

/-! ## States -/

namespace Status

def all : List Status := [.pending, .success, .error]

def word : Status → String
  | .pending => "pending"
  | .success => "success"
  | .error => "error"

def toJson (s : Status) : Json := .str s.word

def ofJson? (ahead : Bool) (v : Json) : Option Status := Json.bareVariant? ahead all word v

end Status

/-! ## Failures -/

inductive FailureVariant where
  | rejected
  | timedOut
  | injected
  | exhausted
  deriving DecidableEq

namespace FailureVariant

def all : List FailureVariant := [.rejected, .timedOut, .injected, .exhausted]

def word : FailureVariant → String
  | .rejected => "rejected"
  | .timedOut => "timed_out"
  | .injected => "injected"
  | .exhausted => "exhausted"

def fieldNames : FailureVariant → List String
  | .rejected | .injected => []
  | .timedOut => ["deadline"]
  | .exhausted => ["attempts"]

end FailureVariant

namespace Failure

def tag : String := "reason"

def toJson : Failure → Json
  | .rejected => .obj [(tag, .str FailureVariant.rejected.word)]
  | .timedOut deadline =>
    .obj [(tag, .str FailureVariant.timedOut.word), ("deadline", .ofFloat deadline)]
  | .injected => .obj [(tag, .str FailureVariant.injected.word)]
  | .exhausted attempts =>
    .obj [(tag, .str FailureVariant.exhausted.word), ("attempts", .ofNat attempts)]

def ofContent? : FailureVariant → List (Option Json) → Option Failure
  | .rejected, [] => return .rejected
  | .injected, [] => return .injected
  | .timedOut, [some deadline] => return .timedOut (← deadline.float?)
  | .exhausted, [some attempts] => return .exhausted (← attempts.nat? Json.word32)
  | _, _ => none

def ofJson? (ahead : Bool) (v : Json) : Option Failure := do
  let (variant, values) ← (← v.fields?).content? tag
    (Json.variant? ahead FailureVariant.all FailureVariant.word) FailureVariant.fieldNames
  ofContent? variant values

end Failure
end Callflow
