import Callflow.Json.Record
import Callflow.Program.Basic

/-!
# Documents that hold programs

The written forms of delays and activities. An activity carries its variant under `node`, a delay's
growth carries its own under `kind` and stands in the same object as the base of the delay.

An activity is read bottom up: `Part` pairs every value with the activity and with the list of
activities that it may stand for, and `Activity.assemble?` puts the parts of one object together.
-/

namespace Callflow

/-! ## Delays -/

inductive GrowthVariant where
  | constant
  | exponential
  deriving DecidableEq

namespace GrowthVariant

def all : List GrowthVariant := [.constant, .exponential]

def word : GrowthVariant → String
  | .constant => "constant"
  | .exponential => "exponential"

def fieldNames : GrowthVariant → List String
  | .constant => []
  | .exponential => ["factor", "max"]

end GrowthVariant

namespace Growth

def tag : String := "kind"

def toFields : Growth → List (String × Json)
  | .constant => [(tag, .str GrowthVariant.constant.word)]
  | .exponential factor cap =>
    [(tag, .str GrowthVariant.exponential.word), ("factor", .ofFloat factor),
      ("max", .ofOption .ofFloat cap)]

def toJson (g : Growth) : Json := .obj g.toFields

def ofContent? : GrowthVariant → List (Option Json) → Option Growth
  | .constant, [] => return .constant
  | .exponential, [some factor, cap] =>
    return .exponential (← factor.float?) (← Json.optional? Json.float? cap)
  | _, _ => none

def ofFields? (ahead : Bool) (fields : Json.Fields Json) : Option Growth := do
  let (variant, values) ← fields.content? tag
    (Json.variant? ahead GrowthVariant.all GrowthVariant.word) GrowthVariant.fieldNames
  ofContent? variant values

def ofJson? (ahead : Bool) (v : Json) : Option Growth := do ofFields? ahead (← v.fields?)

end Growth

namespace Delay

/-- A delay is written as its base and the fields of its growth, in one object. -/
def toJson (d : Delay) : Json := .obj (("value", .ofFloat d.base) :: d.growth.toFields)

/-- Reads a delay, which is always an object. -/
def ofJson? : Json → Option Delay
  | .obj fields => do
    let base ← Json.once? fields "value"
    let growth ← Growth.ofFields? true (.named (fields.filter fun f => f.1 != "value"))
    return ⟨← (← base).float?, growth⟩
  | _ => none

end Delay

/-! ## Activities -/

inductive ActivityVariant where
  | defineService
  | defineOperation
  | defineClient
  | trigger
  | query
  | sequence
  | think
  | retry
  | ignoreError
  | fail
  deriving DecidableEq

namespace ActivityVariant

def all : List ActivityVariant :=
  [.defineService, .defineOperation, .defineClient, .trigger, .query, .sequence, .think, .retry,
    .ignoreError, .fail]

def word : ActivityVariant → String
  | .defineService => "define_service"
  | .defineOperation => "define_operation"
  | .defineClient => "define_client_stub"
  | .trigger => "trigger"
  | .query => "query"
  | .sequence => "sequence"
  | .think => "think"
  | .retry => "retry"
  | .ignoreError => "ignore_error"
  | .fail => "fail"

def fieldNames : ActivityVariant → List String
  | .defineService => ["name", "operations"]
  | .defineOperation => ["name", "body"]
  | .defineClient => ["name", "period", "body"]
  | .trigger => ["target", "operation"]
  | .query => ["target", "operation", "timeout"]
  | .sequence => ["steps"]
  | .think => ["duration"]
  | .retry => ["body", "limit", "delay"]
  | .ignoreError => ["body"]
  | .fail => []

end ActivityVariant

namespace Activity

def tag : String := "node"

def tagged (variant : ActivityVariant) (fields : List (String × Json)) : Json :=
  .obj ((tag, .str variant.word) :: fields)

def toJson : Activity → Json
  | .defineService name body =>
    tagged .defineService [("name", .str name), ("operations", .arr (toItems body))]
  | .defineOperation name body =>
    tagged .defineOperation [("name", .str name), ("body", toJson body)]
  | .defineClient name period body =>
    tagged .defineClient [("name", .str name), ("period", .ofFloat period), ("body", toJson body)]
  | .trigger target operation =>
    tagged .trigger [("target", .str target), ("operation", .str operation)]
  | .query target operation timeout =>
    tagged .query [("target", .str target), ("operation", .str operation),
      ("timeout", .ofOption .ofFloat timeout)]
  | .sequence steps => tagged .sequence [("steps", .arr (toItems steps))]
  | .think duration => tagged .think [("duration", .ofFloat duration)]
  | .retry body limit delay =>
    tagged .retry [("body", toJson body), ("limit", .ofNat limit), ("delay", delay.toJson)]
  | .ignoreError body => tagged .ignoreError [("body", toJson body)]
  | .fail => tagged .fail []
where
  -- The written forms of some activities.
  toItems : List Activity → List Json
    | [] => []
    | a :: rest => toJson a :: toItems rest

/-- A value together with what it stands for inside a program. -/
structure Part where
  value : Json
  activity : Option Activity
  activities : Option (List Activity)

/-- An activity from its variant and the values of its fields. -/
def ofContent? : ActivityVariant → List (Option Part) → Option Activity
  | .defineService, [some name, some body] =>
    return .defineService (← name.value.string?) (← body.activities)
  | .defineOperation, [some name, some body] =>
    return .defineOperation (← name.value.string?) (← body.activity)
  | .defineClient, [some name, some period, some body] =>
    return .defineClient (← name.value.string?) (← period.value.float?) (← body.activity)
  | .trigger, [some target, some operation] =>
    return .trigger (← target.value.string?) (← operation.value.string?)
  | .query, [some target, some operation, timeout] =>
    return .query (← target.value.string?) (← operation.value.string?)
      (← Json.optional? Json.float? (timeout.map Part.value))
  | .sequence, [some steps] => return .sequence (← steps.activities)
  | .think, [some duration] => return .think (← duration.value.float?)
  | .retry, [some body, some limit, some delay] =>
    return .retry (← body.activity) (← limit.value.nat? Json.word32) (← Delay.ofJson? delay.value)
  | .ignoreError, [some body] => return .ignoreError (← body.activity)
  | .fail, [] => return .fail
  | _, _ => none

/-- An activity from its tag and its other fields. -/
def assemble? (ahead : Bool) (fields : Json.Fields Part) : Option Activity := do
  let (variant, values) ← fields.content? tag
    (fun p => Json.variant? ahead ActivityVariant.all ActivityVariant.word p.value)
    ActivityVariant.fieldNames
  ofContent? variant values

/-- What a value inside a program stands for. -/
def part : Json → Part
  | .obj fields => ⟨.obj fields, assemble? true (.named (fieldParts fields)), none⟩
  | .arr items =>
    let parts := itemParts items
    ⟨.arr items, assemble? true (.listed parts), parts.mapM Part.activity⟩
  | v => ⟨v, none, none⟩
where
  -- What the items of an array stand for.
  itemParts : List Json → List Part
    | [] => []
    | v :: rest => part v :: itemParts rest
  -- What the fields of an object stand for.
  fieldParts : List (String × Json) → List (String × Part)
    | [] => []
    | (name, v) :: rest => (name, part v) :: fieldParts rest

def ofJson? : Json → Option Activity
  | .obj fields => assemble? false (.named (part.fieldParts fields))
  | .arr items => assemble? false (.listed (part.itemParts items))
  | _ => none

end Activity
end Callflow
