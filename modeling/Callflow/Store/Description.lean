import Callflow.Decimal.Layout
import Callflow.Store.Basic
import Callflow.Text.Quoted

/-!
# Descriptions

Short texts about values, scopes, services, clients and requests, for diagnosis.
-/

namespace Callflow

structure Sight where
  text : String
  target : Option String
  operations : Option (List String)
  client : Option (String × Time)

namespace Store

def describeValue (s : Store) : Value → String
  | .unit => "Unit"
  | .number x => "Number(" ++ Decimal.Layout.plain.render x ++ ")"
  | .service id => "Service(" ++ s.targetName (.service id) ++ ")"
  | .endpoint id => "Endpoint(" ++ s.targetName (.endpoint id) ++ ")"
  | .operation op => "Operation(" ++ op.owner ++ "." ++ op.name ++ ")"
  | .client id => "Client(" ++ ((s.client? id).map Client.name).getD "" ++ ")"

def see (s : Store) (v : Value) : Sight where
  text := s.describeValue v
  target := v.target?.map s.targetName
  operations := match v with
    | .service id => (s.service? id).map fun service => service.operations.names
    | _ => none
  client := match v with
    | .client id => (s.client? id).map fun client => (client.name, client.period)
    | _ => none

end Store

def Scope.describe (s : Scope) : String :=
  Text.described "Environment" [("symbols", Text.quotedList s.bindings.names),
    ("has_parent", if s.parent.isSome then "true" else "false")] false

def Service.describe (s : Service) : String :=
  Text.described "Service" [("name", Text.quoted s.name),
    ("operations", Text.quotedList s.operations.names)] false

def Client.describe (c : Client) : String :=
  Text.described "ClientStub" [("name", Text.quoted c.name),
    ("period", Decimal.Layout.diagnostic.render c.period), ("firings", toString c.firings),
    ("successes", toString c.successes), ("errors", toString c.errors)] true

/-- The text of a caller, as part of a description. -/
def Caller.describe : Caller → String
  | .host => "Host"
  | .client name => "Client(" ++ Text.quoted name ++ ")"
  | .operation service name =>
    Text.described "Operation" [("service", Text.quoted service), ("operation", Text.quoted name)]
      false

/-- The text of a state, as part of a description. -/
def Status.describe : Status → String
  | .pending => "Pending"
  | .success => "Success"
  | .error => "Error"

def Request.describe (r : Request) : String :=
  let deadline := match r.deadline with
    | some t => "Some(" ++ Decimal.Layout.diagnostic.render t ++ ")"
    | none => "None"
  Text.described "Request" [("id", "RequestId(" ++ toString r.id.number ++ ")"),
    ("caller", r.caller.describe), ("operation", Text.quoted r.operation),
    ("created_at", Decimal.Layout.diagnostic.render r.createdAt), ("status", r.status.describe),
    ("deadline", deadline)] true

end Callflow
