import Callflow.Program.Basic
import Callflow.Request.Basic
import Callflow.Store.Directory

/-!
# What programs define

A `Store` holds the scopes, services, clients and host endpoints of a simulation. Each is known by
its number, which is its place in the store; nothing is ever removed from the store itself. Whether
a scope can still be reached is another matter: see `Callflow.Store.Scope`.
-/

namespace Callflow

structure ScopeId where
  index : Nat
  deriving DecidableEq, Repr

structure ServiceId where
  index : Nat
  deriving DecidableEq, Repr

structure ClientId where
  index : Nat
  deriving DecidableEq, Repr

structure EndpointId where
  index : Nat
  deriving DecidableEq, Repr

/-- A named body of the service `owner`. -/
structure Operation where
  name : String
  owner : String
  body : Activity

/-- What a symbol can be bound to, and what an activity can end with. -/
inductive Value where
  | unit
  | number (x : Float)
  | service (id : ServiceId)
  | endpoint (id : EndpointId)
  | operation (op : Operation)
  | client (id : ClientId)

/-- What can receive requests. -/
inductive Target where
  | service (id : ServiceId)
  | endpoint (id : EndpointId)
  deriving DecidableEq, Repr

/-- The target that a value is, if it is one. -/
def Value.target? : Value → Option Target
  | .service id => some (.service id)
  | .endpoint id => some (.endpoint id)
  | _ => none

/-- How an activity ends. -/
inductive Outcome where
  | success (value : Value)
  | failure (cause : Failure)

/-- A table of symbols inside another one. The scope of a service's body belongs to that service. -/
structure Scope where
  parent : Option ScopeId
  owner : Option ServiceId
  bindings : Directory Value

/-- A set of operations with a scope of its own. -/
structure Service where
  name : String
  scope : ScopeId
  operations : Directory Operation

/-- An activity that is started again and again. -/
structure Client where
  name : String
  period : Time
  body : Activity
  firings : Nat
  successes : Nat
  errors : Nat

/-- A target that the host provides. Requests need the time `transit` to get there. -/
structure Endpoint where
  name : String
  transit : Time

/-- Everything that has been defined. -/
structure Store where
  scopes : Array Scope
  services : Array Service
  clients : Array Client
  endpoints : Array Endpoint

namespace Store

def empty : Store := ⟨#[], #[], #[], #[]⟩

/-! ## Access -/

def scope? (s : Store) (id : ScopeId) : Option Scope := s.scopes[id.index]?

def service? (s : Store) (id : ServiceId) : Option Service := s.services[id.index]?

def client? (s : Store) (id : ClientId) : Option Client := s.clients[id.index]?

def endpoint? (s : Store) (id : EndpointId) : Option Endpoint := s.endpoints[id.index]?

/-- The value of a symbol in one scope. -/
def local? (s : Store) (id : ScopeId) (symbol : String) : Option Value :=
  (s.scope? id).bind fun scope => scope.bindings.find? symbol

def symbols (s : Store) (id : ScopeId) : List String :=
  match s.scope? id with
  | some scope => scope.bindings.names
  | none => []

/-- The name under which a target is known. -/
def targetName (s : Store) : Target → String
  | .service id => ((s.service? id).map Service.name).getD ""
  | .endpoint id => ((s.endpoint? id).map Endpoint.name).getD ""

/-- The time that a request needs to get to a target. -/
def transit (s : Store) : Target → Time
  | .service _ => 0.0
  | .endpoint id => ((s.endpoint? id).map Endpoint.transit).getD 0.0

/-! ## Definitions -/

def newScope (s : Store) (parent : Option ScopeId) (owner : Option ServiceId) : Store × ScopeId :=
  ({ s with scopes := s.scopes.push ⟨parent, owner, .empty⟩ }, ⟨s.scopes.size⟩)

/-- A new service without operations, with a new scope inside `parent`. -/
def newService (s : Store) (name : String) (parent : Option ScopeId) : Store × ServiceId :=
  let id : ServiceId := ⟨s.services.size⟩
  let (s, scope) := s.newScope parent (some id)
  ({ s with services := s.services.push ⟨name, scope, .empty⟩ }, id)

/-- A new client that has not fired. -/
def newClient (s : Store) (name : String) (period : Time) (body : Activity) : Store × ClientId :=
  ({ s with clients := s.clients.push ⟨name, period, body, 0, 0, 0⟩ }, ⟨s.clients.size⟩)

def newEndpoint (s : Store) (name : String) (transit : Time) : Store × EndpointId :=
  ({ s with endpoints := s.endpoints.push ⟨name, transit⟩ }, ⟨s.endpoints.size⟩)

def bind (s : Store) (id : ScopeId) (symbol : String) (value : Value) : Store :=
  { s with
    scopes := s.scopes.modify id.index fun scope =>
      { scope with bindings := scope.bindings.insert symbol value } }

/-- Registers an operation under its name. -/
def register (s : Store) (id : ServiceId) (op : Operation) : Store :=
  { s with
    services := s.services.modify id.index fun service =>
      { service with operations := service.operations.insert op.name op } }

def modifyClient (s : Store) (id : ClientId) (change : Client → Client) : Store :=
  { s with clients := s.clients.modify id.index change }

end Store

/-! ## Values made by the host -/

/-- A value that the host asks for. Services and endpoints made this way serve nothing. -/
inductive Draft where
  | unit
  | number (x : Float)
  | service (name : String)
  | endpoint (name : String)
  | operation (name owner : String)
  | client (name : String) (period : Time)

/-- Makes a value; the scope of a service goes inside `scope`. -/
def Store.make (s : Store) (scope : ScopeId) : Draft → Store × Value
  | .unit => (s, .unit)
  | .number x => (s, .number x)
  | .service name =>
    let (s, id) := s.newService name (some scope)
    (s, .service id)
  | .endpoint name =>
    let (s, id) := s.newEndpoint name 0.0
    (s, .endpoint id)
  | .operation name owner => (s, .operation ⟨name, owner, .fail⟩)
  | .client name period =>
    let (s, id) := s.newClient name period .fail
    (s, .client id)

end Callflow
