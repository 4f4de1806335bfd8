import Callflow.Time

/-!
# Requests

A request is one call, from the actor that issues it to a named operation. It is pending until it
settles, once, in success or in error.
-/

namespace Callflow

/-- The number of a request within its simulation. -/
structure RequestId where
  number : Nat
  deriving DecidableEq, Repr

/-- Who issues a request. -/
inductive Caller where
  -- The host that drives the simulation.
  | host
  -- A client, on one of its firings.
  | client (name : String)
  -- An operation that serves another request.
  | operation (service name : String)
  deriving DecidableEq, Repr

/-- How far a request has come. -/
inductive Status where
  | pending
  | success
  | error
  deriving DecidableEq, Repr

/-- Why a request or an activity has failed. -/
inductive Failure where
  -- The target refused the request.
  | rejected
  -- No reply came by the deadline.
  | timedOut (deadline : Time)
  -- A program failed on purpose.
  | injected
  -- Every attempt of a retry failed.
  | exhausted (attempts : Nat)

/-- One call. -/
structure Request where
  id : RequestId
  caller : Caller
  operation : String
  createdAt : Time
  status : Status
  failure : Option Failure
  deadline : Option Time
  settledAt : Option Time

namespace Request

/-- A pending request. -/
def issue (id : RequestId) (caller : Caller) (operation : String) (now : Time)
    (deadline : Option Time) : Request :=
  { id, caller, operation, createdAt := now, status := .pending, failure := none, deadline,
    settledAt := none }

/-- Whether a reply is still awaited. -/
def isPending (r : Request) : Bool := r.status == .pending

/-- The request with its outcome: a failure, or success where there is none. -/
def settle (r : Request) (now : Time) (failure : Option Failure) : Request :=
  { r with
    status := if failure.isSome then .error else .success
    failure
    settledAt := some now }

end Request

/-! ## Wording -/

def RequestId.label (id : RequestId) : String := "req-" ++ toString id.number

def Caller.label : Caller → String
  | .host => "host"
  | .client name => "client:" ++ name
  | .operation service name => service ++ "." ++ name

def Failure.label : Failure → String
  | .rejected => "rejected"
  | .timedOut deadline => "timed out at " ++ Decimal.Layout.plain.render deadline
  | .injected => "injected failure"
  | .exhausted attempts => "gave up after " ++ toString attempts ++ " attempts"

end Callflow
