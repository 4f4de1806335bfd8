import Callflow.Machine.Script
import Callflow.Store.Scope

/-!
# What is still to be done

An activity that takes time leaves behind a `Continuation`: what to do with its outcome, as a chain
of the constructs around it, each with exactly the references that it still needs. It waits in an
event, a `Callback`, or with a request, a `Waiter`. `refs` lists what each of them holds.
-/

namespace Callflow

/-- Where an activity is evaluated. -/
structure Frame where
  -- The scope that symbols are looked up and defined in.
  scope : ScopeId
  -- The service whose body is being evaluated, if any.
  service : Option ServiceId
  -- Who issues the requests.
  caller : Caller

namespace Frame

/-- Outside of any service body. -/
def plain (scope : ScopeId) (caller : Caller) : Frame := ⟨scope, none, caller⟩

/-- The body of a service, evaluated by the same caller. -/
def inside (f : Frame) (service : ServiceId) (scope : ScopeId) : Frame :=
  ⟨scope, some service, f.caller⟩

def refs (f : Frame) : List Ref :=
  match f.service with
  | some service => [.scope f.scope, .service service]
  | none => [.scope f.scope]

end Frame

/-- What to do with the outcome of an activity. -/
inductive Continuation (σ : Type) where
  -- Hand it to host code.
  | host (resume : Outcome → Script σ)
  -- Reply to the request that is being served.
  | reply (request : RequestId)
  -- Count it for a client.
  | complete (client : ClientId)
  -- Go on with the next step of a sequence.
  | steps (rest : List Activity) (frame : Frame) (next : Continuation σ)
  -- Give the service whose body has been evaluated.
  | service (id : ServiceId) (next : Continuation σ)
  -- Succeed in any case.
  | ignore (next : Continuation σ)
  -- Make another attempt after a failure.
  | retry (state : RetryState) (body : Activity) (frame : Frame) (next : Continuation σ)

def Continuation.refs {σ : Type} : Continuation σ → List Ref
  | .host _ => []
  | .reply request => [.request request]
  | .complete _ => []
  | .steps _ frame next => frame.refs ++ next.refs
  | .service id next => .service id :: next.refs
  | .ignore next => next.refs
  | .retry _ _ frame next => frame.refs ++ next.refs

/-- What an event does. -/
inductive Callback (σ : Type) where
  -- Runs host code.
  | host (code : Script σ)
  -- Delivers a request.
  | deliver (request : RequestId) (target : Target)
  -- Fails a request that is still pending at its deadline.
  | expire (request : RequestId) (deadline : Time)
  -- Goes on after some time has passed.
  | wake (next : Continuation σ)
  -- Makes the next attempt of a retry.
  | attempt (state : RetryState) (body : Activity) (frame : Frame) (next : Continuation σ)
  -- Fires a client.
  | fire (client : ClientId) (scope : ScopeId)
  -- Replies to a request: a failure, or success where there is none.
  | reply (request : RequestId) (failure : Option Failure)

/-- What an event holds. -/
def Callback.refs {σ : Type} : Callback σ → List Ref
  | .host _ => []
  | .deliver request target => .request request :: target.refs
  | .expire request _ => [.request request]
  | .wake next => next.refs
  | .attempt _ _ frame next => frame.refs ++ next.refs
  | .fire _ scope => [.scope scope]
  | .reply request _ => [.request request]

/-- Who waits for a request to settle. -/
inductive Waiter (σ : Type) where
  | nobody
  | continuation (next : Continuation σ)
  | host (succeeded : Option (Script σ)) (failed : Option (Failure → Script σ))

def Waiter.refs {σ : Type} : Waiter σ → List Ref
  | .continuation next => next.refs
  | _ => []

end Callflow
