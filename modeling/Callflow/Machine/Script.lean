import Callflow.Agenda.Basic
import Callflow.Store.Basic

/-!
# Host code

The host drives a simulation: it evaluates programs, schedules callbacks, runs the agenda, answers
requests, and does so again from inside its own callbacks and hooks. A `Script` is a piece of host
code: a tree whose nodes are calls of the simulation and whose branches are chosen by the answers.
It may use a memory of type `σ` that all host code shares.
-/

namespace Callflow

/-- What host code can see of a simulation besides its journal. -/
structure View where
  now : Time
  pending : Nat
  next : Option Time
  dispatched : Nat
  stats : RequestStats
  store : Store
  requests : Array (Option Request)
  kept : Directory RequestId

/-- A piece of host code. -/
inductive Script (σ : Type) where
  -- Returns to the caller.
  | done
  -- Returns an error to the caller.
  | fail (cause : SimulationError)
  -- Gives up: no caller gets to handle it, except one that shields itself.
  | crash (cause : SchedulingError)
  -- Executes other host code and learns how it ended, even if it gave up.
  | shield (body : Script σ) (next : Except SchedulingError (Except SimulationError Unit) → Script σ)
  -- Looks at the shared memory.
  | recall (next : σ → Script σ)
  -- Changes the shared memory.
  | remember (change : σ → σ) (next : Script σ)
  -- Looks at the simulation.
  | observe (next : View → Script σ)
  -- Looks at the journal.
  | readJournal (next : Journal → Script σ)
  -- Adds an entry to the journal.
  | record (entry : JournalEntry) (next : Script σ)
  -- Schedules host code.
  | schedule (delay : Time) (kind : EventKind) (callback : Script σ)
      (next : Except SchedulingError EventId → Script σ)
  -- Schedules the reply to a request: a failure, or success where there is none.
  | replyAfter (delay : Time) (request : RequestId) (failure : Option Failure)
      (next : Except SchedulingError EventId → Script σ)
  -- Runs the agenda up to a horizon and learns how many events were taken.
  | run (horizon : Time) (next : Except SimulationError Nat → Script σ)
  -- Evaluates an activity in the root scope.
  | evaluate (activity : Activity) (caller : Caller) (resume : Outcome → Script σ)
      (next : Except SimulationError Unit → Script σ)
  -- Evaluates the body of an operation as if it served a request.
  | execute (service : ServiceId) (op : Operation) (resume : Outcome → Script σ)
      (next : Except SimulationError Unit → Script σ)
  -- Binds a symbol in the root scope to a new value.
  | define (symbol : String) (draft : Draft) (next : Value → Script σ)
  -- Binds a symbol in the root scope to a new endpoint, which handles requests by host code.
  | bind (symbol name : String) (transit : Time) (handler : RequestId → Script σ)
      (next : Value → Script σ)
  -- Sets what is run whenever a client's body succeeds.
  | onSuccess (client : ClientId) (hook : Script σ) (next : Script σ)
  -- Sets what is run whenever a client's body fails.
  | onFailure (client : ClientId) (hook : Failure → Script σ) (next : Script σ)
  -- Takes the next request number.
  | allocate (next : RequestId → Script σ)
  -- Makes a request, with host code that is run when it settles.
  | request (caller : Caller) (operation : String) (deadline : Option Time)
      (succeeded : Option (Script σ)) (failed : Option (Failure → Script σ))
      (next : RequestId → Script σ)
  -- Keeps a request under a label.
  | keep (label : String) (request : RequestId) (next : Script σ)
  -- Sends a request to a target.
  | send (request : RequestId) (target : Target) (next : Script σ)
  -- Has a target process a request right away.
  | process (request : RequestId) (target : Target) (next : Except SimulationError Unit → Script σ)
  -- Replies to a request: a failure, or success where there is none.
  | reply (request : RequestId) (failure : Option Failure)
      (next : Except SimulationError Unit → Script σ)

namespace View

/-- A request. -/
def request? (v : View) (id : RequestId) : Option Request := (v.requests[id.number]?).join

end View

namespace Script

variable {σ : Type}

/-- Passes a result on to the caller. -/
def finish : Except SimulationError Unit → Script σ
  | .ok () => .done
  | .error e => .fail e

/-- Goes on where a delay was accepted, and crashes where it was refused. -/
def insist (next : EventId → Script σ) : Except SchedulingError EventId → Script σ
  | .ok id => next id
  | .error e => .crash e

end Script
end Callflow
