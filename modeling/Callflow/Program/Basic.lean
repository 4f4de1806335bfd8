import Callflow.Program.Delay

/-!
# Programs

A program is an activity: it defines services, operations and clients, issues calls, lets time
pass, and combines other activities. Every activity ends with a value or with a failure, at once or
after some simulated time.
-/

namespace Callflow

/-- A node of a program. -/
inductive Activity where
  -- Defines a service; `body` runs in its scope and usually defines its operations.
  | defineService (name : String) (body : List Activity)
  -- Defines an operation of the enclosing service.
  | defineOperation (name : String) (body : Activity)
  -- Defines a client that runs `body` every `period`.
  | defineClient (name : String) (period : Time) (body : Activity)
  -- Calls an operation and goes on at once.
  | trigger (target operation : String)
  -- Calls an operation and waits for the reply, or until the timeout has passed.
  | query (target operation : String) (timeout : Option Time)
  -- Runs activities one after another up to the first failure.
  | sequence (steps : List Activity)
  -- Lets time pass.
  | think (duration : Time)
  -- Runs `body` until it succeeds, at most `limit` times.
  | retry (body : Activity) (limit : Nat) (delay : Delay)
  -- Runs `body` and succeeds even if it fails.
  | ignoreError (body : Activity)
  -- Fails.
  | fail

end Callflow
