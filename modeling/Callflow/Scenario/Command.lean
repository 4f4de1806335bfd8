import Callflow.Store.Description
import Callflow.Journal.Basic

/-!
# Commands

A scenario is a list of commands to a simulation. Some commands carry a list of further commands
for later: they are carried out when a callback is dispatched, an outcome arrives, a client's hook
runs, or a request settles.

* `Reaction` is what an endpoint of a scenario does with a request.
* `Answer` is what a command gives back.
* `Remark` is an entry of the log that a scenario keeps.
-/

namespace Callflow

/-- What an endpoint does with a request. -/
inductive Reaction where
  | succeed
  | fail (cause : Failure)
  -- Never replies.
  | silent
  -- Fails before a certain call, and succeeds from then on.
  | succeedOnCall (call : Nat) (cause : Failure)
  | succeedAfter (delay : Time)
  | failAfter (delay : Time) (cause : Failure)
  -- Succeeds, and fails right afterwards.
  | twice (cause : Failure)
  -- Keeps the request for a later reply.
  | hold
  -- Stops with an error.
  | abort

namespace Reaction

/-- The reaction to a call, counted from one: the reactions are used one by one, and the last one
from then on. -/
def atCall : List Reaction → Nat → Reaction
  | [], _ => .silent
  | [last], _ => last
  | first :: rest, call => if call ≤ 1 then first else atCall rest (call - 1)

end Reaction

/-- Why a command cannot be carried out. -/
inductive Refusal where
  -- It is not a command, or mentions a request, client or operation that is not there.
  | malformed
  -- It holds a document that cannot be read.
  | undecodable

/-- When hooks of a request run. -/
structure Watch where
  onSuccess : Bool
  onFailure : Bool

/-- Something that a simulation is told to do. -/
inductive Command where
  -- Binds a symbol to a new endpoint.
  | bind (symbol name : String) (reactions : List Reaction) (transit : Time) (quiet : Bool)
  -- Binds a symbol to a new value.
  | define (symbol : String) (draft : Draft)
  -- Asks for the value of a symbol.
  | lookUp (symbol : String)
  -- Asks for all symbols.
  | symbols
  -- Asks for the calls of the endpoint that was last bound to a symbol.
  | calls (symbol : String)
  -- Evaluates an activity; its outcome is logged under the tag, if there is one.
  | evaluate (activity : Activity) (caller : Caller) (tag : Option String)
  -- Evaluates an activity and goes on once it has ended.
  | evaluateThen (activity : Activity) (tag : String) (rest : List Command)
  -- Schedules further commands; where the delay has to be good, a bad one is a crash.
  | schedule (delay : Time) (kind : EventKind) (insisting : Bool) (tag : Option String)
      (rest : List Command)
  -- Runs the agenda up to a horizon.
  | run (horizon : Time)
  -- Stops with an error about a symbol.
  | raise (symbol : String)
  -- Asks for the clock, the agenda and the counts of requests.
  | state
  -- Asks for the entries of the journal.
  | journal
  -- Asks for the fingerprint of the journal.
  | fingerprint
  -- Adds an entry to the journal.
  | record (entry : JournalEntry)
  -- Asks for a client, in full detail or not.
  | client (symbol : String) (detailed : Bool)
  -- Asks for a service, in full detail or not.
  | service (symbol : String) (detailed : Bool)
  -- Asks for an operation of a service.
  | operation (symbol name : String)
  -- Evaluates the body of an operation.
  | execute (symbol name tag : String)
  -- Sets what a client does after a success.
  | afterSuccess (symbol tag : String) (rest : List Command)
  -- Sets what a client does after a failure.
  | afterFailure (symbol tag : String) (rest : List Command)
  -- Takes the next request number.
  | allocate
  -- Makes a request and keeps it under a label.
  | request (label : String) (caller : Caller) (operation : String) (deadline : Option Time)
      (watch : Watch) (rest : List Command) (detailed : Bool)
  -- Sends a request to the target of a symbol.
  | send (label symbol : String) (detailed : Bool)
  -- Has the target of a symbol process a request right away.
  | process (label symbol : String) (detailed : Bool)
  -- Replies to a request: a failure, or success where there is none.
  | reply (label : String) (failure : Option Failure) (detailed : Bool)
  -- Asks for a request.
  | see (label : String) (detailed : Bool)
  -- Nothing that can be carried out.
  | refuse (why : Refusal)

/-- What can be seen of a simulation as a whole. -/
structure Overview where
  now : Time
  pending : Nat
  next : Option Time
  dispatched : Nat
  stats : RequestStats
  entries : Nat

/-- What a command gives back. -/
inductive Answer where
  | nothing
  | count (n : Nat)
  | names (names : List String)
  | sight (s : Sight)
  | calls (times : List Time)
  | overview (o : Overview)
  | entries (entries : List JournalEntry)
  | fingerprint (text : String)
  | client (c : Client) (detailed : Bool)
  | service (s : Service) (symbols : List String) (detailed : Bool)
  | operation (op : Operation)
  | requestNumber (id : RequestId)
  | request (r : Request) (detailed : Bool)
  | failed (cause : SimulationError)
  | refused (why : Refusal)

/-- An entry of the log of a scenario. -/
inductive Remark where
  -- An activity has ended, with a value that has this text or with a failure.
  | outcome (tag : String) (time : Time) (result : Except Failure String)
  -- An endpoint has got a request; calls are counted from one.
  | call (endpoint : String) (call : Nat) (request : RequestId) (operation : String)
      (caller : Caller) (time : Time)
  -- A callback has started.
  | callback (tag : Option String) (time : Time)
  -- A client's hook has run.
  | hook (tag : String) (time : Time) (failure : Option Failure)
  -- The request of a label has settled.
  | settled (label : String) (time : Time) (failure : Option Failure)
  -- A command carried out for later has given an answer.
  | did (answer : Answer)

end Callflow
