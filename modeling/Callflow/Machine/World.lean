import Callflow.Machine.Continuation
import Callflow.Report.Basic

/-!
# The state of a simulation

A `World` is everything that lasts from one event to the next: the agenda, the journal, the store,
the requests with their waiters, and what the host has set up.

A request leaves the pending state once (`World.settle`): whoever waits for it is taken out at the
same time, and a later reply finds nobody.
-/

namespace Callflow

/-- What is run when a client's body has ended. -/
structure Observers (σ : Type) where
  onSuccess : Option (Script σ)
  onFailure : Option (Failure → Script σ)

/-- The state of a simulation. -/
structure World (σ : Type) where
  -- The most events that one run may take.
  budget : Option Nat
  agenda : Agenda (Callback σ)
  journal : Journal
  store : Store
  -- The requests by number; a number that was only taken has none.
  requests : Array (Option Request)
  -- Who waits for each request.
  waiters : Array (Waiter σ)
  observers : List (ClientId × Observers σ)
  handlers : List (EndpointId × (RequestId → Script σ))
  -- The requests that the host keeps.
  kept : Directory RequestId
  -- The memory of the host.
  memory : σ

namespace World

variable {σ : Type}

/-- The scope that everything is inside of. -/
def root : ScopeId := ⟨0⟩

/-- A simulation at time zero. -/
def start (config : SimulationConfig) (memory : σ) : World σ where
  budget := config.maxEvents
  agenda := .empty
  journal := .empty config.journal
  store := (Store.empty.newScope none none).1
  requests := #[]
  waiters := #[]
  observers := []
  handlers := []
  kept := .empty
  memory

/-- What host code can see. -/
def view (w : World σ) : View where
  now := w.agenda.now
  pending := w.agenda.pending.length
  next := w.agenda.next?
  dispatched := w.agenda.dispatched
  stats := w.journal.stats
  store := w.store
  requests := w.requests
  kept := w.kept

/-- The simulated time. -/
def now (w : World σ) : Time := w.agenda.now

/-- Adds an entry to the journal. -/
def record (w : World σ) (e : JournalEntry) : World σ := { w with journal := w.journal.record e }

/-- Schedules a callback and tells the number of its event. -/
def schedule (w : World σ) (delay : Time) (kind : EventKind) (work : Callback σ) :
    Except SchedulingError (World σ × EventId) :=
  match w.agenda.schedule delay kind work with
  | .error e => .error e
  | .ok agenda => .ok ({ w with agenda }, ⟨w.agenda.nextSeq⟩)

/-- The snapshot that a simulation reports. -/
def report (w : World σ) (runId : RunId) (createdAt : Timestamp) (fingerprint : Journal → String) :
    SimulationReport where
  runId
  createdAt
  now := w.agenda.now
  eventsDispatched := w.agenda.dispatched
  pendingEvents := w.agenda.pending.length
  requests := w.journal.stats
  fingerprint := fingerprint w.journal

/-! ## What is held -/

/-- A request and what is held through whoever waits for it. A waiter serves an older request, if
any. -/
def requestRefs (w : World σ) (id : RequestId) : List Ref :=
  .request id ::
    ((w.waiters[id.number]?).getD .nobody).refs.flatMap fun
      | .request other => if other.number < id.number then requestRefs w other else []
      | ref => [ref]
termination_by id.number

/-- Something held, with what is held through it. -/
def closure (w : World σ) : Ref → List Ref
  | .request id => w.requestRefs id
  | ref => [ref]

/-- Whether something is held through one of some references. -/
def reaches (w : World σ) (refs : List Ref) (ref : Ref) : Bool :=
  refs.any fun r => (w.closure r).contains ref

/-- Whether something is held: by the evaluation in progress, by an event, or by a kept request. The
root scope always is. -/
def held (w : World σ) (inUse : List Ref) (next : Continuation σ) (ref : Ref) : Bool :=
  ref = .scope root || w.reaches inUse ref || w.reaches next.refs ref ||
    (w.agenda.pending.any fun e => w.reaches e.work.refs ref) ||
    w.reaches (w.kept.values.map Ref.request) ref

/-- Whether a scope lives. -/
def alive (w : World σ) (inUse : List Ref) (next : Continuation σ) (id : ScopeId) : Bool :=
  w.store.alive (w.held inUse next) id

/-! ## Requests -/

/-- A request. -/
def request? (w : World σ) (id : RequestId) : Option Request := (w.requests[id.number]?).join

/-- Takes the next request number. -/
def allocate (w : World σ) : World σ × RequestId :=
  ({ w with requests := w.requests.push none, waiters := w.waiters.push .nobody },
    ⟨w.requests.size⟩)

/-- Makes a request under the next number. -/
def issue (w : World σ) (caller : Caller) (operation : String) (deadline : Option Time)
    (waiter : Waiter σ) : World σ × RequestId :=
  let id : RequestId := ⟨w.requests.size⟩
  let request := Request.issue id caller operation w.now deadline
  ({ w with requests := w.requests.push (some request), waiters := w.waiters.push waiter }, id)

/-- Sets the deadline of a request. -/
def setDeadline (w : World σ) (id : RequestId) (deadline : Time) : World σ :=
  { w with
    requests := w.requests.modify id.number fun r =>
      r.map fun r => { r with deadline := some deadline } }

/-- Hands a request to a target; it arrives after the target's transit time, never at once. -/
def send (w : World σ) (id : RequestId) (target : Target) : World σ × Except SchedulingError Unit :=
  match w.request? id with
  | none => (w, .ok ())
  | some r =>
    let w := w.record (.issued w.now id r.caller (w.store.targetName target) r.operation)
    match w.schedule (0.0 + w.store.transit target) .delivery (.deliver id target) with
    | .ok (w, _) => (w, .ok ())
    | .error e => (w, .error e)

/-- Settles a pending request and tells who has waited for it; a settled one stays as it is, and
nobody waits. -/
def settle (w : World σ) (id : RequestId) (failure : Option Failure) : World σ × Waiter σ :=
  match w.request? id with
  | none => (w, .nobody)
  | some r =>
    if r.isPending then
      let r := r.settle w.now failure
      ({ w with
          requests := w.requests.setIfInBounds id.number (some r)
          waiters := w.waiters.setIfInBounds id.number .nobody
          journal := w.journal.record (.settled w.now id r.status failure) },
        (w.waiters[id.number]?).getD .nobody)
    else
      let attempted := if failure.isSome then Status.error else Status.success
      (w.record (.staleReply w.now id attempted), .nobody)

/-! ## The host -/

/-- What is run when a client's body has ended. -/
def observersOf (w : World σ) (id : ClientId) : Observers σ :=
  (w.observers.lookup id).getD ⟨none, none⟩

/-- Changes what is run when a client's body has ended. -/
def setObservers (w : World σ) (id : ClientId) (o : Observers σ) : World σ :=
  { w with observers := (id, o) :: w.observers.filter fun entry => entry.1 ≠ id }

/-- The host code that handles the requests to an endpoint. -/
def handle (w : World σ) (id : EndpointId) (request : RequestId) : Script σ :=
  match w.handlers.lookup id with
  | some handler => handler request
  | none => .done

end World
end Callflow
