import Callflow.Machine.Evaluate

/-!
# The machine

A `Machine` is a world at work. Its focus is what happens next: host code, an outcome that is handed
to a continuation, or a return to whoever has called. Its stack holds those callers: the runs in
progress, the host code that waits for an answer, and the references that are held until a call
returns.

`Machine.step` makes one transition; it is defined for every machine except one that has returned
from everything.
-/

namespace Callflow

/-- Somebody who has called and waits for the call to return. -/
inductive Activation (σ : Type) where
  -- A call that holds references.
  | hold (refs : List Ref)
  -- A run that has taken `count` events, and the host code that has started it.
  | run (horizon : Time) (count : Nat) (next : Except SimulationError Nat → Script σ)
  -- Host code that waits for the result of a call.
  | await (next : Except SimulationError Unit → Script σ)
  -- Host code that waits for other host code to end in any way.
  | shield (next : Except SchedulingError (Except SimulationError Unit) → Script σ)
  -- A client whose hook for success is running.
  | successHook (client : ClientId) (hook : Script σ)
  -- A client whose hook for failure is running.
  | failureHook (client : ClientId) (hook : Failure → Script σ)

/-- What an activation holds. -/
def Activation.refs {σ : Type} : Activation σ → List Ref
  | .hold refs => refs
  | _ => []

/-- What happens next. -/
inductive Focus (σ : Type) where
  -- Host code is executed.
  | code (script : Script σ)
  -- An outcome is handed to a continuation.
  | resume (next : Continuation σ) (outcome : Outcome)
  -- A call returns.
  | back (result : Except SimulationError Unit)
  -- Everything is given up.
  | crash (cause : SchedulingError)

/-- A world at work. -/
structure Machine (σ : Type) where
  world : World σ
  stack : List (Activation σ)
  focus : Focus σ

namespace Machine

variable {σ : Type}

/-- What the callers hold. -/
def inUse (stack : List (Activation σ)) : List Ref := stack.flatMap Activation.refs

/-! ## Evaluations -/

/-- Goes on after an evaluation for a continuation. -/
def proceed (stack : List (Activation σ)) (next : Continuation σ) : Evaluation σ → Machine σ
  | (w, .ok .suspended) => ⟨w, stack, .back (.ok ())⟩
  | (w, .ok (.resolved outcome held)) => ⟨w, .hold held :: stack, .resume next outcome⟩
  | (w, .error (.error e)) => ⟨w, stack, .back (.error e)⟩
  | (w, .error (.crash e)) => ⟨w, stack, .crash e⟩

/-- Evaluates an activity. -/
def evaluate (w : World σ) (stack : List (Activation σ)) (activity : Activity) (frame : Frame)
    (next : Continuation σ) : Machine σ :=
  proceed stack next (World.evaluate (inUse stack) activity frame next w)

/-- Evaluates the body of an operation in a fresh scope inside the scope of the service. -/
def execute (w : World σ) (stack : List (Activation σ)) (scope : ScopeId) (op : Operation)
    (next : Continuation σ) : Machine σ :=
  let (store, fresh) := w.store.newScope (some scope) none
  evaluate { w with store } (.hold [.scope fresh] :: stack) op.body
    (.plain fresh (.operation op.owner op.name)) next

/-! ## Requests -/

/-- Replies to a request and goes on with whoever has waited for it. -/
def reply (w : World σ) (stack : List (Activation σ)) (request : RequestId)
    (failure : Option Failure) : Machine σ :=
  match w.settle request failure, failure with
  | (w, .continuation next), none => ⟨w, stack, .resume next (.success .unit)⟩
  | (w, .continuation next), some cause => ⟨w, stack, .resume next (.failure cause)⟩
  | (w, .host (some hook) _), none => ⟨w, stack, .code hook⟩
  | (w, .host _ (some hook)), some cause => ⟨w, stack, .code (hook cause)⟩
  | (w, _), _ => ⟨w, stack, .back (.ok ())⟩

/-- Has a target process a request. -/
def process (w : World σ) (stack : List (Activation σ)) (request : RequestId) :
    Target → Machine σ
  | .endpoint id => ⟨w, .hold [.request request] :: stack, .code (w.handle id request)⟩
  | .service id =>
    match w.store.service? id, w.request? request with
    | some service, some r =>
      match service.operations.find? r.operation with
      | none => ⟨w, stack, .back (.error (.program (.undefinedOperation service.name r.operation)))⟩
      | some op => execute w (.hold [.service id] :: stack) service.scope op (.reply request)
    | _, _ => ⟨w, stack, .back (.ok ())⟩

/-! ## Clients -/

/-- Fires a client: the next firing is scheduled first. -/
def fire (w : World σ) (stack : List (Activation σ)) (id : ClientId) (scope : ScopeId) :
    Machine σ :=
  match w.store.client? id with
  | none => ⟨w, stack, .back (.ok ())⟩
  | some client =>
    let store := w.store.modifyClient id fun c => { c with firings := c.firings + 1 }
    let w := { w with store }
    match w.schedule client.period .clientFiring (.fire id scope) with
    | .error e => ⟨w, stack, .back (.error (.scheduling e))⟩
    | .ok (w, _) =>
      evaluate w (.hold [.scope scope] :: stack) client.body
        (.plain scope (.client client.name)) (.complete id)

/-- Counts the outcome of a client's body and runs the hook for it. A hook is not set while it is
running. -/
def complete (w : World σ) (stack : List (Activation σ)) (id : ClientId) : Outcome → Machine σ
  | .success value =>
    let store := w.store.modifyClient id fun c => { c with successes := c.successes + 1 }
    let w := { w with store }
    let observers := w.observersOf id
    match observers.onSuccess with
    | none => ⟨w, stack, .back (.ok ())⟩
    | some hook =>
      ⟨w.setObservers id { observers with onSuccess := none },
        .successHook id hook :: .hold value.refs :: stack, .code hook⟩
  | .failure cause =>
    let store := w.store.modifyClient id fun c => { c with errors := c.errors + 1 }
    let w := { w with store }
    let observers := w.observersOf id
    match observers.onFailure with
    | none => ⟨w, stack, .back (.ok ())⟩
    | some hook =>
      ⟨w.setObservers id { observers with onFailure := none }, .failureHook id hook :: stack,
        .code (hook cause)⟩

/-- Sets a hook for success again after it has run, unless another one has been set. -/
def restoreSuccess (w : World σ) (id : ClientId) (hook : Script σ) : World σ :=
  let observers := w.observersOf id
  if observers.onSuccess.isSome then w
  else w.setObservers id { observers with onSuccess := some hook }

/-- Sets a hook for failure again after it has run, unless another one has been set. -/
def restoreFailure (w : World σ) (id : ClientId) (hook : Failure → Script σ) : World σ :=
  let observers := w.observersOf id
  if observers.onFailure.isSome then w
  else w.setObservers id { observers with onFailure := some hook }

/-! ## Continuations -/

/-- Hands an outcome to a continuation. -/
def resume (w : World σ) (stack : List (Activation σ)) :
    Continuation σ → Outcome → Machine σ
  | .host code, outcome => ⟨w, stack, .code (code outcome)⟩
  | .reply request, .success value => reply w (.hold value.refs :: stack) request none
  | .reply request, .failure cause => reply w stack request (some cause)
  | .complete client, outcome => complete w stack client outcome
  | .steps rest frame next, .success value =>
    proceed stack next (World.evaluate.evaluateSteps (inUse stack) rest frame value next w)
  | .steps _ frame next, .failure cause =>
    ⟨w, .hold frame.refs :: stack, .resume next (.failure cause)⟩
  | .service id next, .success value =>
    ⟨w, .hold value.refs :: stack, .resume next (.success (.service id))⟩
  | .service id next, .failure cause =>
    ⟨w, .hold [.service id] :: stack, .resume next (.failure cause)⟩
  | .ignore next, .success value => ⟨w, stack, .resume next (.success value)⟩
  | .ignore next, .failure _ => ⟨w, stack, .resume next (.success .unit)⟩
  | .retry state body frame next, outcome =>
    proceed stack next (w.afterAttempt state body frame next [] outcome)

/-! ## Events -/

/-- Does what an event is for. -/
def dispatch (w : World σ) (stack : List (Activation σ)) : Callback σ → Machine σ
  | .host code => ⟨w, stack, .code code⟩
  | .deliver request target => process w stack request target
  | .expire request deadline =>
    match w.request? request with
    | some r =>
      if r.isPending then reply w stack request (some (.timedOut deadline))
      else ⟨w, stack, .back (.ok ())⟩
    | none => ⟨w, stack, .back (.ok ())⟩
  | .wake next => ⟨w, stack, .resume next (.success .unit)⟩
  | .attempt state body frame next =>
    let stack := .hold frame.refs :: stack
    proceed stack next (World.attempt (inUse stack) state body frame next w)
  | .fire client scope => fire w stack client scope
  | .reply request failure => reply w stack request failure

/-- Whether a run may not take another event. -/
def spent (w : World σ) (count : Nat) : Bool :=
  match w.budget with
  | some limit => decide (limit ≤ count)
  | none => false

/-- Goes on with a run: takes the next event that is due, or ends the run. The clock moves to the
horizon unless the run ends because its budget is spent. -/
def continueRun (w : World σ) (stack : List (Activation σ)) (horizon : Time) (count : Nat)
    (next : Except SimulationError Nat → Script σ) : Machine σ :=
  if spent w count then ⟨w, stack, .code (next (.ok count))⟩
  else
    match w.agenda.take? horizon with
    | none => ⟨{ w with agenda := w.agenda.advance horizon }, stack, .code (next (.ok count))⟩
    | some (event, agenda) =>
      let w := { w with agenda }.record (.dispatched event.time event.seq event.kind)
      dispatch w (.run horizon (count + 1) next :: stack) event.work

/-! ## Host code -/

/-- Executes the first node of some host code. -/
def execScript (w : World σ) (stack : List (Activation σ)) : Script σ → Machine σ
  | .done => ⟨w, stack, .back (.ok ())⟩
  | .fail cause => ⟨w, stack, .back (.error cause)⟩
  | .crash cause => ⟨w, stack, .crash cause⟩
  | .shield body next => ⟨w, .shield next :: stack, .code body⟩
  | .recall next => ⟨w, stack, .code (next w.memory)⟩
  | .remember change next => ⟨{ w with memory := change w.memory }, stack, .code next⟩
  | .observe next => ⟨w, stack, .code (next w.view)⟩
  | .readJournal next => ⟨w, stack, .code (next w.journal)⟩
  | .record entry next => ⟨w.record entry, stack, .code next⟩
  | .schedule delay kind callback next =>
    match w.schedule delay kind (.host callback) with
    | .ok (w, id) => ⟨w, stack, .code (next (.ok id))⟩
    | .error e => ⟨w, stack, .code (next (.error e))⟩
  | .replyAfter delay request failure next =>
    match w.schedule delay .reply (.reply request failure) with
    | .ok (w, id) => ⟨w, stack, .code (next (.ok id))⟩
    | .error e => ⟨w, stack, .code (next (.error e))⟩
  | .run horizon next => ⟨w, .run horizon 0 next :: stack, .back (.ok ())⟩
  | .evaluate activity caller resume next =>
    evaluate w (.await next :: stack) activity (.plain World.root caller) (.host resume)
  | .execute id op resume next =>
    match w.store.service? id with
    | none => ⟨w, stack, .code (next (.ok ()))⟩
    | some service =>
      execute w (.hold [.service id] :: .await next :: stack) service.scope op (.host resume)
  | .define symbol draft next =>
    let (store, value) := w.store.make World.root draft
    ⟨{ w with store := store.bind World.root symbol value }, stack, .code (next value)⟩
  | .bind symbol name transit handler next =>
    let (store, id) := w.store.newEndpoint name transit
    let w := { w with
      store := store.bind World.root symbol (.endpoint id)
      handlers := (id, handler) :: w.handlers }
    ⟨w, stack, .code (next (.endpoint id))⟩
  | .onSuccess client hook next =>
    ⟨w.setObservers client { w.observersOf client with onSuccess := some hook }, stack, .code next⟩
  | .onFailure client hook next =>
    ⟨w.setObservers client { w.observersOf client with onFailure := some hook }, stack, .code next⟩
  | .allocate next =>
    let (w, id) := w.allocate
    ⟨w, stack, .code (next id)⟩
  | .request caller operation deadline succeeded failed next =>
    let (w, id) := w.issue caller operation deadline (.host succeeded failed)
    ⟨w, stack, .code (next id)⟩
  | .keep label request next =>
    ⟨{ w with kept := w.kept.insert label request }, stack, .code next⟩
  | .send request target next =>
    match w.send request target with
    | (w, .ok ()) => ⟨w, stack, .code next⟩
    | (w, .error e) => ⟨w, stack, .crash e⟩
  | .process request target next => process w (.await next :: stack) request target
  | .reply request failure next => reply w (.await next :: stack) request failure

/-! ## Transitions -/

/-- Returns to a caller. -/
def back (w : World σ) (stack : List (Activation σ)) (result : Except SimulationError Unit) :
    Activation σ → Machine σ
  | .hold _ => ⟨w, stack, .back result⟩
  | .await next => ⟨w, stack, .code (next result)⟩
  | .shield next => ⟨w, stack, .code (next (.ok result))⟩
  | .successHook client hook => ⟨restoreSuccess w client hook, stack, .back (.ok ())⟩
  | .failureHook client hook => ⟨restoreFailure w client hook, stack, .back (.ok ())⟩
  | .run horizon count next =>
    match result with
    | .error e => ⟨w, stack, .code (next (.error e))⟩
    | .ok () => continueRun w stack horizon count next

/-- A caller is given up, unless it shields itself. -/
def unwind (w : World σ) (stack : List (Activation σ)) (cause : SchedulingError) :
    Activation σ → Machine σ
  | .shield next => ⟨w, stack, .code (next (.error cause))⟩
  | _ => ⟨w, stack, .crash cause⟩

/-- One transition, or `none` when the machine has returned from everything. -/
def step (m : Machine σ) : Option (Machine σ) :=
  match m.focus, m.stack with
  | .code script, stack => some (execScript m.world stack script)
  | .resume next outcome, stack => some (resume m.world stack next outcome)
  | .back result, caller :: stack => some (back m.world stack result caller)
  | .crash cause, caller :: stack => some (unwind m.world stack cause caller)
  | .back _, [] => none
  | .crash _, [] => none

end Machine
end Callflow
