import Callflow.Machine.World

/-!
# Evaluating activities

`World.evaluate` takes an activity as far as it goes without time passing. Either it resolves to an
outcome, which is then the caller's to hand on; or it is suspended, and its continuation waits in an
event or with a request. A sequence goes on by itself as long as its steps resolve.

While the outcome of a resolved activity is handed on, some references that its evaluation made are
still held; they are part of the result. Only they can keep alive a scope that the activity has
defined and that is not bound any more.
-/

namespace Callflow

/-- How far an activity got. -/
inductive Progress where
  -- Its continuation waits for something.
  | suspended
  -- It has ended; `held` is what its evaluation holds while the outcome is handed on.
  | resolved (outcome : Outcome) (held : List Ref)

/-- Why an evaluation stops for good. -/
inductive Stop where
  | error (cause : SimulationError)
  | crash (cause : SchedulingError)

/-- The state after an evaluation, and its result. -/
abbrev Evaluation (σ : Type) := World σ × Except Stop Progress

namespace World

variable {σ : Type}

/-- Stops with a mistake of the program. -/
def mistake (w : World σ) (cause : ProgramError) : Evaluation σ :=
  (w, .error (.error (.program cause)))

/-- Stops with a refused delay. -/
def refuse (w : World σ) (cause : SchedulingError) : Evaluation σ :=
  (w, .error (.error (.scheduling cause)))

/-- Schedules a callback and is suspended. -/
def suspend (w : World σ) (delay : Time) (kind : EventKind) (work : Callback σ) : Evaluation σ :=
  match w.schedule delay kind work with
  | .ok (w, _) => (w, .ok .suspended)
  | .error e => w.refuse e

/-- The target that a symbol stands for. -/
def resolve (w : World σ) (inUse : List Ref) (frame : Frame) (next : Continuation σ)
    (name : String) : Except ProgramError Target :=
  match w.store.lookUp? (w.alive (inUse ++ frame.refs) next) frame.scope name with
  | none => .error (.undefinedSymbol name)
  | some value =>
    match value.target? with
    | none => .error (.notAService name)
    | some target => .ok target

/-! ## Definitions -/

/-- Defines an operation of the service in whose body this happens. -/
def defineOperation (w : World σ) (name : String) (body : Activity) (frame : Frame) :
    Evaluation σ :=
  match frame.service with
  | none => w.mistake (.noEnclosingService name)
  | some id =>
    let op : Operation := ⟨name, w.store.targetName (.service id), body⟩
    ({ w with store := w.store.register id op }, .ok (.resolved (.success (.operation op)) []))

/-- Defines a client and schedules its first firing. -/
def defineClient (w : World σ) (name : String) (period : Time) (body : Activity) (frame : Frame) :
    Evaluation σ :=
  if !Time.isPeriod period then w.mistake (.invalidPeriod period)
  else
    let (store, id) := w.store.newClient name period body
    let w := { w with store := store.bind frame.scope name (.client id) }
    match w.schedule period .clientFiring (.fire id frame.scope) with
    | .ok (w, _) => (w, .ok (.resolved (.success (.client id)) []))
    | .error e => w.refuse e

/-! ## Calls -/

/-- Sends a request that nobody waits for. -/
def trigger (w : World σ) (inUse : List Ref) (target operation : String) (frame : Frame)
    (next : Continuation σ) : Evaluation σ :=
  match w.resolve inUse frame next target with
  | .error e => w.mistake e
  | .ok target =>
    let (w, id) := w.issue frame.caller operation none .nobody
    match w.send id target with
    | (w, .error e) => (w, .error (.crash e))
    | (w, .ok ()) => (w, .ok (.resolved (.success .unit) []))

/-- Sends a request that the continuation waits for, at most until a timeout has passed. -/
def query (w : World σ) (inUse : List Ref) (target operation : String) (timeout : Option Time)
    (frame : Frame) (next : Continuation σ) : Evaluation σ :=
  match w.resolve inUse frame next target with
  | .error e => w.mistake e
  | .ok target =>
    match timeout.mapM Time.checkDelay with
    | .error e => w.refuse e
    | .ok _ =>
      let (w, id) := w.issue frame.caller operation none (.continuation next)
      match w.send id target with
      | (w, .error e) => (w, .error (.crash e))
      | (w, .ok ()) =>
        match timeout with
        | none => (w, .ok .suspended)
        | some timeout =>
          let deadline := w.now + timeout
          (w.setDeadline id deadline).suspend timeout .timeout (.expire id deadline)

/-! ## Retries -/

/-- What follows an attempt: success ends the retry, and so does a failure when no attempt is left;
otherwise the next attempt is scheduled. -/
def afterAttempt (w : World σ) (state : RetryState) (body : Activity) (frame : Frame)
    (next : Continuation σ) (held : List Ref) : Outcome → Evaluation σ
  | .success value => (w, .ok (.resolved (.success value) (held ++ frame.refs)))
  | .failure _ =>
    if state.exhausted then
      (w, .ok (.resolved (.failure (.exhausted state.attempts)) (held ++ frame.refs)))
    else w.suspend state.nextWait .retry (.attempt state body frame next)

/-! ## Activities -/

/-- Takes an activity as far as it goes without time passing. `inUse` is what is held besides the
frame and the continuation. -/
def evaluate (inUse : List Ref) :
    Activity → Frame → Continuation σ → World σ → Evaluation σ
  | .defineService name body, frame, next, w =>
    let (store, id) := w.store.newService name (some frame.scope)
    let inner := frame.inside id ⟨w.store.scopes.size⟩
    let w := { w with store := store.bind frame.scope name (.service id) }
    match evaluateSteps inUse body inner .unit (.service id next) w with
    | (w, .ok (.resolved (.success value) held)) =>
      (w, .ok (.resolved (.success (.service id)) (value.refs ++ held)))
    | (w, .ok (.resolved (.failure cause) held)) =>
      (w, .ok (.resolved (.failure cause) (.service id :: held)))
    | stopped => stopped
  | .defineOperation name body, frame, _, w => w.defineOperation name body frame
  | .defineClient name period body, frame, _, w => w.defineClient name period body frame
  | .trigger target operation, frame, next, w => w.trigger inUse target operation frame next
  | .query target operation timeout, frame, next, w =>
    w.query inUse target operation timeout frame next
  | .sequence steps, frame, next, w => evaluateSteps inUse steps frame .unit next w
  | .think duration, _, next, w => w.suspend duration .think (.wake next)
  | .retry body limit delay, frame, next, w =>
    match Time.checkDelay delay.base, RetryState.start limit delay with
    | .error e, _ => w.refuse e
    | .ok (), .error e => w.mistake e
    | .ok (), .ok state =>
      let state := state.begin
      match evaluate inUse body frame (.retry state body frame next) w with
      | (w, .ok (.resolved outcome held)) => w.afterAttempt state body frame next held outcome
      | stopped => stopped
  | .ignoreError body, frame, next, w =>
    match evaluate inUse body frame (.ignore next) w with
    | (w, .ok (.resolved (.failure _) held)) => (w, .ok (.resolved (.success .unit) held))
    | other => other
  | .fail, _, _, w => (w, .ok (.resolved (.failure .injected) []))
where
  -- Takes the steps of a sequence as far as they go; `last` is the value of the step before.
  evaluateSteps (inUse : List Ref) :
      List Activity → Frame → Value → Continuation σ → World σ → Evaluation σ
    | [], frame, last, _, w => (w, .ok (.resolved (.success last) frame.refs))
    | step :: rest, frame, last, next, w =>
      match evaluate inUse step frame (.steps rest frame next) w with
      | (w, .ok (.resolved (.success value) _)) => evaluateSteps inUse rest frame value next w
      | (w, .ok (.resolved (.failure cause) _)) =>
        (w, .ok (.resolved (.failure cause) (frame.refs ++ last.refs)))
      | stopped => stopped

/-- Makes one more attempt of a retry. -/
def attempt (inUse : List Ref) (state : RetryState) (body : Activity) (frame : Frame)
    (next : Continuation σ) (w : World σ) : Evaluation σ :=
  let state := state.begin
  match evaluate inUse body frame (.retry state body frame next) w with
  | (w, .ok (.resolved outcome held)) => w.afterAttempt state body frame next held outcome
  | stopped => stopped

end World
end Callflow
