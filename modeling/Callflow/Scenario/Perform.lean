import Callflow.Journal.Fingerprint
import Callflow.Machine.Run
import Callflow.Scenario.Command

/-!
# Carrying commands out

`Command.script` is the host code of a command, followed by more host code that depends on the
answer. The commands that it carries for later become the code of callbacks, continuations and
hooks: each of their answers is logged, and the first error ends the list and is returned.
`Scenario.perform` carries out one command from outside.
-/

namespace Callflow

/-- The memory that the commands of a scenario share. -/
structure Desk where
  -- The log, the latest entry first.
  log : List Remark
  -- When each endpoint was called, the latest call first.
  attendance : Array (List Time)
  -- The endpoint that was last bound to each symbol.
  endpoints : Directory Nat
  -- The answer to the command in hand.
  answer : Answer

namespace Desk

def empty : Desk := ⟨[], #[], .empty, .nothing⟩

def note (d : Desk) (r : Remark) : Desk := { d with log := r :: d.log }

/-- A new endpoint under a symbol. -/
def install (d : Desk) (symbol : String) : Desk :=
  { d with
    attendance := d.attendance.push []
    endpoints := d.endpoints.insert symbol d.attendance.size }

/-- The calls of an endpoint, the latest one first. -/
def callsOf (d : Desk) (place : Nat) : List Time :=
  (d.attendance[place]?).getD []

/-- One more call of an endpoint. -/
def attend (d : Desk) (place : Nat) (time : Time) : Desk :=
  { d with attendance := d.attendance.modify place fun times => time :: times }

end Desk

/-- The host code of a scenario. -/
abbrev Plan := Script Desk

namespace Plan

def note (r : Remark) (next : Plan) : Plan := .remember (fun d => d.note r) next

/-- Logs something that depends on the simulated time and goes on. -/
def noteNow (r : Time → Remark) (next : Plan) : Plan := .observe fun v => note (r v.now) next

/-- Logs the outcome of an activity and goes on. -/
def noteOutcome (tag : String) (outcome : Outcome) (next : Plan) : Plan :=
  .observe fun v =>
    let result := match outcome with
      | .success value => .ok (v.store.describeValue value)
      | .failure cause => .error cause
    note (.outcome tag v.now result) next

/-! ## Finding things -/

/-- Goes on with the value of a symbol. -/
def withValue (symbol : String) (next : View → Value → Plan) (refuse : SimulationError → Plan) :
    Plan :=
  .observe fun v =>
    match v.store.local? World.root symbol with
    | some value => next v value
    | none => refuse (.program (.undefinedSymbol symbol))

def withTarget (symbol : String) (next : Target → Plan) (refuse : SimulationError → Plan) : Plan :=
  withValue symbol (fun _ value =>
    match value.target? with
    | some target => next target
    | none => refuse (.program (.notAService symbol))) refuse

/-- Goes on with the client of a symbol, or with `absent` where the value is something else. -/
def withClient (symbol : String) (next : ClientId → Client → Plan) (absent : Plan)
    (refuse : SimulationError → Plan) : Plan :=
  withValue symbol (fun v value =>
    match value with
    | .client id =>
      match v.store.client? id with
      | some c => next id c
      | none => absent
    | _ => absent) refuse

/-- Goes on with the service of a symbol, or with `absent` where the value is something else. -/
def withService (symbol : String) (next : View → ServiceId → Service → Plan) (absent : Plan)
    (refuse : SimulationError → Plan) : Plan :=
  withValue symbol (fun v value =>
    match value with
    | .service id =>
      match v.store.service? id with
      | some s => next v id s
      | none => absent
    | _ => absent) refuse

def withRequest (label : String) (next : RequestId → Plan) (refuse : Refusal → Plan) : Plan :=
  .observe fun v =>
    match v.kept.find? label with
    | some id => next id
    | none => refuse .malformed

/-- Answers with a request as it is now. -/
def showRequest (id : RequestId) (detailed : Bool) (next : Answer → Plan) : Plan :=
  .observe fun v =>
    match v.request? id with
    | some r => next (.request r detailed)
    | none => next (.refused .malformed)

/-- Answers with a request, or with the error that a call has returned. -/
def settleFor (id : RequestId) (detailed : Bool) (next : Answer → Plan) :
    Except SimulationError Unit → Plan
  | .ok () => showRequest id detailed next
  | .error e => next (.failed e)

/-- Answers with nothing, or with the error that a call has returned. -/
def ended (next : Answer → Plan) : Except SimulationError Unit → Plan
  | .ok () => next .nothing
  | .error e => next (.failed e)

/-! ## Endpoints -/

/-- Does with a request what a reaction says, on a certain call. -/
def react (name : String) (call : Nat) (request : Request) : Reaction → Plan
  | .succeed => .reply request.id none Script.finish
  | .fail cause => .reply request.id (some cause) Script.finish
  | .silent => .done
  | .succeedOnCall first cause =>
    .reply request.id (if call < first then some cause else none) Script.finish
  | .succeedAfter delay => .replyAfter delay request.id none (Script.insist fun _ => .done)
  | .failAfter delay cause =>
    .replyAfter delay request.id (some cause) (Script.insist fun _ => .done)
  | .twice cause =>
    .reply request.id none fun
      | .ok () => .reply request.id (some cause) Script.finish
      | .error e => .fail e
  | .hold => .keep (name ++ "#" ++ toString call) request.id .done
  | .abort => .fail (.program (.undefinedOperation name request.operation))

/-- What an endpoint does with a request: it counts the call, logs it unless it is quiet, and
reacts. -/
def attend (name : String) (place : Nat) (reactions : List Reaction) (quiet : Bool)
    (id : RequestId) : Plan :=
  .observe fun v => .recall fun d =>
    match v.request? id with
    | none => .done
    | some r =>
      let call := (d.callsOf place).length + 1
      let acted := react name call r (Reaction.atCall reactions call)
      .remember (fun d => d.attend place v.now)
        (if quiet then acted else note (.call name call id r.operation r.caller v.now) acted)

end Plan

namespace Command

/-- The host code of a command, and `next` after it. -/
def script : Command → (Answer → Plan) → Plan
  | .bind symbol name reactions transit quiet, next =>
    .recall fun d => .remember (fun d => d.install symbol)
      (.bind symbol name transit (Plan.attend name d.attendance.size reactions quiet) fun value =>
        .observe fun v => next (.sight (v.store.see value)))
  | .define symbol draft, next =>
    .define symbol draft fun value => .observe fun v => next (.sight (v.store.see value))
  | .lookUp symbol, next =>
    Plan.withValue symbol (fun v value => next (.sight (v.store.see value)))
      fun e => next (.failed e)
  | .symbols, next => .observe fun v => next (.names (v.store.symbols World.root))
  | .calls symbol, next =>
    .recall fun d =>
      match d.endpoints.find? symbol with
      | some place => next (.calls (d.callsOf place).reverse)
      | none => next (.refused .malformed)
  | .evaluate activity caller tag, next =>
    .evaluate activity caller
      (fun outcome => match tag with
        | some tag => Plan.noteOutcome tag outcome .done
        | none => .done)
      (Plan.ended next)
  | .evaluateThen activity tag rest, next =>
    let later := followUp rest
    .evaluate activity .host (fun outcome => Plan.noteOutcome tag outcome later) (Plan.ended next)
  | .schedule delay kind insisting tag rest, next =>
    let later := Plan.noteNow (.callback tag) (followUp rest)
    .schedule delay kind later
      (if insisting then Script.insist fun id => next (.count id.seq)
        else fun
          | .ok id => next (.count id.seq)
          | .error e => next (.failed (.scheduling e)))
  | .run horizon, next =>
    .run horizon fun
      | .ok n => next (.count n)
      | .error e => next (.failed e)
  | .raise symbol, next => next (.failed (.program (.undefinedSymbol symbol)))
  | .state, next =>
    .observe fun v => .readJournal fun j =>
      next (.overview ⟨v.now, v.pending, v.next, v.dispatched, v.stats, j.entries.size⟩)
  | .journal, next => .readJournal fun j => next (.entries j.entries.toList)
  | .fingerprint, next => .readJournal fun j => next (.fingerprint j.fingerprint)
  | .record entry, next => .record entry (next .nothing)
  | .client symbol detailed, next =>
    Plan.withClient symbol (fun _ c => next (.client c detailed)) (next .nothing)
      fun e => next (.failed e)
  | .service symbol detailed, next =>
    Plan.withService symbol (fun v _ s => next (.service s (v.store.symbols s.scope) detailed))
      (next .nothing) fun e => next (.failed e)
  | .operation symbol name, next =>
    Plan.withService symbol (fun _ _ s =>
      match s.operations.find? name with
      | some op => next (.operation op)
      | none => next .nothing) (next .nothing) fun e => next (.failed e)
  | .execute symbol name tag, next =>
    Plan.withService symbol (fun _ id s =>
      match s.operations.find? name with
      | some op =>
        .execute id op (fun outcome => Plan.noteOutcome tag outcome .done) (Plan.ended next)
      | none => next (.refused .malformed)) (next (.refused .malformed)) fun e => next (.failed e)
  | .afterSuccess symbol tag rest, next =>
    let later := Plan.noteNow (.hook tag · none) (followUp rest)
    Plan.withClient symbol (fun id _ => .onSuccess id later (next .nothing))
      (next (.refused .malformed)) fun e => next (.failed e)
  | .afterFailure symbol tag rest, next =>
    let later (cause : Failure) := Plan.noteNow (.hook tag · (some cause)) (followUp rest)
    Plan.withClient symbol (fun id _ => .onFailure id later (next .nothing))
      (next (.refused .malformed)) fun e => next (.failed e)
  | .allocate, next => .allocate fun id => next (.requestNumber id)
  | .request label caller op deadline watch rest detailed, next =>
    let settled (failure : Option Failure) :=
      Plan.noteNow (.settled label · failure) (followUp rest)
    .request caller op deadline
      (if watch.onSuccess then some (settled none) else none)
      (if watch.onFailure then some fun cause => settled (some cause) else none)
      fun id => .keep label id (Plan.showRequest id detailed next)
  | .send label symbol detailed, next =>
    Plan.withRequest label (fun id =>
      Plan.withTarget symbol (fun target => .send id target (Plan.showRequest id detailed next))
        fun e => next (.failed e)) fun why => next (.refused why)
  | .process label symbol detailed, next =>
    Plan.withRequest label (fun id =>
      Plan.withTarget symbol (fun target => .process id target (Plan.settleFor id detailed next))
        fun e => next (.failed e)) fun why => next (.refused why)
  | .reply label failure detailed, next =>
    Plan.withRequest label (fun id => .reply id failure (Plan.settleFor id detailed next))
      fun why => next (.refused why)
  | .see label detailed, next =>
    Plan.withRequest label (fun id => Plan.showRequest id detailed next)
      fun why => next (.refused why)
  | .refuse why, next => next (.refused why)
where
  -- The host code of commands for later.
  followUp : List Command → Plan
    | [] => .done
    | command :: rest =>
      command.script fun answer =>
        Plan.note (.did answer)
          (match answer with
            | .failed e => .fail e
            | _ => followUp rest)

end Command

/-- How a command ended. -/
inductive Verdict where
  | answered (answer : Answer)
  -- Everything was given up because of a refused delay.
  | crashed (cause : SchedulingError)
  -- It never ended.
  | unfinished

/-- What has happened while a command was carried out. -/
structure Account where
  verdict : Verdict
  -- The simulated time afterwards.
  now : Time
  -- The log, oldest entry first.
  log : List Remark

/-- A simulation under the commands of a scenario. -/
abbrev Scenario := World Desk

namespace Scenario

/-- A simulation that has been told nothing yet. -/
def start (config : SimulationConfig) : Scenario := World.start config Desk.empty

/-- Carries out a command with at most `fuel` transitions of the machine. -/
def perform (fuel : Nat) (s : Scenario) (command : Command) : Scenario × Account :=
  let s := { s with memory := { s.memory with log := [], answer := .nothing } }
  let plan := command.script fun answer => .remember (fun d => { d with answer }) .done
  let (s, ending) := World.perform fuel s plan
  let verdict : Verdict := match ending with
    | .returned (.ok ()) => .answered s.memory.answer
    | .returned (.error e) => .answered (.failed e)
    | .crashed e => .crashed e
    | .unfinished => .unfinished
  (s, ⟨verdict, s.now, s.memory.log.reverse⟩)

end Scenario
end Callflow
