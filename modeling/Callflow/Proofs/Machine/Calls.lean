import Callflow.Proofs.Machine.Deeds
import Callflow.Proofs.World.Calls

/-!
# The calls of a transition

A machine tells by its focus and its stack which calls its next transition comes upon
(`Machine.calls`), and which request the host hands over by itself (`Machine.handed?`). Evaluations,
processing and clients are courses over their calls; they do nothing else to requests.
-/

namespace Callflow
namespace Machine

open World (Still Course)

variable {σ : Type}

/-! ## Listing the calls -/

/-- The calls of the body of an operation. -/
def executeCalls (w : World σ) (stack : List (Activation σ)) (scope : ScopeId) (op : Operation)
    (next : Continuation σ) : List (Call σ) :=
  let (store, fresh) := w.store.newScope (some scope) none
  World.calls (inUse (.hold [.scope fresh] :: stack)) op.body
    (.plain fresh (.operation op.owner op.name)) next { w with store }

/-- The calls of a target that processes a request. -/
def processCalls (w : World σ) (stack : List (Activation σ)) (request : RequestId) :
    Target → List (Call σ)
  | .endpoint _ => []
  | .service id =>
    match w.store.service? id, w.request? request with
    | some service, some r =>
      match service.operations.find? r.operation with
      | none => []
      | some op => executeCalls w (.hold [.service id] :: stack) service.scope op (.reply request)
    | _, _ => []

/-- The calls of a client that fires. -/
def fireCalls (w : World σ) (stack : List (Activation σ)) (id : ClientId) (scope : ScopeId) :
    List (Call σ) :=
  match w.store.client? id with
  | none => []
  | some client =>
    let store := w.store.modifyClient id fun c => { c with firings := c.firings + 1 }
    let w := { w with store }
    match w.schedule client.period .clientFiring (.fire id scope) with
    | .error _ => []
    | .ok (w, _) =>
      World.calls (inUse (.hold [.scope scope] :: stack)) client.body
        (.plain scope (.client client.name)) (.complete id) w

/-- The calls of an event. -/
def Turn.calls (t : Turn σ) : List (Call σ) :=
  match t.event.work with
  | .deliver request target => processCalls t.world t.stack request target
  | .attempt state body frame next =>
    World.calls (inUse (.hold frame.refs :: t.stack)) body frame
      (.retry state.begin body frame next) t.world
  | .fire client scope => fireCalls t.world t.stack client scope
  | _ => []

/-- The calls that the next transition comes upon. -/
def calls (m : Machine σ) : List (Call σ) :=
  match m.focus with
  | .code (.evaluate activity caller resume next) =>
    World.calls (inUse (.await next :: m.stack)) activity (.plain World.root caller) (.host resume)
      m.world
  | .code (.execute id op resume next) =>
    match m.world.store.service? id with
    | none => []
    | some service =>
      executeCalls m.world (.hold [.service id] :: .await next :: m.stack) service.scope op
        (.host resume)
  | .code (.process request target next) =>
    processCalls m.world (.await next :: m.stack) request target
  | .resume (.steps rest frame next) (.success value) =>
    World.calls.ofSteps (inUse m.stack) rest frame value next m.world
  | _ => (m.turn?.map Turn.calls).getD []

/-- The request that the host hands over in the next transition, if it does. -/
def handed? (m : Machine σ) : Option Sending :=
  match m.focus with
  | .code (.send request target _) =>
    (m.world.request? request).bind fun _ => m.world.sending? request target
  | _ => none

/-- The request that the host handles by itself in the next transition, if it does. -/
def handles? (m : Machine σ) : Option RequestId :=
  match m.focus with
  | .code (.send request _ _) => some request
  | .code (.process request _ _) => some request
  | .code (.reply request _ _) => some request
  | .code (.replyAfter _ request _ _) => some request
  | _ => none

/-- Whether the host, in the next transition, makes a request or hands one over by itself, or writes
into the journal. -/
def meddles (m : Machine σ) : Bool :=
  match m.focus with
  | .code (.allocate _) => true
  | .code (.request ..) => true
  | .code (.send ..) => true
  | .code (.record ..) => true
  | _ => false

/-- The requests that are handed over in the next transition. -/
def sends (m : Machine σ) : List Sending := m.handed?.toList ++ m.calls.filterMap Call.sending?

/-! ## Evaluations, processing and clients -/

theorem proceed_world (stack : List (Activation σ)) (next : Continuation σ) (e : Evaluation σ) :
    (proceed stack next e).world = e.1 := by
  unfold proceed
  split <;> rfl

theorem evaluate_course (w : World σ) (stack : List (Activation σ)) (activity : Activity)
    (frame : Frame) (next : Continuation σ) :
    Course w (World.calls (inUse stack) activity frame next w)
      (evaluate w stack activity frame next).world := by
  rw [evaluate, proceed_world]
  exact World.evaluate_course ..

theorem execute_course (w : World σ) (stack : List (Activation σ)) (scope : ScopeId)
    (op : Operation) (next : Continuation σ) :
    Course w (executeCalls w stack scope op next) (execute w stack scope op next).world :=
  .before (.define (.scope (some scope) none) rfl) (evaluate_course ..)

theorem process_course (w : World σ) (stack : List (Activation σ)) (request : RequestId)
    (target : Target) :
    Course w (processCalls w stack request target) (process w stack request target).world := by
  cases target with
  | endpoint id => exact .refl w
  | service id =>
    simp only [process, processCalls]
    cases w.store.service? id with
    | none => exact .refl w
    | some service =>
      cases w.request? request with
      | none => exact .refl w
      | some r =>
        dsimp only
        cases service.operations.find? r.operation with
        | none => exact .refl w
        | some op => exact execute_course ..

theorem fire_course (w : World σ) (stack : List (Activation σ)) (id : ClientId)
    (scope : ScopeId) : Course w (fireCalls w stack id scope) (fire w stack id scope).world := by
  unfold fire fireCalls
  cases w.store.client? id with
  | none => exact .refl w
  | some client =>
    have hcounted : Still w { w with store := w.store.modifyClient id fun c =>
        { c with firings := c.firings + 1 } } := .define (.count id _) rfl
    dsimp only
    generalize ({ w with store := w.store.modifyClient id fun c =>
      { c with firings := c.firings + 1 } } : World σ) = counted at hcounted ⊢
    cases hs : counted.schedule client.period .clientFiring (.fire id scope) with
    | error cause => exact .still hcounted
    | ok scheduled => exact .before (hcounted.trans (.schedule hs rfl)) (evaluate_course ..)

theorem setObservers_still (w : World σ) (id : ClientId) (o : Observers σ) :
    Still w (w.setObservers id o) :=
  .of_move (.arrange _ w.handlers w.kept w.memory) rfl fun hw => hw

theorem complete_still (w : World σ) (stack : List (Activation σ)) (id : ClientId)
    (outcome : Outcome) : Still w (complete w stack id outcome).world := by
  have hcounted (change : Client → Client) :
      Still w { w with store := w.store.modifyClient id change } := .define (.count id change) rfl
  cases outcome with
  | success value =>
    unfold complete
    dsimp only
    split
    · exact hcounted _
    · exact (hcounted _).trans (setObservers_still ..)
  | failure cause =>
    unfold complete
    dsimp only
    split
    · exact hcounted _
    · exact (hcounted _).trans (setObservers_still ..)

theorem restoreSuccess_still (w : World σ) (id : ClientId) (hook : Script σ) :
    Still w (restoreSuccess w id hook) := by
  unfold restoreSuccess
  dsimp only
  split
  · exact .refl w
  · exact setObservers_still ..

theorem restoreFailure_still (w : World σ) (id : ClientId) (hook : Failure → Script σ) :
    Still w (restoreFailure w id hook) := by
  unfold restoreFailure
  dsimp only
  split
  · exact .refl w
  · exact setObservers_still ..

end Machine
end Callflow
