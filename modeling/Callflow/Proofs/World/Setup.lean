import Callflow.Proofs.World.Evaluation

/-!
# What the host has set up is left alone

What is run when a client's body has ended, and what handles the requests to an endpoint, is set up
by the host alone. No operation by which an activity is evaluated or a request is settled changes
it: there is one lemma for each, and two along the recursion of the evaluation.
-/

namespace Callflow
namespace World

variable {σ : Type}

/-- The hooks and the handlers that the host has set up. -/
def setup (w : World σ) :
    List (ClientId × Observers σ) × List (EndpointId × (RequestId → Script σ)) :=
  (w.observers, w.handlers)

theorem observers_eq {w v : World σ} (h : v.setup = w.setup) : v.observers = w.observers :=
  congrArg Prod.fst h

theorem handlers_eq {w v : World σ} (h : v.setup = w.setup) : v.handlers = w.handlers :=
  congrArg Prod.snd h

theorem setup_schedule {w v : World σ} {delay : Time} {kind : EventKind} {work : Callback σ}
    {event : EventId} (h : w.schedule delay kind work = .ok (v, event)) :
    v.setup = w.setup := by
  rcases schedule_eq_ok h with ⟨agenda, -, rfl, -⟩
  rfl

theorem setup_send (w : World σ) (id : RequestId) (target : Target) :
    (w.send id target).1.setup = w.setup := by
  rcases w.send_eq_with id target with ⟨agenda, journal, -, hsent⟩
  rw [hsent]
  rfl

theorem setup_settle (w : World σ) (id : RequestId) (failure : Option Failure) :
    (w.settle id failure).1.setup = w.setup := by
  unfold settle
  split
  · rfl
  · split <;> rfl

theorem setup_suspend (w : World σ) (delay : Time) (kind : EventKind) (work : Callback σ) :
    (w.suspend delay kind work).1.setup = w.setup := by
  unfold suspend
  split
  · rename_i v event hs
    exact setup_schedule hs
  · rfl

theorem setup_defineOperation (w : World σ) (name : String) (body : Activity) (frame : Frame) :
    (w.defineOperation name body frame).1.setup = w.setup := by
  unfold defineOperation
  split <;> rfl

theorem setup_defineClient (w : World σ) (name : String) (period : Time) (body : Activity)
    (frame : Frame) : (w.defineClient name period body frame).1.setup = w.setup := by
  unfold defineClient
  split
  · rfl
  · dsimp only
    split
    · rename_i v event hs
      have hv := setup_schedule hs
      exact hv
    · rfl

/-- A request that is made and handed over. -/
theorem setup_issue_send (w : World σ) (caller : Caller) (operation : String)
    (deadline : Option Time) (waiter : Waiter σ) (target : Target) :
    ((w.issue caller operation deadline waiter).1.send ⟨w.requests.size⟩ target).1.setup =
      w.setup :=
  setup_send ..

theorem setup_trigger (w : World σ) (inUse : List Ref) (name operation : String) (frame : Frame)
    (next : Continuation σ) :
    (w.trigger inUse name operation frame next).1.setup = w.setup := by
  have hsent (target : Target) :=
    setup_issue_send w frame.caller operation none .nobody target
  have hid : (w.issue frame.caller operation none .nobody).2 = ⟨w.requests.size⟩ := rfl
  unfold trigger
  split
  · rfl
  · rename_i target _
    have hv := hsent target
    simp only [hid]
    split
    · rename_i v cause hs
      rw [hs] at hv
      exact hv
    · rename_i v hs
      rw [hs] at hv
      exact hv

theorem setup_query (w : World σ) (inUse : List Ref) (name operation : String)
    (timeout : Option Time) (frame : Frame) (next : Continuation σ) :
    (w.query inUse name operation timeout frame next).1.setup = w.setup := by
  have hsent (deadline : Option Time) (target : Target) :=
    setup_issue_send w frame.caller operation deadline (.continuation next) target
  generalize hquery : w.query inUse name operation timeout frame next = e
  rcases e with ⟨u, result⟩
  rcases query_cases hquery with
    ⟨_, _, rfl, _⟩ | ⟨target, _, _, _, _, hsend⟩ | ⟨target, _, _, _, hsend⟩ |
    ⟨target, delay, v, event, _, _, _, _, hsend, hwatch⟩
  · rfl
  · have hu := hsent none target
    rw [hsend] at hu
    exact hu
  · have hu := hsent none target
    rw [hsend] at hu
    exact hu
  · have hv := hsent (some (w.now + delay)) target
    rw [hsend] at hv
    exact (setup_schedule hwatch).trans hv

theorem setup_afterAttempt (w : World σ) (state : RetryState) (body : Activity) (frame : Frame)
    (next : Continuation σ) (held : List Ref) (outcome : Outcome) :
    (w.afterAttempt state body frame next held outcome).1.setup = w.setup := by
  cases outcome with
  | success value => rfl
  | failure cause =>
    unfold afterAttempt
    split
    · rfl
    · split
      · rfl
      · exact setup_suspend ..

theorem setup_attempt {w v : World σ} {inUse : List Ref} {state : RetryState} {body : Activity}
    {frame : Frame} {next : Continuation σ}
    (h : (evaluate inUse body frame (.retry state.begin body frame next) w).1.setup =
      v.setup) :
    (attempt inUse state body frame next w).1.setup = v.setup := by
  unfold attempt
  dsimp only
  split
  · rename_i u outcome held hu
    rw [hu] at h
    exact (setup_afterAttempt ..).trans h
  · exact h

-- Both proofs follow the recursion of the evaluation.
mutual

theorem setup_evaluate (inUse : List Ref) (activity : Activity) (frame : Frame)
    (next : Continuation σ) (w : World σ) :
    (evaluate inUse activity frame next w).1.setup = w.setup := by
  cases activity with
  | defineService name body =>
    have hbody := setup_evaluateSteps inUse body
      (frame.inside (w.store.newService name (some frame.scope)).2 ⟨w.store.scopes.size⟩) .unit
      (.service (w.store.newService name (some frame.scope)).2 next)
      { w with
        store := ((w.store.newService name (some frame.scope)).1).bind frame.scope name
          (.service (w.store.newService name (some frame.scope)).2) }
    rw [evaluate]
    dsimp only
    split
    · rename_i v value held hv
      rw [hv] at hbody
      exact hbody
    · rename_i v cause held hv
      rw [hv] at hbody
      exact hbody
    · exact hbody
  | defineOperation name body => exact setup_defineOperation w name body frame
  | defineClient name period body => exact setup_defineClient w name period body frame
  | trigger name operation => exact setup_trigger w inUse name operation frame next
  | query name operation timeout => exact setup_query w inUse name operation timeout frame next
  | sequence steps => exact setup_evaluateSteps inUse steps frame .unit next w
  | think duration => exact setup_suspend w duration .think (.wake next)
  | retry body limit delay =>
    rw [evaluate]
    cases Time.checkDelay delay.base with
    | error e => rfl
    | ok _ =>
      cases RetryState.start limit delay with
      | error e => rfl
      | ok state =>
        exact setup_attempt
          (setup_evaluate inUse body frame (.retry state.begin body frame next) w)
  | ignoreError body =>
    have hbody := setup_evaluate inUse body frame (.ignore next) w
    rw [evaluate]
    split
    · rename_i v cause held hv
      rw [hv] at hbody
      exact hbody
    · exact hbody
  | fail => rfl

theorem setup_evaluateSteps (inUse : List Ref) (steps : List Activity) (frame : Frame)
    (last : Value) (next : Continuation σ) (w : World σ) :
    (evaluate.evaluateSteps inUse steps frame last next w).1.setup = w.setup := by
  cases steps with
  | nil => rfl
  | cons step rest =>
    have hstep := setup_evaluate inUse step frame (.steps rest frame next) w
    rw [evaluate.evaluateSteps]
    split
    · rename_i v value held hv
      rw [hv] at hstep
      exact (setup_evaluateSteps inUse rest frame value next v).trans hstep
    · rename_i v cause held hv
      rw [hv] at hstep
      exact hstep
    · exact hstep

end

end World
end Callflow
