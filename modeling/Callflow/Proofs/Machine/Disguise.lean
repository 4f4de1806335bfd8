import Callflow.Machine.Step
import Callflow.Proofs.World.Disguise

/-!
# Transitions in disguise

A machine whose world is disguised makes the same transitions (`step_disguised`), unless its next
transition sees through the disguise: only host code that looks at the journal, and a run that looks
at its budget, may do so (`Fooled`).
-/

namespace Callflow

variable {σ : Type}

namespace Machine

/-- The machine in a disguised world. -/
def disguised (d : Disguise) (m : Machine σ) : Machine σ := { m with world := m.world.disguised d }

/-- A machine whose next transition does not see through a disguise. -/
structure Fooled (d : Disguise) (m : Machine σ) : Prop where
  -- Host code that looks at the journal makes nothing of the difference.
  journal : ∀ next, m.focus = .code (.readJournal next) →
    next (d.journal m.world.journal) = next m.world.journal
  -- A run that is about to take an event, or to stop, does the same under either budget.
  budget : ∀ horizon count next stack, m.focus = .back (.ok ()) →
    m.stack = .run horizon count next :: stack →
    spent (m.world.disguised d) count = spent m.world count

/-! ## Transitions -/

section

variable (d : Disguise) (w : World σ) (stack : List (Activation σ))

theorem proceed_disguised (next : Continuation σ) {e e' : Evaluation σ} (h : e' = e.disguised d) :
    proceed stack next e' = (proceed stack next e).disguised d := by
  rw [h]
  rcases e with ⟨v, (_ | _) | _ | _⟩ <;> rfl

theorem evaluate_disguised (activity : Activity) (frame : Frame) (next : Continuation σ) :
    evaluate (w.disguised d) stack activity frame next =
      (evaluate w stack activity frame next).disguised d :=
  proceed_disguised d stack next (World.evaluate_disguised d (inUse stack) activity frame next w)

theorem execute_disguised (scope : ScopeId) (op : Operation) (next : Continuation σ) :
    execute (w.disguised d) stack scope op next = (execute w stack scope op next).disguised d :=
  evaluate_disguised d { w with store := (w.store.newScope (some scope) none).1 } _ op.body _ next

theorem reply_disguised (request : RequestId) (failure : Option Failure) :
    reply (w.disguised d) stack request failure = (reply w stack request failure).disguised d := by
  unfold reply
  rw [World.settle_disguised]
  rcases w.settle request failure with ⟨v, _ | _ | ⟨_ | _, _ | _⟩⟩ <;> cases failure <;> rfl

theorem process_disguised (request : RequestId) (target : Target) :
    process (w.disguised d) stack request target =
      (process w stack request target).disguised d := by
  cases target with
  | endpoint id => rfl
  | service id =>
    unfold process
    dsimp only
    rw [World.disguised_store, World.request?_disguised]
    cases w.store.service? id with
    | none => rfl
    | some service =>
      cases w.request? request with
      | none => rfl
      | some r =>
        dsimp only
        cases service.operations.find? r.operation with
        | none => rfl
        | some op => exact execute_disguised d w _ service.scope op (.reply request)

theorem fire_disguised (id : ClientId) (scope : ScopeId) :
    fire (w.disguised d) stack id scope = (fire w stack id scope).disguised d := by
  unfold fire
  rw [World.disguised_store]
  cases w.store.client? id with
  | none => rfl
  | some client =>
    simp only [World.disguised_with_store, World.schedule_disguised]
    cases World.schedule _ client.period .clientFiring (.fire id scope) with
    | error e => rfl
    | ok scheduled => exact evaluate_disguised d scheduled.1 _ client.body _ (.complete id)

theorem complete_disguised (id : ClientId) (outcome : Outcome) :
    complete (w.disguised d) stack id outcome = (complete w stack id outcome).disguised d := by
  cases outcome with
  | success value =>
    unfold complete
    simp only [World.disguised_store, World.disguised_with_store]
    generalize ({ w with store := _ } : World σ) = v
    rw [World.observersOf_disguised]
    cases (v.observersOf id).onSuccess <;> rfl
  | failure cause =>
    unfold complete
    simp only [World.disguised_store, World.disguised_with_store]
    generalize ({ w with store := _ } : World σ) = v
    rw [World.observersOf_disguised]
    cases (v.observersOf id).onFailure <;> rfl

theorem resume_disguised (next : Continuation σ) (outcome : Outcome) :
    resume (w.disguised d) stack next outcome = (resume w stack next outcome).disguised d := by
  cases next with
  | host code => rfl
  | reply request =>
    cases outcome with
    | success value => exact reply_disguised d w _ request none
    | failure cause => exact reply_disguised d w stack request (some cause)
  | complete client => exact complete_disguised d w stack client outcome
  | steps rest frame next =>
    cases outcome with
    | success value =>
      exact proceed_disguised d stack next
        (World.evaluateSteps_disguised d (inUse stack) rest frame value next w)
    | failure cause => rfl
  | service id next => cases outcome <;> rfl
  | ignore next => cases outcome <;> rfl
  | retry state body frame next =>
    exact proceed_disguised d stack next
      (World.afterAttempt_disguised d w state body frame next [] outcome)

theorem dispatch_disguised (work : Callback σ) :
    dispatch (w.disguised d) stack work = (dispatch w stack work).disguised d := by
  cases work with
  | host code => rfl
  | deliver request target => exact process_disguised d w stack request target
  | expire request deadline =>
    unfold dispatch
    dsimp only
    rw [World.request?_disguised]
    cases w.request? request with
    | none => rfl
    | some r =>
      dsimp only
      cases r.isPending with
      | false => rfl
      | true => exact reply_disguised d w stack request (some (.timedOut deadline))
  | wake next => rfl
  | attempt state body frame next =>
    exact proceed_disguised d _ next (World.attempt_disguised d w _ state body frame next)
  | fire client scope => exact fire_disguised d w stack client scope
  | reply request failure => exact reply_disguised d w stack request failure

theorem continueRun_disguised (horizon : Time) {count : Nat}
    (next : Except SimulationError Nat → Script σ)
    (hspent : spent (w.disguised d) count = spent w count) :
    continueRun (w.disguised d) stack horizon count next =
      (continueRun w stack horizon count next).disguised d := by
  have hagenda : (w.disguised d).agenda = w.agenda := rfl
  unfold continueRun
  rw [hspent, hagenda]
  cases spent w count with
  | true => rfl
  | false =>
    cases w.agenda.take? horizon with
    | none => rfl
    | some taken =>
      rcases taken with ⟨event, agenda⟩
      have hrecord := World.record_disguised d { w with agenda }
        (.dispatched event.time event.seq event.kind)
      have hgo := dispatch_disguised d (World.record { w with agenda }
        (.dispatched event.time event.seq event.kind))
        (.run horizon (count + 1) next :: stack) event.work
      rw [← hrecord] at hgo
      exact hgo

theorem execScript_disguised (script : Script σ)
    (h : ∀ next, script = .readJournal next → next (d.journal w.journal) = next w.journal) :
    execScript (w.disguised d) stack script = (execScript w stack script).disguised d := by
  cases script with
  | readJournal next =>
    exact congrArg (fun script => Machine.mk (w.disguised d) stack (.code script)) (h next rfl)
  | observe next =>
    have hview := World.view_disguised d w
    exact congrArg (fun view => Machine.mk (w.disguised d) stack (.code (next view))) hview
  | record entry next =>
    have hrecord := World.record_disguised d w entry
    exact congrArg (fun w => Machine.mk w stack (.code next)) hrecord
  | schedule delay kind callback next =>
    unfold execScript
    dsimp only
    rw [World.schedule_disguised]
    cases w.schedule delay kind (.host callback) <;> rfl
  | replyAfter delay request failure next =>
    unfold execScript
    dsimp only
    rw [World.schedule_disguised]
    cases w.schedule delay .reply (.reply request failure) <;> rfl
  | evaluate activity caller resume next => exact evaluate_disguised d w _ activity _ (.host resume)
  | execute id op resume next =>
    unfold execScript
    dsimp only
    rw [World.disguised_store]
    cases w.store.service? id with
    | none => rfl
    | some service => exact execute_disguised d w _ service.scope op (.host resume)
  | send request target next =>
    unfold execScript
    dsimp only
    rw [World.send_disguised]
    rcases w.send request target with ⟨v, _ | _⟩ <;> rfl
  | process request target next => exact process_disguised d w _ request target
  | reply request failure next => exact reply_disguised d w _ request failure
  | _ => rfl

theorem restoreSuccess_disguised (id : ClientId) (hook : Script σ) :
    restoreSuccess (w.disguised d) id hook = (restoreSuccess w id hook).disguised d := by
  unfold restoreSuccess
  rw [World.observersOf_disguised]
  dsimp only
  split <;> rfl

theorem restoreFailure_disguised (id : ClientId) (hook : Failure → Script σ) :
    restoreFailure (w.disguised d) id hook = (restoreFailure w id hook).disguised d := by
  unfold restoreFailure
  rw [World.observersOf_disguised]
  dsimp only
  split <;> rfl

theorem back_disguised (result : Except SimulationError Unit) (caller : Activation σ)
    (h : ∀ horizon count next, result = .ok () → caller = .run horizon count next →
      spent (w.disguised d) count = spent w count) :
    back (w.disguised d) stack result caller = (back w stack result caller).disguised d := by
  cases caller with
  | successHook client hook =>
    exact congrArg (Machine.mk · stack (.back (.ok ()))) (restoreSuccess_disguised d w client hook)
  | failureHook client hook =>
    exact congrArg (Machine.mk · stack (.back (.ok ()))) (restoreFailure_disguised d w client hook)
  | run horizon count next =>
    cases result with
    | error e => rfl
    | ok _ => exact continueRun_disguised d w stack horizon next (h horizon count next rfl rfl)
  | _ => rfl

end

/-- A machine that is fooled makes the same transition. -/
theorem step_disguised {d : Disguise} {m : Machine σ} (h : m.Fooled d) :
    (m.disguised d).step = m.step.map (disguised d) := by
  rcases m with ⟨w, stack, focus⟩
  cases focus with
  | code script =>
    have hscript := execScript_disguised d w stack script fun next hlooks =>
      h.journal next (congrArg Focus.code hlooks)
    exact congrArg some hscript
  | resume next outcome => exact congrArg some (resume_disguised d w stack next outcome)
  | back result =>
    cases stack with
    | nil => rfl
    | cons caller stack =>
      have hback := back_disguised d w stack result caller fun horizon count next hok hrun =>
        h.budget horizon count next stack (congrArg Focus.back hok) (congrArg (· :: stack) hrun)
      exact congrArg some hback
  | crash cause =>
    cases stack with
    | nil => rfl
    | cons caller stack => cases caller <;> rfl

end Machine
end Callflow
