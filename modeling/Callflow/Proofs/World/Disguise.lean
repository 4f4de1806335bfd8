import Callflow.Machine.Evaluate
import Mathlib.Order.Basic

/-!
# What no operation looks at

An operation of a world does not look at the budget of a run, and of the journal it looks at
nothing: it only adds entries. A `Disguise` changes these two, in a way that goes together with the
addition of entries and leaves the statistics alone. Each operation does the same in a world as in
the disguised one, and what it leaves behind is the same in disguise: there is one lemma for each
operation.
-/

namespace Callflow

variable {σ : Type}

/-- A change of what no operation looks at. -/
structure Disguise where
  budget : Option Nat → Option Nat
  journal : Journal → Journal
  record : ∀ j e, journal (j.record e) = (journal j).record e
  stats : ∀ j, (journal j).stats = j.stats

/-- The world in disguise. -/
def World.disguised (d : Disguise) (w : World σ) : World σ :=
  { w with budget := d.budget w.budget, journal := d.journal w.journal }

/-- An evaluation in a disguised world. -/
def Evaluation.disguised (d : Disguise) (e : Evaluation σ) : Evaluation σ := (e.1.disguised d, e.2)

namespace World

variable (d : Disguise) (w : World σ)

@[simp]
theorem disguised_store : (w.disguised d).store = w.store := rfl

@[simp]
theorem request?_disguised (id : RequestId) : (w.disguised d).request? id = w.request? id := rfl

@[simp]
theorem observersOf_disguised (id : ClientId) : (w.disguised d).observersOf id = w.observersOf id :=
  rfl

theorem record_disguised (e : JournalEntry) :
    (w.disguised d).record e = (w.record e).disguised d :=
  congrArg (fun journal => { w.disguised d with journal }) (d.record w.journal e).symm

theorem view_disguised : (w.disguised d).view = w.view :=
  congrArg (fun stats => { w.view with stats }) (d.stats w.journal)

/-! ## What is held -/

theorem requestRefs_disguised (id : RequestId) :
    (w.disguised d).requestRefs id = w.requestRefs id := by
  rcases id with ⟨n⟩
  induction n using Nat.strongRecOn with
  | _ n ih =>
    rw [requestRefs, requestRefs]
    congr 2
    funext ref
    cases ref with
    | request other =>
      by_cases hlt : other.number < n
      · simp only [hlt, if_true]
        exact ih other.number hlt
      · simp only [hlt, if_false]
    | _ => rfl

theorem reaches_disguised (refs : List Ref) (ref : Ref) :
    (w.disguised d).reaches refs ref = w.reaches refs ref := by
  have hclosure : (w.disguised d).closure = w.closure := by
    funext r
    cases r with
    | request id => exact requestRefs_disguised d w id
    | _ => rfl
  unfold reaches
  rw [hclosure]

theorem held_disguised (inUse : List Ref) (next : Continuation σ) :
    (w.disguised d).held inUse next = w.held inUse next := by
  funext ref
  unfold held
  simp only [reaches_disguised]
  rfl

theorem resolve_disguised (inUse : List Ref) (frame : Frame) (next : Continuation σ)
    (name : String) :
    (w.disguised d).resolve inUse frame next name = w.resolve inUse frame next name := by
  have halive : (w.disguised d).alive (inUse ++ frame.refs) next =
      w.alive (inUse ++ frame.refs) next := by
    funext id
    unfold alive
    rw [held_disguised]
    rfl
  unfold resolve
  rw [halive]
  rfl

/-! ## Scheduling and requests -/

theorem schedule_disguised (delay : Time) (kind : EventKind) (work : Callback σ) :
    (w.disguised d).schedule delay kind work =
      (w.schedule delay kind work).map fun r => (r.1.disguised d, r.2) := by
  have hagenda : (w.disguised d).agenda = w.agenda := rfl
  unfold schedule
  rw [hagenda]
  cases w.agenda.schedule delay kind work <;> rfl

theorem issue_disguised (caller : Caller) (operation : String) (deadline : Option Time)
    (waiter : Waiter σ) :
    (w.disguised d).issue caller operation deadline waiter =
      ((w.issue caller operation deadline waiter).1.disguised d,
        (w.issue caller operation deadline waiter).2) := rfl

theorem send_disguised (id : RequestId) (target : Target) :
    (w.disguised d).send id target = ((w.send id target).1.disguised d, (w.send id target).2) := by
  have hnow : (w.disguised d).now = w.now := rfl
  unfold send
  rw [request?_disguised]
  cases w.request? id with
  | none => rfl
  | some r =>
    simp only [disguised_store, hnow, record_disguised, schedule_disguised]
    cases (w.record _).schedule _ .delivery _ <;> rfl

theorem settle_disguised (id : RequestId) (failure : Option Failure) :
    (w.disguised d).settle id failure =
      ((w.settle id failure).1.disguised d, (w.settle id failure).2) := by
  unfold settle
  rw [request?_disguised]
  cases w.request? id with
  | none => rfl
  | some r =>
    cases hpending : r.isPending with
    | true =>
      have hrecord := d.record w.journal
        (.settled w.now id (r.settle w.now failure).status failure)
      simp only [hpending, if_true, disguised, hrecord]
      rfl
    | false =>
      simp only [hpending, Bool.false_eq_true, if_false, record_disguised]
      rfl

/-! ## Activities -/

theorem suspend_disguised (delay : Time) (kind : EventKind) (work : Callback σ) :
    (w.disguised d).suspend delay kind work = (w.suspend delay kind work).disguised d := by
  unfold suspend
  rw [schedule_disguised]
  cases w.schedule delay kind work <;> rfl

theorem defineOperation_disguised (name : String) (body : Activity) (frame : Frame) :
    (w.disguised d).defineOperation name body frame =
      (w.defineOperation name body frame).disguised d := by
  unfold defineOperation
  cases frame.service <;> rfl

/-- A world in which only the store has changed. -/
theorem disguised_with_store (store : Store) :
    { w.disguised d with store } = ({ w with store } : World σ).disguised d := rfl

theorem defineClient_disguised (name : String) (period : Time) (body : Activity) (frame : Frame) :
    (w.disguised d).defineClient name period body frame =
      (w.defineClient name period body frame).disguised d := by
  unfold defineClient
  cases Time.isPeriod period with
  | false => rfl
  | true =>
    simp only [Bool.not_true, Bool.false_eq_true, if_false, disguised_store, disguised_with_store,
      schedule_disguised]
    cases World.schedule _ period .clientFiring _ <;> rfl

theorem trigger_disguised (inUse : List Ref) (target operation : String) (frame : Frame)
    (next : Continuation σ) :
    (w.disguised d).trigger inUse target operation frame next =
      (w.trigger inUse target operation frame next).disguised d := by
  unfold trigger
  rw [resolve_disguised]
  cases w.resolve inUse frame next target with
  | error e => rfl
  | ok target =>
    simp only [issue_disguised, send_disguised]
    cases World.send _ _ target with
    | mk v result => cases result <;> rfl

theorem query_disguised (inUse : List Ref) (target operation : String) (timeout : Option Time)
    (frame : Frame) (next : Continuation σ) :
    (w.disguised d).query inUse target operation timeout frame next =
      (w.query inUse target operation timeout frame next).disguised d := by
  unfold query
  rw [resolve_disguised]
  cases w.resolve inUse frame next target with
  | error e => rfl
  | ok target =>
    cases timeout.mapM Time.checkDelay with
    | error e => rfl
    | ok _ =>
      simp only [issue_disguised, send_disguised]
      cases World.send _ _ target with
      | mk v result =>
        cases result with
        | error e => rfl
        | ok _ =>
          cases timeout with
          | none => rfl
          | some timeout =>
            exact suspend_disguised d (v.setDeadline ⟨w.requests.size⟩ (v.now + timeout)) timeout
              .timeout (.expire ⟨w.requests.size⟩ (v.now + timeout))

theorem afterAttempt_disguised (state : RetryState) (body : Activity) (frame : Frame)
    (next : Continuation σ) (held : List Ref) (outcome : Outcome) :
    (w.disguised d).afterAttempt state body frame next held outcome =
      (w.afterAttempt state body frame next held outcome).disguised d := by
  cases outcome with
  | success value => rfl
  | failure cause =>
    unfold afterAttempt
    cases state.exhausted with
    | true => rfl
    | false => exact suspend_disguised d w _ _ _

-- Both proofs follow the recursion of the evaluation.
mutual

/-- An activity is evaluated as it is without the disguise. -/
theorem evaluate_disguised (inUse : List Ref) (activity : Activity) (frame : Frame)
    (next : Continuation σ) (w : World σ) :
    evaluate inUse activity frame next (w.disguised d) =
      (evaluate inUse activity frame next w).disguised d := by
  cases activity with
  | defineService name body =>
    rw [evaluate, evaluate]
    simp only [disguised_store, disguised_with_store, evaluateSteps_disguised]
    generalize evaluate.evaluateSteps _ _ _ _ _ _ = e
    rcases e with ⟨v, _ | _ | ⟨_ | _, held⟩⟩ <;> rfl
  | defineOperation name body => exact defineOperation_disguised d w name body frame
  | defineClient name period body => exact defineClient_disguised d w name period body frame
  | trigger name operation => exact trigger_disguised d w inUse name operation frame next
  | query name operation timeout =>
    exact query_disguised d w inUse name operation timeout frame next
  | sequence steps => exact evaluateSteps_disguised inUse steps frame .unit next w
  | think duration => exact suspend_disguised d w duration .think (.wake next)
  | retry body limit delay =>
    rw [evaluate, evaluate]
    cases Time.checkDelay delay.base with
    | error e => rfl
    | ok _ =>
      cases RetryState.start limit delay with
      | error e => rfl
      | ok state =>
        simp only [evaluate_disguised]
        generalize evaluate _ _ _ _ _ = e
        rcases e with ⟨v, _ | _ | ⟨outcome, held⟩⟩
        · rfl
        · rfl
        · exact afterAttempt_disguised d v state.begin body frame next held outcome
  | ignoreError body =>
    rw [evaluate, evaluate]
    simp only [evaluate_disguised]
    generalize evaluate _ _ _ _ _ = e
    rcases e with ⟨v, _ | _ | ⟨_ | _, held⟩⟩ <;> rfl
  | fail => rfl

theorem evaluateSteps_disguised (inUse : List Ref) (steps : List Activity) (frame : Frame)
    (last : Value) (next : Continuation σ) (w : World σ) :
    evaluate.evaluateSteps inUse steps frame last next (w.disguised d) =
      (evaluate.evaluateSteps inUse steps frame last next w).disguised d := by
  cases steps with
  | nil => rfl
  | cons step rest =>
    rw [evaluate.evaluateSteps, evaluate.evaluateSteps]
    simp only [evaluate_disguised]
    generalize evaluate _ _ _ _ _ = e
    rcases e with ⟨v, _ | _ | ⟨value | _, held⟩⟩
    · rfl
    · rfl
    · exact evaluateSteps_disguised inUse rest frame value next v
    · rfl

end

theorem attempt_disguised (inUse : List Ref) (state : RetryState) (body : Activity)
    (frame : Frame) (next : Continuation σ) :
    attempt inUse state body frame next (w.disguised d) =
      (attempt inUse state body frame next w).disguised d := by
  unfold attempt
  simp only [evaluate_disguised]
  generalize evaluate _ _ _ _ _ = e
  rcases e with ⟨v, _ | _ | ⟨outcome, held⟩⟩
  · rfl
  · rfl
  · exact afterAttempt_disguised d v state.begin body frame next held outcome

end World
end Callflow
