import Callflow.Machine.Evaluate

/-!
# Plain continuation passing

`Plain.evaluate` evaluates an activity by the plain definition: the continuation of each step of a
sequence directly evaluates the steps that remain, from inside the evaluation of the step. The final
continuation may be anything that is made of a world, an outcome and what is held meanwhile; what it
gives is the answer of the evaluation, and so is what becomes of a suspended or a stopped one
(`Answers`).

The plain definition gives the answer that is made of the result of an evaluation, whatever the
answers are (`evaluate_plain`, `steps_plain`): the final continuation gets the same outcome in the
same world, and an evaluation that is suspended or stopped does not call it at all.
-/

namespace Callflow

variable {σ ρ : Type}

/-- A continuation: what is made of a world, of an outcome, and of what is held while it is handed
on. -/
abbrev Receiver (σ ρ : Type) := World σ → Outcome → List Ref → ρ

/-- What is made of an evaluation that hands no outcome on. -/
structure Answers (σ ρ : Type) where
  suspended : World σ → ρ
  stopped : World σ → Stop → ρ

/-- What is made of the result of an evaluation, which calls its continuation if it has resolved. -/
def Answers.of (answers : Answers σ ρ) (k : Receiver σ ρ) : Evaluation σ → ρ
  | (w, .ok .suspended) => answers.suspended w
  | (w, .ok (.resolved outcome held)) => k w outcome held
  | (w, .error stop) => answers.stopped w stop

/-- The world that an evaluation leaves behind, and whether it stops for good. -/
def Answers.returning : Answers σ (World σ × Except Stop Unit) where
  suspended w := (w, .ok ())
  stopped w stop := (w, .error stop)

namespace Plain

variable (answers : Answers σ ρ)

/-- Evaluates an activity, calling `k` with its outcome. What is suspended waits for `next`. -/
def evaluate (inUse : List Ref) :
    Activity → Frame → Continuation σ → Receiver σ ρ → World σ → ρ
  | .defineService name body, frame, next, k, w =>
    let (store, id) := w.store.newService name (some frame.scope)
    let inner := frame.inside id ⟨w.store.scopes.size⟩
    let w := { w with store := store.bind frame.scope name (.service id) }
    steps inUse body inner .unit (.service id next)
      (fun w outcome held =>
        match outcome with
        | .success value => k w (.success (.service id)) (value.refs ++ held)
        | .failure cause => k w (.failure cause) (.service id :: held)) w
  | .sequence body, frame, next, k, w => steps inUse body frame .unit next k w
  | .retry body limit delay, frame, next, k, w =>
    match Time.checkDelay delay.base, RetryState.start limit delay with
    | .error e, _ => answers.stopped w (.error (.scheduling e))
    | .ok (), .error e => answers.stopped w (.error (.program e))
    | .ok (), .ok state =>
      let state := state.begin
      evaluate inUse body frame (.retry state body frame next)
        (fun w outcome held =>
          answers.of k (w.afterAttempt state body frame next held outcome)) w
  | .ignoreError body, frame, next, k, w =>
    evaluate inUse body frame (.ignore next)
      (fun w outcome held =>
        match outcome with
        | .success value => k w (.success value) held
        | .failure _ => k w (.success .unit) held) w
  | .defineOperation name body, frame, _, k, w => answers.of k (w.defineOperation name body frame)
  | .defineClient name period body, frame, _, k, w =>
    answers.of k (w.defineClient name period body frame)
  | .trigger target operation, frame, next, k, w =>
    answers.of k (w.trigger inUse target operation frame next)
  | .query target operation timeout, frame, next, k, w =>
    answers.of k (w.query inUse target operation timeout frame next)
  | .think duration, _, next, k, w => answers.of k (w.suspend duration .think (.wake next))
  | .fail, _, _, k, w => k w (.failure .injected) []
where
  -- Takes the steps of a sequence: each of them continues with the rest.
  steps (inUse : List Ref) :
      List Activity → Frame → Value → Continuation σ → Receiver σ ρ → World σ → ρ
    | [], frame, last, _, k, w => k w (.success last) frame.refs
    | step :: rest, frame, last, next, k, w =>
      evaluate inUse step frame (.steps rest frame next)
        (fun w outcome _ =>
          match outcome with
          | .success value => steps inUse rest frame value next k w
          | .failure cause => k w (.failure cause) (frame.refs ++ last.refs)) w

-- Both proofs follow the recursion of the evaluation.
mutual

/-- The plain definition answers as the result of the evaluation says. -/
theorem evaluate_plain (inUse : List Ref) (activity : Activity) (frame : Frame)
    (next : Continuation σ) (k : Receiver σ ρ) (w : World σ) :
    evaluate answers inUse activity frame next k w =
      answers.of k (World.evaluate inUse activity frame next w) := by
  cases activity with
  | defineService name body =>
    rw [evaluate, World.evaluate]
    simp only [steps_plain]
    generalize World.evaluate.evaluateSteps _ _ _ _ _ _ = e
    rcases e with ⟨v, _ | _ | ⟨_ | _, held⟩⟩ <;> rfl
  | sequence body =>
    rw [evaluate, World.evaluate]
    exact steps_plain inUse body frame .unit next k w
  | retry body limit delay =>
    rw [evaluate, World.evaluate]
    cases Time.checkDelay delay.base with
    | error e => rfl
    | ok _ =>
      cases RetryState.start limit delay with
      | error e => rfl
      | ok state =>
        simp only [evaluate_plain]
        generalize World.evaluate _ _ _ _ _ = e
        rcases e with ⟨v, _ | _ | ⟨outcome, held⟩⟩ <;> rfl
  | ignoreError body =>
    rw [evaluate, World.evaluate]
    simp only [evaluate_plain]
    generalize World.evaluate _ _ _ _ _ = e
    rcases e with ⟨v, _ | _ | ⟨_ | _, held⟩⟩ <;> rfl
  | fail =>
    rw [evaluate, World.evaluate]
    rfl
  | _ => rw [evaluate, World.evaluate]

/-- The same of the steps of a sequence. -/
theorem steps_plain (inUse : List Ref) (body : List Activity) (frame : Frame) (last : Value)
    (next : Continuation σ) (k : Receiver σ ρ) (w : World σ) :
    evaluate.steps answers inUse body frame last next k w =
      answers.of k (World.evaluate.evaluateSteps inUse body frame last next w) := by
  cases body with
  | nil =>
    rw [evaluate.steps, World.evaluate.evaluateSteps]
    rfl
  | cons step rest =>
    rw [evaluate.steps, World.evaluate.evaluateSteps, evaluate_plain]
    generalize World.evaluate inUse step frame (.steps rest frame next) w = e
    rcases e with ⟨v, _ | _ | ⟨value | cause, held⟩⟩
    · rfl
    · rfl
    · -- The step has succeeded, and its continuation evaluates the rest.
      exact steps_plain inUse rest frame value next k v
    · rfl

end

end Plain
end Callflow
