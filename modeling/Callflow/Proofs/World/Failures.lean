import Callflow.Proofs.World.Evaluation

/-!
# How an evaluation fails

An activity that fails without time passing fails on purpose or gives up a retry. It never has missed
a deadline (`evaluate_prompt`): only the reply to a request can say so.
-/

namespace Callflow

/-- Whether an outcome is a missed deadline, and which one. -/
def Outcome.missed? : Outcome → Option Time
  | .failure (.timedOut deadline) => some deadline
  | _ => none

namespace World

variable {σ : Type}

/-- Not the result of an evaluation that has resolved to a missed deadline. -/
def Prompt : Except Stop Progress → Prop
  | .ok (.resolved outcome _) => outcome.missed? = none
  | _ => True

theorem suspend_prompt (w : World σ) (delay : Time) (kind : EventKind) (work : Callback σ) :
    Prompt (w.suspend delay kind work).2 := by
  unfold suspend
  split <;> trivial

theorem defineOperation_prompt (w : World σ) (name : String) (body : Activity) (frame : Frame) :
    Prompt (w.defineOperation name body frame).2 := by
  unfold defineOperation
  split
  · trivial
  · rfl

theorem defineClient_prompt (w : World σ) (name : String) (period : Time) (body : Activity)
    (frame : Frame) : Prompt (w.defineClient name period body frame).2 := by
  unfold defineClient
  split
  · trivial
  · dsimp only
    split
    · rfl
    · trivial

theorem trigger_prompt (w : World σ) (inUse : List Ref) (name operation : String) (frame : Frame)
    (next : Continuation σ) : Prompt (w.trigger inUse name operation frame next).2 := by
  unfold trigger
  split
  · trivial
  · dsimp only
    split
    · trivial
    · rfl

/-- However a query ends, it does not resolve. -/
theorem query_prompt (w : World σ) (inUse : List Ref) (name operation : String)
    (timeout : Option Time) (frame : Frame) (next : Continuation σ) :
    Prompt (w.query inUse name operation timeout frame next).2 := by
  generalize hquery : w.query inUse name operation timeout frame next = e
  rcases e with ⟨u, result⟩
  rcases query_cases hquery with
    ⟨_, rfl, _⟩ | ⟨_, _, rfl, _⟩ | ⟨_, _, rfl, _⟩ | ⟨_, _, _, _, _, rfl, _⟩ <;> trivial

theorem afterAttempt_prompt (w : World σ) (state : RetryState) (body : Activity) (frame : Frame)
    (next : Continuation σ) (held : List Ref) (outcome : Outcome) :
    Prompt (w.afterAttempt state body frame next held outcome).2 := by
  cases outcome with
  | success value => rfl
  | failure cause =>
    by_cases hexhausted : state.exhausted = true
    · simp only [afterAttempt, hexhausted, if_true]
      rfl
    · simp only [afterAttempt, if_neg hexhausted]
      exact suspend_prompt ..

/-- One more attempt of a retry. -/
theorem attempt_prompt {w : World σ} {inUse : List Ref} {state : RetryState} {body : Activity}
    {frame : Frame} {next : Continuation σ}
    (h : Prompt (evaluate inUse body frame (.retry state.begin body frame next) w).2) :
    Prompt (attempt inUse state body frame next w).2 := by
  unfold attempt
  dsimp only
  split
  · exact afterAttempt_prompt ..
  · exact h

-- Both proofs follow the recursion of the evaluation.
mutual

theorem evaluate_prompt (inUse : List Ref) (activity : Activity) (frame : Frame)
    (next : Continuation σ) (w : World σ) : Prompt (evaluate inUse activity frame next w).2 := by
  cases activity with
  | defineService name body =>
    rw [evaluate]
    dsimp only
    have hbody := evaluateSteps_prompt inUse body
      (frame.inside (w.store.newService name (some frame.scope)).2 ⟨w.store.scopes.size⟩) .unit
      (.service (w.store.newService name (some frame.scope)).2 next)
      { w with
        store := ((w.store.newService name (some frame.scope)).1).bind frame.scope name
          (.service (w.store.newService name (some frame.scope)).2) }
    split
    · rfl
    · rename_i v cause held hv
      rw [hv] at hbody
      exact hbody
    · exact hbody
  | defineOperation name body => exact defineOperation_prompt w name body frame
  | defineClient name period body => exact defineClient_prompt w name period body frame
  | trigger target operation => exact trigger_prompt w inUse target operation frame next
  | query target operation timeout => exact query_prompt w inUse target operation timeout frame next
  | sequence steps => exact evaluateSteps_prompt inUse steps frame .unit next w
  | think duration => exact suspend_prompt ..
  | retry body limit delay =>
    rw [evaluate]
    cases Time.checkDelay delay.base with
    | error e => trivial
    | ok _ =>
      cases RetryState.start limit delay with
      | error e => trivial
      | ok state => exact attempt_prompt (evaluate_prompt ..)
  | ignoreError body =>
    have hbody := evaluate_prompt inUse body frame (.ignore next) w
    rw [evaluate]
    split
    · rfl
    · exact hbody
  | fail => rfl

theorem evaluateSteps_prompt (inUse : List Ref) (steps : List Activity) (frame : Frame)
    (last : Value) (next : Continuation σ) (w : World σ) :
    Prompt (evaluate.evaluateSteps inUse steps frame last next w).2 := by
  cases steps with
  | nil => rfl
  | cons step rest =>
    have hstep := evaluate_prompt inUse step frame (.steps rest frame next) w
    rw [evaluate.evaluateSteps]
    split
    · exact evaluateSteps_prompt ..
    · rename_i v cause held hv
      rw [hv] at hstep
      exact hstep
    · exact hstep

end

end World
end Callflow
