import Callflow.Proofs.Machine.Life

/-!
# Nobody looks at the callers

What a machine does next depends on its callers only by what they hold, until it returns to one of
them: it puts new ones above them and leaves them alone (`Uniform`).
-/

namespace Callflow
namespace Machine

variable {σ : Type}

/-- A machine above some callers that only depends on what they hold. -/
structure Uniform (f : List (Activation σ) → Machine σ) : Prop where
  spec : ∀ refs, ∃ w extra focus, ∀ stack, inUse stack = refs → f stack = ⟨w, extra ++ stack, focus⟩

namespace Uniform

theorem same (w : World σ) (focus : Focus σ) : Uniform fun stack => ⟨w, stack, focus⟩ :=
  ⟨fun _ => ⟨w, [], focus, fun _ _ => rfl⟩⟩

/-- A machine above one more caller. -/
theorem push {f : List (Activation σ) → Machine σ} (h : Uniform f) (caller : Activation σ) :
    Uniform fun stack => f (caller :: stack) := by
  refine ⟨fun refs => ?_⟩
  rcases h.spec (caller.refs ++ refs) with ⟨w, extra, focus, heq⟩
  refine ⟨w, extra ++ [caller], focus, ?_⟩
  intro stack hrefs
  have hpushed : inUse (caller :: stack) = caller.refs ++ refs := by
    rw [← hrefs]
    rfl
  rw [heq _ hpushed, List.append_assoc]
  rfl

theorem proceed (next : Continuation σ) (e : List Ref → Evaluation σ) :
    Uniform fun stack => Machine.proceed stack next (e (inUse stack)) := by
  refine ⟨fun refs => ?_⟩
  rcases he : e refs with ⟨w, result⟩
  have heq (stack : List (Activation σ)) (hrefs : inUse stack = refs) :
      Machine.proceed stack next (e (inUse stack)) = Machine.proceed stack next (w, result) := by
    rw [hrefs, he]
  cases result with
  | error cause =>
    cases cause with
    | error e => exact ⟨w, [], .back (.error e), heq⟩
    | crash e => exact ⟨w, [], .crash e, heq⟩
  | ok progress =>
    cases progress with
    | suspended => exact ⟨w, [], .back (.ok ()), heq⟩
    | resolved outcome held => exact ⟨w, [.hold held], .resume next outcome, heq⟩

theorem evaluate (w : World σ) (activity : Activity) (frame : Frame) (next : Continuation σ) :
    Uniform fun stack => Machine.evaluate w stack activity frame next :=
  proceed next fun refs => World.evaluate refs activity frame next w

theorem execute (w : World σ) (scope : ScopeId) (op : Operation) (next : Continuation σ) :
    Uniform fun stack => Machine.execute w stack scope op next :=
  (evaluate _ op.body _ next).push _

theorem reply (w : World σ) (request : RequestId) (failure : Option Failure) :
    Uniform fun stack => Machine.reply w stack request failure := by
  unfold Machine.reply
  split <;> exact same _ _

theorem process (w : World σ) (request : RequestId) (target : Target) :
    Uniform fun stack => Machine.process w stack request target := by
  cases target with
  | endpoint id => exact (same w _).push (.hold [.request request])
  | service id =>
    unfold Machine.process
    dsimp only
    split
    · split
      · exact same _ _
      · exact (execute w _ _ _).push (.hold [.service id])
    · exact same _ _

theorem fire (w : World σ) (id : ClientId) (scope : ScopeId) :
    Uniform fun stack => Machine.fire w stack id scope := by
  unfold Machine.fire
  split
  · exact same _ _
  · dsimp only
    split
    · exact same _ _
    · exact (evaluate _ _ _ _).push (.hold [.scope scope])

theorem complete (w : World σ) (id : ClientId) (outcome : Outcome) :
    Uniform fun stack => Machine.complete w stack id outcome := by
  cases outcome with
  | success value =>
    unfold Machine.complete
    dsimp only
    split
    · exact same _ _
    · rename_i hook _
      exact ((same _ _).push (.successHook id hook)).push (.hold value.refs)
  | failure cause =>
    unfold Machine.complete
    dsimp only
    split
    · exact same _ _
    · rename_i hook _
      exact (same _ _).push (.failureHook id hook)

/-! ## Transitions -/

theorem resume (w : World σ) (next : Continuation σ) (outcome : Outcome) :
    Uniform fun stack => Machine.resume w stack next outcome := by
  cases next with
  | host code => exact same _ _
  | reply request =>
    cases outcome with
    | success value => exact (reply w request none).push (.hold value.refs)
    | failure cause => exact reply w request (some cause)
  | complete client => exact complete w client outcome
  | steps rest frame next =>
    cases outcome with
    | success value =>
      exact proceed next fun refs => World.evaluate.evaluateSteps refs rest frame value next w
    | failure cause => exact (same _ _).push (.hold frame.refs)
  | service id next =>
    cases outcome with
    | success value => exact (same _ _).push (.hold value.refs)
    | failure cause => exact (same _ _).push (.hold [.service id])
  | ignore next => cases outcome <;> exact same _ _
  | retry state body frame next =>
    exact proceed next fun _ => w.afterAttempt state body frame next [] outcome

theorem dispatch (w : World σ) (work : Callback σ) :
    Uniform fun stack => Machine.dispatch w stack work := by
  cases work with
  | host code => exact same _ _
  | deliver request target => exact process w request target
  | expire request deadline =>
    unfold Machine.dispatch
    dsimp only
    split
    · split
      · exact reply w request _
      · exact same _ _
    · exact same _ _
  | wake next => exact same _ _
  | attempt state body frame next =>
    exact (proceed next fun refs => World.attempt refs state body frame next w).push
      (.hold frame.refs)
  | fire client scope => exact fire w client scope
  | reply request failure => exact reply w request failure

theorem execScript (w : World σ) (script : Script σ) :
    Uniform fun stack => Machine.execScript w stack script := by
  cases script with
  | shield body next => exact (same _ _).push (.shield next)
  | run horizon next => exact (same _ _).push (.run horizon 0 next)
  | evaluate activity caller resume next => exact (evaluate w _ _ _).push (.await next)
  | execute id op resume next =>
    unfold Machine.execScript
    dsimp only
    split
    · exact same _ _
    · exact ((execute w _ _ _).push (.hold [.service id])).push (.await next)
  | schedule delay kind callback next =>
    unfold Machine.execScript
    dsimp only
    split <;> exact same _ _
  | replyAfter delay request failure next =>
    unfold Machine.execScript
    dsimp only
    split <;> exact same _ _
  | send request target next =>
    unfold Machine.execScript
    dsimp only
    split <;> exact same _ _
  | process request target next => exact (process w request target).push (.await next)
  | reply request failure next => exact (reply w request failure).push (.await next)
  | _ => exact same _ _

/-- A run takes its next event, or returns. -/
theorem continueRun (w : World σ) (horizon : Time) (count : Nat)
    (next : Except SimulationError Nat → Script σ) :
    Uniform fun stack => Machine.continueRun w stack horizon count next := by
  unfold Machine.continueRun
  split
  · exact same _ _
  · split
    · exact same _ _
    · exact (dispatch _ _).push (.run horizon (count + 1) next)

/-- Returning to a caller has nothing to do with those below. -/
theorem back (w : World σ) (result : Except SimulationError Unit) (caller : Activation σ) :
    Uniform fun stack => Machine.back w stack result caller := by
  cases caller with
  | run horizon count next =>
    cases result with
    | error e => exact same _ _
    | ok _ => exact continueRun w horizon count next
  | _ => exact same _ _

theorem unwind (w : World σ) (cause : SchedulingError) (caller : Activation σ) :
    Uniform fun stack => Machine.unwind w stack cause caller := by
  cases caller <;> exact same _ _

end Uniform
end Machine
end Callflow
