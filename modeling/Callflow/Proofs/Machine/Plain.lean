import Callflow.Machine.Run
import Callflow.Proofs.World.Handoff
import Callflow.Proofs.World.Stock

/-!
# Sequences by plain continuation passing

What a machine does with a continuation that has waited is what the plain definition does, down to
the end of the continuation: `Machine.apply` is the plain meaning of a continuation, in which the
steps that remain of a sequence are evaluated directly, and a machine comes to it by handing
outcomes on (`Arrives`). `sequence_plain` says what this means for a sequence.
-/

namespace Callflow

variable {σ : Type}

/-- Whether an outcome is handed on next. -/
def Focus.resumes : Focus σ → Bool
  | .resume _ _ => true
  | _ => false

namespace Machine

/-- The machines that follow an evaluation that hands no outcome on. -/
def answers (stack : List (Activation σ)) : Answers σ (Machine σ) where
  suspended w := ⟨w, stack, .back (.ok ())⟩
  stopped w
    | .error e => ⟨w, stack, .back (.error e)⟩
    | .crash e => ⟨w, stack, .crash e⟩

/-- The plain meaning of a continuation: the machine that is at the end of it, or that has gone on
before because the outcome has not come so far. -/
def apply : Continuation σ → List (Activation σ) → World σ → Outcome → Machine σ
  | .steps rest frame next, stack, w, .success value =>
    Plain.evaluate.steps (answers stack) (inUse stack) rest frame value next
      (fun w outcome held => apply next (.hold held :: stack) w outcome) w
  | .steps _ frame next, stack, w, .failure cause =>
    apply next (.hold frame.refs :: stack) w (.failure cause)
  | .service id next, stack, w, .success value =>
    apply next (.hold value.refs :: stack) w (.success (.service id))
  | .service id next, stack, w, .failure cause =>
    apply next (.hold [.service id] :: stack) w (.failure cause)
  | .ignore next, stack, w, .success value => apply next stack w (.success value)
  | .ignore next, stack, w, .failure _ => apply next stack w (.success .unit)
  | .retry state body frame next, stack, w, outcome =>
    (answers stack).of (fun w outcome held => apply next (.hold held :: stack) w outcome)
      (w.afterAttempt state body frame next [] outcome)
  | .host code, stack, w, outcome => ⟨w, stack, .resume (.host code) outcome⟩
  | .reply request, stack, w, outcome => ⟨w, stack, .resume (.reply request) outcome⟩
  | .complete client, stack, w, outcome => ⟨w, stack, .resume (.complete client) outcome⟩

/-- A machine comes to another one by handing outcomes on, and by nothing else. -/
inductive Arrives : Machine σ → Machine σ → Prop where
  | refl (m : Machine σ) : Arrives m m
  | step {m n x : Machine σ} : m.focus.resumes = true → m.step = some n → Arrives n x →
      Arrives m x

/-- What follows an evaluation, if every continuation does what it means. -/
theorem arrives_proceed {next : Continuation σ} (stack : List (Activation σ)) (e : Evaluation σ)
    (h : ∀ stack w outcome, Arrives ⟨w, stack, .resume next outcome⟩ (apply next stack w outcome)) :
    Arrives (proceed stack next e)
      ((answers stack).of (fun w outcome held => apply next (.hold held :: stack) w outcome)
        e) := by
  rcases e with ⟨v, (_ | _) | _ | ⟨outcome, held⟩⟩
  · exact .refl _
  · exact .refl _
  · exact .refl _
  · exact h (.hold held :: stack) v outcome

/-- A machine that hands an outcome to a continuation comes to what the continuation means. -/
theorem arrives_apply (next : Continuation σ) (stack : List (Activation σ)) (w : World σ)
    (outcome : Outcome) :
    Arrives ⟨w, stack, .resume next outcome⟩ (apply next stack w outcome) := by
  induction next generalizing stack w outcome with
  | host code => exact .refl _
  | reply request => exact .refl _
  | complete client => exact .refl _
  | steps rest frame next ih =>
    cases outcome with
    | success value =>
      rw [apply, Plain.steps_plain]
      exact .step rfl rfl (arrives_proceed stack _ ih)
    | failure cause => exact .step rfl rfl (ih ..)
  | service id next ih => cases outcome <;> exact .step rfl rfl (ih ..)
  | ignore next ih => cases outcome <;> exact .step rfl rfl (ih ..)
  | retry state body frame next ih => exact .step rfl rfl (arrives_proceed stack _ ih)

/-- The steps of a sequence, taken one by one from any world, whether they resolve at once or not,
compared with the plain definition, in which the continuation of each step directly evaluates the
rest:

* what the plain definition gives is made of the result of the sequence, whatever is made of it: the
  final continuation is called with the same outcome in the same world, or it is not called, and the
  world and the reason to stop are the same;
* so it is with a loop that shares a cell with each step, under any final continuation; and a step
  that the loop has left suspended goes on by itself when it resolves;
* a machine that goes on after the sequence comes to what the plain definition gives when its final
  continuation does what the machine's one means, and handing an outcome to any continuation that
  has waited comes to what that one means;
* the final continuation is used once: where the sequence has resolved, nothing that goes on to it
  has been left behind, and where it is suspended, just one continuation has. -/
theorem sequence_plain (body : List Activity) (frame : Frame) (last : Value)
    (next : Continuation σ) (w : World σ) :
    (∀ (inUse : List Ref) {ρ : Type} (answers : Answers σ ρ) (k : Receiver σ ρ),
      Plain.evaluate.steps answers inUse body frame last next k w =
        answers.of k (World.evaluate.evaluateSteps inUse body frame last next w)) ∧
    (∀ (inUse : List Ref) (k : Receiver σ (World σ × Except Stop Unit)) (cells : List Cell), ∃ new,
      Handoff.evaluate.steps inUse body frame last next (Handoff.lift k) (w, cells) =
        (((Plain.evaluate.steps .returning inUse body frame last next k w).1, cells ++ new),
          (Plain.evaluate.steps .returning inUse body frame last next k w).2) ∧
      ((Plain.evaluate.steps .returning inUse body frame last next k w).2 = .ok () →
        ∀ i, cells.length ≤ i → i < (cells ++ new).length → ∀ later goOn outcome held (v : World σ),
          Handoff.receive i goOn outcome held (v, cells ++ new ++ later) =
            goOn outcome held (v, cells ++ new ++ later))) ∧
    (∀ stack : List (Activation σ),
      Arrives
        (proceed stack next
          (World.evaluate.evaluateSteps (inUse stack) body frame last next w))
        (Plain.evaluate.steps (answers stack) (inUse stack) body frame last next
          (fun w outcome held => apply next (.hold held :: stack) w outcome) w)) ∧
    (∀ (waiting : Continuation σ) (stack : List (Activation σ)) (outcome : Outcome),
      Arrives ⟨w, stack, .resume waiting outcome⟩ (apply waiting stack w outcome)) ∧
    (∀ (inUse : List Ref) (p : Continuation σ → Bool),
      World.Left p next w (World.evaluate.evaluateSteps inUse body frame last next w)) := by
  refine ⟨?_, ?_, ?_, ?_, ?_⟩
  · intro inUse ρ answers k
    exact Plain.steps_plain answers inUse body frame last next k w
  · intro inUse k cells
    exact Handoff.steps_eq_plain inUse body frame last next k w cells
  · intro stack
    rw [Plain.steps_plain]
    exact arrives_proceed stack _ (arrives_apply next)
  · intro waiting stack outcome
    exact arrives_apply waiting stack w outcome
  · intro inUse p
    exact World.evaluateSteps_left p inUse body frame last next w

end Machine
end Callflow
