import Callflow.Machine.Step

/-!
# Running host code to its end

`World.perform` executes a piece of host code from an idle world, with everything that it sets off,
and gives the world that it leaves behind. A program may keep a simulation busy at one instant for
ever, so the number of transitions is bounded.
-/

namespace Callflow

/-- How host code ended. -/
inductive Ending where
  | returned (result : Except SimulationError Unit)
  | crashed (cause : SchedulingError)
  -- The transitions did not suffice.
  | unfinished

namespace Machine

variable {σ : Type}

/-- At most `fuel` transitions. -/
def run : Nat → Machine σ → Machine σ
  | 0, m => m
  | fuel + 1, m =>
    match m.step with
    | some m => run fuel m
    | none => m

/-- How a machine ended, if it did. -/
def ending (m : Machine σ) : Ending :=
  match m.focus, m.stack with
  | .back result, [] => .returned result
  | .crash cause, [] => .crashed cause
  | _, _ => .unfinished

end Machine

namespace World

variable {σ : Type}

/-- Executes host code with at most `fuel` transitions. -/
def perform (fuel : Nat) (w : World σ) (script : Script σ) : World σ × Ending :=
  let m := Machine.run fuel ⟨w, [], .code script⟩
  (m.world, m.ending)

end World
end Callflow
