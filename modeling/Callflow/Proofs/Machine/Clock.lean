import Callflow.Proofs.Agenda.Fifo
import Callflow.Proofs.Machine.Calls
import Callflow.Proofs.Machine.Horizon

/-!
# What moves the clock

A transition moves the clock to the event that it takes, and a run that returns moves it to its
horizon. Nothing else moves it (`step_now`), and it never moves back (`Life.moments`).
-/

namespace Callflow

variable {σ : Type}

namespace World

theorem Quiet.now {w v : World σ} (h : Quiet w v) : v.now = w.now := by
  rcases h with ⟨deeds, hpath, hquiet⟩
  exact (hpath.clock hquiet).1

theorem Course.now {w v : World σ} {calls : List (Call σ)} (h : Course w calls v) :
    v.now = w.now := by
  rcases h.hands.deeds with ⟨deeds, hpath, hquiet, -⟩
  exact (hpath.clock hquiet).1

theorem Still.now {w v : World σ} (h : Still w v) : v.now = w.now := by
  rcases h.deeds with ⟨deeds, hpath, hstill⟩
  exact (hpath.clock fun d hd => Deed.isQuiet_of_isStill (hstill d hd)).1

theorem now_of_schedule {w v : World σ} {delay : Time} {kind : EventKind} {work : Callback σ}
    {event : EventId} (h : w.schedule delay kind work = .ok (v, event)) : v.now = w.now := by
  rcases schedule_eq_ok h with ⟨agenda, hagenda, rfl, -⟩
  rcases Agenda.schedule_eq_ok hagenda with ⟨-, rfl⟩
  rfl

end World

namespace Machine

theorem now_reply (w : World σ) (stack : List (Activation σ)) (request : RequestId)
    (failure : Option Failure) : (reply w stack request failure).world.now = w.now := by
  rw [reply_world]
  exact World.settle_now ..

theorem now_execScript (w : World σ) (stack : List (Activation σ)) (script : Script σ) :
    (execScript w stack script).world.now = w.now := by
  cases script with
  | evaluate activity caller resume next => exact (evaluate_course ..).now
  | execute id op resume next =>
    simp only [execScript]
    split
    · rfl
    · exact (execute_course ..).now
  | process request target next => exact (process_course ..).now
  | reply request failure next => exact now_reply ..
  | schedule delay kind callback next =>
    simp only [execScript]
    split
    · rename_i v id hs
      exact World.now_of_schedule hs
    · rfl
  | replyAfter delay request failure next =>
    simp only [execScript]
    split
    · rename_i v id hs
      exact World.now_of_schedule hs
    · rfl
  | send request target next =>
    have hsent := World.now_send w request target
    simp only [execScript]
    split
    · rename_i v hs
      rw [hs] at hsent
      exact hsent
    · rename_i v cause hs
      rw [hs] at hsent
      exact hsent
  | _ => rfl

theorem now_resume (w : World σ) (stack : List (Activation σ)) (next : Continuation σ)
    (outcome : Outcome) : (resume w stack next outcome).world.now = w.now := by
  cases next with
  | host code => rfl
  | reply request => cases outcome <;> exact now_reply ..
  | complete client => exact (complete_still ..).now
  | steps rest frame next =>
    cases outcome with
    | success value =>
      rw [resume, proceed_world]
      exact (World.evaluateSteps_course ..).now
    | failure cause => rfl
  | service id next => cases outcome <;> rfl
  | ignore next => cases outcome <;> rfl
  | retry state body frame next =>
    rw [resume, proceed_world]
    exact (World.afterAttempt_still ..).now

theorem now_dispatch (w : World σ) (stack : List (Activation σ)) (work : Callback σ) :
    (dispatch w stack work).world.now = w.now := by
  cases work with
  | host code => rfl
  | deliver request target => exact (process_course ..).now
  | expire request deadline =>
    simp only [dispatch]
    split
    · split
      · exact now_reply ..
      · rfl
    · rfl
  | wake next => rfl
  | attempt state body frame next =>
    rw [dispatch, proceed_world]
    exact (World.course_attempt (World.evaluate_course ..)).now
  | fire client scope => exact (fire_course ..).now
  | reply request failure => exact now_reply ..

/-- The clock shows the moment of a transition when it is over, unless a run returns in it. -/
theorem step_now {m n : Machine σ} (h : m.step = some n)
    (hrun : ∀ horizon count next stack, ¬ m.Returning horizon count next stack) :
    n.world.now = m.moment := by
  rcases m with ⟨w, stack, focus⟩
  cases focus with
  | code script =>
    cases h
    exact now_execScript w stack script
  | resume next outcome =>
    cases h
    exact now_resume w stack next outcome
  | crash cause =>
    cases stack with
    | nil => cases h
    | cons caller stack =>
      cases h
      cases caller <;> rfl
  | back result =>
    cases stack with
    | nil => cases h
    | cons caller stack =>
      cases h
      cases caller with
      | hold refs => cases result <;> rfl
      | await next => cases result <;> rfl
      | shield next => cases result <;> rfl
      | successHook client hook => cases result <;> exact (restoreSuccess_still ..).now
      | failureHook client hook => cases result <;> exact (restoreFailure_still ..).now
      | run horizon count next =>
        cases result with
        | error e => rfl
        | ok _ =>
          cases hturn : turn? ⟨w, .run horizon count next :: stack, .back (.ok ())⟩ with
          | none => exact absurd ⟨rfl, rfl, hturn⟩ (hrun horizon count next stack)
          | some t =>
            rcases turn?_spec hturn with ⟨htaking, hstep⟩
            rw [Machine.step, Option.some_inj] at hstep
            rw [hstep, now_dispatch, htaking.moment]

/-! ## Moments -/

variable {b c : Machine σ}

theorem isReading_moment (hb : b.world.Sound) : b.moment.IsReading := by
  unfold moment
  cases htaken : b.taken? with
  | none => exact hb.agenda.clock
  | some e => exact hb.agenda.reading e (taken?_spec htaken).1

theorem now_le_moment (hb : b.world.Sound) : b.world.now.place ≤ b.moment.place := by
  unfold moment
  cases htaken : b.taken? with
  | none => exact le_rfl
  | some e => exact hb.agenda.due e (taken?_spec htaken).1

theorem Next.moment_le (h : Next b c) (hb : b.world.Sound) :
    b.moment.place ≤ c.world.now.place := by
  rcases h.explains with ⟨deeds, hpath, hexplains⟩
  unfold moment
  cases htaken : b.taken? with
  | none => exact (hpath.agenda.place_le hb.agenda).2
  | some e =>
    refine hpath.agenda.taken_le hb.agenda e ?_
    rw [World.takes_agenda, hexplains.taken, htaken]
    exact List.mem_singleton.2 rfl

/-- The moments of a life are in order. -/
theorem Life.moments {past : List (Machine σ)} (h : Life b past c) (hb : b.world.Sound) :
    ∀ x ∈ past, b.moment.place ≤ x.moment.place := by
  intro x hx
  rcases List.append_of_mem hx with ⟨before, after, rfl⟩
  cases before with
  | nil =>
    rcases h.first with ⟨rfl, -⟩
    exact le_rfl
  | cons first before =>
    rcases h.cut with ⟨hbefore, -⟩
    rcases hbefore.first with ⟨rfl, y, hy, hrest⟩
    have hysound := (Life.refl.next hy).sound hb
    exact (hy.moment_le hb).trans ((hrest.place_le hysound).trans
      (now_le_moment (hrest.sound hysound)))

end Machine
end Callflow
