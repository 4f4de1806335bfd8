import Callflow.Proofs.World.Parking
import Callflow.Proofs.World.Parts

/-!
# One attempt of a retry

A `Trial` is the evaluation of a retry in some world. Its first attempt is made as all others are
(`Trial.result_eq`), and what follows an attempt depends on its outcome and on its number only
(`Trial.concludes`): a success is handed on, and so is the failure of the last attempt that is
allowed; after any other failure nothing but the event of the next attempt is left.
-/

namespace Callflow

variable {σ : Type}

/-- The evaluation of a retry. -/
structure Trial (σ : Type) where
  world : World σ
  inUse : List Ref
  frame : Frame
  next : Continuation σ
  body : Activity
  limit : Nat
  delay : Delay

namespace Trial

variable {t : Trial σ}

/-- The retry, as a part of an evaluation. -/
def part (t : Trial σ) : Part σ :=
  ⟨t.world, t.inUse, .retry t.body t.limit t.delay, t.frame, t.next⟩

/-- The state of the retry when some attempts have been made. -/
def state (t : Trial σ) (made : Nat) : RetryState := ⟨made, t.limit, t.delay⟩

/-- The continuation that the body is evaluated with in one of the attempts. -/
def point (t : Trial σ) (number : Nat) : Continuation σ :=
  .retry (t.state number) t.body t.frame t.next

/-- The body of an attempt. -/
def bodyOf (t : Trial σ) (number : Nat) (inUse : List Ref) (w : World σ) : Evaluation σ :=
  World.evaluate inUse t.body t.frame (t.point number) w

/-- The attempt that is made after some others, with what follows it at once. -/
def launch (t : Trial σ) (made : Nat) (inUse : List Ref) (w : World σ) : Evaluation σ :=
  World.attempt inUse (t.state made) t.body t.frame t.next w

/-- What follows an attempt. -/
def after (t : Trial σ) (number : Nat) (held : List Ref) (outcome : Outcome) (w : World σ) :
    Evaluation σ :=
  w.afterAttempt (t.state number) t.body t.frame t.next held outcome

/-- At least one attempt is allowed, and all waits between attempts are valid. -/
structure Valid (t : Trial σ) : Prop where
  allowed : 1 ≤ t.limit
  base : Time.checkDelay t.delay.base = .ok ()
  waits : ∀ i, 1 ≤ i → i < t.limit → Time.checkDelay (t.delay.waitAfter i) = .ok ()

/-- What has been checked before the first attempt is enough for it to be made. -/
theorem result_of_accepted (hallowed : 1 ≤ t.limit) (hbase : Time.checkDelay t.delay.base = .ok ()) :
    t.part.result = t.launch 0 t.inUse t.world := by
  have hstart : RetryState.start t.limit t.delay = .ok (t.state 0) := by
    rw [RetryState.start, if_neg (by omega)]
    rfl
  rw [Part.result, part, World.evaluate, hbase, hstart]
  rfl

theorem result_eq (h : t.Valid) : t.part.result = t.launch 0 t.inUse t.world :=
  result_of_accepted h.allowed h.base

theorem launch_of_resolved {made : Nat} {inUse held : List Ref} {w v : World σ}
    {outcome : Outcome} (h : t.bodyOf (made + 1) inUse w = (v, .ok (.resolved outcome held))) :
    t.launch made inUse w = t.after (made + 1) held outcome v := by
  have hbody : World.evaluate inUse t.body t.frame (.retry (t.state made).begin t.body t.frame t.next)
      w = (v, .ok (.resolved outcome held)) := h
  unfold launch World.attempt
  simp only [hbody]
  rfl

theorem launch_of_unresolved {made : Nat} {inUse : List Ref} {w : World σ}
    (h : ¬ World.Resolved (t.bodyOf (made + 1) inUse w).2) :
    t.launch made inUse w = t.bodyOf (made + 1) inUse w := by
  unfold launch World.attempt
  dsimp only
  split
  · rename_i v outcome held hv
    have hbody : t.bodyOf (made + 1) inUse w = (v, .ok (.resolved outcome held)) := hv
    rw [hbody] at h
    exact absurd trivial h
  · rfl

/-- After a failure that is not the last one, only the wait is left. -/
theorem after_of_lt {number : Nat} (h : number < t.limit) (held : List Ref) (cause : Failure)
    (w : World σ) : t.after number held (.failure cause) w =
      w.suspend (t.delay.waitAfter number) .retry
        (.attempt (t.state number) t.body t.frame t.next) := by
  have hexhausted : (t.state number).exhausted = false := decide_eq_false (Nat.not_le.2 h)
  simp only [after, World.afterAttempt, hexhausted]
  rfl

/-- How the evaluation goes on after an attempt with this number and this outcome. -/
inductive Concludes (t : Trial σ) (w : World σ) (number : Nat) : Outcome → Evaluation σ → Prop where
  | success {value : Value} {held : List Ref} :
      Concludes t w number (.success value) (w, .ok (.resolved (.success value) held))
  | exhausted {cause : Failure} {held : List Ref} : number = t.limit →
      Concludes t w number (.failure cause)
        (w, .ok (.resolved (.failure (.exhausted t.limit)) held))
  | again {cause : Failure} {v : World σ} {e : Event (Callback σ)} : number < t.limit →
      e.work = .attempt (t.state number) t.body t.frame t.next →
      e.time = w.now + t.delay.waitAfter number → e ∈ v.agenda.pending →
      w.parked? v = some (.event e) → Concludes t w number (.failure cause) (v, .ok .suspended)

theorem concludes (h : t.Valid) {w : World σ} (hw : w.agenda.Sound) {number : Nat}
    (hfirst : 1 ≤ number) (hlimit : number ≤ t.limit) (held : List Ref) (outcome : Outcome) :
    t.Concludes w number outcome (t.after number held outcome w) := by
  cases outcome with
  | success value => exact .success
  | failure cause =>
    by_cases hlast : number = t.limit
    · have hexhausted : (t.state number).exhausted = true := by
        simp [RetryState.exhausted, state, hlast]
      have hafter : t.after number held (.failure cause) w =
          (w, .ok (.resolved (.failure (.exhausted number)) (held ++ t.frame.refs))) := by
        simp only [after, World.afterAttempt, hexhausted, if_true]
        rfl
      rw [hafter, hlast]
      exact .exhausted rfl
    · have hless : number < t.limit := lt_of_le_of_ne hlimit hlast
      have hwait : Time.checkDelay (t.delay.waitAfter number) = .ok () := h.waits number hfirst hless
      rcases World.schedule_of_checkDelay w .retry
        (.attempt (t.state number) t.body t.frame t.next) hwait with ⟨v, event, hs⟩
      have hafter : t.after number held (.failure cause) w = (v, .ok .suspended) := by
        rw [after_of_lt hless, World.suspend, hs]
      have hparked := World.Parked.afterAttempt w (t.state number) t.body t.frame t.next held
        (.failure cause)
      rw [← after, hafter] at hparked
      rw [hafter]
      -- Nothing but the event has been added.
      rcases Option.isSome_iff_exists.1 (hparked.leaves rfl).parked? with ⟨spot, hspot⟩
      rcases hparked.parks.parked? hw hspot with ⟨k, hkeeps, hlacks, -⟩
      rcases World.schedule_eq_ok hs with ⟨agenda, hagenda, rfl, -⟩
      rcases Agenda.schedule_eq_ok hagenda with ⟨-, rfl⟩
      cases hkeeps with
      | @event e _ hmem _ =>
        rcases Agenda.mem_insert.1 hmem with rfl | hold
        · exact .again hless rfl rfl hmem hspot
        · exact absurd (hw.numbered e hold) (Nat.not_lt.2 hlacks)
      | request hwaiting => exact absurd (World.waiting?_lt hwaiting) (Nat.not_lt.2 hlacks)

end Trial
end Callflow
