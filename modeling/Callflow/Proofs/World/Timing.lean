import Callflow.Proofs.World.Evaluation
import Callflow.Proofs.World.Timeouts

/-!
# When an activity ends

An activity that neither calls nor defines anything, with valid durations and waits, is `Timed`: when
it ends, and how, depends on the time at which it starts and on nothing else. `Activity.meaning` says
so by recursion over the activity, without an agenda.

The evaluator agrees. It resolves such an activity at once, just as its meaning says, and leaves the
world alone; or it leaves an event behind that goes on with the rest of the activity at the right time
(`evaluate_timed`). When that will end is the meaning of its continuation.
-/

namespace Callflow

variable {σ : Type}

/-! ## Activities -/

namespace Activity

/-- An activity that neither calls nor defines anything, in which all durations and waits are valid
and every retry allows an attempt. -/
inductive Timed : Activity → Prop where
  | think {duration : Time} : Time.checkDelay duration = .ok () → Timed (.think duration)
  | fail : Timed .fail
  | sequence {steps : List Activity} : (∀ step ∈ steps, Timed step) → Timed (.sequence steps)
  | ignoreError {body : Activity} : Timed body → Timed (.ignoreError body)
  | retry {body : Activity} {limit : Nat} {delay : Delay} : Timed body → 1 ≤ limit →
      Time.checkDelay delay.base = .ok () →
      (∀ i, 1 ≤ i → i < limit → Time.checkDelay (delay.waitAfter i) = .ok ()) →
      Timed (.retry body limit delay)

/-- Turns a failure into success, at the same time. -/
def ignored : Time × Outcome → Time × Outcome
  | (t, .failure _) => (t, .success .unit)
  | (t, .success value) => (t, .success value)

/-- What an attempt of a retry leads to if `left` more are allowed: success ends the retry, and so does
the last failure; after any other failure the body runs again when the wait is over. -/
def followed (body : Time → Time × Outcome) (limit : Nat) (delay : Delay) :
    Nat → Time × Outcome → Time × Outcome
  | _, (t, .success value) => (t, .success value)
  | 0, (t, .failure _) => (t, .failure (.exhausted limit))
  | left + 1, (t, .failure _) =>
    followed body limit delay left (body (t + delay.waitAfter (limit - (left + 1))))

/-- When an activity that starts at a time ends, and how. It says nothing about activities that call or
define something. -/
def meaning : Activity → Time → Time × Outcome
  | .think duration, t => (t + duration, .success .unit)
  | .fail, t => (t, .failure .injected)
  | .sequence steps, t => continued steps (t, .success .unit)
  | .ignoreError body, t => ignored (meaning body t)
  | .retry body limit delay, t => followed (meaning body) limit delay (limit - 1) (meaning body t)
  | _, t => (t, .success .unit)
where
  -- The rest of a sequence after a step has ended.
  continued : List Activity → Time × Outcome → Time × Outcome
    | step :: rest, (t, .success _) => continued rest (meaning step t)
    | _, done => done

end Activity

@[simp]
theorem Activity.continued_failure (steps : List Activity) (t : Time) (cause : Failure) :
    meaning.continued steps (t, .failure cause) = (t, .failure cause) := by
  cases steps <;> rfl

/-! ## What is left to be done -/

/-- The attempts that a retry still allows are valid. -/
structure RetryState.Timed (state : RetryState) : Prop where
  begun : 1 ≤ state.attempts
  limited : state.attempts ≤ state.limit
  waits : ∀ i, 1 ≤ i → i < state.limit → Time.checkDelay (state.delay.waitAfter i) = .ok ()

/-- What an attempt leads to. -/
def RetryState.followed (state : RetryState) (body : Activity) :
    Time × Outcome → Time × Outcome :=
  Activity.followed body.meaning state.limit state.delay (state.limit - state.attempts)

theorem RetryState.followed_failure {state : RetryState} (h : state.attempts < state.limit)
    (body : Activity) (t : Time) (cause : Failure) :
    state.followed body (t, .failure cause) =
      state.begin.followed body (body.meaning (t + state.nextWait)) := by
  have hleft : state.limit - state.attempts = state.limit - (state.attempts + 1) + 1 := by omega
  have hnumber : state.limit - (state.limit - (state.attempts + 1) + 1) = state.attempts := by omega
  rw [followed, hleft, Activity.followed, hnumber]
  rfl

namespace Continuation

/-- The rest of a timed activity whose outcome is handed to some host code. -/
inductive Timed (resume : Outcome → Script σ) : Continuation σ → Prop where
  | host : Timed resume (.host resume)
  | steps {rest : List Activity} {frame : Frame} {next : Continuation σ} :
      (∀ step ∈ rest, step.Timed) → Timed resume next → Timed resume (.steps rest frame next)
  | ignore {next : Continuation σ} : Timed resume next → Timed resume (.ignore next)
  | retry {state : RetryState} {body : Activity} {frame : Frame} {next : Continuation σ} :
      state.Timed → body.Timed → Timed resume next → Timed resume (.retry state body frame next)

/-- When the rest of an activity ends, and how, from the end of the part before. -/
def meaning : Continuation σ → Time × Outcome → Time × Outcome
  | .steps rest _ next, done => next.meaning (Activity.meaning.continued rest done)
  | .ignore next, done => next.meaning (Activity.ignored done)
  | .retry state body _ next, done => next.meaning (state.followed body done)
  | _, done => done

end Continuation

namespace Callback

/-- A callback that goes on with a timed activity. -/
inductive Timed (resume : Outcome → Script σ) : Callback σ → Prop where
  | wake {next : Continuation σ} : next.Timed resume → Timed resume (.wake next)
  | attempt {state : RetryState} {body : Activity} {frame : Frame} {next : Continuation σ} :
      (Continuation.retry state.begin body frame next).Timed resume →
      Timed resume (.attempt state body frame next)

/-- When the activity that a callback goes on with ends, and how. -/
def meaning : Callback σ → Time → Time × Outcome
  | .wake next, t => next.meaning (t, .success .unit)
  | .attempt state body frame next, t =>
    (Continuation.retry state.begin body frame next).meaning (body.meaning t)
  | _, t => (t, .success .unit)

end Callback

/-! ## Time passes -/

/-- The end of something that starts at a time is not before it. -/
def Time.Precedes (t : Time) (done : Time × Outcome) : Prop :=
  t.place ≤ done.1.place ∧ done.1.IsReading

theorem Time.Precedes.trans {t : Time} {d e : Time × Outcome} (h : t.Precedes d)
    (k : d.1.Precedes e) : t.Precedes e :=
  ⟨h.1.trans k.1, k.2⟩

theorem Time.IsReading.precedes {t : Time} (h : t.IsReading) (outcome : Outcome) :
    t.Precedes (t, outcome) :=
  ⟨le_rfl, h⟩

namespace Activity

theorem precedes_ignored {done : Time × Outcome} (h : done.1.IsReading) :
    done.1.Precedes (ignored done) := by
  rcases done with ⟨t, value | cause⟩
  · exact h.precedes _
  · exact h.precedes _

theorem precedes_followed {body : Time → Time × Outcome} {limit : Nat} {delay : Delay}
    (hbody : ∀ t : Time, t.IsReading → t.Precedes (body t))
    (hwaits : ∀ i, 1 ≤ i → i < limit → Time.checkDelay (delay.waitAfter i) = .ok ()) {left : Nat}
    (hleft : left < limit) {done : Time × Outcome} (h : done.1.IsReading) :
    done.1.Precedes (followed body limit delay left done) := by
  induction left generalizing done with
  | zero =>
    rcases done with ⟨t, value | cause⟩
    · exact h.precedes _
    · exact h.precedes _
  | succ left ih =>
    rcases done with ⟨t, value | cause⟩
    · exact h.precedes _
    · -- The wait and the next attempt only take time.
      have hwait := Time.place_le_add h (hwaits (limit - (left + 1)) (by omega) (by omega))
      have hagain := hbody _ hwait.2
      have hstart : t.Precedes (body (t + delay.waitAfter (limit - (left + 1)))) :=
        ⟨hwait.1.trans hagain.1, hagain.2⟩
      exact hstart.trans (ih (by omega) hagain.2)

theorem precedes_continued {steps : List Activity}
    (h : ∀ step ∈ steps, ∀ t : Time, t.IsReading → t.Precedes (step.meaning t))
    {done : Time × Outcome} (hdone : done.1.IsReading) :
    done.1.Precedes (meaning.continued steps done) := by
  induction steps generalizing done with
  | nil => exact hdone.precedes done.2
  | cons step rest ih =>
    rcases done with ⟨t, value | cause⟩
    · have hstep := h step (by simp) t hdone
      exact hstep.trans (ih (fun s hs => h s (List.mem_cons_of_mem _ hs)) hstep.2)
    · exact hdone.precedes _

/-- A timed activity ends no earlier than it starts. -/
theorem Timed.precedes {activity : Activity} (h : activity.Timed) {t : Time} (ht : t.IsReading) :
    t.Precedes (activity.meaning t) := by
  induction h generalizing t with
  | think hvalid => exact Time.place_le_add ht hvalid
  | fail => exact ht.precedes _
  | sequence _ ih =>
    have hstart : (t, Outcome.success .unit).1.IsReading := ht
    exact precedes_continued (fun step hstep t ht => ih step hstep ht) hstart
  | ignoreError _ ih => exact (ih ht).trans (precedes_ignored (ih ht).2)
  | retry _ hlimit _ hwaits ih =>
    exact (ih ht).trans (precedes_followed (fun t ht => ih ht) hwaits (by omega) (ih ht).2)

end Activity

theorem Continuation.Timed.precedes {resume : Outcome → Script σ} {next : Continuation σ}
    (h : next.Timed resume) {done : Time × Outcome} (hdone : done.1.IsReading) :
    done.1.Precedes (next.meaning done) := by
  induction h generalizing done with
  | host => exact hdone.precedes done.2
  | steps hrest _ ih =>
    have hfirst := Activity.precedes_continued
      (fun step hstep t ht => (hrest step hstep).precedes ht) hdone
    exact hfirst.trans (ih hfirst.2)
  | ignore _ ih =>
    have hfirst := Activity.precedes_ignored hdone
    exact hfirst.trans (ih hfirst.2)
  | @retry state body frame next hstate hbody _ ih =>
    have hbegun := hstate.begun
    have hlimited := hstate.limited
    have hfirst : done.1.Precedes (state.followed body done) :=
      Activity.precedes_followed (fun t ht => hbody.precedes ht) hstate.waits (by omega) hdone
    exact hfirst.trans (ih hfirst.2)

/-- A callback ends the activity no earlier than it is called. -/
theorem Callback.Timed.precedes {resume : Outcome → Script σ} {work : Callback σ}
    (h : work.Timed resume) {t : Time} (ht : t.IsReading) : t.Precedes (work.meaning t) := by
  cases h with
  | wake hnext =>
    have hstart : (t, Outcome.success .unit).1.IsReading := ht
    exact hnext.precedes hstart
  | @attempt state body frame next hretry =>
    have hattempt : t.Precedes (body.meaning t) := by
      cases hretry with
      | retry _ hbody _ => exact hbody.precedes ht
    exact hattempt.trans (hretry.precedes hattempt.2)

/-! ## Evaluations -/

namespace World

/-- An event of the world goes on with a timed activity, which will end like this. -/
def Asleep (resume : Outcome → Script σ) (w : World σ) (done : Time × Outcome) : Prop :=
  ∃ e ∈ w.agenda.pending, e.work.Timed resume ∧ e.work.meaning e.time = done

/-- How a timed activity is evaluated: it resolves at once, which leaves the world alone; or it is
suspended, and an event goes on with it and with its continuation. -/
def Evaluates (resume : Outcome → Script σ) (w : World σ) (next : Continuation σ)
    (done : Time × Outcome) (e : Evaluation σ) : Prop :=
  (∃ outcome held, e = (w, .ok (.resolved outcome held)) ∧ done = (w.now, outcome)) ∨
    ∃ v, e = (v, .ok .suspended) ∧ v.Asleep resume (next.meaning done)

variable {resume : Outcome → Script σ}

theorem suspend_asleep (w : World σ) {delay : Time} (kind : EventKind) {work : Callback σ}
    (hvalid : Time.checkDelay delay = .ok ()) (hwork : work.Timed resume) :
    ∃ v, w.suspend delay kind work = (v, .ok .suspended) ∧
      v.Asleep resume (work.meaning (w.now + delay)) := by
  rcases schedule_of_checkDelay w kind work hvalid with ⟨v, event, hs⟩
  refine ⟨v, by simp only [suspend, hs], ?_⟩
  rcases schedule_eq_ok hs with ⟨agenda, hagenda, rfl, -⟩
  rcases Agenda.schedule_eq_ok hagenda with ⟨-, rfl⟩
  exact ⟨_, Agenda.mem_insert.2 (Or.inl rfl), hwork, rfl⟩

/-- An attempt has ended. -/
theorem afterAttempt_timed {w : World σ} {state : RetryState} {body : Activity} {frame : Frame}
    {next : Continuation σ} {held : List Ref} {outcome : Outcome} (hstate : state.Timed)
    (hbody : body.Timed) (hnext : next.Timed resume) :
    Evaluates resume w next (state.followed body (w.now, outcome))
      (w.afterAttempt state body frame next held outcome) := by
  have hbegun := hstate.begun
  cases outcome with
  | success value =>
    refine Or.inl ⟨_, _, rfl, ?_⟩
    rw [RetryState.followed, Activity.followed]
  | failure cause =>
    by_cases hexhausted : state.limit ≤ state.attempts
    · -- It was the last one.
      have hall : state.attempts = state.limit := le_antisymm hstate.limited hexhausted
      refine Or.inl ⟨.failure (.exhausted state.attempts), held ++ frame.refs, ?_, ?_⟩
      · simp [afterAttempt, RetryState.exhausted, hexhausted]
      · rw [RetryState.followed, hall, Nat.sub_self, Activity.followed]
    · have hwait : Time.checkDelay state.nextWait = .ok () :=
        hstate.waits state.attempts hbegun (by omega)
      have hmore : state.attempts < state.limit := by omega
      have hbegin : state.begin.Timed := ⟨Nat.le_add_left _ _, hmore, hstate.waits⟩
      have hwork : (Callback.attempt state body frame next).Timed resume :=
        .attempt (.retry hbegin hbody hnext)
      rcases suspend_asleep w .retry hwait hwork with ⟨v, hv, hasleep⟩
      refine Or.inr ⟨v, ?_, ?_⟩
      · simp [afterAttempt, RetryState.exhausted, hexhausted, hv]
      · rw [state.followed_failure hmore]
        exact hasleep

theorem attempt_of_body {w : World σ} {inUse : List Ref} {state : RetryState} {body : Activity}
    {frame : Frame} {next : Continuation σ} (hstate : state.begin.Timed) (hbody : body.Timed)
    (hnext : next.Timed resume)
    (h : Evaluates resume w (.retry state.begin body frame next) (body.meaning w.now)
      (evaluate inUse body frame (.retry state.begin body frame next) w)) :
    Evaluates resume w next (state.begin.followed body (body.meaning w.now))
      (attempt inUse state body frame next w) := by
  unfold attempt
  rcases h with ⟨outcome, held, he, hdone⟩ | ⟨v, he, hasleep⟩
  · simp only [he, hdone]
    exact afterAttempt_timed hstate hbody hnext
  · simp only [he]
    exact Or.inr ⟨v, rfl, hasleep⟩

theorem evaluateSteps_of_each {steps : List Activity} (h : ∀ step ∈ steps, step.Timed)
    (inUse : List Ref) (frame : Frame) (last : Value) {next : Continuation σ}
    (hnext : next.Timed resume) (w : World σ)
    (heach : ∀ step ∈ steps, ∀ later : Continuation σ, later.Timed resume →
      Evaluates resume w later (step.meaning w.now) (evaluate inUse step frame later w)) :
    Evaluates resume w next (Activity.meaning.continued steps (w.now, .success last))
      (evaluate.evaluateSteps inUse steps frame last next w) := by
  induction steps generalizing last with
  | nil => exact Or.inl ⟨_, _, rfl, rfl⟩
  | cons step rest ih =>
    have hrest : ∀ s ∈ rest, s.Timed := fun s hs => h s (List.mem_cons_of_mem _ hs)
    have hgo : Activity.meaning.continued (step :: rest) (w.now, .success last) =
        Activity.meaning.continued rest (step.meaning w.now) := rfl
    rw [hgo, evaluate.evaluateSteps]
    rcases heach step (by simp) _ (.steps hrest hnext) with
      ⟨outcome, held, he, hdone⟩ | ⟨v, he, hasleep⟩
    · rw [he, hdone]
      cases outcome with
      | success value => exact ih hrest value fun s hs => heach s (List.mem_cons_of_mem _ hs)
      | failure cause => exact Or.inl ⟨_, _, rfl, Activity.continued_failure ..⟩
    · rw [he]
      exact Or.inr ⟨v, rfl, hasleep⟩

/-- The evaluation of a timed activity does what the activity means. -/
theorem evaluate_timed {activity : Activity} (h : activity.Timed) (inUse : List Ref)
    (frame : Frame) {next : Continuation σ} (hnext : next.Timed resume) (w : World σ) :
    Evaluates resume w next (activity.meaning w.now) (evaluate inUse activity frame next w) := by
  induction h generalizing next with
  | @think duration hvalid =>
    rcases suspend_asleep w .think hvalid (.wake hnext) with ⟨v, hv, hasleep⟩
    rw [evaluate]
    exact Or.inr ⟨v, hv, hasleep⟩
  | fail => exact Or.inl ⟨_, _, rfl, rfl⟩
  | @sequence steps hsteps ih =>
    rw [evaluate]
    exact evaluateSteps_of_each hsteps inUse frame .unit hnext w fun step hstep _ hlater =>
      ih step hstep hlater
  | @ignoreError body hbody ih =>
    have hmeaning : (Activity.ignoreError body).meaning w.now =
        Activity.ignored (body.meaning w.now) := rfl
    rw [hmeaning, evaluate]
    rcases ih (.ignore hnext) with ⟨outcome, held, he, hdone⟩ | ⟨v, he, hasleep⟩
    · rw [he, hdone]
      cases outcome with
      | success value => exact Or.inl ⟨_, _, rfl, rfl⟩
      | failure cause => exact Or.inl ⟨_, _, rfl, rfl⟩
    · rw [he]
      exact Or.inr ⟨v, rfl, hasleep⟩
  | @retry body limit delay hbody hlimit hbase hwaits ih =>
    have hstart : RetryState.start limit delay = .ok ⟨0, limit, delay⟩ :=
      if_neg (Nat.one_le_iff_ne_zero.1 hlimit)
    have hstate : (RetryState.mk 0 limit delay).begin.Timed := ⟨le_rfl, hlimit, hwaits⟩
    rw [evaluate, hbase, hstart]
    exact attempt_of_body hstate hbody hnext (ih (.retry hstate hbody hnext))

theorem evaluateSteps_timed {steps : List Activity} (h : ∀ step ∈ steps, step.Timed)
    (inUse : List Ref) (frame : Frame) (last : Value) {next : Continuation σ}
    (hnext : next.Timed resume) (w : World σ) :
    Evaluates resume w next (Activity.meaning.continued steps (w.now, .success last))
      (evaluate.evaluateSteps inUse steps frame last next w) :=
  evaluateSteps_of_each h inUse frame last hnext w fun step hstep _ hlater =>
    evaluate_timed (h step hstep) inUse frame hlater w

theorem attempt_timed {state : RetryState} {body : Activity} (hstate : state.begin.Timed)
    (hbody : body.Timed) (inUse : List Ref) (frame : Frame) {next : Continuation σ}
    (hnext : next.Timed resume) (w : World σ) :
    Evaluates resume w next (state.begin.followed body (body.meaning w.now))
      (attempt inUse state body frame next w) :=
  attempt_of_body hstate hbody hnext
    (evaluate_timed hbody inUse frame (.retry hstate hbody hnext) w)

end World
end Callflow
