import Callflow.Proofs.World.Rest

/-!
# An evaluation waits in one place

Whatever an evaluation does, it has begun to wait in one spot at most, and nowhere if it has resolved
(`World.evaluate_sole`). So the spot that is found between two worlds is the only one there is
(`World.Sole.adds`).
-/

namespace Callflow

variable {σ : Type}

namespace World

/-- Something waits at a spot. -/
def Waits (w : World σ) (spot : Spot σ) : Prop := ∃ k, w.Keeps spot k

/-- Between two worlds, something has begun to wait at one spot at most, or nowhere. -/
def Adds (w v : World σ) (added : Option (Spot σ)) : Prop :=
  ∀ spot, v.Waits spot → w.Waits spot ∨ added = some spot

/-- Nothing good has begun to wait when there is nothing good at all. -/
theorem Rests.adds {good : Store → Continuation σ → Prop} (hnone : ∀ s k, ¬ good s k)
    {w v : World σ} (h : Rests good w v) : Adds w v none := by
  rintro spot ⟨k, hkeeps⟩
  left
  cases hkeeps with
  | @event e _ hmem hk =>
    rcases h.events e hmem with hold | hnew
    · exact ⟨k, .event hold hk⟩
    · have hpursues := hnew.pursues
      generalize e.work = work at hk hpursues
      cases work with
      | wake next => exact absurd (hpursues next rfl) (hnone _ _)
      | attempt state body frame next =>
        exact absurd (hpursues (.retry state body frame next) rfl) (hnone _ _)
      | _ => cases hk
  | @request id _ hk =>
    rcases h.waiters id k hk with hold | hnew
    · exact ⟨k, .request hold⟩
    · exact absurd hnew (hnone _ _)

namespace Adds

variable {w v u : World σ} {added : Option (Spot σ)}

theorem refl (w : World σ) : Adds w w none := fun _ hwaits => Or.inl hwaits

/-- Where nothing has begun to wait, what waits has waited before. -/
theorem waited (h : Adds w v none) {spot : Spot σ} (hwaits : v.Waits spot) : w.Waits spot := by
  rcases h spot hwaits with hold | hnew
  · exact hold
  · cases hnew

theorem of_none (h : Adds w v none) : Adds w v added := fun _ hwaits => Or.inl (h.waited hwaits)

theorem before (h : Adds v u added) (k : Adds w v none) : Adds w u added :=
  fun spot hwaits => (h spot hwaits).imp_left k.waited

theorem after (h : Adds w v added) (k : Adds v u none) : Adds w u added :=
  fun spot hwaits => h spot (k.waited hwaits)

/-- Events and waiters are the same. -/
theorem of_same (hagenda : v.agenda = w.agenda) (hwaiters : v.waiters = w.waiters) :
    Adds w v none := by
  rintro spot ⟨k, hkeeps⟩
  left
  cases hkeeps with
  | event hmem hk =>
    rw [hagenda] at hmem
    exact ⟨k, .event hmem hk⟩
  | request hk =>
    rw [waiting?, waiter, hwaiters] at hk
    exact ⟨k, .request hk⟩

/-- A new event is the only one that is new. -/
theorem schedule {delay : Time} {kind : EventKind} {work : Callback σ} {event : EventId}
    (h : w.schedule delay kind work = .ok (v, event)) :
    Adds w v (some (.event ⟨w.now + delay, w.agenda.nextSeq, kind, work⟩)) := by
  rcases schedule_eq_ok h with ⟨agenda, hagenda, rfl, -⟩
  rcases Agenda.schedule_eq_ok hagenda with ⟨-, rfl⟩
  rintro spot ⟨k, hkeeps⟩
  cases hkeeps with
  | event hmem hk =>
    rcases Agenda.mem_insert.1 hmem with rfl | hold
    · exact Or.inr rfl
    · exact Or.inl ⟨k, .event hold hk⟩
  | request hk => exact Or.inl ⟨k, .request hk⟩

/-- An event that goes on with nothing does not count. -/
theorem schedule_idle {delay : Time} {kind : EventKind} {work : Callback σ} {event : EventId}
    (h : w.schedule delay kind work = .ok (v, event)) (hwork : work.continuation? = none) :
    Adds w v none := by
  rintro spot ⟨k, hkeeps⟩
  rcases schedule h spot ⟨k, hkeeps⟩ with hold | hnew
  · exact Or.inl hold
  · cases hnew
    cases hkeeps with
    | event _ hk => rw [hwork] at hk; cases hk

/-- A new request is the only one that is new. -/
theorem issue (w : World σ) (caller : Caller) (operation : String) (deadline : Option Time)
    (waiter : Waiter σ) :
    Adds w (w.issue caller operation deadline waiter).1 (some (.request ⟨w.waiters.size⟩)) := by
  have hpush : (w.issue caller operation deadline waiter).1.waiters = w.waiters.push waiter := rfl
  rintro spot ⟨k, hkeeps⟩
  cases hkeeps with
  | event hmem hk => exact Or.inl ⟨k, .event hmem hk⟩
  | @request id _ hk =>
    rw [waiting?, waiter_of_push hpush] at hk
    split at hk
    · rename_i hnumber
      rw [← hnumber]
      exact Or.inr rfl
    · exact Or.inl ⟨k, .request hk⟩

theorem send (w : World σ) (id : RequestId) (target : Target) :
    Adds w (w.send id target).1 none :=
  (Rests.send (fun _ _ _ _ h => h) w id target).adds fun _ _ h => h

/-- What has begun to wait is found where it waits. -/
theorem parked? (h : Adds w v added) (hw : w.agenda.Sound) {next : Continuation σ}
    (hparks : Parks next w v) {spot : Spot σ} (hwaits : v.Waits spot) (hnew : ¬ w.Waits spot) :
    w.parked? v = some spot := by
  have hlacks : Leaves w v := by
    rcases hwaits with ⟨k, hkeeps⟩
    cases hkeeps with
    | @event e _ hmem hk =>
      rcases hparks.events e hmem with hold | ⟨hseq, -⟩
      · exact absurd ⟨k, .event hold hk⟩ hnew
      · exact Or.inl ⟨e, hmem, hseq, by rw [hk]; rfl⟩
    | @request id _ hk =>
      rcases hparks.waiters id k hk with hold | ⟨hsize, -⟩
      · exact absurd ⟨k, .request hold⟩ hnew
      · exact Or.inr ⟨id, hsize, by rw [hk]; rfl⟩
  rcases Option.isSome_iff_exists.1 hlacks.parked? with ⟨found, hfound⟩
  rcases parked?_keeps hfound with ⟨k, hkeeps, hfoundLacks⟩
  have hfoundNew : ¬ w.Waits found := by
    rintro ⟨other, hother⟩
    cases hother with
    | event hmem _ => exact absurd (hw.numbered _ hmem) (Nat.not_lt.2 hfoundLacks)
    | request hk => exact absurd (waiting?_lt hk) (Nat.not_lt.2 hfoundLacks)
  have hsame := (h found ⟨k, hkeeps⟩).resolve_left hfoundNew
  rw [(h spot hwaits).resolve_left hnew] at hsame
  rw [hfound, hsame]

end Adds

/-- An evaluation has begun to wait in one spot at most, and nowhere if it has resolved. -/
inductive Sole (w : World σ) : Evaluation σ → Prop where
  | resolved {v : World σ} {outcome : Outcome} {held : List Ref} : Adds w v none →
      Sole w (v, .ok (.resolved outcome held))
  | suspended {v : World σ} {added : Option (Spot σ)} : Adds w v added →
      Sole w (v, .ok .suspended)
  | stopped {v : World σ} {stop : Stop} {added : Option (Spot σ)} : Adds w v added →
      Sole w (v, .error stop)

namespace Sole

variable {w v : World σ} {e : Evaluation σ}

theorem before (h : Sole v e) (k : Adds w v none) : Sole w e := by
  cases h with
  | resolved hadds => exact .resolved (hadds.before k)
  | suspended hadds => exact .suspended (hadds.before k)
  | stopped hadds => exact .stopped (hadds.before k)

theorem of_none (h : Adds w e.1 none) : Sole w e := by
  rcases e with ⟨v, stop | _ | ⟨outcome, held⟩⟩
  · exact .stopped h
  · exact .suspended h
  · exact .resolved h

/-- The one spot is the one that is found. -/
theorem adds (h : Sole w e) (hw : w.agenda.Sound) {next : Continuation σ}
    (hparks : Parks next w e.1) : Adds w e.1 (w.parked? e.1) := by
  intro spot hwaits
  by_cases hold : w.Waits spot
  · exact Or.inl hold
  · right
    cases h with
    | resolved hnone => exact absurd (hnone.waited hwaits) hold
    | suspended hone => exact hone.parked? hw hparks hwaits hold
    | stopped hone => exact hone.parked? hw hparks hwaits hold

theorem suspend (w : World σ) (delay : Time) (kind : EventKind) (work : Callback σ) :
    Sole w (w.suspend delay kind work) := by
  unfold World.suspend
  split
  · rename_i hs
    exact .suspended (.schedule hs)
  · exact .of_none (.refl w)

theorem trigger (w : World σ) (inUse : List Ref) (name operation : String) (frame : Frame)
    (next : Continuation σ) : Sole w (w.trigger inUse name operation frame next) :=
  .of_none
    ((Rests.trigger (fun _ _ _ _ h => h) w inUse name operation frame next).adds fun _ _ h => h)

/-- Only the continuation of the query waits for the new request. -/
theorem query (w : World σ) (inUse : List Ref) (name operation : String) (timeout : Option Time)
    (frame : Frame) (next : Continuation σ) :
    Sole w (w.query inUse name operation timeout frame next) := by
  generalize hquery : w.query inUse name operation timeout frame next = e
  rcases e with ⟨u, result⟩
  have hsent (deadline : Option Time) (target : Target) :=
    (Adds.issue w frame.caller operation deadline (.continuation next)).after
      (.send _ ⟨w.requests.size⟩ target)
  rcases query_cases hquery with
    ⟨_, rfl, rfl, _⟩ | ⟨target, _, rfl, _, _, hsend⟩ | ⟨target, _, rfl, _, hsend⟩ |
    ⟨target, delay, v, event, _, rfl, _, _, hsend, hwatch⟩
  · exact .of_none (.refl u)
  · have hu := hsent none target
    rw [hsend] at hu
    exact .stopped hu
  · have hu := hsent none target
    rw [hsend] at hu
    exact .suspended hu
  · have hv := hsent (some (w.now + delay)) target
    rw [hsend] at hv
    exact .suspended (hv.after (.schedule_idle hwatch rfl))

theorem defineClient (w : World σ) (name : String) (period : Time) (body : Activity)
    (frame : Frame) : Sole w (w.defineClient name period body frame) := by
  have hdefined : Adds w { w with
      store := ((w.store.newClient name period body).1).bind frame.scope name
        (.client (w.store.newClient name period body).2) } none := .of_same rfl rfl
  unfold World.defineClient
  split
  · exact .of_none (.refl w)
  · dsimp only
    split
    · rename_i hs
      exact .of_none (hdefined.after (.schedule_idle hs rfl))
    · exact .of_none hdefined

theorem afterAttempt (w : World σ) (state : RetryState) (body : Activity) (frame : Frame)
    (next : Continuation σ) (held : List Ref) (outcome : Outcome) :
    Sole w (w.afterAttempt state body frame next held outcome) := by
  cases outcome with
  | success value => exact .of_none (.refl w)
  | failure cause =>
    unfold World.afterAttempt
    dsimp only
    split
    · exact .of_none (.refl w)
    · exact suspend w _ _ _

theorem attempt {inUse : List Ref} {state : RetryState} {body : Activity} {frame : Frame}
    {next : Continuation σ}
    (h : Sole w (evaluate inUse body frame (.retry state.begin body frame next) w)) :
    Sole w (World.attempt inUse state body frame next w) := by
  unfold World.attempt
  dsimp only
  generalize evaluate inUse body frame (.retry state.begin body frame next) w = e at h ⊢
  cases h with
  | resolved hadds => exact (afterAttempt _ _ _ _ _ _ _).before hadds
  | suspended hadds => exact .suspended hadds
  | stopped hadds => exact .stopped hadds

end Sole

-- Both proofs follow the recursion of the evaluation: what follows a part that has resolved is the
-- first that may wait.
mutual

theorem evaluate_sole (inUse : List Ref) (activity : Activity) (frame : Frame)
    (next : Continuation σ) (w : World σ) : Sole w (evaluate inUse activity frame next w) := by
  cases activity with
  | defineService name body =>
    have hdefined : Adds w { w with
        store := ((w.store.newService name (some frame.scope)).1).bind frame.scope name
          (.service (w.store.newService name (some frame.scope)).2) } none := .of_same rfl rfl
    have hbody := (evaluateSteps_sole inUse body
      (frame.inside (w.store.newService name (some frame.scope)).2 ⟨w.store.scopes.size⟩) .unit
      (.service (w.store.newService name (some frame.scope)).2 next) _).before hdefined
    rw [evaluate]
    dsimp only
    generalize evaluate.evaluateSteps inUse body _ _ _ _ = e at hbody ⊢
    cases hbody with
    | @resolved v outcome held hadds => cases outcome <;> exact .resolved hadds
    | suspended hadds => exact .suspended hadds
    | stopped hadds => exact .stopped hadds
  | defineOperation name body =>
    rw [evaluate]
    exact .of_none ((Rests.defineOperation w name body frame).adds fun _ _ h => h)
  | defineClient name period body =>
    rw [evaluate]
    exact .defineClient w name period body frame
  | trigger target operation =>
    rw [evaluate]
    exact .trigger w inUse target operation frame next
  | query target operation timeout =>
    rw [evaluate]
    exact .query w inUse target operation timeout frame next
  | sequence steps =>
    rw [evaluate]
    exact evaluateSteps_sole inUse steps frame .unit next w
  | think duration =>
    rw [evaluate]
    exact .suspend w _ _ _
  | retry body limit delay =>
    rw [evaluate]
    cases Time.checkDelay delay.base with
    | error e => exact .of_none (.refl w)
    | ok _ =>
      cases RetryState.start limit delay with
      | error e => exact .of_none (.refl w)
      | ok state =>
        exact .attempt (evaluate_sole inUse body frame (.retry state.begin body frame next) w)
  | ignoreError body =>
    have hbody := evaluate_sole inUse body frame (.ignore next) w
    rw [evaluate]
    generalize evaluate inUse body frame (.ignore next) w = e at hbody ⊢
    cases hbody with
    | @resolved v outcome held hadds => cases outcome <;> exact .resolved hadds
    | suspended hadds => exact .suspended hadds
    | stopped hadds => exact .stopped hadds
  | fail =>
    rw [evaluate]
    exact .resolved (.refl w)

theorem evaluateSteps_sole (inUse : List Ref) (steps : List Activity) (frame : Frame)
    (last : Value) (next : Continuation σ) (w : World σ) :
    Sole w (evaluate.evaluateSteps inUse steps frame last next w) := by
  cases steps with
  | nil =>
    rw [evaluate.evaluateSteps]
    exact .resolved (.refl w)
  | cons step rest =>
    have hstep := evaluate_sole inUse step frame (.steps rest frame next) w
    rw [evaluate.evaluateSteps]
    generalize evaluate inUse step frame (.steps rest frame next) w = e at hstep ⊢
    cases hstep with
    | @resolved v outcome held hadds =>
      cases outcome with
      | success value =>
        exact (evaluateSteps_sole inUse rest frame value next v).before hadds
      | failure cause => exact .resolved hadds
    | suspended hadds => exact .suspended hadds
    | stopped hadds => exact .stopped hadds

end

end World
end Callflow
