import Callflow.Proofs.World.Definitions
import Callflow.Proofs.World.Parking

/-!
# What has begun to wait

Between two worlds some continuations may have begun to wait, in new events or for new requests. If
all of them have a property that more definitions do not take away, nothing has begun to wait but
what is good (`World.Rests`), and clients fire in scopes that there are. This says more than
`World.Parks`: an event that makes the next attempt of a retry goes on to the retry as a whole, with
the body that it evaluates and the frame for it (`Callback.pursued?`).
-/

namespace Callflow

open World (waiting? query_cases schedule_eq_ok send_eq)

variable {σ : Type}

/-- What a callback goes on with. -/
def Callback.pursued? : Callback σ → Option (Continuation σ)
  | .wake next => some next
  | .attempt state body frame next => some (.retry state body frame next)
  | _ => none

/-- A callback goes on with what is good, and fires a client in a scope that there is. -/
structure Callback.Sits (good : Store → Continuation σ → Prop) (s : Store) (work : Callback σ) :
    Prop where
  pursues : ∀ k, work.pursued? = some k → good s k
  fires : ∀ id scope, work = .fire id scope → ∃ found, s.scope? scope = some found

/-- A property of continuations that more definitions do not take away. -/
def Lasting (good : Store → Continuation σ → Prop) : Prop :=
  ∀ (s t : Store) (k : Continuation σ), s.Grows t → good s k → good t k

theorem Callback.Sits.grows {good : Store → Continuation σ → Prop} (hgood : Lasting good)
    {s t : Store} {work : Callback σ} (h : work.Sits good s) (hgrows : s.Grows t) :
    work.Sits good t where
  pursues := fun k hk => hgood _ _ _ hgrows (h.pursues k hk)
  fires := by
    intro id scope hwork
    rcases h.fires id scope hwork with ⟨found, hfound⟩
    rcases hgrows.scope _ _ hfound with ⟨later, hlater, -⟩
    exact ⟨later, hlater⟩

/-- A callback that goes on with nothing, and fires no client. -/
theorem Callback.sits_of_none {good : Store → Continuation σ → Prop} {s : Store}
    {work : Callback σ} (hnone : work.pursued? = none) (hfire : ∀ id scope, work ≠ .fire id scope) :
    work.Sits good s where
  pursues := by simp [hnone]
  fires := fun id scope hwork => absurd hwork (hfire id scope)

namespace World

/-- Between two worlds, nothing has begun to wait but what is good, and nothing has been scheduled
that fires a client where there is no scope. -/
structure Rests (good : Store → Continuation σ → Prop) (w v : World σ) : Prop where
  grows : w.store.Grows v.store
  events : ∀ e ∈ v.agenda.pending, e ∈ w.agenda.pending ∨ e.work.Sits good v.store
  waiters : ∀ id k, v.waiting? id = some k → w.waiting? id = some k ∨ good v.store k

namespace Rests

variable {good : Store → Continuation σ → Prop} {w v u : World σ}

theorem refl (good : Store → Continuation σ → Prop) (w : World σ) : Rests good w w where
  grows := .refl _
  events := fun _ he => Or.inl he
  waiters := fun _ _ hk => Or.inl hk

theorem trans (hgood : Lasting good) (h : Rests good w v) (k : Rests good v u) :
    Rests good w u where
  grows := h.grows.trans k.grows
  events := by
    intro e he
    rcases k.events e he with hold | hnew
    · rcases h.events e hold with hold | hnew
      · exact Or.inl hold
      · exact Or.inr (hnew.grows hgood k.grows)
    · exact Or.inr hnew
  waiters := by
    intro id other hother
    rcases k.waiters id other hother with hold | hnew
    · rcases h.waiters id other hold with hold | hnew
      · exact Or.inl hold
      · exact Or.inr (hgood _ _ _ k.grows hnew)
    · exact Or.inr hnew

/-- Nothing has been scheduled, and nobody waits for a request who has not done so before. -/
theorem of_same (hgrows : w.store.Grows v.store) (hagenda : v.agenda.pending = w.agenda.pending)
    (hwaiters : ∀ id k, v.waiting? id = some k → w.waiting? id = some k) : Rests good w v where
  grows := hgrows
  events := by
    rw [hagenda]
    exact fun _ he => Or.inl he
  waiters := fun id k hk => Or.inl (hwaiters id k hk)

/-- Only the store has changed. -/
theorem define {store : Store} (h : w.store.Grows store) :
    Rests good w { w with store } :=
  of_same h rfl fun _ _ hk => hk

theorem schedule {delay : Time} {kind : EventKind} {work : Callback σ} {event : EventId}
    (h : w.schedule delay kind work = .ok (v, event))
    (hwork : work.Sits good w.store) : Rests good w v := by
  rcases schedule_eq_ok h with ⟨agenda, hagenda, rfl, -⟩
  rcases Agenda.schedule_eq_ok hagenda with ⟨-, rfl⟩
  refine ⟨.refl _, ?_, fun _ _ hk => Or.inl hk⟩
  intro e he
  rcases Agenda.mem_insert.1 he with rfl | he
  · exact Or.inr hwork
  · exact Or.inl he

theorem issue (w : World σ) (caller : Caller) (operation : String) (deadline : Option Time)
    {waiter : Waiter σ} (hwaiter : ∀ k, waiter.continuation? = some k → good w.store k) :
    Rests good w (w.issue caller operation deadline waiter).1 := by
  have hpush : (w.issue caller operation deadline waiter).1.waiters = w.waiters.push waiter := rfl
  refine ⟨.refl _, fun _ he => Or.inl he, ?_⟩
  intro id k hk
  rw [waiting?, waiter_of_push hpush] at hk
  split at hk
  · exact Or.inr (hwaiter k hk)
  · exact Or.inl hk

theorem send (hgood : Lasting good) (w : World σ) (id : RequestId) (target : Target) :
    Rests good w (w.send id target).1 := by
  cases hr : w.request? id with
  | none =>
    rw [send_absent target hr]
    exact refl good w
  | some r =>
    have hnoted : Rests good w (w.record
        (.issued w.now id r.caller (w.store.targetName target) r.operation)) :=
      of_same (.refl _) rfl fun _ _ hk => hk
    rcases send_eq hr (Prod.mk.eta (p := w.send id target)).symm with ⟨_, _, hv⟩ | ⟨_, event, hs⟩
    · rw [hv]
      exact hnoted
    · exact hnoted.trans hgood (schedule hs (Callback.sits_of_none rfl (by simp)))

theorem suspend {delay : Time} {kind : EventKind} {work : Callback σ}
    (hwork : work.Sits good w.store) :
    Rests good w (w.suspend delay kind work).1 := by
  unfold World.suspend
  split
  · rename_i hs
    exact schedule hs hwork
  · exact refl good w

theorem trigger (hgood : Lasting good) (w : World σ) (inUse : List Ref) (name operation : String)
    (frame : Frame) (next : Continuation σ) :
    Rests good w (w.trigger inUse name operation frame next).1 := by
  have hissued : Rests good w (w.issue frame.caller operation none .nobody).1 :=
    issue w frame.caller operation none (by simp [Waiter.continuation?])
  unfold World.trigger
  split
  · exact refl good w
  · rename_i target _
    have hsent := hissued.trans hgood
      (send hgood _ (w.issue frame.caller operation none .nobody).2 target)
    dsimp only
    split
    · rename_i hs
      rw [hs] at hsent
      exact hsent
    · rename_i hs
      rw [hs] at hsent
      exact hsent

/-- The continuation of a query waits for its request. -/
theorem query (hgood : Lasting good) {w : World σ} (inUse : List Ref) (name operation : String)
    (timeout : Option Time) (frame : Frame) {next : Continuation σ} (hnext : good w.store next) :
    Rests good w (w.query inUse name operation timeout frame next).1 := by
  generalize hquery : w.query inUse name operation timeout frame next = e
  rcases e with ⟨u, result⟩
  have hsent (deadline : Option Time) (target : Target) :
      Rests good w ((w.issue frame.caller operation deadline (.continuation next)).1.send
        ⟨w.requests.size⟩ target).1 := by
    refine (issue w frame.caller operation deadline ?_).trans hgood (send hgood _ _ target)
    rintro k ⟨⟩
    exact hnext
  rcases query_cases hquery with
    ⟨_, _, rfl, _⟩ | ⟨target, _, _, _, _, hsend⟩ | ⟨target, _, _, _, hsend⟩ |
    ⟨target, delay, v, event, _, _, _, _, hsend, hwatch⟩
  · exact refl good u
  · have hu := hsent none target
    rw [hsend] at hu
    exact hu
  · have hu := hsent none target
    rw [hsend] at hu
    exact hu
  · have hv := hsent (some (w.now + delay)) target
    rw [hsend] at hv
    exact hv.trans hgood (schedule hwatch (Callback.sits_of_none rfl (by simp)))

theorem defineClient (hgood : Lasting good) {w : World σ} (name : String) (period : Time)
    (body : Activity) {frame : Frame} (hframe : ∃ scope, w.store.scope? frame.scope = some scope) :
    Rests good w (w.defineClient name period body frame).1 := by
  have hdefined : Rests good w { w with
      store := ((w.store.newClient name period body).1).bind frame.scope name
        (.client (w.store.newClient name period body).2) } :=
    define ((Store.Move.client name period body).grows.trans (Store.Move.bind _ _ _).grows)
  unfold World.defineClient
  split
  · exact refl good w
  · dsimp only
    split
    · rename_i hs
      refine hdefined.trans hgood (schedule hs ⟨by simp [Callback.pursued?], ?_⟩)
      rintro id scope ⟨⟩
      rcases hframe with ⟨found, hfound⟩
      rcases hdefined.grows.scope _ _ hfound with ⟨later, hlater, -⟩
      exact ⟨later, hlater⟩
    · exact hdefined

theorem defineOperation (w : World σ) (name : String) (body : Activity) (frame : Frame) :
    Rests good w (w.defineOperation name body frame).1 := by
  unfold World.defineOperation
  split
  · exact refl good w
  · exact define (Store.Move.register _ _).grows

/-- After a failed attempt, the retry waits for the next one. -/
theorem afterAttempt {state : RetryState} {body : Activity} {frame : Frame}
    {next : Continuation σ} (hretry : good w.store (.retry state body frame next))
    (held : List Ref) (outcome : Outcome) :
    Rests good w (w.afterAttempt state body frame next held outcome).1 := by
  cases outcome with
  | success value => exact refl good w
  | failure cause =>
    unfold World.afterAttempt
    dsimp only
    split
    · exact refl good w
    · refine suspend ⟨?_, by simp⟩
      rintro k ⟨⟩
      exact hretry

theorem attempt (hgood : Lasting good) {inUse : List Ref} {state : RetryState} {body : Activity}
    {frame : Frame} {next : Continuation σ}
    (hretry : good w.store (.retry state.begin body frame next))
    (h : Rests good w (evaluate inUse body frame (.retry state.begin body frame next) w).1) :
    Rests good w (World.attempt inUse state body frame next w).1 := by
  unfold World.attempt
  dsimp only
  split
  · rename_i v outcome held hv
    rw [hv] at h
    exact h.trans hgood (afterAttempt (hgood _ _ _ h.grows hretry) held outcome)
  · exact h

/-- Replies settle requests, and nobody begins to wait. -/
theorem settle (w : World σ) (id : RequestId) (failure : Option Failure) :
    Rests good w (w.settle id failure).1 := by
  cases hr : w.request? id with
  | none =>
    rw [settle_absent failure hr]
    exact refl good w
  | some r =>
    cases hp : r.isPending with
    | true =>
      refine of_same ?_ ?_ ?_
      · rw [settle_store]
        exact .refl _
      · rw [settle_agenda]
      · intro other k hk
        rw [waiting?, waiter_settle failure hr hp] at hk
        split at hk
        · cases hk
        · exact hk
    | false =>
      rw [settle_stale failure hr hp]
      exact of_same (.refl _) rfl fun _ _ hk => hk

end Rests
end World
end Callflow
