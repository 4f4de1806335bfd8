import Callflow.Machine.World
import Callflow.Proofs.Agenda.Order
import Callflow.Proofs.Store.Growth

/-!
# What can happen to a world

A `World.Move` is one change of a world, with the deeds that it consists of. Evaluations, callbacks
and host code change a world in no other way (`Callflow.Proofs.World.Evaluation`,
`Callflow.Proofs.Machine.Transition`), so whatever every move preserves holds of every world that a
simulation gets into.

A `World.Path` is a sequence of moves with all its deeds. Forgetting some of the deeds, it is a path
of the agenda (`Path.agenda`), it says what the journal got (`Path.journal`), and the store only
grows along it (`Path.grows`).
-/

namespace Callflow
namespace World

variable {σ : Type}

/-! ## Deeds -/

/-- Something that has happened to a world. -/
inductive Deed (σ : Type) where
  -- An event was scheduled or taken.
  | agenda (deed : Agenda.Deed (Callback σ))
  -- A request was handed to its target.
  | issued (time : Time) (request : RequestId) (caller : Caller) (service operation : String)
  -- A pending request got a reply.
  | settled (time : Time) (request : RequestId) (failure : Option Failure)
  -- A settled request got a further reply.
  | stale (time : Time) (request : RequestId) (failure : Option Failure)
  -- The host has written into the journal.
  | recorded (entry : JournalEntry)

/-- The status that a reply stands for. -/
def attempted (failure : Option Failure) : Status :=
  if failure.isSome then .error else .success

namespace Deed

/-- What happened to the agenda. -/
def agenda? : Deed σ → Option (Agenda.Deed (Callback σ))
  | .agenda deed => some deed
  | _ => none

/-- What the journal got. -/
def entry? : Deed σ → Option JournalEntry
  | .agenda (.taken e) => some (.dispatched e.time e.seq e.kind)
  | .agenda _ => none
  | .issued time request caller service operation =>
    some (.issued time request caller service operation)
  | .settled time request failure => some (.settled time request (attempted failure) failure)
  | .stale time request failure => some (.staleReply time request (attempted failure))
  | .recorded entry => some entry

/-- The event that was taken. -/
def taken? (d : Deed σ) : Option (Event (Callback σ)) := d.agenda?.bind Agenda.Deed.taken?

/-- What the host has written. -/
def recorded? : Deed σ → Option JournalEntry
  | .recorded entry => some entry
  | _ => none

/-- The request that was settled, and with which failure, if any. -/
def settled? : Deed σ → Option (RequestId × Option Failure)
  | .settled _ request failure => some (request, failure)
  | _ => none

/-- Whether a request got a reply. -/
def answers (id : RequestId) : Deed σ → Bool
  | .settled _ request _ => request = id
  | .stale _ request _ => request = id
  | _ => false

end Deed

/-! ## Moves -/

/-- Who waits for a request. -/
def waiter (w : World σ) (id : RequestId) : Waiter σ := (w.waiters[id.number]?).getD .nobody

/-- The world in which a taken event is carried out. -/
def enter (w : World σ) (e : Event (Callback σ)) (agenda : Agenda (Callback σ)) : World σ :=
  { w with agenda }.record (.dispatched e.time e.seq e.kind)

/-- The deed of scheduling a callback. -/
def plan (w : World σ) (delay : Time) (kind : EventKind) (work : Callback σ) : Deed σ :=
  .agenda (.scheduled w.now delay ⟨w.now + delay, w.agenda.nextSeq, kind, work⟩)

/-- One change of a world, with its deeds. -/
inductive Move : World σ → List (Deed σ) → World σ → Prop where
  | define {w : World σ} {store : Store} : w.store.Move store → Move w [] { w with store }
  -- Hooks, handlers, kept requests or the memory of the host change.
  | arrange {w : World σ} (observers : List (ClientId × Observers σ))
      (handlers : List (EndpointId × (RequestId → Script σ))) (kept : Directory RequestId)
      (memory : σ) : Move w [] { w with observers, handlers, kept, memory }
  | record {w : World σ} (entry : JournalEntry) : Move w [.recorded entry] (w.record entry)
  | allocate {w : World σ} : Move w [] w.allocate.1
  -- A request is made that no timeout watches.
  | issue {w : World σ} (caller : Caller) (operation : String) (deadline : Option Time)
      (waiter : Waiter σ) : (∀ next, waiter = .continuation next → deadline = none) →
        Move w [] (w.issue caller operation deadline waiter).1
  -- A request is made, handed to a target, and watched by a timeout.
  | watch {w v u : World σ} {caller : Caller} {operation : String} {timeout : Time}
      {next : Continuation σ} {target : Target} {event : EventId} :
      ((w.issue caller operation (some (w.now + timeout)) (.continuation next)).1.send
        ⟨w.requests.size⟩ target) = (v, .ok ()) →
      v.schedule timeout .timeout (.expire ⟨w.requests.size⟩ (w.now + timeout)) = .ok (u, event) →
        Move w [.issued w.now ⟨w.requests.size⟩ caller (w.store.targetName target) operation,
          w.plan (0.0 + w.store.transit target) .delivery (.deliver ⟨w.requests.size⟩ target),
          v.plan timeout .timeout (.expire ⟨w.requests.size⟩ (w.now + timeout))] u
  | announce {w : World σ} (id : RequestId) (caller : Caller) (service operation : String) :
      Move w [.issued w.now id caller service operation]
        (w.record (.issued w.now id caller service operation))
  | schedule {w v : World σ} {delay : Time} {kind : EventKind} {work : Callback σ}
      {event : EventId} : w.schedule delay kind work = .ok (v, event) →
        (∀ id deadline, work ≠ .expire id deadline) → Move w [w.plan delay kind work] v
  | settle {w : World σ} {id : RequestId} {r : Request} (failure : Option Failure) :
      w.request? id = some r → r.isPending = true →
        Move w [.settled w.now id failure] (w.settle id failure).1
  | stale {w : World σ} {id : RequestId} {r : Request} (failure : Option Failure) :
      w.request? id = some r → r.isPending = false →
        Move w [.stale w.now id failure] (w.settle id failure).1
  -- An event is taken that fails no request.
  | take {w : World σ} {horizon : Time} {e : Event (Callback σ)} {agenda : Agenda (Callback σ)} :
      w.agenda.take? horizon = some (e, agenda) →
        (∀ id deadline r, e.work = .expire id deadline → w.request? id = some r →
          r.isPending = false) → Move w [.agenda (.taken e)] (w.enter e agenda)
  -- The timeout of a pending request is taken, and fails it.
  | expire {w : World σ} {horizon : Time} {e : Event (Callback σ)}
      {agenda : Agenda (Callback σ)} {id : RequestId} {deadline : Time} {r : Request} :
      w.agenda.take? horizon = some (e, agenda) → e.work = .expire id deadline →
        w.request? id = some r → r.isPending = true →
          Move w [.agenda (.taken e), .settled e.time id (some (.timedOut deadline))]
            ((w.enter e agenda).settle id (some (.timedOut deadline))).1
  | advance {w : World σ} {horizon : Time} : w.agenda.take? horizon = none →
      Move w [.agenda (.advanced horizon)] { w with agenda := w.agenda.advance horizon }

/-- A sequence of moves, with all their deeds, the oldest first. -/
inductive Path (w : World σ) : List (Deed σ) → World σ → Prop where
  | refl : Path w [] w
  | move {deeds more : List (Deed σ)} {v u : World σ} :
      Path w deeds v → Move v more u → Path w (deeds ++ more) u

theorem Path.single {w v : World σ} {deeds : List (Deed σ)} (h : Move w deeds v) :
    Path w deeds v := by
  have hpath := Path.refl.move h
  rw [List.nil_append] at hpath
  exact hpath

theorem Path.trans {w v u : World σ} {deeds more : List (Deed σ)} (h : Path w deeds v)
    (k : Path v more u) : Path w (deeds ++ more) u := by
  induction k with
  | refl =>
    rw [List.append_nil]
    exact h
  | move _ hm ih =>
    rw [← List.append_assoc]
    exact ih.move hm

/-! ## What the operations do -/

theorem schedule_eq_ok {w v : World σ} {delay : Time} {kind : EventKind} {work : Callback σ}
    {event : EventId} (h : w.schedule delay kind work = .ok (v, event)) :
    ∃ agenda, w.agenda.schedule delay kind work = .ok agenda ∧ v = { w with agenda } ∧
      event = ⟨w.agenda.nextSeq⟩ := by
  unfold schedule at h
  split at h
  · cases h
  · rename_i agenda hs
    cases h
    exact ⟨agenda, hs, rfl, rfl⟩

theorem schedule_of_checkDelay (w : World σ) {delay : Time} (kind : EventKind)
    (work : Callback σ) (h : Time.checkDelay delay = .ok ()) :
    ∃ v event, w.schedule delay kind work = .ok (v, event) := by
  rcases Agenda.schedule_of_checkDelay w.agenda kind work h with ⟨agenda, ha⟩
  unfold schedule
  rw [ha]
  exact ⟨_, _, rfl⟩

theorem now_enter {w : World σ} {horizon : Time} {e : Event (Callback σ)}
    {agenda : Agenda (Callback σ)} (h : w.agenda.take? horizon = some (e, agenda)) :
    (w.enter e agenda).now = e.time := by
  rcases Agenda.take?_eq_some h with ⟨rest, -, -, rfl⟩
  rfl

theorem settle_pending {w : World σ} {id : RequestId} {r : Request} (failure : Option Failure)
    (hr : w.request? id = some r) (hp : r.isPending = true) :
    w.settle id failure =
      ({ w with
          requests := w.requests.setIfInBounds id.number (some (r.settle w.now failure))
          waiters := w.waiters.setIfInBounds id.number .nobody
          journal := w.journal.record (.settled w.now id (attempted failure) failure) },
        w.waiter id) := by
  unfold settle
  rw [hr]
  simp only [hp, if_true]
  rfl

theorem settle_stale {w : World σ} {id : RequestId} {r : Request} (failure : Option Failure)
    (hr : w.request? id = some r) (hp : r.isPending = false) :
    w.settle id failure = (w.record (.staleReply w.now id (attempted failure)), .nobody) := by
  unfold settle
  rw [hr]
  simp only [hp, Bool.false_eq_true, if_false]
  rfl

theorem settle_absent {w : World σ} {id : RequestId} (failure : Option Failure)
    (hr : w.request? id = none) : w.settle id failure = (w, .nobody) := by
  unfold settle
  rw [hr]

theorem send_absent {w : World σ} {id : RequestId} (target : Target)
    (hr : w.request? id = none) : w.send id target = (w, .ok ()) := by
  unfold send
  rw [hr]

/-- Handing over a request writes an entry and schedules the delivery, which may be refused. -/
theorem send_eq {w v : World σ} {id : RequestId} {target : Target} {r : Request}
    {result : Except SchedulingError Unit} (hr : w.request? id = some r)
    (h : w.send id target = (v, result)) :
    (∃ cause, result = .error cause ∧
      v = w.record (.issued w.now id r.caller (w.store.targetName target) r.operation)) ∨
    (result = .ok () ∧ ∃ event,
      (w.record (.issued w.now id r.caller (w.store.targetName target) r.operation)).schedule
        (0.0 + w.store.transit target) .delivery (.deliver id target) = .ok (v, event)) := by
  unfold send at h
  rw [hr] at h
  simp only at h
  split at h
  · rename_i u event hs
    cases h
    exact Or.inr ⟨rfl, event, hs⟩
  · cases h
    exact Or.inl ⟨_, rfl, rfl⟩

theorem request?_issue (w : World σ) (caller : Caller) (operation : String)
    (deadline : Option Time) (waiter : Waiter σ) :
    (w.issue caller operation deadline waiter).1.request? ⟨w.requests.size⟩ =
      some (Request.issue ⟨w.requests.size⟩ caller operation w.now deadline) := by
  simp [issue, request?]

/-- The world after a request was made, handed over and watched. -/
theorem watch_eq {w v u : World σ} {caller : Caller} {operation : String} {timeout : Time}
    {next : Continuation σ} {target : Target} {event : EventId}
    (hsend : (w.issue caller operation (some (w.now + timeout)) (.continuation next)).1.send
      ⟨w.requests.size⟩ target = (v, .ok ()))
    (hwatch : v.schedule timeout .timeout (.expire ⟨w.requests.size⟩ (w.now + timeout)) =
      .ok (u, event)) :
    ∃ agenda : Agenda (Callback σ),
      w.agenda.schedule (0.0 + w.store.transit target) .delivery
        (.deliver ⟨w.requests.size⟩ target) = .ok v.agenda ∧
      v.agenda.schedule timeout .timeout (.expire ⟨w.requests.size⟩ (w.now + timeout)) =
        .ok agenda ∧
      u = { w with
        agenda
        journal := w.journal.record (.issued w.now ⟨w.requests.size⟩ caller
          (w.store.targetName target) operation)
        requests := w.requests.push
          (some (.issue ⟨w.requests.size⟩ caller operation w.now (some (w.now + timeout))))
        waiters := w.waiters.push (.continuation next) } := by
  rcases send_eq (request?_issue ..) hsend with ⟨_, habsurd, _⟩ | ⟨_, first, hdeliver⟩
  · cases habsurd
  · rcases schedule_eq_ok hdeliver with ⟨agenda, hagenda, rfl, -⟩
    rcases schedule_eq_ok hwatch with ⟨later, hlater, rfl, -⟩
    exact ⟨later, hagenda, hlater, rfl⟩

/-! ## Forgetting deeds -/

theorem settle_agenda (w : World σ) (id : RequestId) (failure : Option Failure) :
    (w.settle id failure).1.agenda = w.agenda := by
  unfold settle
  split
  · rfl
  · split <;> rfl

theorem settle_now (w : World σ) (id : RequestId) (failure : Option Failure) :
    (w.settle id failure).1.now = w.now := by
  rw [now, settle_agenda]
  rfl

theorem settle_store (w : World σ) (id : RequestId) (failure : Option Failure) :
    (w.settle id failure).1.store = w.store := by
  unfold settle
  split
  · rfl
  · split <;> rfl

theorem settle_size (w : World σ) (id : RequestId) (failure : Option Failure) :
    (w.settle id failure).1.requests.size = w.requests.size := by
  unfold settle
  split
  · rfl
  · split
    · exact Array.size_setIfInBounds
    · rfl

/-- A path of the agenda with one deed. -/
theorem agenda_schedule {a b : Agenda (Callback σ)} {delay : Time} {kind : EventKind}
    {work : Callback σ} (h : a.schedule delay kind work = .ok b) :
    Agenda.Path a [.scheduled a.now delay ⟨a.now + delay, a.nextSeq, kind, work⟩] b :=
  Agenda.Path.refl.schedule h

theorem Move.agenda {w v : World σ} {deeds : List (Deed σ)} (h : Move w deeds v) :
    Agenda.Path w.agenda (deeds.filterMap Deed.agenda?) v.agenda := by
  cases h with
  | define _ => exact .refl
  | arrange _ _ _ _ => exact .refl
  | record _ => exact .refl
  | allocate => exact .refl
  | issue _ _ _ _ _ => exact .refl
  | announce _ _ _ _ => exact .refl
  | watch hsend hwatch =>
    rcases watch_eq hsend hwatch with ⟨agenda, hdeliver, hexpire, rfl⟩
    exact (Agenda.Path.refl.schedule hdeliver).schedule hexpire
  | schedule hs _ =>
    rcases schedule_eq_ok hs with ⟨agenda, hagenda, rfl, -⟩
    exact agenda_schedule hagenda
  | settle _ _ _ =>
    rw [settle_agenda]
    exact .refl
  | stale _ _ _ =>
    rw [settle_agenda]
    exact .refl
  | take ht _ => exact Agenda.Path.refl.take ht
  | expire ht _ _ _ =>
    rw [settle_agenda]
    exact Agenda.Path.refl.take ht
  | advance hn => exact Agenda.Path.refl.advance hn

theorem Path.agenda {w v : World σ} {deeds : List (Deed σ)} (h : Path w deeds v) :
    Agenda.Path w.agenda (deeds.filterMap Deed.agenda?) v.agenda := by
  induction h with
  | refl => exact .refl
  | move _ hm ih =>
    rw [List.filterMap_append]
    exact ih.trans hm.agenda

theorem Move.journal {w v : World σ} {deeds : List (Deed σ)} (h : Move w deeds v) :
    v.journal = (deeds.filterMap Deed.entry?).foldl Journal.record w.journal := by
  cases h with
  | define _ => rfl
  | arrange _ _ _ _ => rfl
  | record _ => rfl
  | allocate => rfl
  | issue _ _ _ _ _ => rfl
  | announce _ _ _ _ => rfl
  | watch hsend hwatch =>
    rcases watch_eq hsend hwatch with ⟨agenda, _, _, rfl⟩
    rfl
  | schedule hs _ =>
    rcases schedule_eq_ok hs with ⟨agenda, _, rfl, -⟩
    rfl
  | settle failure hr hp =>
    rw [settle_pending failure hr hp]
    rfl
  | stale failure hr hp =>
    rw [settle_stale failure hr hp]
    rfl
  | take _ _ => rfl
  | @expire horizon e agenda id deadline r ht _ hr hp =>
    -- The failure is noted at the time of the event, which the clock shows by then.
    have hentered : (w.enter e agenda).request? id = some r := hr
    rw [settle_pending _ hentered hp, now_enter ht]
    rfl
  | advance _ => rfl

/-- The events that the agenda has taken. -/
theorem takes_agenda (deeds : List (Deed σ)) :
    Agenda.takes (deeds.filterMap Deed.agenda?) = deeds.filterMap Deed.taken? := by
  rw [Agenda.takes, List.filterMap_filterMap]
  rfl

/-- The journal has got the entries of the deeds, in their order. -/
theorem Path.journal {w v : World σ} {deeds : List (Deed σ)} (h : Path w deeds v) :
    v.journal = (deeds.filterMap Deed.entry?).foldl Journal.record w.journal := by
  induction h with
  | refl => rfl
  | move _ hm ih => rw [List.filterMap_append, List.foldl_append, ← ih, hm.journal]

/-- A move changes the store by one definition at most. -/
theorem Move.store {w v : World σ} {deeds : List (Deed σ)} (h : Move w deeds v) :
    v.store = w.store ∨ w.store.Move v.store := by
  cases h with
  | define hs => exact Or.inr hs
  | arrange _ _ _ _ => exact Or.inl rfl
  | record _ => exact Or.inl rfl
  | allocate => exact Or.inl rfl
  | issue _ _ _ _ _ => exact Or.inl rfl
  | announce _ _ _ _ => exact Or.inl rfl
  | watch hsend hwatch =>
    rcases watch_eq hsend hwatch with ⟨agenda, _, _, rfl⟩
    exact Or.inl rfl
  | schedule hs _ =>
    rcases schedule_eq_ok hs with ⟨agenda, _, rfl, -⟩
    exact Or.inl rfl
  | settle _ _ _ => exact Or.inl (settle_store ..)
  | stale _ _ _ => exact Or.inl (settle_store ..)
  | take _ _ => exact Or.inl rfl
  | expire _ _ _ _ => exact Or.inl (settle_store ..)
  | advance _ => exact Or.inl rfl

theorem Move.grows {w v : World σ} {deeds : List (Deed σ)} (h : Move w deeds v) :
    w.store.Grows v.store := by
  rcases h.store with hsame | hmove
  · rw [hsame]
    exact .refl _
  · exact hmove.grows

theorem settle_budget (w : World σ) (id : RequestId) (failure : Option Failure) :
    (w.settle id failure).1.budget = w.budget := by
  unfold settle
  split
  · rfl
  · split <;> rfl

theorem Move.budget {w v : World σ} {deeds : List (Deed σ)} (h : Move w deeds v) :
    v.budget = w.budget := by
  cases h with
  | watch hsend hwatch =>
    rcases watch_eq hsend hwatch with ⟨agenda, _, _, rfl⟩
    rfl
  | schedule hs _ =>
    rcases schedule_eq_ok hs with ⟨agenda, _, rfl, -⟩
    rfl
  | settle _ _ _ => exact settle_budget ..
  | stale _ _ _ => exact settle_budget ..
  | expire _ _ _ _ => exact settle_budget ..
  | _ => rfl

/-- The budget of a simulation is fixed. -/
theorem Path.budget {w v : World σ} {deeds : List (Deed σ)} (h : Path w deeds v) :
    v.budget = w.budget := by
  induction h with
  | refl => rfl
  | move _ hm ih => exact hm.budget.trans ih

/-- Nothing that has been defined is lost. -/
theorem Path.grows {w v : World σ} {deeds : List (Deed σ)} (h : Path w deeds v) :
    w.store.Grows v.store := by
  induction h with
  | refl => exact .refl _
  | move _ hm ih => exact ih.trans hm.grows

end World
end Callflow
