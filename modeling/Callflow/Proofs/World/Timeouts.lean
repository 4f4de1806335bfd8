import Callflow.Proofs.World.Requests

/-!
# Timeouts and deadlines

In a sound world (`World.Sound`) there is at most one timeout for each request, it is due at the
deadline of the request, and it is there as long as a continuation waits for a request with a
deadline. So the clock does not pass the deadline while the continuation waits (`Sound.timeout`).
Every move keeps a world sound.
-/

namespace Callflow

variable {σ : Type}

/-- Whether an event is the timeout of a request. -/
def Event.Expires (e : Event (Callback σ)) (id : RequestId) : Prop :=
  ∃ deadline, e.work = .expire id deadline

/-- Not the timeouts of the same request. -/
def Event.Apart (a b : Event (Callback σ)) : Prop := ∀ id, a.Expires id → ¬ b.Expires id

theorem Event.Apart.symm {a b : Event (Callback σ)} (h : a.Apart b) : b.Apart a :=
  fun id hb ha => h id ha hb

instance : Std.Symm (Event.Apart (σ := σ)) := ⟨fun _ _ h => h.symm⟩

theorem Event.Expires.unique {e : Event (Callback σ)} {id other : RequestId}
    (h : e.Expires id) (k : e.Expires other) : id = other := by
  rcases h with ⟨_, h⟩
  rcases k with ⟨_, k⟩
  rw [h] at k
  cases k
  rfl

namespace World

/-- Timeouts and deadlines fit each other. -/
structure Sound (w : World σ) : Prop where
  agenda : w.agenda.Sound
  waiting : w.Waiting
  -- A timeout is due at the deadline of its request.
  lapses : ∀ e ∈ w.agenda.pending, ∀ id deadline, e.work = .expire id deadline →
    e.kind = .timeout ∧ e.time = deadline ∧
      ∃ r, w.request? id = some r ∧ r.deadline = some deadline
  lone : w.agenda.pending.Pairwise Event.Apart
  -- Whoever waits for a request with a deadline is watched by a timeout.
  watched : ∀ id r deadline next, w.request? id = some r → r.deadline = some deadline →
    w.waiter id = .continuation next → ∃ e ∈ w.agenda.pending, e.Expires id

theorem sound_start (config : SimulationConfig) (memory : σ) : (start config memory).Sound where
  agenda := Agenda.sound_empty
  waiting := ⟨rfl, by simp [waiter, start]⟩
  lapses := by simp [start, Agenda.empty]
  lone := List.Pairwise.nil
  watched := by simp [request?, start]

/-! ## Moves -/

/-- The deadline of a request never changes. -/
theorem Effect.deadline {w v : World σ} {deeds : List (Deed σ)} (h : Effect w v deeds)
    (hw : w.Waiting) {id : RequestId} {r : Request} (hid : w.request? id = some r) :
    ∃ s, v.request? id = some s ∧ s.deadline = r.deadline := by
  rcases h.request hw hid with ⟨_, hv, _⟩ | ⟨time, failure, _, _, hv, _⟩ | ⟨_, _, _, _, hv⟩
  · exact ⟨r, hv, rfl⟩
  · exact ⟨_, hv, rfl⟩
  · exact ⟨r, hv, rfl⟩

theorem Sound.lapses_later {w v : World σ} {deeds : List (Deed σ)} (hw : w.Sound)
    (heffect : Effect w v deeds) {e : Event (Callback σ)} (he : e ∈ w.agenda.pending)
    {id : RequestId} {deadline : Time} (hwork : e.work = .expire id deadline) :
    e.kind = .timeout ∧ e.time = deadline ∧
      ∃ r, v.request? id = some r ∧ r.deadline = some deadline := by
  rcases hw.lapses e he id deadline hwork with ⟨hkind, htime, r, hr, hdeadline⟩
  rcases heffect.deadline hw.waiting hr with ⟨s, hs, hsame⟩
  exact ⟨hkind, htime, s, hs, hsame.trans hdeadline⟩

/-- Whoever waits has waited before, or waits for a new request. -/
theorem Effect.waited {w v : World σ} {deeds : List (Deed σ)} (h : Effect w v deeds)
    (hw : w.Waiting) {id : RequestId} {r : Request} {next : Continuation σ}
    (hid : v.request? id = some r) (hnext : v.waiter id = .continuation next) :
    (w.request? id = some r ∧ w.waiter id = .continuation next) ∨
      (id.number = w.requests.size ∧ v.requests = w.requests.push (some r) ∧
        v.waiters = w.waiters.push (.continuation next)) := by
  cases h with
  | none hr hq _ =>
    rw [request?, hr] at hid
    rw [waiter, hq] at hnext
    exact Or.inl ⟨hid, hnext⟩
  | fresh x y hr hq _ _ _ =>
    rw [request?_of_push hr] at hid
    rw [waiter_of_push hq, hw.paired] at hnext
    by_cases hlast : id.number = w.requests.size
    · rw [if_pos hlast] at hid hnext
      exact Or.inr ⟨hlast, by rw [hr, hid], by rw [hq, hnext]⟩
    · rw [if_neg hlast] at hid hnext
      exact Or.inl ⟨hid, hnext⟩
  | settled time failure hsome _ hr hq _ =>
    rw [waiter_of_set hq] at hnext
    rw [request?_of_set hsome hr] at hid
    split at hnext
    · cases hnext
    · rename_i hother
      rw [if_neg hother] at hid
      exact Or.inl ⟨hid, hnext⟩
  | stale time failure _ _ hr hq _ =>
    rw [request?, hr] at hid
    rw [waiter, hq] at hnext
    exact Or.inl ⟨hid, hnext⟩

/-- A move that leaves the pending events alone and makes no request that a continuation waits for
with a deadline. -/
theorem Sound.still {w v : World σ} {deeds : List (Deed σ)} (hw : w.Sound)
    (heffect : Effect w v deeds) (hagenda : v.agenda.Sound)
    (hpending : v.agenda.pending = w.agenda.pending)
    (hfresh : ∀ r next, v.requests = w.requests.push (some r) →
      v.waiters = w.waiters.push (.continuation next) → r.deadline = none) : v.Sound where
  agenda := hagenda
  waiting := heffect.waiting hw.waiting
  lapses := by
    intro e he id deadline hwork
    rw [hpending] at he
    exact hw.lapses_later heffect he hwork
  lone := by
    rw [hpending]
    exact hw.lone
  watched := by
    intro id r deadline next hr hdeadline hnext
    rw [hpending]
    rcases heffect.waited hw.waiting hr hnext with ⟨hold, hwait⟩ | ⟨_, hpush, hwaiters⟩
    · exact hw.watched id r deadline next hold hdeadline hwait
    · rw [hfresh r next hpush hwaiters] at hdeadline
      cases hdeadline

/-- A move that leaves the pending events alone and makes no request. -/
theorem Sound.calm {w v : World σ} {deeds : List (Deed σ)} (hw : w.Sound)
    (heffect : Effect w v deeds) (hagenda : v.agenda.Sound)
    (hpending : v.agenda.pending = w.agenda.pending)
    (hkept : v.requests.size = w.requests.size) : v.Sound := by
  refine hw.still heffect hagenda hpending ?_
  intro r next hpush _
  rw [hpush, Array.size_push] at hkept
  omega

/-- A further event that is no timeout. -/
theorem Sound.schedule {w v : World σ} {delay : Time} {kind : EventKind} {work : Callback σ}
    {event : EventId} (hw : w.Sound) (h : w.schedule delay kind work = .ok (v, event))
    (hexpire : ∀ id deadline, work ≠ .expire id deadline) : v.Sound := by
  rcases schedule_eq_ok h with ⟨agenda, hagenda, rfl, -⟩
  have hsound := hw.agenda.schedule hagenda
  rcases Agenda.schedule_eq_ok hagenda with ⟨-, rfl⟩
  refine ⟨hsound, ⟨hw.waiting.paired, hw.waiting.awaited⟩, ?_, ?_, ?_⟩
  · intro e he id deadline hwork
    rcases Agenda.mem_insert.1 he with rfl | he
    · exact absurd hwork (hexpire id deadline)
    · exact hw.lapses e he id deadline hwork
  · refine ((Agenda.insert_perm _ _).pairwise_iff Event.Apart.symm).2
      (List.pairwise_cons.2 ⟨?_, hw.lone⟩)
    rintro e _ id ⟨deadline, hwork⟩
    exact absurd hwork (hexpire id deadline)
  · intro id r deadline next hr hdeadline hnext
    rcases hw.watched id r deadline next hr hdeadline hnext with ⟨e, he, hexpires⟩
    exact ⟨e, Agenda.mem_insert.2 (Or.inr he), hexpires⟩

/-- A new request with the timeout that watches it. -/
theorem Sound.watch {w v u : World σ} {caller : Caller} {operation : String} {timeout : Time}
    {next : Continuation σ} {target : Target} {event : EventId} (hw : w.Sound)
    (hsend : (w.issue caller operation (some (w.now + timeout)) (.continuation next)).1.send
      ⟨w.requests.size⟩ target = (v, .ok ()))
    (hwatch : v.schedule timeout .timeout (.expire ⟨w.requests.size⟩ (w.now + timeout)) =
      .ok (u, event)) : u.Sound := by
  have heffect := (Move.watch hsend hwatch).effect
  rcases watch_eq hsend hwatch with ⟨agenda, hdeliver, hexpire, rfl⟩
  have hsound := (hw.agenda.schedule hdeliver).schedule hexpire
  rcases Agenda.schedule_eq_ok hdeliver with ⟨-, hfirst⟩
  rcases Agenda.schedule_eq_ok hexpire with ⟨-, rfl⟩
  -- The events are the old ones, a delivery, and the timeout.
  have hmem {e : Event (Callback σ)} (he : e ∈ v.agenda.pending) :
      e ∈ w.agenda.pending ∨ ∀ id, ¬ e.Expires id := by
    rw [hfirst] at he
    rcases Agenda.mem_insert.1 he with rfl | he
    · right
      rintro id ⟨_, hwork⟩
      cases hwork
    · exact Or.inl he
  have hnow : v.agenda.now = w.now := by rw [hfirst]; rfl
  -- None of them has the number of the new request, which has not been given before.
  have hnew : ∀ e ∈ v.agenda.pending, ¬ e.Expires ⟨w.requests.size⟩ := by
    rintro e he ⟨deadline, hwork⟩
    rcases hmem he with hold | hnone
    · rcases hw.lapses e hold _ deadline hwork with ⟨-, -, r, hr, -⟩
      exact absurd (request?_lt hr) (lt_irrefl _)
    · exact hnone _ ⟨deadline, hwork⟩
  have hlone : v.agenda.pending.Pairwise Event.Apart := by
    rw [hfirst]
    refine ((Agenda.insert_perm _ _).pairwise_iff Event.Apart.symm).2
      (List.pairwise_cons.2 ⟨?_, hw.lone⟩)
    rintro e _ id ⟨deadline, hwork⟩
    cases hwork
  refine ⟨hsound, heffect.waiting hw.waiting, ?_, ?_, ?_⟩
  · intro e he id deadline hwork
    rcases Agenda.mem_insert.1 he with rfl | he
    · cases hwork
      exact ⟨rfl, by rw [hnow], _, request?_issue w caller operation _ (.continuation next), rfl⟩
    · rcases hmem he with hold | hnone
      · exact hw.lapses_later heffect hold hwork
      · exact absurd ⟨deadline, hwork⟩ (hnone id)
  · refine ((Agenda.insert_perm _ _).pairwise_iff Event.Apart.symm).2
      (List.pairwise_cons.2 ⟨?_, hlone⟩)
    intro e he id hexpires
    have hid := hexpires.unique ⟨_, rfl⟩
    rw [hid]
    exact hnew e he
  · intro id r deadline waiting hr hdeadline hnext
    rcases heffect.waited hw.waiting hr hnext with ⟨hold, hwait⟩ | ⟨hlast, _, _⟩
    · rcases hw.watched id r deadline waiting hold hdeadline hwait with ⟨e, he, hexpires⟩
      refine ⟨e, Agenda.mem_insert.2 (Or.inr ?_), hexpires⟩
      rw [hfirst]
      exact Agenda.mem_insert.2 (Or.inr he)
    · refine ⟨_, Agenda.mem_insert.2 (Or.inl rfl), w.now + timeout, ?_⟩
      cases id
      cases hlast
      rfl

/-- The timeout of a request leaves the agenda only when nobody waits for the request any more. -/
theorem Sound.drop {w v : World σ} {deeds : List (Deed σ)} {horizon : Time}
    {e : Event (Callback σ)} (hw : w.Sound) (heffect : Effect w v deeds)
    (htake : w.agenda.take? horizon = some (e, v.agenda))
    (hkept : v.requests.size = w.requests.size)
    (hlapsed : ∀ id next, e.Expires id → v.waiter id ≠ .continuation next) : v.Sound := by
  have hsound := hw.agenda.take? htake
  rcases Agenda.take?_eq_some htake with ⟨rest, hpending, -, hagenda⟩
  have hrest : v.agenda.pending = rest := by rw [hagenda]
  have hmem : ∀ x ∈ rest, x ∈ w.agenda.pending := by
    intro x hx
    rw [hpending]
    exact List.mem_cons_of_mem _ hx
  have hlone := hw.lone
  rw [hpending] at hlone
  refine ⟨hsound, heffect.waiting hw.waiting, ?_, ?_, ?_⟩
  · intro x hx id deadline hwork
    rw [hrest] at hx
    exact hw.lapses_later heffect (hmem x hx) hwork
  · rw [hrest]
    exact (List.pairwise_cons.1 hlone).2
  · intro id r deadline next hr hdeadline hnext
    rw [hrest]
    rcases heffect.waited hw.waiting hr hnext with ⟨hold, hwait⟩ | ⟨_, hpush, _⟩
    · -- Only the event that is taken could be missed, and nobody waits for its request.
      rcases hw.watched id r deadline next hold hdeadline hwait with ⟨x, hx, hexpires⟩
      rw [hpending] at hx
      rcases List.mem_cons.1 hx with rfl | hx
      · exact absurd hnext (hlapsed id next hexpires)
      · exact ⟨x, hx, hexpires⟩
    · rw [hpush, Array.size_push] at hkept
      omega

theorem Move.sound {w v : World σ} {deeds : List (Deed σ)} (h : Move w deeds v) (hw : w.Sound) :
    v.Sound := by
  have heffect := h.effect
  cases h with
  | define _ => exact hw.calm heffect hw.agenda rfl rfl
  | arrange _ _ _ _ => exact hw.calm heffect hw.agenda rfl rfl
  | record _ => exact hw.calm heffect hw.agenda rfl rfl
  | announce _ _ _ _ => exact hw.calm heffect hw.agenda rfl rfl
  | allocate =>
    refine hw.still heffect hw.agenda rfl ?_
    intro r next hr _
    cases Array.push_inj_right.1 hr
  | issue caller operation deadline waiter hnone =>
    refine hw.still heffect hw.agenda rfl ?_
    intro r next hr hwaiter
    cases Array.push_inj_right.1 hr
    exact hnone next (Array.push_inj_right.1 hwaiter)
  | watch hsend hwatch => exact hw.watch hsend hwatch
  | schedule hs hexpire => exact hw.schedule hs hexpire
  | @settle id r failure hr hp =>
    have hagenda := settle_agenda w id failure
    exact hw.calm heffect (by rw [hagenda]; exact hw.agenda) (by rw [hagenda]) (settle_size ..)
  | @stale id r failure hr hp =>
    have hagenda := settle_agenda w id failure
    exact hw.calm heffect (by rw [hagenda]; exact hw.agenda) (by rw [hagenda]) (settle_size ..)
  | take ht hlapsed =>
    -- If the event is a timeout, its request has settled, and nobody waits for it.
    refine hw.drop heffect ht rfl ?_
    rintro id next ⟨deadline, hwork⟩ hnext
    have hsome : w.waiter id ≠ .nobody := by
      intro hnobody
      rw [show w.waiter id = .continuation next from hnext] at hnobody
      cases hnobody
    rcases hw.waiting.awaited id hsome with ⟨r, hr, hp⟩
    rw [hlapsed id deadline r hwork hr] at hp
    cases hp
  | @expire horizon e agenda id deadline r ht hwork hr hp =>
    -- The timeout settles its request, and whoever has waited is taken out.
    have hentered : (w.enter e agenda).request? id = some r := hr
    refine hw.drop heffect (by rw [settle_agenda]; exact ht) (settle_size ..) ?_
    intro other next hexpires hnext
    rw [hexpires.unique ⟨deadline, hwork⟩, settle_pending _ hentered hp, waiter_of_set rfl,
      if_pos rfl] at hnext
    cases hnext
  | advance hn =>
    rcases Agenda.advance_pending w.agenda _ with ⟨hpending, -⟩
    exact hw.calm heffect (hw.agenda.advance hn) hpending rfl

theorem Path.sound {w v : World σ} {deeds : List (Deed σ)} (h : Path w deeds v) (hw : w.Sound) :
    v.Sound := by
  induction h with
  | refl => exact hw
  | move _ hm ih => exact hm.sound ih

/-! ## Waiting until the deadline -/

/-- A continuation waits for a request with a deadline. -/
def Awaits (w : World σ) (id : RequestId) (deadline : Time) (next : Continuation σ) : Prop :=
  ∃ r, w.request? id = some r ∧ r.isPending = true ∧ r.deadline = some deadline ∧
    w.waiter id = .continuation next

/-- There is one timeout for a request that is awaited until a deadline: an event at just that time,
which the clock has not passed. -/
theorem Sound.timeout {w : World σ} (hw : w.Sound) {id : RequestId} {deadline : Time}
    {next : Continuation σ} (h : w.Awaits id deadline next) :
    ∃ e ∈ w.agenda.pending, e.kind = .timeout ∧ e.work = .expire id deadline ∧
      e.time = deadline ∧ (∀ x ∈ w.agenda.pending, x.Expires id → x = e) ∧ w.now ≤ deadline := by
  rcases h with ⟨r, hr, _, hdeadline, hnext⟩
  rcases hw.watched id r deadline next hr hdeadline hnext with ⟨e, he, d, hwork⟩
  rcases hw.lapses e he id d hwork with ⟨hkind, htime, s, hs, hd⟩
  rw [hr] at hs
  cases hs
  rw [hdeadline] at hd
  cases hd
  refine ⟨e, he, hkind, hwork, htime, ?_, ?_⟩
  · -- Two timeouts of one request would not be apart.
    intro x hx hexpires
    by_contra hne
    exact hw.lone.forall hx he hne id hexpires ⟨_, hwork⟩
  · rw [← htime]
    exact (Time.le_iff hw.agenda.clock (hw.agenda.reading e he)).2 (hw.agenda.due e he)

end World
end Callflow
