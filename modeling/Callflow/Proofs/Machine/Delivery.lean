import Callflow.Proofs.Agenda.Fifo
import Callflow.Proofs.Machine.Dispatch
import Callflow.Proofs.Machine.Ledger
import Mathlib.Data.List.Basic

/-!
# Requests are delivered once

Where no target needs time to be reached, the deliveries are a queue: whatever the programs and the
host do, the requests are delivered in the order in which they were handed over, each once, to the
target that the symbol stood for then, and before the clock moves on: `Life.delivered_once`.
-/

namespace Callflow

variable {σ : Type}

namespace Event

/-- The request that an event delivers, as one that has needed no time to arrive. -/
def sending? (e : Event (Callback σ)) : Option Sending :=
  match e.work with
  | .deliver request target => some ⟨request, target, e.time, 0.0⟩
  | _ => none

/-- Whether an event delivers a request. -/
def delivers (id : RequestId) (e : Event (Callback σ)) : Bool :=
  e.sending?.any fun s => s.request = id

theorem sending?_eq_some {e : Event (Callback σ)} {s : Sending} (h : e.sending? = some s) :
    e.work = .deliver s.request s.target ∧ e.time = s.time := by
  unfold sending? at h
  split at h
  · rename_i request target hwork
    cases h
    exact ⟨hwork, rfl⟩
  · cases h

end Event

namespace Machine

open World (Deed Path Sends)

/-- The request that the next transition delivers, if it takes such an event. -/
def delivery? (m : Machine σ) : Option Sending := m.taken?.bind Event.sending?

theorem delivery?_spec {m : Machine σ} {s : Sending} (h : m.delivery? = some s) :
    s ∈ m.world.agenda.pending.filterMap Event.sending? ∧
      ∃ w stack, m.step = some (process w stack s.request s.target) ∧ w.now = s.time := by
  rcases Option.bind_eq_some_iff.1 h with ⟨e, htaken, hsending⟩
  rcases taken?_spec htaken with ⟨hmem, w, stack, hstep, hnow⟩
  rcases Event.sending?_eq_some hsending with ⟨hwork, htime⟩
  rw [hwork] at hstep
  exact ⟨List.mem_filterMap.2 ⟨e, hmem, hsending⟩, w, stack, hstep, hnow.trans htime⟩

/-! ## Arrivals -/

theorem agenda?_eq_some {d : Deed σ} {deed : Agenda.Deed (Callback σ)}
    (h : d.agenda? = some deed) : d = .agenda deed := by
  cases d <;> cases h
  rfl

theorem mem_log {deeds : List (Deed σ)} {deed : Agenda.Deed (Callback σ)}
    (h : deed ∈ deeds.filterMap Deed.agenda?) : .agenda deed ∈ deeds := by
  rcases List.mem_filterMap.1 h with ⟨d, hmem, hd⟩
  rw [agenda?_eq_some hd] at hmem
  exact hmem

/-- A request that needs no time arrives when it is handed over. -/
theorem Ledger.arrives {a b : Machine σ} {past : List (Machine σ)} {deeds : List (Deed σ)}
    (h : Ledger a past deeds b) (ha : a.world.agenda.Sound) {clock delay : Time}
    {e : Event (Callback σ)} {request : RequestId} {target : Target}
    (hmem : .agenda (.scheduled clock delay e) ∈ deeds) (hwork : e.work = .deliver request target) :
    ⟨request, target, clock, delay⟩ ∈ past.flatMap Machine.sends ∧ (delay = 0.0 → e.time = clock) := by
  constructor
  · rw [← h.sends.handed]
    exact List.mem_filterMap.2 ⟨_, hmem, by simp only [Deed.sending?, hwork]⟩
  · intro hzero
    have hlog : .scheduled clock delay e ∈ deeds.filterMap Deed.agenda? :=
      List.mem_filterMap.2 ⟨_, hmem, rfl⟩
    rcases h.path.agenda.scheduled ha clock delay e hlog with ⟨hread, htime⟩
    rw [hzero, hread.add_zero] at htime
    exact htime

theorem filter_filterMap {β γ : Type} (f : β → Option γ) (q : γ → Bool) (l : List β) :
    (l.filterMap f).filter q = l.filterMap fun x => (f x).filter q := by
  induction l with
  | nil => rfl
  | cons x rest ih =>
    cases hx : f x with
    | none => simp [hx, ih]
    | some y => by_cases hq : q y <;> simp [hx, hq, ih, Option.filter]

/-- The events that are scheduled for some requests are those that deliver them at once. -/
theorem Ledger.scheduled {a b : Machine σ} {past : List (Machine σ)} {deeds : List (Deed σ)}
    (h : Ledger a past deeds b) (ha : a.world.agenda.Sound) (q : RequestId → Bool)
    (hzero : ∀ s ∈ past.flatMap Machine.sends, q s.request = true → s.transit = 0.0) :
    ((Agenda.schedules (deeds.filterMap Deed.agenda?)).filterMap Event.sending?).filter
        (fun s => q s.request) = (past.flatMap Machine.sends).filter fun s => q s.request := by
  rw [← h.sends.handed, Agenda.schedules, List.filterMap_filterMap, List.filterMap_filterMap,
    filter_filterMap, filter_filterMap]
  apply List.filterMap_congr
  intro d hd
  cases d with
  | agenda deed =>
    cases deed with
    | scheduled clock delay e =>
      cases hwork : e.work with
      | deliver request target =>
        cases hq : q request with
        | false =>
          simp [Deed.agenda?, Agenda.Deed.scheduled?, Event.sending?, Deed.sending?, hwork, hq,
            Option.filter]
        | true =>
          -- The sending tells the time of the event, as the request needs no time.
          rcases h.arrives ha hd hwork with ⟨hmem, harrives⟩
          have hdelay : delay = 0.0 := hzero _ hmem hq
          simp [Deed.agenda?, Agenda.Deed.scheduled?, Event.sending?, Deed.sending?, hwork,
            harrives hdelay, hdelay]
      | _ => simp [Deed.agenda?, Agenda.Deed.scheduled?, Event.sending?, Deed.sending?, hwork]
    | taken e => rfl
    | advanced horizon => rfl
  | _ => rfl

theorem Ledger.delivered {a b : Machine σ} {past : List (Machine σ)} {deeds : List (Deed σ)}
    (h : Ledger a past deeds b) :
    (Agenda.takes (deeds.filterMap Deed.agenda?)).filterMap Event.sending? =
      past.filterMap delivery? := by
  rw [h.takes, List.filterMap_filterMap]
  rfl

/-- Some requests that need no time are delivered or queued, each as often as it was handed over. -/
theorem Life.delivered_or_queued {config : SimulationConfig} {memory : σ}
    {past : List (Machine σ)} {m : Machine σ} (h : Life (idle (World.start config memory)) past m)
    (q : RequestId → Bool)
    (hzero : ∀ s ∈ past.flatMap sends, q s.request = true → s.transit = 0.0) :
    ((past.filterMap delivery?).filter (fun s => q s.request) ++
        (m.world.agenda.pending.filterMap Event.sending?).filter fun s => q s.request).Perm
      ((past.flatMap sends).filter fun s => q s.request) := by
  rcases h.sendings with ⟨deeds, hledger⟩
  have hperm := (hledger.path.agenda.perm.filterMap Event.sending?).filter fun s => q s.request
  rw [List.filterMap_append, List.filter_append, hledger.delivered] at hperm
  rw [← hledger.scheduled Agenda.sound_empty q hzero]
  exact hperm

/-! ## The queue of deliveries -/

/-- What becomes of the events that deliver requests. -/
structure Delivering (past : List (Machine σ)) (m : Machine σ) : Prop where
  order : past.flatMap sends =
    past.filterMap delivery? ++ m.world.agenda.pending.filterMap Event.sending?
  due : ∀ e ∈ m.world.agenda.pending, e.sending?.isSome = true → e.time = m.world.now
  kind : ∀ e ∈ m.world.agenda.pending, e.sending?.isSome = true → e.kind = .delivery

theorem filterMap_filter_isSome {β γ : Type} (f : β → Option γ) (l : List β) :
    (l.filter fun x => (f x).isSome).filterMap f = l.filterMap f := by
  induction l with
  | nil => rfl
  | cons x rest ih => cases hx : f x <;> simp [hx, ih]

theorem Life.delivering {config : SimulationConfig} {memory : σ} {past : List (Machine σ)}
    {m : Machine σ} (h : Life (idle (World.start config memory)) past m)
    (hdirect : m.world.store.Direct) : Delivering past m := by
  rcases h.sendings with ⟨deeds, hledger⟩
  have hagenda := hledger.path.agenda
  have htransit := h.transit hdirect
  have hqueue : Agenda.Queued (fun e => e.sending?.isSome) (deeds.filterMap Deed.agenda?)
      m.world.agenda := by
    refine hagenda.queue ?_
    intro clock delay e hlog hcarries
    rcases Option.isSome_iff_exists.1 hcarries with ⟨s, hs⟩
    rcases hledger.arrives Agenda.sound_empty (mem_log hlog) (Event.sending?_eq_some hs).1 with
      ⟨hmem, harrives⟩
    exact harrives (htransit _ hmem)
  refine ⟨?_, hqueue.due, ?_⟩
  · have hscheduled := hledger.scheduled Agenda.sound_empty (fun _ => true)
      fun s hs _ => htransit s hs
    rw [List.filter_true, List.filter_true] at hscheduled
    have horder := congrArg (List.filterMap Event.sending?) hqueue.order
    rw [List.filterMap_append, filterMap_filter_isSome, filterMap_filter_isSome,
      filterMap_filter_isSome, hscheduled, hledger.delivered] at horder
    exact horder
  · intro e he hcarries
    rcases hagenda.planned.2 e he with hstart | ⟨clock, delay, hlog, _⟩
    · cases hstart
    · rcases Option.isSome_iff_exists.1 hcarries with ⟨s, hs⟩
      exact hledger.sends.kind clock delay e _ _ (mem_log hlog) (Event.sending?_eq_some hs).1

/-! ## One delivery for each request -/

/-- A request that the host does not hand over is handed over once. -/
theorem Life.handed_once {a b : Machine σ} {past : List (Machine σ)} (h : Life a past b)
    {s : Sending} (hs : s ∈ (callsOf past).filterMap Call.sending?)
    (hhost : ∀ x ∈ past, ∀ t, x.handed? = some t → t.request ≠ s.request) :
    (past.flatMap sends).filter (fun t => t.request = s.request) = [s] := by
  have hcalls : (past.flatMap sends).filter (fun t => t.request = s.request) =
      ((callsOf past).filterMap Call.sending?).filter fun t => t.request = s.request := by
    rw [callsOf, List.filterMap_flatMap, List.filter_flatMap, List.filter_flatMap]
    apply List.flatMap_congr
    intro x hx
    have hnone : x.handed?.toList.filter (fun t => t.request = s.request) = [] := by
      rw [List.filter_eq_nil_iff]
      intro t ht
      simpa using hhost x hx t (Option.mem_toList.1 ht)
    rw [sends, List.filter_append, hnone, List.nil_append]
  rw [hcalls]
  rcases List.append_of_mem hs with ⟨earlier, later, hsplit⟩
  have hordered := h.numbered.2.2
  rw [hsplit, List.pairwise_append] at hordered
  rcases hordered with ⟨-, hlater, hearlier⟩
  -- The numbers before are smaller, and those after are greater.
  have hnone : earlier.filter (fun t => t.request = s.request) = [] := by
    rw [List.filter_eq_nil_iff]
    intro t ht heq
    have hlt := hearlier t ht s (by simp)
    rw [of_decide_eq_true heq] at hlt
    exact lt_irrefl _ hlt
  have hmore : later.filter (fun t => t.request = s.request) = [] := by
    rw [List.filter_eq_nil_iff]
    intro t ht heq
    have hlt := (List.pairwise_cons.1 hlater).1 t ht
    rw [of_decide_eq_true heq] at hlt
    exact lt_irrefl _ hlt
  rw [hsplit, List.filter_append, List.filter_cons_of_pos (by simp), hnone, hmore]
  rfl

theorem filter_sending? (id : RequestId) (events : List (Event (Callback σ))) :
    (events.filterMap Event.sending?).filter (fun s => s.request = id) =
      (events.filter (Event.delivers id)).filterMap Event.sending? := by
  induction events with
  | nil => rfl
  | cons e rest ih =>
    cases he : e.sending? with
    | none => simp [Event.delivers, he, ih]
    | some s => by_cases hid : s.request = id <;> simp [Event.delivers, he, hid, ih]

/-- One event for one request. -/
theorem event_of_sending {events : List (Event (Callback σ))} {s : Sending}
    (h : (events.filterMap Event.sending?).filter (fun t => t.request = s.request) = [s]) :
    ∃ e ∈ events, events.filter (Event.delivers s.request) = [e] ∧ e.sending? = some s := by
  rw [filter_sending?] at h
  have hmatch : ∀ e ∈ events.filter (Event.delivers s.request), ∃ t, e.sending? = some t := by
    intro e he
    rcases (Option.any_eq_true _ _).1 (List.mem_filter.1 he).2 with ⟨t, ht, -⟩
    exact ⟨t, ht⟩
  cases hlist : events.filter (Event.delivers s.request) with
  | nil =>
    rw [hlist] at h
    cases h
  | cons e rest =>
    have hmem : e ∈ events.filter (Event.delivers s.request) := by simp [hlist]
    rw [hlist] at h hmatch
    rcases hmatch e (by simp) with ⟨t, ht⟩
    rw [List.filterMap_cons_some ht] at h
    rcases List.cons.inj h with ⟨rfl, hnil⟩
    have hrest : rest = [] := by
      cases rest with
      | nil => rfl
      | cons other more =>
        rcases hmatch other (by simp) with ⟨u, hu⟩
        rw [List.filterMap_cons_some hu] at hnil
        cases hnil
    exact ⟨e, (List.mem_filter.1 hmem).1, by rw [hrest], ht⟩

theorem Delivering.queued_once {past : List (Machine σ)} {m : Machine σ} (h : Delivering past m)
    {s : Sending} (hone : (past.flatMap sends).filter (fun t => t.request = s.request) = [s])
    (hnot : s ∉ past.filterMap delivery?) :
    ∃ e, m.world.agenda.pending.filter (Event.delivers s.request) = [e] ∧ e.kind = .delivery ∧
      e.work = .deliver s.request s.target ∧ e.time = s.time ∧ m.world.now = s.time := by
  have hqueued : (m.world.agenda.pending.filterMap Event.sending?).filter
      (fun t => t.request = s.request) = [s] := by
    have hboth := hone
    rw [h.order, List.filter_append] at hboth
    -- It is one of the two, and it has not been delivered.
    cases hdelivered : (past.filterMap delivery?).filter (fun t => t.request = s.request) with
    | nil =>
      rw [hdelivered, List.nil_append] at hboth
      exact hboth
    | cons t rest =>
      rw [hdelivered, List.cons_append] at hboth
      have hmem : t ∈ (past.filterMap delivery?).filter fun t => t.request = s.request := by
        simp [hdelivered]
      rw [(List.cons.inj hboth).1] at hmem
      exact absurd (List.mem_filter.1 hmem).1 hnot
  rcases event_of_sending hqueued with ⟨e, hpending, hlist, hsending⟩
  have hcarries : e.sending?.isSome = true := by simp [hsending]
  rcases Event.sending?_eq_some hsending with ⟨hwork, htime⟩
  exact ⟨e, hlist, h.kind e hpending hcarries, hwork, htime,
    (h.due e hpending hcarries).symm.trans htime⟩

/-- An accepted call hands its request to the target that the symbol stands for by then. -/
theorem sending?_of_call {c : Call σ} {s : Sending} (h : c.sending? = some s) :
    c.world.resolve c.inUse c.frame c.next c.symbol = .ok s.target ∧ s.request = c.request ∧
      s.time = c.world.now := by
  rcases Option.bind_eq_some_iff.1 h with ⟨target, htarget, hsending⟩
  rw [World.sending?_request hsending]
  exact ⟨Call.resolve_of_target? htarget, rfl, rfl⟩

/-- Where no target needs time to be reached, in the whole life of a simulation:

* the requests that were handed over, by triggers and queries and by the host, are those that have
  been delivered and, after them, those that are queued, all in the order of their issue;
* a trigger or a query hands its request to the target that the symbol stands for when it is
  evaluated, at the time of the clock by then;
* an event that delivers a request has the target process it, at the time of the issue, and the
  request was handed over by a transition before;
* triggers and queries make different requests;
* for a request of a trigger or a query that has not been delivered, and that the host does not hand
  over a second time, there is one delivery in the agenda, and it is due now. -/
theorem Life.delivered_once {config : SimulationConfig} {memory : σ} {past : List (Machine σ)}
    {m : Machine σ} (h : Life (idle (World.start config memory)) past m)
    (hdirect : m.world.store.Direct) :
    past.flatMap sends =
      past.filterMap delivery? ++ m.world.agenda.pending.filterMap Event.sending? ∧
    (∀ c ∈ callsOf past, ∀ s, c.sending? = some s →
      c.world.resolve c.inUse c.frame c.next c.symbol = .ok s.target ∧ s.request = c.request ∧
        s.time = c.world.now) ∧
    (∀ before x after s, past = before ++ x :: after → x.delivery? = some s →
      s ∈ before.flatMap sends ∧
      ∃ w stack, x.step = some (process w stack s.request s.target) ∧ w.now = s.time) ∧
    (((callsOf past).filterMap Call.sending?).Pairwise fun s t =>
      s.request.number < t.request.number) ∧
    ∀ s ∈ (callsOf past).filterMap Call.sending?,
      (∀ x ∈ past, ∀ t, x.handed? = some t → t.request ≠ s.request) →
        s ∉ past.filterMap delivery? →
        ∃ e, m.world.agenda.pending.filter (Event.delivers s.request) = [e] ∧
          e.kind = .delivery ∧ e.work = .deliver s.request s.target ∧ e.time = s.time ∧
          m.world.now = s.time := by
  have hdelivering := h.delivering hdirect
  refine ⟨hdelivering.order, fun c _ s hs => sending?_of_call hs, ?_, h.numbered.2.2, ?_⟩
  · rintro before x after s rfl hdelivery
    rcases h.cut with ⟨hbefore, y, hnext, hafter⟩
    rcases delivery?_spec hdelivery with ⟨hmem, hstep⟩
    refine ⟨?_, hstep⟩
    -- The stores only grow, so no target has needed time before either.
    rcases (Life.refl.next hnext).sendings with ⟨_, hone⟩
    rcases hafter.sendings with ⟨_, hrest⟩
    have hx := (hone.path.trans hrest.path).grows.direct hdirect
    rw [(hbefore.delivering hx).order]
    exact List.mem_append_right _ hmem
  · intro s hs hhost hnot
    exact hdelivering.queued_once (h.handed_once hs hhost) hnot

/-- Host code that calls a target twice, binds the symbol to another one, and calls that one. -/
def rebinding : Script Unit :=
  .bind "t" "first" 0.0 (fun _ => .done) fun _ =>
    .evaluate (.sequence [.trigger "t" "work", .query "t" "work" none]) .host (fun _ => .done)
      fun _ =>
        .bind "t" "second" 0.0 (fun _ => .done) fun _ =>
          .evaluate (.trigger "t" "work") .host (fun _ => .done) fun _ => .run 0.0 fun _ => .done

theorem rebinding_delivered_once :
    let start := World.start ⟨true, none⟩ ()
    let past := [idle start] ++ trail 14 ⟨start, [], .code rebinding⟩
    let m := run 14 ⟨start, [], .code rebinding⟩
    ((past.flatMap sends).map fun s => (s.request.number, s.target)) =
      [(0, .endpoint ⟨0⟩), (1, .endpoint ⟨0⟩), (2, .endpoint ⟨1⟩)] ∧
    (past.filterMap delivery?).length = 2 ∧
    past.flatMap sends =
      past.filterMap delivery? ++ m.world.agenda.pending.filterMap Event.sending? := by
  have hlife := (Life.refl.next (.call rebinding rfl)).trans (life_run 14
    ⟨(idle (World.start ⟨true, none⟩ ())).world, [], .code rebinding⟩)
  have hdirect : (run 14 ⟨World.start ⟨true, none⟩ (), [], .code rebinding⟩).world.store.Direct := by
    decide +kernel
  exact ⟨by decide +kernel, by decide +kernel, (hlife.delivered_once hdirect).1⟩

end Machine
end Callflow
