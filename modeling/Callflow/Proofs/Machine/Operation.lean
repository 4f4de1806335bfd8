import Callflow.Proofs.Machine.Delivery
import Callflow.Proofs.Machine.Settlement
import Callflow.Proofs.Machine.Stock
import Callflow.Proofs.Store.Resolution

/-!
# A query behaves like the body of the operation

A query to a service has the body of the operation evaluated, once, at the time of the query, in a
fresh scope of the service; and the continuation of the query goes on in the very event in which the
body resolves: `Querying.runs_body`.

What makes this so is that nothing else replies to the request: no host code has it, nothing has been
scheduled that would reply to it, it has no deadline, and the continuations that would reply to it are
begun by its deliveries (`Life.stock`), of which there is one (`Life.delivered_or_queued`).
-/

namespace Callflow

variable {σ : Type}

/-- What the caller of an operation learns of the outcome of its body. -/
def Outcome.replied : Outcome → Outcome
  | .success _ => .success .unit
  | .failure cause => .failure cause

/-! ## The request of a query -/

namespace Call

/-- The request of a call without a timeout, as it is made. -/
def issued (c : Call σ) : Request :=
  .issue c.request c.frame.caller c.operation c.world.now none

/-- A request to a service needs no time. -/
theorem sending?_service {c : Call σ} {id : ServiceId} (h : c.target? = some (.service id)) :
    c.sending? = some ⟨c.request, .service id, c.world.now, 0.0⟩ := by
  have hzero : 0.0 + c.world.store.transit (.service id) = 0.0 := by
    have htransit : c.world.store.transit (.service id) = 0.0 := rfl
    rw [htransit]
    rfl
  have hcheck : Time.checkDelay 0.0 = .ok () := rfl
  simp only [sending?, h, Option.bind_some, World.sending?, hzero, hcheck]

/-- The continuation of a query without a timeout waits for its request. -/
theorem waits {c : Call σ} {target : Target} (hw : c.world.Waiting)
    (hmanner : c.manner = .query none) (htarget : c.target? = some target) :
    c.perform.1.request? c.request = some c.issued ∧
      c.perform.1.waiter c.request = .continuation c.next := by
  rcases c with ⟨w, inUse, frame, next, symbol, operation, manner⟩
  cases hmanner
  have hissued := World.request?_issue w frame.caller operation none (.continuation next)
  have hwaiter : (w.issue frame.caller operation none (.continuation next)).1.waiter
      ⟨w.requests.size⟩ = .continuation next := by
    rw [World.waiter_of_push rfl, hw.paired, if_pos rfl]
  -- Handing the request over leaves it as it is.
  have hsent (other : Target) :
      ((w.issue frame.caller operation none (.continuation next)).1.send
          ⟨w.requests.size⟩ other).1.request? ⟨w.requests.size⟩ =
        some (.issue ⟨w.requests.size⟩ frame.caller operation w.now none) ∧
      ((w.issue frame.caller operation none (.continuation next)).1.send
          ⟨w.requests.size⟩ other).1.waiter ⟨w.requests.size⟩ = .continuation next := by
    rcases World.send_requests (w.issue frame.caller operation none (.continuation next)).1
      ⟨w.requests.size⟩ other with ⟨hrequests, hwaiters⟩
    rw [World.request?, hrequests, World.waiter, hwaiters]
    exact ⟨hissued, hwaiter⟩
  show (w.query inUse symbol operation none frame next).1.request? ⟨w.requests.size⟩ = _ ∧
    (w.query inUse symbol operation none frame next).1.waiter ⟨w.requests.size⟩ = _
  generalize hquery : w.query inUse symbol operation none frame next = e
  rcases e with ⟨u, result⟩
  rcases World.query_cases hquery with
    ⟨_, _, _, hrejected⟩ | ⟨other, _, _, _, _, hsend⟩ | ⟨other, _, _, _, hsend⟩ |
    ⟨_, _, _, _, habsurd, _⟩
  · -- The call has been accepted.
    cases hresolve : w.resolve inUse frame next symbol with
    | error e => simp [target?, hresolve] at htarget
    | ok other =>
      rcases hrejected other hresolve with ⟨_, habsurd, _⟩
      cases habsurd
  · have hu := hsent other
    rw [hsend] at hu
    exact hu
  · have hu := hsent other
    rw [hsend] at hu
    exact hu
  · cases habsurd

end Call

namespace Machine

open World (Deed Path)

/-! ## Who replies -/

theorem handles?_of_handed? {m : Machine σ} {s : Sending} (h : m.handed? = some s) :
    m.handles? = some s.request := by
  unfold handed? at h
  split at h
  · rename_i request target next hfocus
    rcases Option.bind_eq_some_iff.1 h with ⟨_, _, hsending⟩
    rw [World.sending?_request hsending, handles?, hfocus]
  · cases h

/-- A reply comes from the host, from an operation that has ended, or from an event that has been
scheduled for it. -/
theorem answer?_cases {m : Machine σ} {a : Answer σ} (h : m.answer? = some a) :
    m.handles? = some a.request ∨ (∃ outcome, m.focus = .resume (.reply a.request) outcome) ∨
      ∃ e, m.taken? = some e ∧ ((∃ failure, e.work = .reply a.request failure) ∨
        ∃ deadline, e.work = .expire a.request deadline) := by
  unfold answer? at h
  split at h
  · rename_i request failure next hfocus
    cases h
    left
    simp [handles?, hfocus]
  · rename_i request value hfocus
    cases h
    exact Or.inr (Or.inl ⟨_, hfocus⟩)
  · rename_i request cause hfocus
    cases h
    exact Or.inr (Or.inl ⟨_, hfocus⟩)
  · rcases Option.bind_eq_some_iff.1 h with ⟨t, hturn, hanswer⟩
    refine Or.inr (Or.inr ⟨t.event, by rw [taken?, hturn]; rfl, ?_⟩)
    unfold Turn.answer? at hanswer
    split at hanswer
    · rename_i request failure hwork
      cases hanswer
      exact Or.inl ⟨failure, hwork⟩
    · rename_i request deadline hwork
      split at hanswer
      · cases hanswer
        exact Or.inr ⟨deadline, hwork⟩
      · cases hanswer
    · cases hanswer

/-- The outcome of an operation is a reply to the request that it serves. -/
theorem answer?_of_ended {m : Machine σ} {request : RequestId} {outcome : Outcome}
    (h : m.focus = .resume (.reply request) outcome) :
    ∃ a, m.answer? = some a ∧ a.request = request ∧ a.world = m.world ∧
      Outcome.ofReply a.failure = outcome.replied := by
  rcases m with ⟨w, stack, focus⟩
  cases h
  cases outcome with
  | success value => exact ⟨_, rfl, rfl, rfl, rfl⟩
  | failure cause => exact ⟨_, rfl, rfl, rfl, rfl⟩

/-- Where the host does not handle a request, no reply to it is ever scheduled. -/
theorem Life.unreplied {a b : Machine σ} {past : List (Machine σ)} (h : Life a past b)
    {id : RequestId}
    (ha : ∀ e ∈ a.world.agenda.pending, ∀ failure, e.work ≠ .reply id failure)
    (hhost : ∀ x ∈ past, x.handles? ≠ some id) :
    ∀ e ∈ b.world.agenda.pending, ∀ failure, e.work ≠ .reply id failure := by
  induction h with
  | refl => exact ha
  | @next past b c _ hn ih =>
    have hbefore := ih fun x hx => hhost x (List.mem_append_left _ hx)
    rcases hn.leads with ⟨deeds, v, hbegins, hcourse, -⟩
    rcases hcourse.hands.deeds with ⟨more, hmore, hquiet, -⟩
    intro e he failure hwork
    rcases (hbegins.path.trans hmore).agenda.planned.2 e he with hold | ⟨clock, delay, hlog, _⟩
    · exact hbefore e hold failure hwork
    · rcases List.mem_append.1 (mem_log hlog) with hmem | hmem
      · exact hhost b (by simp) (hbegins.replies clock delay e id failure hmem hwork)
      · -- Evaluations have nobody reply later.
        have hown := hquiet _ hmem
        simp [Deed.isQuiet, hwork, Callback.fromHost] at hown

/-! ## Queries to a service -/

/-- Whether a continuation replies to a request in the end. -/
def serves (id : RequestId) : Continuation σ → Bool
  | .reply request => request = id
  | _ => false

/-- A life with a query without a timeout that is accepted, in the transition from `m` to `m₁`, for a
service. Only the service is given its request: no host code of the life handles a request of this
number. -/
structure Querying (config : SimulationConfig) (memory : σ) (early : List (Machine σ))
    (m m₁ : Machine σ) (c : Call σ) (id : ServiceId) (past : List (Machine σ)) (n : Machine σ) :
    Prop where
  before : Life (idle (World.start config memory)) early m
  step : m.step = some m₁
  call : c ∈ m.calls
  manner : c.manner = .query none
  target : c.target? = some (.service id)
  after : Life m₁ past n
  unhandled : ∀ x ∈ early ++ m :: past, x.handles? ≠ some c.request

namespace Querying

variable {config : SimulationConfig} {memory : σ} {early past : List (Machine σ)}
  {m m₁ n : Machine σ} {c : Call σ} {id : ServiceId}

theorem whole (h : Querying config memory early m m₁ c id past n) :
    Life (idle (World.start config memory)) (early ++ m :: past) n := by
  have hlife := (h.before.next (.step h.step)).trans h.after
  rw [List.append_assoc] at hlife
  exact hlife

/-- A life with a query up to any time after it. -/
theorem cut {before after : List (Machine σ)} {x : Machine σ}
    (h : Querying config memory early m m₁ c id (before ++ x :: after) n) :
    Querying config memory early m m₁ c id before x where
  before := h.before
  step := h.step
  call := h.call
  manner := h.manner
  target := h.target
  after := h.after.cut.1
  unhandled := by
    intro y hy
    refine h.unhandled y ?_
    simp only [List.mem_append, List.mem_cons] at hy ⊢
    tauto

theorem sound (h : Querying config memory early m m₁ c id past n) : m₁.world.Sound :=
  (h.before.next (.step h.step)).sound (sound_idle config memory)

/-- The transition leads to the query and on from it, and what it does after the query is quiet. -/
theorem around (h : Querying config memory early m m₁ c id past n) :
    ∃ earlier own later, Path m.world earlier c.world ∧ Path c.world own c.perform.1 ∧
      Path c.perform.1 later m₁.world ∧ ∀ d ∈ later, d.isQuiet := by
  rcases step_leads h.step with ⟨deeds, v, hbegins, hcourse, -⟩
  rcases List.append_of_mem h.call with ⟨before, after, hsplit⟩
  rw [hsplit] at hcourse
  rcases hcourse.cut with ⟨hearlier, hlater⟩
  rcases hearlier.hands.deeds with ⟨some, hsome, -, -⟩
  rcases c.hands.deeds with ⟨own, hown, -, -⟩
  rcases hlater.hands.deeds with ⟨rest, hrest, hquiet, -⟩
  exact ⟨_, own, rest, hbegins.path.trans hsome, hown, hrest, hquiet⟩

/-- The continuation waits when the transition is over. -/
theorem waits (h : Querying config memory early m m₁ c id past n) :
    m.world.requests.size ≤ c.request.number ∧ m₁.world.request? c.request = some c.issued ∧
      m₁.world.waiter c.request = .continuation c.next := by
  rcases h.around with ⟨earlier, own, later, hearlier, hown, hlater, hquiet⟩
  have hm := h.before.sound (sound_idle config memory)
  have hw := hearlier.waiting hm.waiting
  rcases Call.waits hw h.manner h.target with ⟨hrequest, hwaiter⟩
  refine ⟨hearlier.size_le, ?_⟩
  -- What the evaluation does after the query replies to nothing.
  have hnone : later.filter (Deed.answers c.request) = [] := by
    rw [List.filter_eq_nil_iff]
    intro d hd
    simp [answers_of_isQuiet c.request (hquiet d hd)]
  rcases hlater.answered (hown.waiting hw) hrequest rfl with ⟨_, hsame, hkept⟩ | ⟨_, _, _, hfirst, _⟩
  · exact ⟨hsame, hkept.trans hwaiter⟩
  · rw [hnone] at hfirst
    cases hfirst

/-- The clock is not turned back behind the time of the query. -/
theorem clock (h : Querying config memory early m m₁ c id past n) :
    c.world.now.place ≤ n.world.now.place := by
  rcases h.around with ⟨earlier, own, later, hearlier, hown, hlater, -⟩
  have hm := h.before.sound (sound_idle config memory)
  have hc := (hearlier.agenda.place_le hm.agenda).1
  exact le_trans ((hown.trans hlater).agenda.place_le hc).2 (h.after.place_le h.sound)

/-! ## The delivery -/

theorem sending_mem (h : Querying config memory early m m₁ c id past n) :
    ⟨c.request, .service id, c.world.now, 0.0⟩ ∈
      (callsOf (early ++ m :: past)).filterMap Call.sending? := by
  refine List.mem_filterMap.2 ⟨c, ?_, Call.sending?_service h.target⟩
  exact List.mem_flatMap.2 ⟨m, by simp, h.call⟩

theorem unhanded (h : Querying config memory early m m₁ c id past n) :
    ∀ x ∈ early ++ m :: past, ∀ s, x.handed? = some s → s.request ≠ c.request := by
  intro x hx s hs hsame
  refine h.unhandled x hx ?_
  rw [← hsame]
  exact handles?_of_handed? hs

/-- Nothing was handed over under the number of the request before. -/
theorem unsent (h : Querying config memory early m m₁ c id past n) :
    ∀ s ∈ early.flatMap sends, s.request ≠ c.request := by
  intro s hs hsame
  rcases List.mem_flatMap.1 hs with ⟨x, hx, hmem⟩
  rcases List.mem_append.1 hmem with hmem | hmem
  · exact h.unhanded x (by simp [hx]) s (Option.mem_toList.1 hmem) hsame
  · have hfresh := h.before.numbered.2.1 s (by
      rw [callsOf, List.filterMap_flatMap]
      exact List.mem_flatMap.2 ⟨x, hx, hmem⟩)
    have hlow := h.waits.1
    rw [hsame] at hfresh
    omega

/-- Nothing was delivered under the number of the request before. -/
theorem undelivered (h : Querying config memory early m m₁ c id past n) :
    ∀ x ∈ early ++ [m], ∀ s, x.delivery? = some s → s.request ≠ c.request := by
  have hnone : (early.flatMap sends).filter (fun s => s.request = c.request) = [] := by
    rw [List.filter_eq_nil_iff]
    intro s hs
    simpa using h.unsent s hs
  have hperm := h.before.delivered_or_queued (fun request => request = c.request)
    fun s hs hsame => absurd (of_decide_eq_true hsame) (h.unsent s hs)
  rw [hnone, List.perm_nil, List.append_eq_nil_iff] at hperm
  rcases hperm with ⟨hdelivered, hqueued⟩
  intro x hx s hs hsame
  rcases List.mem_append.1 hx with hx | hx
  · have hmem : s ∈ early.filterMap delivery? := List.mem_filterMap.2 ⟨x, hx, hs⟩
    simpa [hsame] using List.filter_eq_nil_iff.1 hdelivered s hmem
  · rw [List.mem_singleton] at hx
    subst hx
    simpa [hsame] using List.filter_eq_nil_iff.1 hqueued s (delivery?_spec hs).1

/-- The deliveries come after the transition with the query. -/
theorem delivered (h : Querying config memory early m m₁ c id past n) :
    ((early ++ m :: past).filterMap delivery?).filter (fun s => s.request = c.request) =
      (past.filterMap delivery?).filter fun s => s.request = c.request := by
  have hearly : ((early ++ [m]).filterMap delivery?).filter (fun s => s.request = c.request) =
      [] := by
    rw [List.filter_eq_nil_iff]
    intro s hs
    rcases List.mem_filterMap.1 hs with ⟨x, hx, hdelivery⟩
    simpa using h.undelivered x hx s hdelivery
  have hsplit : early ++ m :: past = (early ++ [m]) ++ past := by simp
  rw [hsplit, List.filterMap_append, List.filter_append, hearly, List.nil_append]

/-- The request has been delivered, or its one delivery is queued. -/
theorem delivery (h : Querying config memory early m m₁ c id past n) :
    (past.filterMap delivery?).filter (fun s => s.request = c.request) ++
        (n.world.agenda.pending.filterMap Event.sending?).filter (fun s => s.request = c.request) =
      [⟨c.request, .service id, c.world.now, 0.0⟩] := by
  have hone := h.whole.handed_once h.sending_mem h.unhanded
  have hzero : ∀ s ∈ (early ++ m :: past).flatMap sends,
      decide (s.request = c.request) = true → s.transit = 0.0 := by
    intro s hs hsame
    have hmem : s ∈ ((early ++ m :: past).flatMap sends).filter fun t => t.request = c.request :=
      List.mem_filter.2 ⟨hs, hsame⟩
    rw [hone, List.mem_singleton] at hmem
    rw [hmem]
  have hperm := h.whole.delivered_or_queued (fun request => request = c.request) hzero
  rw [hone, List.perm_singleton, h.delivered] at hperm
  exact hperm

/-- The world in which a request is delivered. -/
theorem delivers {before after : List (Machine σ)} {x : Machine σ} {s : Sending}
    (h : Querying config memory early m m₁ c id (before ++ x :: after) n)
    (hdelivery : x.delivery? = some s) (hsame : s.request = c.request) :
    s = ⟨c.request, .service id, c.world.now, 0.0⟩ ∧
      ∀ y ∈ before, ∀ t, y.delivery? = some t → t.request ≠ c.request := by
  have hlist := h.delivery
  rw [List.filterMap_append, List.filterMap_cons_some hdelivery, List.filter_append,
    List.filter_cons_of_pos (by simpa using hsame)] at hlist
  -- The list has one element, and this is it.
  cases hearlier : (before.filterMap delivery?).filter (fun s => s.request = c.request) with
  | nil =>
    rw [hearlier] at hlist
    refine ⟨(List.cons.inj hlist).1, ?_⟩
    intro y hy t ht heq
    have hmem : t ∈ before.filterMap delivery? := List.mem_filterMap.2 ⟨y, hy, ht⟩
    simpa [heq] using List.filter_eq_nil_iff.1 hearlier t hmem
  | cons t rest =>
    rw [hearlier] at hlist
    simp at hlist

/-! ## Replies -/

/-- The request without a reply, or with the first one. -/
theorem request (h : Querying config memory early m m₁ c id past n) :
    (answersTo c.request past = [] ∧ n.world.request? c.request = some c.issued ∧
      n.world.waiter c.request = .continuation c.next) ∨
    ∃ first later, answersTo c.request past = first :: later ∧
      n.world.request? c.request = some (c.issued.settle first.world.now first.failure) ∧
      n.world.waiter c.request = .nobody := by
  rcases h.waits with ⟨-, hrequest, hwaiter⟩
  rcases h.after.deeds h.sound.waiting with ⟨_, hdeeds⟩
  rcases (hdeeds.request h.sound.waiting hrequest rfl).2 with ⟨hnone, hsame, hkept⟩ | hsettled
  · exact Or.inl ⟨hnone, hsame, hkept.trans hwaiter⟩
  · exact Or.inr hsettled

/-- The request has no deadline. -/
theorem deadline (h : Querying config memory early m m₁ c id past n) :
    ∃ r, n.world.request? c.request = some r ∧ r.operation = c.operation ∧ r.deadline = none := by
  rcases h.request with ⟨_, hsame, _⟩ | ⟨_, _, _, hsettled, _⟩
  · exact ⟨_, hsame, rfl, rfl⟩
  · exact ⟨_, hsettled, rfl, rfl⟩

/-- Only the body of the operation replies. -/
theorem answered (h : Querying config memory early m m₁ c id past n)
    (hn : n.handles? ≠ some c.request) {a : Answer σ} (hanswer : n.answerTo? c.request = some a) :
    ∃ outcome, n.focus = .resume (.reply c.request) outcome := by
  rcases answerTo?_eq_some.1 hanswer with ⟨hreply, hrequest⟩
  rcases answer?_cases hreply with hhost | hended | ⟨e, htaken, hwork⟩
  · rw [hrequest] at hhost
    exact absurd hhost hn
  · rw [hrequest] at hended
    exact hended
  · rw [hrequest] at hwork
    have hmem := (taken?_spec htaken).1
    rcases hwork with ⟨failure, hwork⟩ | ⟨deadline, hwork⟩
    · exact absurd hwork
        (h.whole.unreplied (fun e he => by cases he) h.unhandled e hmem failure)
    · -- A timeout would be due at the deadline of the request.
      have hsound := h.whole.sound (sound_idle config memory)
      rcases hsound.lapses e hmem c.request deadline hwork with ⟨-, -, r, hr, hdue⟩
      rcases h.deadline with ⟨s, hs, -, hnone⟩
      rw [hr] at hs
      cases hs
      rw [hnone] at hdue
      cases hdue

/-! ## The body -/

end Querying

/-- A transition begins a continuation that replies to a request only if it delivers the request, or
the host has a target process it. -/
theorem begun_le {m : Machine σ} {id : RequestId} (h : m.handles? ≠ some id) :
    m.begun (serves id) ≤ (m.delivery?.toList.filter fun s => s.request = id).length := by
  have hturn : (m.turn?.map (Turn.begun (serves id))).getD 0 ≤
      (m.delivery?.toList.filter fun s => s.request = id).length := by
    unfold delivery? taken?
    cases m.turn? with
    | none => exact Nat.zero_le _
    | some t =>
      simp only [Option.map_some, Option.getD_some, Option.bind_some, Turn.begun, Event.sending?]
      cases t.event.work with
      | deliver request target =>
        by_cases hsame : request = id <;> simp [serves, hsame]
      | _ => simp [serves]
  unfold begun
  split
  · exact Nat.zero_le _
  · exact Nat.zero_le _
  · rename_i request target next hfocus
    have hother : request ≠ id := by
      rintro rfl
      exact h (by simp [handles?, hfocus])
    simp [serves, hother]
  · exact hturn

theorem begun_sum_le {past : List (Machine σ)} {id : RequestId}
    (h : ∀ x ∈ past, x.handles? ≠ some id) :
    (past.map (begun (serves id))).sum ≤
      ((past.filterMap delivery?).filter fun s => s.request = id).length := by
  induction past with
  | nil => exact le_rfl
  | cons x rest ih =>
    have hrest := ih fun y hy => h y (List.mem_cons_of_mem _ hy)
    have hfirst := begun_le (h x (by simp))
    have hcons : (x :: rest).filterMap delivery? = x.delivery?.toList ++ rest.filterMap delivery? := by
      cases hx : x.delivery? <;> simp [hx]
    rw [List.map_cons, List.sum_cons, hcons, List.filter_append, List.length_append]
    omega

namespace Querying

variable {config : SimulationConfig} {memory : σ} {early past : List (Machine σ)}
  {m m₁ n : Machine σ} {c : Call σ} {id : ServiceId}

/-- When a body that serves the request has ended, the request has been delivered, and no such body has
ended before. -/
theorem ended_once (h : Querying config memory early m m₁ c id past n) {outcome : Outcome}
    (hended : n.focus = .resume (.reply c.request) outcome) :
    (∃ x ∈ past, ∃ s, x.delivery? = some s ∧ s.request = c.request) ∧
      ∀ x ∈ past, ∀ other, x.focus ≠ .resume (.reply c.request) other := by
  have hstock := h.whole.stock (serves c.request)
  have hbegun := begun_sum_le h.unhandled
  rw [h.delivered] at hbegun
  have hatmost := congrArg List.length h.delivery
  rw [List.length_append] at hatmost
  have hstart : (idle (World.start config memory)).stock (serves c.request) = 0 := rfl
  have hlast : 1 ≤ n.stock (serves c.request) := by
    unfold stock
    rw [hended]
    simp [Focus.stock, Continuation.stock, Continuation.bottom, serves]
  simp only [List.length_singleton] at hatmost
  constructor
  · -- A continuation that replies has been begun, by a delivery.
    have hpos : 0 < ((past.filterMap delivery?).filter fun s => s.request = c.request).length := by
      omega
    rcases List.exists_mem_of_length_pos hpos with ⟨s, hs⟩
    rcases List.mem_filter.1 hs with ⟨hmem, hsame⟩
    rcases List.mem_filterMap.1 hmem with ⟨x, hx, hdelivery⟩
    exact ⟨x, hx, s, hdelivery, of_decide_eq_true hsame⟩
  · -- It is the only one, and it has not come to its end before.
    intro x hx other hfocus
    have hone : x.ended (serves c.request) = 1 := by
      rw [ended, hfocus]
      simp [Focus.ended, serves]
    have hmem : x.ended (serves c.request) ∈
        (early ++ m :: past).map (ended (serves c.request)) :=
      List.mem_map_of_mem (by simp [hx])
    have hcounted := List.le_sum_of_mem hmem
    omega

/-- Nobody has replied as long as no body has ended that serves the request. -/
theorem unanswered (h : Querying config memory early m m₁ c id past n)
    (hnone : ∀ x ∈ past, ∀ outcome, x.focus ≠ .resume (.reply c.request) outcome) :
    answersTo c.request past = [] := by
  rw [answersTo, List.filterMap_eq_nil_iff]
  intro x hx
  cases hanswer : x.answerTo? c.request with
  | none => rfl
  | some a =>
    rcases List.append_of_mem hx with ⟨before, after, rfl⟩
    rcases h.cut.answered (h.unhandled x (by simp)) hanswer with ⟨outcome, hfocus⟩
    exact absurd hfocus (hnone x hx outcome)

/-- The transition in which a body has ended that serves the request. -/
theorem resumes (h : Querying config memory early m m₁ c id past n) {outcome : Outcome}
    (hended : n.focus = .resume (.reply c.request) outcome) :
    n.taken? = none ∧ ∃ v stack, n.step = some ⟨v, stack, .resume c.next outcome.replied⟩ ∧
      v.now = n.world.now := by
  have htaken : n.taken? = none := by
    rw [taken?, turn?, hended]
    rfl
  refine ⟨htaken, ?_⟩
  have hnone := h.unanswered (h.ended_once hended).2
  rcases answer?_of_ended hended with ⟨a, hanswer, hrequest, hworld, houtcome⟩
  rcases answer?_spec hanswer with ⟨hstep, -, -⟩
  rcases h.request with ⟨_, hpending, hwaiter⟩ | ⟨_, _, hsome, _⟩
  · rw [hworld, hrequest, reply_pending a.stack a.failure hpending rfl, hwaiter] at hstep
    refine ⟨(n.world.settle c.request a.failure).1, a.stack, ?_, ?_⟩
    · rw [hstep, ← houtcome]
      rfl
    · rw [World.now, World.settle_agenda]
      rfl
  · rw [hnone] at hsome
    cases hsome

/-- As long as the request has not been delivered, its delivery is in the agenda and due now. -/
theorem queued (h : Querying config memory early m m₁ c id past n)
    (hnone : ∀ x ∈ past, ∀ s, x.delivery? = some s → s.request ≠ c.request) :
    n.world.now = c.world.now ∧ ∃ e,
      n.world.agenda.pending.filter (Event.delivers c.request) = [e] ∧
        e.work = .deliver c.request (.service id) ∧ e.time = c.world.now := by
  have hlist := h.delivery
  have hpast : (past.filterMap delivery?).filter (fun s => s.request = c.request) = [] := by
    rw [List.filter_eq_nil_iff]
    intro s hs
    rcases List.mem_filterMap.1 hs with ⟨x, hx, hdelivery⟩
    simpa using hnone x hx s hdelivery
  rw [hpast, List.nil_append] at hlist
  rcases event_of_sending (s := ⟨c.request, .service id, c.world.now, 0.0⟩) hlist with
    ⟨e, hpending, hone, hsending⟩
  rcases Event.sending?_eq_some hsending with ⟨hwork, htime⟩
  refine ⟨?_, e, hone, hwork, htime⟩
  -- The clock does not pass the event, and it is never turned back.
  have hdue := (h.whole.sound (sound_idle config memory)).agenda.due e hpending
  rw [htime] at hdue
  exact Time.place_inj (le_antisymm hdue h.clock)

/-- The transition that delivers the request begins the body that is registered by then. -/
theorem begins_body {before after : List (Machine σ)} {x : Machine σ} {s : Sending}
    (h : Querying config memory early m m₁ c id (before ++ x :: after) n)
    (hdelivery : x.delivery? = some s) (hsame : s.request = c.request) {service : Service}
    {op : Operation} (hservice : x.world.store.service? id = some service)
    (hop : service.operations.find? c.operation = some op) :
    ∃ w stack, w.now = c.world.now ∧
      w.store = (x.world.store.newScope (some service.scope) none).1 ∧
      x.step = some (evaluate w stack op.body
        (.plain ⟨x.world.store.scopes.size⟩ (.operation service.name c.operation))
        (.reply c.request)) := by
  have hbefore := h.cut
  rcases Option.bind_eq_some_iff.1 hdelivery with ⟨e, htaken, hsending⟩
  rcases Option.map_eq_some_iff.1 htaken with ⟨t, hturn, rfl⟩
  rcases turn?_spec hturn with ⟨htaking, hstep⟩
  rcases Event.sending?_eq_some hsending with ⟨hwork, htime⟩
  rw [(h.delivers hdelivery hsame).1] at hwork htime
  -- The request is found as it was made, and the operation names the service and itself.
  rcases hbefore.deadline with ⟨r, hr, hoperation, -⟩
  have hlook : t.world.request? c.request = some r := by
    rw [World.request?, htaking.requests, ← World.request?]
    exact hr
  have hsigned : x.world.store.Signed :=
    hbefore.whole.signed (Store.signed_empty.of_services rfl)
  rcases hsigned id service c.operation op hservice hop with ⟨hname, howner⟩
  refine ⟨{ t.world with store := (x.world.store.newScope (some service.scope) none).1 },
    .hold [.scope ⟨x.world.store.scopes.size⟩] :: .hold [.service id] :: t.stack, ?_, rfl, ?_⟩
  · exact htaking.now.trans htime
  · rw [hstep, hwork]
    simp only [dispatch, process, htaking.store, hservice, hlook, hoperation, hop, execute, howner,
      hname, Store.newScope]

/-- In any life with a query without a timeout that is accepted for a service, as long as the host
does not get hold of its request:

* until the request is delivered, the clock stays at the time of the query, and there is one event
  that will deliver it;
* it is delivered once, and if the service has the operation by then, the body that is registered is
  evaluated at the time of the query, in a fresh scope inside that of the service, as the operation of
  the service;
* the body ends at most once, after that; in the same event the continuation goes on, with nothing if
  the body has succeeded, and with the same failure if it has failed;
* nobody else replies: until the body ends the continuation waits, and then nobody waits any more. -/
theorem runs_body (h : Querying config memory early m m₁ c id past n) :
    ((∀ x ∈ past, ∀ s, x.delivery? = some s → s.request ≠ c.request) →
      n.world.now = c.world.now ∧ ∃ e, n.world.agenda.pending.filter (Event.delivers c.request) = [e] ∧
        e.work = .deliver c.request (.service id) ∧ e.time = c.world.now) ∧
    (∀ before x after s, past = before ++ x :: after → x.delivery? = some s →
      s.request = c.request →
      (∀ y ∈ before, ∀ t, y.delivery? = some t → t.request ≠ c.request) ∧
      ∀ service op, x.world.store.service? id = some service →
        service.operations.find? c.operation = some op →
        ∃ w stack, w.now = c.world.now ∧
          w.store = (x.world.store.newScope (some service.scope) none).1 ∧
          x.step = some (evaluate w stack op.body
            (.plain ⟨x.world.store.scopes.size⟩ (.operation service.name c.operation))
            (.reply c.request))) ∧
    (∀ before x after outcome, past = before ++ x :: after →
      x.focus = .resume (.reply c.request) outcome →
      (∃ y ∈ before, ∃ s, y.delivery? = some s ∧ s.request = c.request) ∧
      (∀ y ∈ before, ∀ other, y.focus ≠ .resume (.reply c.request) other) ∧
      x.taken? = none ∧ ∃ v stack, x.step = some ⟨v, stack, .resume c.next outcome.replied⟩ ∧
        v.now = x.world.now) ∧
    (∀ x ∈ past, ∀ a, x.answerTo? c.request = some a →
      ∃ outcome, x.focus = .resume (.reply c.request) outcome) ∧
    ((∀ x ∈ past, ∀ outcome, x.focus ≠ .resume (.reply c.request) outcome) →
      n.world.request? c.request = some c.issued ∧
        n.world.waiter c.request = .continuation c.next) ∧
    ((∃ x ∈ past, ∃ outcome, x.focus = .resume (.reply c.request) outcome) →
      n.world.waiter c.request = .nobody) := by
  refine ⟨?_, ?_, ?_, ?_, ?_, ?_⟩
  · exact h.queued
  · rintro before x after s rfl hdelivery hsame
    exact ⟨(h.delivers hdelivery hsame).2,
      fun service op hservice hop => h.begins_body hdelivery hsame hservice hop⟩
  · rintro before x after outcome rfl hended
    rcases h.cut.ended_once hended with ⟨hdelivered, hfirst⟩
    exact ⟨hdelivered, hfirst, h.cut.resumes hended⟩
  · intro x hx a hanswer
    rcases List.append_of_mem hx with ⟨before, after, rfl⟩
    exact h.cut.answered (h.unhandled x (by simp)) hanswer
  · intro hnone
    rcases h.request with ⟨_, hpending, hwaiter⟩ | ⟨_, _, hsome, _⟩
    · exact ⟨hpending, hwaiter⟩
    · rw [h.unanswered hnone] at hsome
      cases hsome
  · rintro ⟨x, hx, outcome, hended⟩
    rcases h.request with ⟨hnone, _⟩ | ⟨_, _, _, _, hnobody⟩
    · -- The end of the body is a reply.
      rcases answer?_of_ended hended with ⟨a, hanswer, hrequest, -, -⟩
      have hmem : a ∈ answersTo c.request past :=
        List.mem_filterMap.2 ⟨x, hx, answerTo?_eq_some.2 ⟨hanswer, hrequest⟩⟩
      rw [hnone] at hmem
      cases hmem
    · exact hnobody

end Querying

/-- Host code that defines a service with an operation that takes two time units and fails, and queries
it. -/
def asking : Script Unit :=
  .evaluate (.defineService "s" [.defineOperation "go" (.sequence [.think 2.0, .fail])]) .host
    (fun _ => .done) fun _ =>
      .evaluate (.query "s" "go" none) .host (fun _ => .done) fun _ => .run 5.0 fun _ => .done

/-- The simulation before the query and after it, and when the operation has ended. -/
def asked : Machine Unit := run 5 ⟨World.start ⟨true, none⟩ (), [], .code asking⟩
def waiting : Machine Unit := run 1 asked
def answered : Machine Unit := run 7 waiting

/-- The query of that code. -/
def question : Call Unit where
  world := asked.world
  inUse := []
  frame := .plain World.root .host
  next := .host fun _ => .done
  symbol := "s"
  operation := "go"
  manner := .query none

theorem question_target : question.target? = some (.service ⟨0⟩) := by
  have hresolve : question.world.resolve question.inUse question.frame question.next
      question.symbol = .ok (.service ⟨0⟩) := by
    rw [World.resolve, Store.lookUp?_eq]
    rfl
  rw [Call.target?, hresolve]
  rfl

theorem asking_querying {n : Machine Unit} (h : answered.step = some n) :
    Querying ⟨true, none⟩ ()
      (idle (World.start ⟨true, none⟩ ()) ::
        trail 5 ⟨World.start ⟨true, none⟩ (), [], .code asking⟩)
      asked waiting question ⟨0⟩ (trail 7 waiting ++ [answered]) n where
  before := (Life.refl.next (.call asking rfl)).trans (life_run 5 _)
  step := rfl
  call := List.mem_singleton.2 rfl
  manner := rfl
  target := question_target
  after := (life_run 7 waiting).next (.step h)
  unhandled := by decide +kernel

theorem asking_runs_body :
    answered.world.now = 2.0 ∧ answered.focus = .resume (.reply ⟨0⟩) (.failure .injected) ∧
      ∃ v stack, answered.step = some ⟨v, stack, .resume question.next (.failure .injected)⟩ ∧
        v.now = answered.world.now := by
  have hended : answered.focus = .resume (.reply ⟨0⟩) (.failure .injected) := by
    with_unfolding_all rfl
  have hstep : answered.step =
      some (resume answered.world answered.stack (.reply ⟨0⟩) (.failure .injected)) := by
    rw [step, hended]
  have hbody := (asking_querying hstep).runs_body.2.2.1 (trail 7 waiting) answered [] _ rfl hended
  exact ⟨by decide +kernel, hended, hbody.2.2.2⟩

end Machine
end Callflow
