import Callflow.Proofs.Machine.Settlement
import Callflow.Proofs.Store.Resolution

/-!
# The race between a reply and a timeout

Whoever waits for a query with a timeout goes on once: with the first reply, when it is made, or with
the failure of the timeout, at just the deadline, whatever of the two comes first in the order of
events. The timeout of a request that has settled does nothing: `Life.query_race`.
-/

namespace Callflow

variable {σ : Type}

namespace World

/-- A request that is awaited stays so until somebody replies to it. -/
theorem Awaits.path {w v : World σ} {deeds : List (Deed σ)} {id : RequestId} {deadline : Time}
    {next : Continuation σ} (h : w.Awaits id deadline next) (hw : w.Waiting)
    (hpath : Path w deeds v) (hnone : deeds.filter (Deed.answers id) = []) :
    v.Awaits id deadline next := by
  rcases h with ⟨r, hr, hp, hdeadline, hnext⟩
  rcases hpath.answered hw hr hp with ⟨_, hv, hwaiter⟩ | ⟨_, _, _, hfirst, _⟩
  · exact ⟨r, hv, hp, hdeadline, hwaiter.trans hnext⟩
  · rw [hnone] at hfirst
    cases hfirst

theorem Awaits.quiet {w v : World σ} {id : RequestId} {deadline : Time} {next : Continuation σ}
    (h : w.Awaits id deadline next) (hw : w.Waiting) (hquiet : Quiet w v) :
    v.Awaits id deadline next := by
  rcases hquiet with ⟨deeds, hpath, hall⟩
  refine h.path hw hpath (List.filter_eq_nil_iff.2 ?_)
  intro d hd
  simp [Machine.answers_of_isQuiet id (hall d hd)]

/-- A query with a timeout that does not end at once makes the continuation wait until the deadline.
-/
theorem query_awaits {w v : World σ} {inUse : List Ref} {name operation : String} {timeout : Time}
    {frame : Frame} {next : Continuation σ} (hw : w.Sound)
    (h : w.query inUse name operation (some timeout) frame next = (v, .ok .suspended)) :
    v.Sound ∧ v.Awaits ⟨w.requests.size⟩ (w.now + timeout) next := by
  rcases query_cases h with ⟨_, habsurd, _⟩ | ⟨_, _, habsurd, _⟩ | ⟨_, habsurd, _⟩ |
    ⟨target, delay, u, event, hsome, _, _, _, hsend, hwatch⟩
  · cases habsurd
  · cases habsurd
  · cases habsurd
  · -- The request has been made with the deadline, for the continuation.
    cases hsome
    refine ⟨hw.watch hsend hwatch, ?_⟩
    rcases watch_eq hsend hwatch with ⟨agenda, _, _, rfl⟩
    refine ⟨_, request?_issue w frame.caller operation _ (.continuation next), rfl, rfl, ?_⟩
    rw [waiter_of_push rfl, hw.waiting.paired, if_pos rfl]

end World

namespace Machine

open World (Deed Path Quiet)

/-- What follows when a machine is about to reply to a request that a continuation waits for. -/
theorem resume_of_awaits {m : Machine σ} {a : Answer σ} {deadline : Time}
    {next : Continuation σ} (h : m.world.Awaits a.request deadline next)
    (hanswer : m.answer? = some a) :
    ∃ v, m.step = some ⟨v, a.stack, .resume next (.ofReply a.failure)⟩ ∧
      v.now = a.world.now := by
  rcases h with ⟨r, hr, hp, _, hnext⟩
  rcases answer?_spec hanswer with ⟨hstep, hrequests, hwaiters⟩
  have hlook : a.world.request? a.request = some r := by
    rw [World.request?, hrequests, ← World.request?]
    exact hr
  have hwaiter : a.world.waiter a.request = .continuation next := by
    rw [World.waiter, hwaiters, ← World.waiter]
    exact hnext
  rw [reply_pending a.stack a.failure hlook hp, hwaiter] at hstep
  refine ⟨(a.world.settle a.request a.failure).1, hstep, ?_⟩
  rw [World.now, World.settle_agenda, ← World.now]

/-- A timeout is taken at the deadline of its request. If the request is still pending, this is a
reply; otherwise nothing happens. -/
theorem timeout_taken {m : Machine σ} {e : Event (Callback σ)} {id : RequestId} {r : Request}
    (hm : m.world.Sound) (htaken : m.taken? = some e) (hexpires : e.Expires id)
    (hr : m.world.request? id = some r) :
    e.kind = .timeout ∧ r.deadline = some e.time ∧
    if r.isPending then
      ∃ a, m.answerTo? id = some a ∧ a.failure = some (.timedOut e.time) ∧ a.world.now = e.time
    else
      ∃ agenda stack, m.step = some ⟨m.world.enter e agenda, stack, .back (.ok ())⟩ := by
  rcases hexpires with ⟨deadline, hwork⟩
  rcases hm.lapses e (taken?_spec htaken).1 id deadline hwork with ⟨hkind, rfl, s, hs, hdeadline⟩
  rw [hr] at hs
  cases hs
  rcases Option.map_eq_some_iff.1 htaken with ⟨t, hturn, rfl⟩
  rcases turn?_spec hturn with ⟨htaking, hstep⟩
  have hlook : t.world.request? id = some r := by
    rw [World.request?, htaking.requests, ← World.request?]
    exact hr
  refine ⟨hkind, hdeadline, ?_⟩
  cases hp : r.isPending with
  | true =>
    -- The transition that takes the event also replies.
    refine ⟨⟨t.world, t.stack, id, some (.timedOut t.event.time)⟩, ?_, rfl, htaking.now⟩
    rw [answerTo?_eq_some, htaking.answer]
    simp [Turn.answer?, hwork, hlook, hp]
  | false =>
    rcases htaking.take with ⟨horizon, agenda, -, hworld⟩
    refine ⟨agenda, t.stack, ?_⟩
    rw [hstep, hwork, ← hworld]
    simp only [dispatch, hlook, hp, Bool.false_eq_true, if_false]

/-! ## The course of a request that is awaited -/

/-- At any later time, nobody has replied and the continuation waits, or the request has settled. -/
theorem Life.awaited {m₀ m : Machine σ} {past : List (Machine σ)} (h : Life m₀ past m)
    (hm₀ : m₀.world.Sound) {id : RequestId} {deadline : Time} {next : Continuation σ}
    (hwaits : m₀.world.Awaits id deadline next) :
    (answersTo id past = [] ∧ m.world.Awaits id deadline next) ∨
    (answersTo id past ≠ [] ∧ ∃ s, m.world.request? id = some s ∧ s.isPending = false ∧
      s.deadline = some deadline) := by
  rcases hwaits with ⟨r, hr, hp, hdeadline, hnext⟩
  rcases h.deeds hm₀.waiting with ⟨_, hdeeds⟩
  rcases (hdeeds.request hm₀.waiting hr hp).2 with
    ⟨hnone, hsame, hkept⟩ | ⟨first, later, hlist, hsettled, _⟩
  · exact Or.inl ⟨hnone, r, hsame, hp, hdeadline, hkept.trans hnext⟩
  · exact Or.inr ⟨by simp [hlist], _, hsettled, Request.isPending_settle .., hdeadline⟩

/-- The first reply goes to the continuation that waits, and every later one to nobody. -/
theorem Life.awaited_answer {m₀ m : Machine σ} {past : List (Machine σ)} (h : Life m₀ past m)
    (hm₀ : m₀.world.Sound) {id : RequestId} {deadline : Time} {next : Continuation σ}
    (hwaits : m₀.world.Awaits id deadline next) {a : Answer σ} (hanswer : m.answerTo? id = some a) :
    if answersTo id past = [] then
      ∃ u, m.step = some ⟨u, a.stack, .resume next (.ofReply a.failure)⟩ ∧ u.now = a.world.now
    else ∃ u, m.step = some ⟨u, a.stack, .back (.ok ())⟩ := by
  rcases answerTo?_eq_some.1 hanswer with ⟨hreply, rfl⟩
  rcases h.awaited hm₀ hwaits with ⟨hnone, hstill⟩ | ⟨hsome, s, hs, hsettled, _⟩
  · rw [if_pos hnone]
    exact resume_of_awaits hstill hreply
  · rw [if_neg hsome]
    rcases answer?_spec hreply with ⟨hstep, hrequests, -⟩
    have hlook : a.world.request? a.request = some s := by
      rw [World.request?, hrequests, ← World.request?]
      exact hs
    rw [reply_stale a.stack a.failure hlook hsettled] at hstep
    exact ⟨_, hstep⟩

/-- The timeout is taken at the deadline; it fails the continuation that waits, and nothing happens if
somebody has replied before. -/
theorem Life.awaited_timeout {m₀ m : Machine σ} {past : List (Machine σ)} (h : Life m₀ past m)
    (hm₀ : m₀.world.Sound) {id : RequestId} {deadline : Time} {next : Continuation σ}
    (hwaits : m₀.world.Awaits id deadline next) {e : Event (Callback σ)}
    (htaken : m.taken? = some e) (hexpires : e.Expires id) :
    e.kind = .timeout ∧ e.time = deadline ∧
    if answersTo id past = [] then
      ∃ a u, m.answerTo? id = some a ∧ u.now = deadline ∧
        m.step = some ⟨u, a.stack, .resume next (.failure (.timedOut deadline))⟩
    else ∃ agenda stack, m.step = some ⟨m.world.enter e agenda, stack, .back (.ok ())⟩ := by
  have hm := h.sound hm₀
  rcases h.awaited hm₀ hwaits with ⟨hnone, hstill⟩ | ⟨hsome, s, hs, hsettled, hdeadline⟩
  · rcases hstill with ⟨r, hr, hp, hdeadline, hnext⟩
    rcases timeout_taken hm htaken hexpires hr with ⟨hkind, htime, hrace⟩
    rw [hdeadline] at htime
    cases htime
    rw [if_pos hp] at hrace
    rcases hrace with ⟨a, hanswer, hfailure, hnow⟩
    rcases answerTo?_eq_some.1 hanswer with ⟨hreply, rfl⟩
    rcases resume_of_awaits ⟨r, hr, hp, hdeadline, hnext⟩ hreply with ⟨u, hstep, hclock⟩
    rw [hfailure] at hstep
    rw [if_pos hnone]
    exact ⟨hkind, rfl, a, u, hanswer, hclock.trans hnow, hstep⟩
  · rcases timeout_taken hm htaken hexpires hs with ⟨hkind, htime, hlate⟩
    rw [hdeadline] at htime
    cases htime
    rw [if_neg (by simp [hsettled])] at hlate
    rw [if_neg hsome]
    exact ⟨hkind, rfl, hlate⟩

/-! ## Queries -/

/-- What becomes of a query with a valid timeout whose target can be reached: it does not end at
once, and in any life after the transition that it is part of,

* as long as nobody has replied to its request, the continuation waits;
* with the first reply it goes on with the outcome, at the time of the reply, and with no later one;
* its timeout is taken at the deadline; if nobody has replied by then, the continuation goes on with
  this failure, and otherwise nothing happens;
* at any time, every continuation that waits until a deadline has its timeout in the agenda, at just
  the deadline, and the clock has not passed it. -/
theorem Life.query_race {config : SimulationConfig} {memory : σ} {deeds : List (Deed σ)}
    {w : World σ} {inUse : List Ref} {name : String} (operation : String) {timeout : Time}
    {frame : Frame} {next : Continuation σ} {target : Target}
    (hw : Path (World.start config memory) deeds w)
    (hresolve : w.resolve inUse frame next name = .ok target)
    (htransit : Time.checkDelay (0.0 + w.store.transit target) = .ok ())
    (hvalid : Time.checkDelay timeout = .ok ()) :
    ∃ v, w.query inUse name operation (some timeout) frame next = (v, .ok .suspended) ∧
    ∀ m₀ past m, Quiet v m₀.world → Life m₀ past m →
    (answersTo ⟨w.requests.size⟩ past = [] →
      m.world.Awaits ⟨w.requests.size⟩ (w.now + timeout) next) ∧
    (∀ before x after a, past = before ++ x :: after →
      x.answerTo? ⟨w.requests.size⟩ = some a →
      if answersTo ⟨w.requests.size⟩ before = [] then
        ∃ u, x.step = some ⟨u, a.stack, .resume next (.ofReply a.failure)⟩ ∧ u.now = a.world.now
      else ∃ u, x.step = some ⟨u, a.stack, .back (.ok ())⟩) ∧
    (∀ before x after e, past = before ++ x :: after → x.taken? = some e →
      e.Expires ⟨w.requests.size⟩ → e.kind = .timeout ∧ e.time = w.now + timeout ∧
      if answersTo ⟨w.requests.size⟩ before = [] then
        ∃ a u, x.answerTo? ⟨w.requests.size⟩ = some a ∧ u.now = w.now + timeout ∧
          x.step = some ⟨u, a.stack, .resume next (.failure (.timedOut (w.now + timeout)))⟩
      else ∃ agenda stack, x.step = some ⟨x.world.enter e agenda, stack, .back (.ok ())⟩) ∧
    ∀ id deadline waiting, m.world.Awaits id deadline waiting →
      ∃ e ∈ m.world.agenda.pending, e.kind = .timeout ∧ e.work = .expire id deadline ∧
        e.time = deadline ∧ (∀ x ∈ m.world.agenda.pending, x.Expires id → x = e) ∧
        m.world.now ≤ deadline := by
  rcases World.query_suspended operation hresolve htransit hvalid with ⟨v, hquery⟩
  refine ⟨v, hquery, ?_⟩
  intro m₀ past m hrest h
  rcases World.query_awaits (hw.sound (World.sound_start config memory)) hquery with
    ⟨hv, hawaits⟩
  have hm₀ : m₀.world.Sound := by
    rcases hrest with ⟨more, hmore, -⟩
    exact hmore.sound hv
  have hwaits := hawaits.quiet hv.waiting hrest
  refine ⟨?_, ?_, ?_, fun id deadline waiting => (h.sound hm₀).timeout⟩
  · intro hnone
    rcases h.awaited hm₀ hwaits with ⟨_, hstill⟩ | ⟨hsome, _⟩
    · exact hstill
    · exact absurd hnone hsome
  · rintro before x after a rfl hanswer
    exact h.cut.1.awaited_answer hm₀ hwaits hanswer
  · rintro before x after e rfl htaken hexpires
    exact h.cut.1.awaited_timeout hm₀ hwaits htaken hexpires

/-- A world in which a service is bound that never replies. -/
def mute : World Unit :=
  (execScript (World.start ⟨true, none⟩ ()) []
    (.bind "mute" "mute" 0.0 (fun _ => .done) fun _ => .done)).world

theorem mute_path : ∃ deeds, Path (World.start ⟨true, none⟩ ()) deeds mute := by
  rcases (execScript_leads (World.start ⟨true, none⟩ ()) []
    (.bind "mute" "mute" 0.0 (fun _ => .done) fun _ => .done)).deeds with ⟨deeds, hpath, -⟩
  exact ⟨deeds, hpath⟩

theorem mute_resolve :
    mute.resolve [] (.plain World.root .host) (.host fun _ => .done) "mute" =
      .ok (.endpoint ⟨0⟩) := by
  rw [World.resolve, Store.lookUp?_eq]
  rfl

theorem mute_query_race :
    let v := (mute.query [] "mute" "work" (some 2.0) (.plain World.root .host)
      (.host fun _ => .done)).1
    let past := trail 20 ⟨v, [], .code (.run 5.0 fun _ => .done)⟩
    (past.filterMap taken?).map Event.kind = [.delivery, .timeout] ∧
    ∀ before x after e, past = before ++ x :: after → x.taken? = some e → e.Expires ⟨0⟩ →
      e.kind = .timeout ∧ e.time = mute.now + 2.0 := by
  rcases mute_path with ⟨deeds, hpath⟩
  have htransit : Time.checkDelay (0.0 + mute.store.transit (.endpoint ⟨0⟩)) = .ok () := rfl
  have hvalid : Time.checkDelay 2.0 = .ok () := rfl
  rcases Life.query_race "work" hpath mute_resolve htransit hvalid with ⟨v, hquery, hrace⟩
  refine ⟨by decide +kernel, ?_⟩
  intro before x after e hpast htaken hexpires
  rw [hquery] at hpast
  have hlate := (hrace _ _ _ (.refl _) (life_run 20 _)).2.2.1 before x after e hpast htaken hexpires
  exact ⟨hlate.1, hlate.2.1⟩

end Machine
end Callflow
