import Callflow.Proofs.Machine.Calls

/-!
# What a transition does

`step_leads` is the one analysis of all transitions. Each begins with the deeds that the machine tells
(`Begins`): it takes an event, replies to a request, or does what the host asks for. From there it goes
through the calls that the machine tells, and does nothing else (`Leads`). So the machine explains its
deeds, and tells what they hand over (`Leads.deeds`).
-/

namespace Callflow
namespace Machine

open World (Deed Path Still Course Sends)

variable {σ : Type}

/-! ## Replies -/

theorem reply_world (w : World σ) (stack : List (Activation σ)) (request : RequestId)
    (failure : Option Failure) :
    (reply w stack request failure).world = (w.settle request failure).1 := by
  unfold reply
  split <;> simp_all

/-- A reply is one deed, unless no request has the number. -/
theorem Answer.path (a : Answer σ) :
    ((a.world.request? a.request).isSome ∧
      Path a.world [a.deed] (a.world.settle a.request a.failure).1) ∨
    (a.world.request? a.request = none ∧ (a.world.settle a.request a.failure).1 = a.world) := by
  cases hr : a.world.request? a.request with
  | none =>
    rw [World.settle_absent _ hr]
    exact Or.inr ⟨rfl, rfl⟩
  | some r =>
    left
    refine ⟨rfl, ?_⟩
    cases hp : r.isPending with
    | true =>
      have hdeed : a.deed = .settled a.world.now a.request a.failure := by
        simp [deed, hr, hp]
      rw [hdeed]
      exact .single (.settle a.failure hr hp)
    | false =>
      have hdeed : a.deed = .stale a.world.now a.request a.failure := by
        simp [deed, hr, hp]
      rw [hdeed]
      exact .single (.stale a.failure hr hp)

theorem takes_plain (m : Machine σ) : ∀ d ∈ m.takes, d.isPlain = true := by
  simp [takes, Deed.isPlain]

theorem Answer.takes_append_plain (a : Answer σ) (m : Machine σ) :
    ∀ d ∈ m.takes ++ [a.deed], d.isPlain = true := by
  intro d hd
  rcases List.mem_append.1 hd with hd | hd
  · exact m.takes_plain d hd
  · rw [List.mem_singleton.1 hd, deed]
    split <;> rfl

/-! ## Beginnings -/

/-- The deeds with which a transition begins, up to the world `v` in which it comes upon its calls: it
takes the event that it is about to take, and does what it replies or the host asks for. -/
structure Begins (m : Machine σ) (deeds : List (Deed σ)) (v : World σ) : Prop where
  path : Path m.world deeds v
  explains : Explains m deeds
  handed : Sends deeds m.handed?.toList
  -- Only the host has replies made later.
  replies : ∀ clock delay e request failure, .agenda (.scheduled clock delay e) ∈ deeds →
    e.work = .reply request failure → m.handles? = some request
  store : v.store = m.world.store
  -- Unless the host does, nobody makes a request before the calls, or hands one over.
  plain : m.meddles = false →
    v.requests.size = m.world.requests.size ∧ ∀ d ∈ deeds, d.isPlain = true

/-- What a transition does to the world: it begins, and then goes through its calls, when the clock
shows its moment. Where only the clock moves, that is all. -/
def Leads (m : Machine σ) (w : World σ) : Prop :=
  ∃ deeds v, Begins m deeds v ∧ Course v m.calls w ∧ (v.now = m.moment ∨ m.calls = [] ∧ w = v)

theorem moment_of_not_taken {m : Machine σ} (h : m.taken? = none) : m.moment = m.world.now := by
  rw [moment, h]
  rfl

/-- A beginning in which nothing is scheduled. -/
theorem Begins.of_not_scheduled {m : Machine σ} {deeds : List (Deed σ)} {v : World σ}
    (hpath : Path m.world deeds v) (hexplains : Explains m deeds)
    (hnone : ∀ clock delay e, .agenda (.scheduled clock delay e) ∉ deeds)
    (hhanded : m.handed? = none) (hstore : v.store = m.world.store)
    (hplain : m.meddles = false →
      v.requests.size = m.world.requests.size ∧ ∀ d ∈ deeds, d.isPlain = true) :
    Begins m deeds v where
  path := hpath
  explains := hexplains
  handed := by
    rw [hhanded]
    refine .none ?_
    intro clock delay e hmem
    exact absurd hmem (hnone clock delay e)
  replies := by
    intro clock delay e request failure hmem
    exact absurd hmem (hnone clock delay e)
  store := hstore
  plain := hplain

theorem Explains.refl {m : Machine σ} (htaken : m.taken? = none) (hrecorded : m.recorded? = none)
    (hanswer : m.answer? = none) : Explains m [] := by
  have htakes : m.takes = [] := by
    rw [Machine.takes, htaken]
    rfl
  rw [← htakes]
  refine .takes hrecorded ?_
  intro id _
  rw [answerTo?, hanswer]
  rfl

/-- A transition that does nothing before its calls. -/
theorem Leads.of_course {m : Machine σ} {w : World σ} (h : Course m.world m.calls w)
    (htaken : m.taken? = none) (hrecorded : m.recorded? = none) (hanswer : m.answer? = none)
    (hhanded : m.handed? = none) : Leads m w :=
  ⟨[], m.world, .of_not_scheduled .refl (.refl htaken hrecorded hanswer) (by simp) hhanded rfl
    fun _ => ⟨rfl, by simp⟩, h, Or.inl (moment_of_not_taken htaken).symm⟩

theorem Leads.of_still {m : Machine σ} {w : World σ} (h : Still m.world w) (hcalls : m.calls = [])
    (htaken : m.taken? = none) (hrecorded : m.recorded? = none) (hanswer : m.answer? = none)
    (hhanded : m.handed? = none) : Leads m w := by
  refine .of_course ?_ htaken hrecorded hanswer hhanded
  rw [hcalls]
  exact .still h

/-- A transition that comes upon no calls. -/
theorem Begins.leads {m : Machine σ} {deeds : List (Deed σ)} {w : World σ} (h : Begins m deeds w)
    (hcalls : m.calls = []) : Leads m w := by
  refine ⟨deeds, w, h, ?_, Or.inr ⟨hcalls, rfl⟩⟩
  rw [hcalls]
  exact .refl w

/-- A transition that replies, perhaps in an event that it takes. -/
theorem Leads.of_answer {m : Machine σ} {a : Answer σ} (hpath : Path m.world m.takes a.world)
    (hsame : a.world.requests = m.world.requests) (hstore : a.world.store = m.world.store)
    (hrecorded : m.recorded? = none) (hanswer : m.answer? = some a) (hhanded : m.handed? = none)
    (hcalls : m.calls = []) : Leads m (a.world.settle a.request a.failure).1 := by
  have hlook : a.world.request? a.request = m.world.request? a.request := by
    rw [World.request?, hsame, ← World.request?]
  rcases a.path with ⟨_, hreply⟩ | ⟨habsent, hreply⟩
  · refine (Begins.of_not_scheduled (hpath.trans hreply) (.answer hrecorded hanswer hlook)
      (a.not_mem_takes_append m) hhanded ?_ fun _ => ⟨?_, a.takes_append_plain m⟩).leads hcalls
    · rw [World.settle_store]
      exact hstore
    · rw [World.settle_size, hsame]
  · -- No request has the number, so nothing happens.
    rw [hreply]
    refine (Begins.of_not_scheduled hpath (.takes hrecorded ?_) (not_mem_takes m) hhanded
      hstore fun _ => ⟨by rw [hsame], m.takes_plain⟩).leads hcalls
    intro id hid
    have hother : a.request ≠ id := by
      rintro rfl
      rw [← hlook, habsent] at hid
      cases hid
    rw [answerTo?, hanswer, Option.filter_some, if_neg (by simpa using hother)]

/-! ## Host code -/

/-- The host has something done later. -/
theorem Begins.plan {m : Machine σ} {v : World σ} {delay : Time} {kind : EventKind}
    {work : Callback σ} {event : EventId} (h : m.world.schedule delay kind work = .ok (v, event))
    (hexpire : ∀ id deadline, work ≠ .expire id deadline)
    (hdeliver : ∀ request target, work ≠ .deliver request target)
    (hreply : ∀ request failure, work = .reply request failure → m.handles? = some request)
    (hbook : ∀ code, work = .host code → ∃ next, m.focus = .code (.schedule delay kind code next))
    (htaken : m.taken? = none) (hrecorded : m.recorded? = none) (hanswer : m.answer? = none)
    (hhanded : m.handed? = none) : Begins m [m.world.plan delay kind work] v := by
  have hplan : ∀ clock d e, .agenda (.scheduled clock d e) ∈ [m.world.plan delay kind work] →
      clock = m.world.now ∧ d = delay ∧ e.kind = kind ∧ e.work = work := by
    intro clock d e hmem
    simp only [World.plan, List.mem_singleton] at hmem
    cases hmem
    exact ⟨rfl, rfl, rfl, rfl⟩
  refine ⟨.single (.schedule h hexpire), ⟨?_, ?_, ?_, ?_, ?_, ?_⟩, ?_, ?_, ?_,
    fun _ => ⟨?_, by simp [World.plan, Deed.isPlain]⟩⟩
  · rw [htaken]
    rfl
  · rw [hrecorded]
    rfl
  · intro id _
    rw [answerTo?, hanswer]
    rfl
  · rw [settling?, hanswer]
    rfl
  · intro clock d e hmem
    rw [moment_of_not_taken htaken]
    exact (hplan clock d e hmem).1
  · intro clock d e code hmem hwork
    rcases hplan clock d e hmem with ⟨-, rfl, rfl, hsame⟩
    exact hbook code (hsame.symm.trans hwork)
  · rw [hhanded]
    refine .none ?_
    intro clock d e hmem
    rw [(hplan clock d e hmem).2.2.2]
    exact hdeliver
  · intro clock d e request failure hmem hwork
    exact hreply request failure ((hplan clock d e hmem).2.2.2.symm.trans hwork)
  · rcases World.schedule_eq_ok h with ⟨agenda, _, rfl, -⟩
    rfl
  · rcases World.schedule_eq_ok h with ⟨agenda, _, rfl, -⟩
    rfl

theorem send_world (w : World σ) (stack : List (Activation σ)) (request : RequestId)
    (target : Target) (next : Script σ) :
    (execScript w stack (.send request target next)).world = (w.send request target).1 := by
  simp only [execScript]
  split <;> simp_all

/-- The host hands over a request by itself. -/
theorem send_leads (w : World σ) (stack : List (Activation σ)) (request : RequestId)
    (target : Target) (next : Script σ) :
    Leads ⟨w, stack, .code (.send request target next)⟩ (w.send request target).1 := by
  cases hr : w.request? request with
  | none =>
    rw [World.send_absent target hr]
    exact .of_still (.refl w) rfl rfl rfl rfl (by simp [handed?, hr])
  | some r =>
    rcases World.send_sends target hr with ⟨deeds, hpath, hquiet, hsends⟩
    have hstart : Explains ⟨w, stack, .code (.send request target next)⟩ [] := .refl rfl rfl rfl
    have hexplains := hstart.append hquiet (hpath.clock hquiet).2
    refine Begins.leads ⟨hpath, hexplains, ?_, ?_, World.send_store .., by rintro ⟨⟩⟩ rfl
    · simp only [handed?, hr, Option.bind_some]
      exact hsends
    · intro clock delay e other failure hmem hwork
      have hown := hquiet _ hmem
      simp [Deed.isQuiet, hwork, Callback.fromHost] at hown

theorem execScript_leads (w : World σ) (stack : List (Activation σ)) (script : Script σ) :
    Leads ⟨w, stack, .code script⟩ (execScript w stack script).world := by
  have hstill {script : Script σ} {v : World σ} (h : Still w v)
      (hcalls : calls ⟨w, stack, .code script⟩ = [])
      (hrecorded : recorded? ⟨w, stack, .code script⟩ = none)
      (hanswer : answer? ⟨w, stack, .code script⟩ = none)
      (hhanded : handed? ⟨w, stack, .code script⟩ = none) : Leads ⟨w, stack, .code script⟩ v :=
    .of_still h hcalls rfl hrecorded hanswer hhanded
  have harrange (observers : List (ClientId × Observers σ))
      (handlers : List (EndpointId × (RequestId → Script σ))) (kept : Directory RequestId)
      (memory : σ) : Still w { w with observers, handlers, kept, memory } :=
    .of_move (.arrange observers handlers kept memory) rfl id
  cases script with
  | done => exact hstill (.refl w) rfl rfl rfl rfl
  | fail cause => exact hstill (.refl w) rfl rfl rfl rfl
  | crash cause => exact hstill (.refl w) rfl rfl rfl rfl
  | shield body next => exact hstill (.refl w) rfl rfl rfl rfl
  | «recall» next => exact hstill (.refl w) rfl rfl rfl rfl
  | remember change next =>
    exact hstill (harrange w.observers w.handlers w.kept (change w.memory)) rfl rfl rfl rfl
  | observe next => exact hstill (.refl w) rfl rfl rfl rfl
  | readJournal next => exact hstill (.refl w) rfl rfl rfl rfl
  | record entry next =>
    have hexplains : Explains ⟨w, stack, .code (.record entry next)⟩ [.recorded entry] :=
      ⟨rfl, rfl, fun _ _ => rfl, rfl, by simp, by simp⟩
    exact (Begins.of_not_scheduled (.single (.record entry)) hexplains (by simp) rfl rfl
      (by rintro ⟨⟩)).leads rfl
  | schedule delay kind callback next =>
    cases hs : w.schedule delay kind (.host callback) with
    | ok r =>
      have hworld : (execScript w stack (.schedule delay kind callback next)).world = r.1 := by
        simp [execScript, hs]
      rw [hworld]
      refine (Begins.plan (m := ⟨w, stack, .code (.schedule delay kind callback next)⟩) hs
        (by simp) (by simp) (by simp) ?_ rfl rfl rfl rfl).leads rfl
      rintro code ⟨⟩
      exact ⟨next, rfl⟩
    | error cause =>
      have hworld : (execScript w stack (.schedule delay kind callback next)).world = w := by
        simp [execScript, hs]
      rw [hworld]
      exact hstill (.refl w) rfl rfl rfl rfl
  | replyAfter delay request failure next =>
    cases hs : w.schedule delay .reply (.reply request failure) with
    | ok r =>
      have hworld : (execScript w stack (.replyAfter delay request failure next)).world = r.1 := by
        simp [execScript, hs]
      rw [hworld]
      refine (Begins.plan (m := ⟨w, stack, .code (.replyAfter delay request failure next)⟩) hs
        (by simp) (by simp) ?_ (by simp) rfl rfl rfl rfl).leads rfl
      rintro _ _ ⟨⟩
      rfl
    | error cause =>
      have hworld : (execScript w stack (.replyAfter delay request failure next)).world = w := by
        simp [execScript, hs]
      rw [hworld]
      exact hstill (.refl w) rfl rfl rfl rfl
  | run horizon next => exact hstill (.refl w) rfl rfl rfl rfl
  | evaluate activity caller resume next => exact .of_course (evaluate_course ..) rfl rfl rfl rfl
  | execute id op resume next =>
    refine .of_course ?_ rfl rfl rfl rfl
    simp only [execScript, calls]
    cases w.store.service? id with
    | none => exact .refl w
    | some service => exact execute_course ..
  | define symbol draft next =>
    have hmade : Still w { w with store := (w.store.make World.root draft).1 } := by
      cases draft with
      | unit => exact .refl w
      | number x => exact .refl w
      | service name => exact .service w name (some World.root)
      | endpoint name => exact .define (.endpoint name 0.0) rfl
      | operation name owner => exact .refl w
      | client name period => exact .define (.client name period .fail) rfl
    exact hstill (hmade.trans (.define (.bind _ _ _) rfl)) rfl rfl rfl rfl
  | bind symbol name transit handler next =>
    have hnew : Still w { w with store := (w.store.newEndpoint name transit).1 } :=
      .define (.endpoint name transit) rfl
    have hbound := hnew.trans (.define (.bind World.root symbol
      (.endpoint (w.store.newEndpoint name transit).2)) rfl)
    exact hstill (hbound.trans (.of_move (.arrange _ _ _ _) rfl id)) rfl rfl rfl rfl
  | onSuccess client hook next => exact hstill (harrange _ _ _ _) rfl rfl rfl rfl
  | onFailure client hook next => exact hstill (harrange _ _ _ _) rfl rfl rfl rfl
  | allocate next =>
    exact (Begins.of_not_scheduled (m := ⟨w, stack, .code (.allocate next)⟩) (.single .allocate)
      (.refl rfl rfl rfl) (by simp) rfl rfl (by rintro ⟨⟩)).leads rfl
  | request caller operation deadline succeeded failed next =>
    have hissue := World.Move.issue (w := w) caller operation deadline
      (.host succeeded failed) (by simp)
    exact (Begins.of_not_scheduled
      (m := ⟨w, stack, .code (.request caller operation deadline succeeded failed next)⟩)
      (.single hissue) (.refl rfl rfl rfl) (by simp) rfl rfl (by rintro ⟨⟩)).leads rfl
  | keep label request next =>
    exact hstill (harrange w.observers w.handlers _ w.memory) rfl rfl rfl rfl
  | send request target next =>
    rw [send_world]
    exact send_leads ..
  | process request target next => exact .of_course (process_course ..) rfl rfl rfl rfl
  | reply request failure next =>
    have hworld : (execScript w stack (.reply request failure next)).world =
        (w.settle request failure).1 := reply_world ..
    rw [hworld]
    exact .of_answer (a := ⟨w, .await next :: stack, request, failure⟩) .refl rfl rfl rfl rfl rfl
      rfl

/-! ## Continuations -/

theorem resume_leads (w : World σ) (stack : List (Activation σ)) (next : Continuation σ)
    (outcome : Outcome) :
    Leads ⟨w, stack, .resume next outcome⟩ (resume w stack next outcome).world := by
  cases next with
  | host code => exact .of_still (.refl w) rfl rfl rfl rfl rfl
  | reply request =>
    cases outcome with
    | success value =>
      rw [resume, reply_world]
      exact .of_answer (a := ⟨w, .hold value.refs :: stack, request, none⟩) .refl rfl rfl rfl rfl
        rfl rfl
    | failure cause =>
      rw [resume, reply_world]
      exact .of_answer (a := ⟨w, stack, request, some cause⟩) .refl rfl rfl rfl rfl rfl rfl
  | complete client => exact .of_still (complete_still ..) rfl rfl rfl rfl rfl
  | steps rest frame next =>
    cases outcome with
    | success value =>
      refine .of_course ?_ rfl rfl rfl rfl
      rw [resume, proceed_world]
      exact World.evaluateSteps_course ..
    | failure cause => exact .of_still (.refl w) rfl rfl rfl rfl rfl
  | service id next =>
    cases outcome with
    | success value => exact .of_still (.refl w) rfl rfl rfl rfl rfl
    | failure cause => exact .of_still (.refl w) rfl rfl rfl rfl rfl
  | ignore next =>
    cases outcome with
    | success value => exact .of_still (.refl w) rfl rfl rfl rfl rfl
    | failure cause => exact .of_still (.refl w) rfl rfl rfl rfl rfl
  | retry state body frame next =>
    refine .of_still ?_ rfl rfl rfl rfl rfl
    rw [resume, proceed_world]
    exact World.afterAttempt_still ..

/-! ## Events -/

/-- Where a run takes an event. -/
structure Taking (m : Machine σ) (t : Turn σ) : Prop where
  focus : m.focus = .back (.ok ())
  turn : m.turn? = some t
  -- The event is the first one of the agenda, and it is due.
  take : ∃ horizon agenda, m.world.agenda.take? horizon = some (t.event, agenda) ∧
    t.world = m.world.enter t.event agenda

theorem Taking.takes {m : Machine σ} {t : Turn σ} (h : Taking m t) :
    m.takes = [.agenda (.taken t.event)] := by
  rw [Machine.takes, taken?, h.turn]
  rfl

theorem Taking.recorded {m : Machine σ} {t : Turn σ} (h : Taking m t) : m.recorded? = none := by
  rw [recorded?, h.focus]

theorem Taking.answer {m : Machine σ} {t : Turn σ} (h : Taking m t) :
    m.answer? = t.answer? := by
  simp only [answer?, h.focus, h.turn]
  rfl

theorem Taking.now {m : Machine σ} {t : Turn σ} (h : Taking m t) :
    t.world.now = t.event.time := by
  rcases h.take with ⟨horizon, agenda, htake, hworld⟩
  rw [hworld]
  exact World.now_enter htake

theorem Taking.moment {m : Machine σ} {t : Turn σ} (h : Taking m t) :
    t.world.now = m.moment := by
  rw [h.now, Machine.moment, taken?, h.turn]
  rfl

theorem Taking.requests {m : Machine σ} {t : Turn σ} (h : Taking m t) :
    t.world.requests = m.world.requests := by
  rcases h.take with ⟨horizon, agenda, -, hworld⟩
  rw [hworld]
  rfl

/-- An event that fails no request. -/
theorem Taking.path {m : Machine σ} {t : Turn σ} (h : Taking m t)
    (hlapsed : ∀ id deadline r, t.event.work = .expire id deadline →
      m.world.request? id = some r → r.isPending = false) : Path m.world m.takes t.world := by
  rcases h.take with ⟨horizon, agenda, htake, hworld⟩
  rw [h.takes, hworld]
  exact .single (.take htake hlapsed)

theorem Taking.calls {m : Machine σ} {t : Turn σ} (h : Taking m t) : m.calls = t.calls := by
  simp only [Machine.calls, h.focus, h.turn]
  rfl

theorem Taking.handed {m : Machine σ} {t : Turn σ} (h : Taking m t) : m.handed? = none := by
  rw [handed?, h.focus]

theorem Taking.store {m : Machine σ} {t : Turn σ} (h : Taking m t) :
    t.world.store = m.world.store := by
  rcases h.take with ⟨horizon, agenda, -, hworld⟩
  rw [hworld]
  rfl

/-- An event that makes no reply. -/
theorem Taking.begins {m : Machine σ} {t : Turn σ} (h : Taking m t)
    (hlapsed : ∀ id deadline r, t.event.work = .expire id deadline →
      m.world.request? id = some r → r.isPending = false) (hanswer : t.answer? = none) :
    Begins m m.takes t.world := by
  refine .of_not_scheduled (h.path hlapsed) (.takes h.recorded ?_) (not_mem_takes m) h.handed h.store
    fun _ => ⟨by rw [h.requests], m.takes_plain⟩
  intro id _
  rw [answerTo?, h.answer, hanswer]
  rfl

theorem Taking.leads {m : Machine σ} {t : Turn σ} {w : World σ} (h : Taking m t)
    (hexpire : ∀ id deadline, t.event.work ≠ .expire id deadline) (hanswer : t.answer? = none)
    (hcourse : Course t.world t.calls w) : Leads m w := by
  have hbegins := h.begins (fun id deadline r hwork => absurd hwork (hexpire id deadline)) hanswer
  refine ⟨m.takes, t.world, hbegins, ?_, Or.inl h.moment⟩
  rw [h.calls]
  exact hcourse

/-- The timeout of a request that has settled, or was never made, does nothing. -/
theorem Taking.lapsed {m : Machine σ} {t : Turn σ} (h : Taking m t) {request : RequestId}
    {deadline : Time} (hwork : t.event.work = .expire request deadline)
    (hlapsed : ∀ r, m.world.request? request = some r → r.isPending = false) :
    Leads m t.world := by
  have hnot : t.answer? = none := by
    have hpending : (t.world.request? request).any Request.isPending = false := by
      rw [World.request?, h.requests, ← World.request?, Option.any_eq_false]
      intro r hr
      simp [hlapsed r hr]
    simp [Turn.answer?, hwork, hpending]
  refine (h.begins ?_ hnot).leads ?_
  · intro id _ r hid hr
    rw [hwork] at hid
    cases hid
    exact hlapsed r hr
  · rw [h.calls, Turn.calls, hwork]

theorem dispatch_leads {m : Machine σ} {t : Turn σ} (h : Taking m t) :
    Leads m (dispatch t.world t.stack t.event.work).world := by
  cases hwork : t.event.work with
  | host code =>
    refine h.leads (by simp [hwork]) (by simp [Turn.answer?, hwork]) ?_
    simp only [Turn.calls, hwork]
    exact .refl _
  | deliver request target =>
    refine h.leads (by simp [hwork]) (by simp [Turn.answer?, hwork]) ?_
    simp only [Turn.calls, hwork]
    exact process_course ..
  | wake next =>
    refine h.leads (by simp [hwork]) (by simp [Turn.answer?, hwork]) ?_
    simp only [Turn.calls, hwork]
    exact .refl _
  | attempt state body frame next =>
    refine h.leads (by simp [hwork]) (by simp [Turn.answer?, hwork]) ?_
    simp only [Turn.calls, hwork, dispatch, proceed_world]
    exact World.course_attempt (World.evaluate_course ..)
  | fire client scope =>
    refine h.leads (by simp [hwork]) (by simp [Turn.answer?, hwork]) ?_
    simp only [Turn.calls, hwork]
    exact fire_course ..
  | reply request failure =>
    rw [dispatch, reply_world]
    refine .of_answer (a := ⟨t.world, t.stack, request, failure⟩) (h.path (by simp [hwork]))
      h.requests h.store h.recorded ?_ h.handed ?_
    · rw [h.answer, Turn.answer?, hwork]
    · rw [h.calls, Turn.calls, hwork]
  | expire request deadline =>
    have hsame : t.world.request? request = m.world.request? request := by
      rw [World.request?, h.requests, World.request?]
    cases hr : m.world.request? request with
    | none =>
      simp only [dispatch, hsame, hr]
      exact h.lapsed hwork (by simp [hr])
    | some r =>
      cases hp : r.isPending with
      | false =>
        simp only [dispatch, hsame, hr, hp, Bool.false_eq_true, if_false]
        exact h.lapsed hwork (by simp [hr, hp])
      | true =>
        -- The event and the failure of its request are one move.
        simp only [dispatch, hsame, hr, hp, if_true, reply_world]
        rcases h.take with ⟨horizon, agenda, htake, hworld⟩
        have hanswer : m.answer? =
            some ⟨t.world, t.stack, request, some (.timedOut deadline)⟩ := by
          rw [h.answer]
          simp [Turn.answer?, hwork, hsame, hr, hp]
        have hdeed : (Answer.mk t.world t.stack request (some (.timedOut deadline))).deed =
            .settled t.event.time request (some (.timedOut deadline)) := by
          simp only [Answer.deed, hsame, hr, Option.any_some, hp, if_true, h.now]
        have hexplains := Explains.answer h.recorded hanswer hsame
        have hpath := Path.single (World.Move.expire htake hwork hr hp)
        rw [hdeed, h.takes] at hexplains
        rw [← hworld] at hpath
        refine (Begins.of_not_scheduled hpath hexplains (by simp) h.handed ?_
          fun _ => ⟨?_, by simp [Deed.isPlain]⟩).leads ?_
        · rw [World.settle_store]
          exact h.store
        · rw [World.settle_size, h.requests]
        · rw [h.calls, Turn.calls, hwork]

/-! ## Transitions -/

theorem continueRun_leads (w : World σ) (stack : List (Activation σ)) (horizon : Time)
    (count : Nat) (next : Except SimulationError Nat → Script σ) :
    Leads ⟨w, .run horizon count next :: stack, .back (.ok ())⟩
      (continueRun w stack horizon count next).world := by
  unfold continueRun
  by_cases hspent : spent w count = true
  · -- The budget is used up, and the run returns.
    have hturn : (Machine.mk w (.run horizon count next :: stack) (.back (.ok ()))).turn? =
        none := by
      simp [turn?, hspent]
    rw [if_pos hspent]
    exact .of_still (.refl w) (by simp [calls, hturn]) (by rw [taken?, hturn]; rfl) rfl
      (by simp [answer?, hturn]) rfl
  · rw [if_neg hspent]
    cases htake : w.agenda.take? horizon with
    | none =>
      -- Nothing is due any more, and only the clock moves.
      have hturn : (Machine.mk w (.run horizon count next :: stack) (.back (.ok ()))).turn? =
          none := by
        simp [turn?, hspent, htake]
      have hexplains : Explains ⟨w, .run horizon count next :: stack, .back (.ok ())⟩
          [.agenda (.advanced horizon)] := by
        refine ⟨?_, rfl, ?_, ?_, by simp, by simp⟩
        · rw [taken?, hturn]
          rfl
        · intro id _
          simp [answerTo?, answer?, hturn, Deed.answers]
        · simp [settling?, answer?, hturn, Deed.settled?]
      exact (Begins.of_not_scheduled (.single (.advance htake)) hexplains (by simp) rfl rfl
        fun _ => ⟨rfl, by simp [Deed.isPlain]⟩).leads (by simp [calls, hturn])
    | some taken =>
      exact dispatch_leads
        (m := ⟨w, .run horizon count next :: stack, .back (.ok ())⟩)
        (t := ⟨taken.1, w.enter taken.1 taken.2, .run horizon (count + 1) next :: stack⟩)
        ⟨rfl, by simp [turn?, hspent, htake], horizon, taken.2, htake, rfl⟩

theorem back_leads (w : World σ) (stack : List (Activation σ))
    (result : Except SimulationError Unit) (caller : Activation σ) :
    Leads ⟨w, caller :: stack, .back result⟩ (back w stack result caller).world := by
  cases caller with
  | hold refs => cases result <;> exact .of_still (.refl w) rfl rfl rfl rfl rfl
  | await next => cases result <;> exact .of_still (.refl w) rfl rfl rfl rfl rfl
  | shield next => cases result <;> exact .of_still (.refl w) rfl rfl rfl rfl rfl
  | successHook client hook =>
    cases result <;> exact .of_still (restoreSuccess_still ..) rfl rfl rfl rfl rfl
  | failureHook client hook =>
    cases result <;> exact .of_still (restoreFailure_still ..) rfl rfl rfl rfl rfl
  | run horizon count next =>
    cases result with
    | error e => exact .of_still (.refl w) rfl rfl rfl rfl rfl
    | ok _ => exact continueRun_leads ..

/-- Every transition does what the machine tells, and comes upon the calls that it tells. -/
theorem step_leads {m n : Machine σ} (h : m.step = some n) : Leads m n.world := by
  rcases m with ⟨w, stack, focus⟩
  cases focus with
  | code script =>
    cases h
    exact execScript_leads w stack script
  | resume next outcome =>
    cases h
    exact resume_leads w stack next outcome
  | back result =>
    cases stack with
    | nil => cases h
    | cons caller stack =>
      cases h
      exact back_leads w stack result caller
  | crash cause =>
    cases stack with
    | nil => cases h
    | cons caller stack =>
      cases h
      have hworld : (unwind w stack cause caller).world = w := by
        cases caller <;> rfl
      rw [hworld]
      exact .of_still (.refl w) rfl rfl rfl rfl rfl

/-- The calls of a transition are quiet, so its beginning explains it; and what is handed over in its
beginning and by its calls is all that it hands over. -/
theorem Leads.deeds {m : Machine σ} {w : World σ} (h : Leads m w) :
    ∃ deeds, Path m.world deeds w ∧ Explains m deeds ∧ Sends deeds m.sends := by
  rcases h with ⟨deeds, v, hbegins, hcourse, hnow | ⟨hcalls, rfl⟩⟩
  · rcases hcourse.hands.deeds with ⟨more, hmore, hquiet, hsends⟩
    refine ⟨deeds ++ more, hbegins.path.trans hmore, hbegins.explains.append hquiet ?_,
      hbegins.handed.append hsends⟩
    rw [← hnow]
    exact (hmore.clock hquiet).2
  · refine ⟨deeds, hbegins.path, hbegins.explains, ?_⟩
    rw [sends, hcalls, List.filterMap_nil, List.append_nil]
    exact hbegins.handed

end Machine
end Callflow
