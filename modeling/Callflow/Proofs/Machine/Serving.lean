import Callflow.Proofs.Machine.Delivery
import Callflow.Proofs.Machine.Settlement
import Callflow.Proofs.World.Parking

/-!
# Whom a transition serves

A continuation that replies to a request in the end serves this request. A transition goes on with
one continuation at most, and a machine tells by its focus, its stack and its agenda which request
this one serves (`Machine.serves?`): whatever begins to wait in the transition, or is handed an outcome
by it, serves the same request (`Next.carries`). What a transition schedules about requests itself is
about new ones, unless the host handles requests (`Next.asks`).
-/

namespace Callflow

open Continuation (Through)
open World (Parks Parked)

variable {σ : Type}

/-- The request that gets a reply in the end. -/
def Continuation.request? : Continuation σ → Option RequestId
  | .host _ => none
  | .reply request => some request
  | .complete _ => none
  | .steps _ _ next => next.request?
  | .service _ next => next.request?
  | .ignore next => next.request?
  | .retry _ _ _ next => next.request?

theorem Continuation.Through.request? {a b : Continuation σ} (h : Through a b) :
    b.request? = a.request? := by
  induction h with
  | here => rfl
  | steps _ ih => exact ih
  | service _ ih => exact ih
  | ignore _ ih => exact ih
  | retry _ ih => exact ih

/-- The request that is served by whoever waits for a request. -/
def World.served? (w : World σ) (id : RequestId) : Option RequestId :=
  (w.waiting? id).bind Continuation.request?

/-- The request that a callback is about. -/
def Callback.asks? : Callback σ → Option RequestId
  | .deliver request _ => some request
  | .expire request _ => some request
  | .reply request _ => some request
  | _ => none

/-- The request that is served by what a callback goes on with. -/
def Callback.serves? (w : World σ) : Callback σ → Option RequestId
  | .deliver request _ => some request
  | .wake next => next.request?
  | .attempt _ _ _ next => next.request?
  | .expire request _ => w.served? request
  | .reply request _ => w.served? request
  | _ => none

namespace Machine

/-- The request that is served by what the next transition goes on with. -/
def serves? (m : Machine σ) : Option RequestId :=
  match m.focus with
  | .code (.process request _ _) => some request
  | .code (.reply request _ _) => m.world.served? request
  | .resume (.reply request) _ => m.world.served? request
  | .resume next _ => next.request?
  | _ => m.taken?.bind fun e => e.work.serves? m.world

/-- Between a world and a machine, nothing has begun to wait or is handed an outcome but what serves
a request, or what serves none. -/
structure Carries (served : Option RequestId) (w : World σ) (n : Machine σ) : Prop where
  events : ∀ e ∈ n.world.agenda.pending, e ∈ w.agenda.pending ∨
    ∀ k, e.work.continuation? = some k → k.request? = served
  waiters : ∀ id k, n.world.waiting? id = some k → w.waiting? id = some k ∨
    (w.waiters.size ≤ id.number ∧ k.request? = served)
  focus : ∀ k outcome, n.focus = .resume k outcome → k.request? = served

namespace Carries

variable {w v : World σ} {n : Machine σ} {served : Option RequestId} {next : Continuation σ}

theorem of_parks (h : Parks next w n.world)
    (hfocus : ∀ k outcome, n.focus = .resume k outcome → k.request? = next.request?) :
    Carries next.request? w n where
  events := by
    intro e he
    rcases h.events e he with hold | ⟨-, hthrough⟩
    · exact Or.inl hold
    · exact Or.inr fun k hk => (hthrough k hk).request?
  waiters := by
    intro id k hk
    rcases h.waiters id k hk with hold | ⟨hsize, hthrough⟩
    · exact Or.inl hold
    · exact Or.inr ⟨hsize, hthrough.request?⟩
  focus := hfocus

/-- Nothing has begun to wait. -/
theorem of_same (hagenda : n.world.agenda = w.agenda) (hwaiters : n.world.waiters = w.waiters)
    (hfocus : ∀ k outcome, n.focus = .resume k outcome → k.request? = served) :
    Carries served w n where
  events := by
    rw [hagenda]
    exact fun _ he => Or.inl he
  waiters := by
    intro id k hk
    rw [World.waiting?, World.waiter, hwaiters] at hk
    exact Or.inl hk
  focus := hfocus

/-- What has begun to wait goes on to nothing but host code. -/
theorem unserved (h : Parks (.host fun _ => .done) w v) (stack : List (Activation σ))
    {focus : Focus σ} (hfocus : ∀ k outcome, focus ≠ .resume k outcome) :
    Carries none w ⟨v, stack, focus⟩ :=
  of_parks (n := ⟨v, stack, focus⟩) h fun k outcome hk => absurd hk (hfocus k outcome)

theorem before (h : Carries served v n) (hevents : ∀ e ∈ v.agenda.pending, e ∈ w.agenda.pending)
    (hwaiters : v.waiters = w.waiters) : Carries served w n where
  events := by
    intro e he
    rcases h.events e he with hold | hnew
    · exact Or.inl (hevents e hold)
    · exact Or.inr hnew
  waiters := by
    intro id k hk
    have hwaiting := h.waiters id k hk
    rw [World.waiting?, World.waiter, hwaiters] at hwaiting
    exact hwaiting
  focus := h.focus

theorem proceed {e : Evaluation σ} (h : Parked next w e) (stack : List (Activation σ)) :
    Carries next.request? w (Machine.proceed stack next e) := by
  refine of_parks ?_ ?_
  · rw [proceed_world]
    exact h.parks
  · intro k outcome hfocus
    unfold Machine.proceed at hfocus
    split at hfocus <;> cases hfocus
    rfl

theorem evaluate (w : World σ) (stack : List (Activation σ)) (activity : Activity) (frame : Frame)
    (next : Continuation σ) :
    Carries next.request? w (Machine.evaluate w stack activity frame next) :=
  proceed (World.evaluate_parks ..) stack

theorem execute (w : World σ) (stack : List (Activation σ)) (scope : ScopeId) (op : Operation)
    (next : Continuation σ) :
    Carries next.request? w (Machine.execute w stack scope op next) :=
  (evaluate { w with store := (w.store.newScope (some scope) none).1 } _ op.body _ next).before
    (fun _ he => he) rfl

theorem process (w : World σ) (stack : List (Activation σ)) (request : RequestId)
    (target : Target) : Carries (some request) w (Machine.process w stack request target) := by
  cases target with
  | endpoint id => exact of_same rfl rfl (by rintro _ _ ⟨⟩)
  | service id =>
    unfold Machine.process
    dsimp only
    split
    · split
      · exact of_same rfl rfl (by rintro _ _ ⟨⟩)
      · exact execute w _ _ _ (.reply request)
    · exact of_same rfl rfl (by rintro _ _ ⟨⟩)

theorem fire (w : World σ) (stack : List (Activation σ)) (id : ClientId) (scope : ScopeId) :
    Carries none w (Machine.fire w stack id scope) := by
  unfold Machine.fire
  split
  · exact of_same rfl rfl (by rintro _ _ ⟨⟩)
  · rename_i client _
    dsimp only
    split
    · exact of_same rfl rfl (by rintro _ _ ⟨⟩)
    · rename_i v event hs
      -- The next firing has been scheduled, which goes on with nothing.
      have hfired : Parks (.complete id) { w with
          store := w.store.modifyClient id fun c => { c with firings := c.firings + 1 } } v :=
        .schedule hs (by simp [Callback.continuation?])
      have hevaluated := World.evaluate_parks (inUse (.hold [.scope scope] :: stack)) client.body
        (.plain scope (.client client.name)) (.complete id) v
      exact (proceed (hevaluated.before hfired) _).before (fun _ he => he) rfl

theorem complete (w : World σ) (stack : List (Activation σ)) (id : ClientId) (outcome : Outcome) :
    Carries served w (Machine.complete w stack id outcome) := by
  cases outcome with
  | success value =>
    unfold Machine.complete
    dsimp only
    split <;> exact of_same rfl rfl (by rintro _ _ ⟨⟩)
  | failure cause =>
    unfold Machine.complete
    dsimp only
    split <;> exact of_same rfl rfl (by rintro _ _ ⟨⟩)

/-- A reply takes out whoever has waited, and nobody begins to wait. -/
theorem reply (w : World σ) (stack : List (Activation σ)) (request : RequestId)
    (failure : Option Failure) :
    Carries (w.served? request) w (Machine.reply w stack request failure) := by
  cases hr : w.request? request with
  | none =>
    unfold Machine.reply
    rw [World.settle_absent failure hr]
    cases failure <;> exact of_same rfl rfl (by rintro _ _ ⟨⟩)
  | some r =>
    cases hp : r.isPending with
    | false =>
      rw [reply_stale stack failure hr hp]
      exact of_same rfl rfl (by rintro _ _ ⟨⟩)
    | true =>
      rw [reply_pending stack failure hr hp]
      refine ⟨?_, ?_, ?_⟩
      · intro e he
        rw [World.settle_agenda] at he
        exact Or.inl he
      · intro id k hk
        rw [World.waiting?, World.waiter_settle failure hr hp] at hk
        split at hk
        · cases hk
        · exact Or.inl hk
      · intro k outcome hfocus
        have hserved : (w.waiter request).continuation? = some k := by
          dsimp only at hfocus
          unfold Waiter.focus at hfocus
          split at hfocus <;> cases hfocus
          rename_i hwaiter
          rw [hwaiter]
          rfl
        rw [World.served?, World.waiting?, hserved]
        rfl

theorem resume (w : World σ) (stack : List (Activation σ)) (next : Continuation σ)
    (outcome : Outcome) :
    Carries (serves? ⟨w, stack, .resume next outcome⟩) w (Machine.resume w stack next outcome) := by
  have hon {v : Continuation σ} {stack : List (Activation σ)} {result : Outcome} :
      Carries v.request? w ⟨w, stack, .resume v result⟩ := by
    refine of_same rfl rfl ?_
    rintro _ _ ⟨⟩
    rfl
  cases next with
  | host code => exact of_same rfl rfl (by rintro _ _ ⟨⟩)
  | reply request => cases outcome <;> exact reply ..
  | complete client => exact complete ..
  | steps rest frame next =>
    change Carries next.request? w _
    cases outcome with
    | success value => exact proceed (World.evaluateSteps_parks ..) stack
    | failure cause => exact hon
  | service id next =>
    change Carries next.request? w _
    cases outcome <;> exact hon
  | ignore next =>
    change Carries next.request? w _
    cases outcome <;> exact hon
  | retry state body frame next =>
    change Carries next.request? w _
    exact proceed (.afterAttempt ..) stack

theorem dispatch (w : World σ) (stack : List (Activation σ)) (work : Callback σ) :
    Carries (work.serves? w) w (Machine.dispatch w stack work) := by
  cases work with
  | host code => exact of_same rfl rfl (by rintro _ _ ⟨⟩)
  | deliver request target => exact process ..
  | expire request deadline =>
    unfold Machine.dispatch
    dsimp only
    split
    · split
      · exact reply ..
      · exact of_same rfl rfl (by rintro _ _ ⟨⟩)
    · exact of_same rfl rfl (by rintro _ _ ⟨⟩)
  | wake next =>
    refine of_same rfl rfl ?_
    rintro _ _ ⟨⟩
    rfl
  | attempt state body frame next => exact proceed (.attempt (World.evaluate_parks ..)) _
  | fire client scope => exact fire ..
  | reply request failure => exact reply ..

theorem execScript (w : World σ) (stack : List (Activation σ)) (script : Script σ) :
    Carries (serves? ⟨w, stack, .code script⟩) w (Machine.execScript w stack script) := by
  have hplan {delay : Time} {kind : EventKind} {work : Callback σ} {v : World σ} {event : EventId}
      (h : w.schedule delay kind work = .ok (v, event)) (hwork : work.continuation? = none)
      (code : Script σ) : Carries none w ⟨v, stack, .code code⟩ :=
    unserved (.schedule h (by simp [hwork])) stack (by simp)
  cases script with
  | schedule delay kind callback next =>
    unfold Machine.execScript
    dsimp only
    split
    · rename_i hs
      exact hplan hs rfl _
    · exact of_same rfl rfl (by rintro _ _ ⟨⟩)
  | replyAfter delay request failure next =>
    unfold Machine.execScript
    dsimp only
    split
    · rename_i hs
      exact hplan hs rfl _
    · exact of_same rfl rfl (by rintro _ _ ⟨⟩)
  | evaluate activity caller resume next => exact evaluate w _ _ _ (.host resume)
  | execute id op resume next =>
    unfold Machine.execScript
    dsimp only
    split
    · exact of_same rfl rfl (by rintro _ _ ⟨⟩)
    · exact execute w _ _ _ (.host resume)
  | allocate next =>
    refine ⟨fun _ he => Or.inl he, ?_, by rintro _ _ ⟨⟩⟩
    intro id k hk
    have hpush : w.allocate.1.waiters = w.waiters.push .nobody := rfl
    change w.allocate.1.waiting? id = some k at hk
    rw [World.waiting?, World.waiter_of_push hpush] at hk
    split at hk
    · cases hk
    · exact Or.inl hk
  | request caller operation deadline succeeded failed next =>
    have hissued : Parks (.host fun _ => .done) w
        (w.issue caller operation deadline (.host succeeded failed)).1 :=
      .issue w caller operation deadline (by rintro _ ⟨⟩)
    exact unserved hissued stack (by simp)
  | send request target next =>
    have hsent := Parks.send (.host fun _ => .done) w request target
    unfold Machine.execScript
    dsimp only
    split
    · rename_i hs
      rw [hs] at hsent
      exact unserved hsent stack (by simp)
    · rename_i hs
      rw [hs] at hsent
      exact unserved hsent stack (by simp)
  | process request target next => exact process ..
  | reply request failure next => exact reply ..
  | _ => exact of_same rfl rfl (by rintro _ _ ⟨⟩)

end Carries

theorem back_carries {w : World σ} {stack : List (Activation σ)}
    {result : Except SimulationError Unit} {caller : Activation σ}
    (hturn : turn? ⟨w, caller :: stack, .back result⟩ = none) (served : Option RequestId) :
    Carries served w (back w stack result caller) := by
  cases caller with
  | run horizon count next =>
    cases result with
    | error e => exact .of_same rfl rfl (by rintro _ _ ⟨⟩)
    | ok _ =>
      unfold back continueRun
      dsimp only
      split
      · exact .of_same rfl rfl (by rintro _ _ ⟨⟩)
      · rename_i hspent
        cases htake : w.agenda.take? horizon with
        | none =>
          refine ⟨?_, fun _ _ hk => Or.inl hk, by rintro _ _ ⟨⟩⟩
          intro e he
          have hsame := (Agenda.advance_pending w.agenda horizon).1
          rw [← hsame]
          exact Or.inl he
        | some taken => simp [turn?, hspent, htake] at hturn
  | successHook client hook =>
    refine .of_same ?_ ?_ ?_
    · simp only [back, restoreSuccess]
      split <;> rfl
    · simp only [back, restoreSuccess]
      split <;> rfl
    · rintro _ _ ⟨⟩
  | failureHook client hook =>
    refine .of_same ?_ ?_ ?_
    · simp only [back, restoreFailure]
      split <;> rfl
    · simp only [back, restoreFailure]
      split <;> rfl
    · rintro _ _ ⟨⟩
  | _ => exact .of_same rfl rfl (by rintro _ _ ⟨⟩)

/-- An event is carried out in a world where the same requests are waited for. -/
theorem Taking.carries {m : Machine σ} {t : Turn σ} (h : Taking m t) :
    Carries m.serves? m.world (dispatch t.world t.stack t.event.work) := by
  rcases h.take with ⟨horizon, agenda, htake, hworld⟩
  rcases Agenda.take?_eq_some htake with ⟨rest, hpending, -, rfl⟩
  have hserves : m.serves? = t.event.work.serves? t.world := by
    have htaken : m.taken? = some t.event := by
      rw [taken?, h.turn]
      rfl
    have hwhich : m.serves? = t.event.work.serves? m.world := by
      simp only [serves?, h.focus, htaken, Option.bind_some]
    rw [hwhich, hworld]
    cases t.event.work <;> rfl
  rw [hserves]
  refine (Carries.dispatch t.world t.stack t.event.work).before ?_ ?_
  · intro e he
    rw [hworld] at he
    rw [hpending]
    exact List.mem_cons_of_mem _ he
  · rw [hworld]
    rfl

/-- Whatever begins to wait in a transition, or is handed an outcome by it, serves the request that
the machine tells. -/
theorem Next.carries {b c : Machine σ} (h : Next b c) : Carries b.serves? b.world c := by
  cases h with
  | call script hnone => exact .of_same rfl rfl (by rintro _ _ ⟨⟩)
  | step hs =>
    cases hturn : b.turn? with
    | some t =>
      rcases turn?_spec hturn with ⟨htaking, hstep⟩
      rw [hstep] at hs
      cases hs
      exact htaking.carries
    | none =>
      rcases b with ⟨w, stack, focus⟩
      cases focus with
      | code script =>
        cases hs
        exact .execScript w stack script
      | resume next outcome =>
        cases hs
        exact .resume w stack next outcome
      | back result =>
        cases stack with
        | nil => cases hs
        | cons caller stack =>
          cases hs
          exact back_carries hturn _
      | crash cause =>
        cases stack with
        | nil => cases hs
        | cons caller stack =>
          cases hs
          cases caller <;> exact .of_same rfl rfl (by rintro _ _ ⟨⟩)

end Machine

/-! ## Events about requests -/

namespace World

/-- A timeout is scheduled for a request that is made with it. -/
theorem Move.expires {w v : World σ} {deeds : List (Deed σ)} (h : Move w deeds v)
    {clock delay deadline : Time} {e : Event (Callback σ)} {id : RequestId}
    (hmem : .agenda (.scheduled clock delay e) ∈ deeds) (hwork : e.work = .expire id deadline) :
    w.requests.size ≤ id.number ∧ id.number < v.requests.size := by
  cases h with
  | watch hsend hwatch =>
    rcases watch_eq hsend hwatch with ⟨agenda, _, _, rfl⟩
    simp only [plan, List.mem_cons, List.not_mem_nil, or_false, reduceCtorEq, false_or] at hmem
    rcases hmem with hdeliver | hexpire
    · cases hdeliver
      cases hwork
    · cases hexpire
      cases hwork
      simp
  | schedule hs hnot =>
    simp only [plan, List.mem_singleton] at hmem
    cases hmem
    exact absurd hwork (hnot id deadline)
  | _ => simp at hmem

theorem Path.expires {w v : World σ} {deeds : List (Deed σ)} (h : Path w deeds v)
    {clock delay deadline : Time} {e : Event (Callback σ)} {id : RequestId}
    (hmem : .agenda (.scheduled clock delay e) ∈ deeds) (hwork : e.work = .expire id deadline) :
    w.requests.size ≤ id.number ∧ id.number < v.requests.size := by
  induction h with
  | refl => cases hmem
  | move hpath hm ih =>
    rcases List.mem_append.1 hmem with hmem | hmem
    · exact ⟨(ih hmem).1, (ih hmem).2.trans_le hm.effect.size_le⟩
    · exact ⟨hpath.size_le.trans (hm.expires hmem hwork).1, (hm.expires hmem hwork).2⟩

end World

namespace Machine

/-- What a transition schedules about a request is about a new one, unless the host handles
requests. -/
theorem Next.asks {b c : Machine σ} (h : Next b c) (hhost : b.handles? = none) :
    ∀ e ∈ c.world.agenda.pending, e ∈ b.world.agenda.pending ∨
      ∀ id, e.work.asks? = some id →
        b.world.requests.size ≤ id.number ∧ id.number < c.world.requests.size := by
  rcases h.leads with ⟨deeds, v, hbegins, hcourse, -⟩
  rcases hcourse.hands with ⟨⟨more, hmore, hquiet, hsends⟩, hfresh, -, -⟩
  have hpath := hbegins.path.trans hmore
  have hhanded : b.handed? = none := by
    unfold handed?
    split
    · rename_i hfocus
      simp [handles?, hfocus] at hhost
    · rfl
  intro e he
  rcases hpath.agenda.planned.2 e he with hold | ⟨clock, delay, hlog, -⟩
  · exact Or.inl hold
  · right
    intro id hasks
    have hmem := mem_log hlog
    cases hwork : e.work with
    | expire request deadline =>
      rw [hwork] at hasks
      cases hasks
      exact hpath.expires hmem hwork
    | reply request failure =>
      -- Only the host has a reply made later, and it handles no request.
      rcases List.mem_append.1 hmem with hmem | hmem
      · rw [hbegins.replies clock delay e request failure hmem hwork] at hhost
        cases hhost
      · have hown := hquiet _ hmem
        simp [World.Deed.isQuiet, hwork, Callback.fromHost] at hown
    | deliver request target =>
      rw [hwork] at hasks
      cases hasks
      have hsending : World.Deed.sending? (.agenda (.scheduled clock delay e)) =
          some ⟨id, target, clock, delay⟩ := by
        simp only [World.Deed.sending?, hwork]
      rcases List.mem_append.1 hmem with hmem | hmem
      · -- Before its calls, a transition hands over what the host does.
        have hsent := List.mem_filterMap.2 ⟨_, hmem, hsending⟩
        rw [hbegins.handed.handed, hhanded] at hsent
        cases hsent
      · have hsent := List.mem_filterMap.2 ⟨_, hmem, hsending⟩
        rw [hsends.handed] at hsent
        have hnumber := hfresh _ hsent
        exact ⟨hbegins.path.size_le.trans hnumber.1, hnumber.2⟩
    | _ => simp [hwork, Callback.asks?] at hasks

end Machine
end Callflow
