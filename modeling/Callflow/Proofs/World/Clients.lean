import Callflow.Proofs.Agenda.Fifo
import Callflow.Proofs.World.Evaluation

/-!
# Clients are left alone

A client has its record in the store and its firings to come in the agenda. Evaluating an activity may
start clients, but it leaves those that there are `Untouched`, and schedules no firing of one that
there is not: it is `Harmless` (`evaluate_harmless`).
-/

namespace Callflow

variable {σ : Type}

/-- Whether an event fires a client. -/
def Event.fires (id : ClientId) (e : Event (Callback σ)) : Bool :=
  match e.work with
  | .fire client _ => client = id
  | _ => false

theorem Agenda.filter_insert_first {α : Type} {p : Event α → Bool} {e : Event α}
    {events : List (Event α)} (he : p e = true) (hnone : events.filter p = []) :
    (insert e events).filter p = [e] := by
  rcases insert_eq_append e events with ⟨front, back, rfl, hinsert⟩
  rw [List.filter_append, List.append_eq_nil_iff] at hnone
  rw [hinsert, List.filter_append, List.filter_cons_of_pos he, hnone.1, hnone.2]
  rfl

namespace World

/-- The firings of a client that are to come. -/
def firings (w : World σ) (id : ClientId) : List (Event (Callback σ)) :=
  w.agenda.pending.filter (Event.fires id)

/-- A client has the same record and the same firings to come. -/
structure Untouched (id : ClientId) (w v : World σ) : Prop where
  client : v.store.client? id = w.store.client? id
  firings : v.firings id = w.firings id

namespace Untouched

variable {id : ClientId} {w v u : World σ}

theorem refl (id : ClientId) (w : World σ) : Untouched id w w := ⟨rfl, rfl⟩

theorem trans (h : Untouched id w v) (k : Untouched id v u) : Untouched id w u :=
  ⟨k.client.trans h.client, k.firings.trans h.firings⟩

/-- Something is scheduled that does not fire the client. -/
theorem schedule {delay : Time} {kind : EventKind} {work : Callback σ} {event : EventId}
    (h : w.schedule delay kind work = .ok (v, event)) (hwork : ∀ scope, work ≠ .fire id scope) :
    Untouched id w v := by
  rcases schedule_eq_ok h with ⟨agenda, hagenda, rfl, -⟩
  rcases Agenda.schedule_eq_ok hagenda with ⟨-, rfl⟩
  refine ⟨rfl, Agenda.filter_insert_of_neg _ ?_⟩
  unfold Event.fires
  split
  · rename_i client scope hfire
    refine decide_eq_false ?_
    rintro rfl
    exact hwork scope hfire
  · rfl

theorem send (id : ClientId) (w : World σ) (request : RequestId) (target : Target) :
    Untouched id w (w.send request target).1 := by
  cases hr : w.request? request with
  | none =>
    rw [send_absent target hr]
    exact refl id w
  | some r =>
    rcases send_eq hr (Prod.mk.eta (p := w.send request target)).symm with
      ⟨_, _, hv⟩ | ⟨_, event, hs⟩
    · rw [hv]
      exact ⟨rfl, rfl⟩
    · have hscheduled : Untouched id _ _ := schedule hs (by simp)
      exact ⟨hscheduled.client, hscheduled.firings⟩

theorem settle (id : ClientId) (w : World σ) (request : RequestId) (failure : Option Failure) :
    Untouched id w (w.settle request failure).1 := by
  refine ⟨by rw [settle_store], ?_⟩
  rw [World.firings, settle_agenda]
  rfl

end Untouched

/-- Every client that there is stays untouched, and so does every number that no client gets. -/
structure Harmless (w v : World σ) : Prop where
  untouched : ∀ id, (w.store.client? id).isSome ∨ v.store.client? id = none → Untouched id w v

/-- Only clients that there are have firings to come. -/
def Tended (w : World σ) : Prop := ∀ id, w.store.client? id = none → w.firings id = []

namespace Harmless

variable {w v u : World σ}

theorem of_untouched (h : ∀ id, Untouched id w v) : Harmless w v := ⟨fun id _ => h id⟩

theorem refl (w : World σ) : Harmless w w := .of_untouched fun id => .refl id w

theorem trans (h : Harmless w v) (k : Harmless v u) : Harmless w u := by
  refine ⟨fun id hid => ?_⟩
  rcases hid with hid | hid
  · have hfirst := h.untouched id (Or.inl hid)
    exact hfirst.trans (k.untouched id (Or.inl (by rw [hfirst.client]; exact hid)))
  · have hlast := k.untouched id (Or.inr hid)
    exact (h.untouched id (Or.inr (hlast.client.symm.trans hid))).trans hlast

/-- Nothing about clients or the agenda changes. -/
theorem of_same (hclients : v.store.clients = w.store.clients)
    (hagenda : v.agenda.pending = w.agenda.pending) : Harmless w v := by
  refine .of_untouched fun id => ⟨?_, ?_⟩
  · unfold Store.client?
    rw [hclients]
  · unfold World.firings
    rw [hagenda]

theorem schedule {delay : Time} {kind : EventKind} {work : Callback σ} {event : EventId}
    (h : w.schedule delay kind work = .ok (v, event)) (hwork : ∀ id scope, work ≠ .fire id scope) :
    Harmless w v :=
  .of_untouched fun id => .schedule h (hwork id)

theorem tended (h : Harmless w v) (hw : w.Tended) : v.Tended := by
  intro id hid
  have hsame := h.untouched id (Or.inr hid)
  rw [hsame.firings]
  exact hw id (hsame.client.symm.trans hid)

end Harmless

/-! ## Starting a client -/

/-- A client that is new does not get the number of another one. -/
theorem client?_newClient (s : Store) (name : String) (period : Time) (body : Activity)
    (id : ClientId) :
    (s.newClient name period body).1.client? id =
      if id = ⟨s.clients.size⟩ then some ⟨name, period, body, 0, 0, 0⟩ else s.client? id := by
  rcases id with ⟨i⟩
  unfold Store.client? Store.newClient
  simp only [Array.getElem?_push, ClientId.mk.injEq]

/-- A client is only started with a valid period. -/
theorem isPeriod_of_defineClient {w v : World σ} {name : String} {period : Time} {body : Activity}
    {frame : Frame} {result : Progress}
    (h : w.defineClient name period body frame = (v, .ok result)) : Time.isPeriod period = true := by
  unfold defineClient at h
  split at h
  · cases h
  · rename_i hnot
    simpa using hnot

/-- A client is started under the next number, with a firing one period later. -/
theorem defineClient_started {w v : World σ} {name : String} {period : Time} {body : Activity}
    {frame : Frame} {id : ClientId} {held : List Ref}
    (h : w.defineClient name period body frame =
      (v, .ok (.resolved (.success (.client id)) held))) :
    w.store.client? id = none ∧ Time.checkDelay period = .ok () ∧
      v.store.client? id = some ⟨name, period, body, 0, 0, 0⟩ ∧
      (w.Tended → ∃ seq, v.firings id =
        [⟨w.now + period, seq, .clientFiring, .fire id frame.scope⟩]) := by
  unfold defineClient at h
  split at h
  · cases h
  · dsimp only at h
    split at h
    · rename_i u event hs
      cases h
      rcases schedule_eq_ok hs with ⟨agenda, hagenda, rfl, -⟩
      rcases Agenda.schedule_eq_ok hagenda with ⟨hcheck, rfl⟩
      have hnew : w.store.client? ⟨w.store.clients.size⟩ = none := by
        unfold Store.client?
        exact Array.getElem?_eq_none le_rfl
      refine ⟨hnew, hcheck, ?_, fun hw => ⟨w.agenda.nextSeq, ?_⟩⟩
      · exact (client?_newClient w.store name period body _).trans (if_pos rfl)
      · exact Agenda.filter_insert_first (by simp [Event.fires, Store.newClient]) (hw _ hnew)
    · cases h

theorem defineClient_harmless (w : World σ) (name : String) (period : Time) (body : Activity)
    (frame : Frame) : Harmless w (w.defineClient name period body frame).1 := by
  -- The number of the new client is not that of one that there is.
  have hdefined (id : ClientId)
      (hid : (w.store.client? id).isSome ∨
        (w.store.newClient name period body).1.client? id = none) : id ≠ ⟨w.store.clients.size⟩ := by
    rintro rfl
    rcases hid with hid | hid
    · simp [Store.client?] at hid
    · rw [client?_newClient, if_pos rfl] at hid
      cases hid
  unfold defineClient
  split
  · exact .refl w
  · dsimp only
    split
    · rename_i v event hs
      rcases schedule_eq_ok hs with ⟨agenda, hagenda, rfl, -⟩
      rcases Agenda.schedule_eq_ok hagenda with ⟨-, rfl⟩
      refine ⟨fun id hid => ?_⟩
      have hother := hdefined id hid
      refine ⟨(client?_newClient ..).trans (if_neg hother), Agenda.filter_insert_of_neg _ ?_⟩
      exact decide_eq_false fun hsame => hother hsame.symm
    · exact ⟨fun id hid => ⟨(client?_newClient ..).trans (if_neg (hdefined id hid)), rfl⟩⟩

/-! ## Counting for a client -/

theorem client?_modifyClient (s : Store) (id other : ClientId) (change : Client → Client) :
    (s.modifyClient id change).client? other =
      if id = other then (s.client? other).map change else s.client? other := by
  rcases id with ⟨i⟩
  rcases other with ⟨j⟩
  unfold Store.client? Store.modifyClient
  rw [Array.getElem?_modify]
  simp only [ClientId.mk.injEq]

/-- Only the client that is counted for changes. -/
theorem count_untouched (w : World σ) {id other : ClientId} (change : Client → Client)
    (h : other ≠ id) : Untouched other w { w with store := w.store.modifyClient id change } :=
  ⟨(client?_modifyClient ..).trans (if_neg h.symm), rfl⟩

theorem Tended.count {w v : World σ} {id : ClientId} {change : Client → Client} (hw : w.Tended)
    (hstore : v.store = w.store.modifyClient id change) (hagenda : v.agenda = w.agenda) :
    v.Tended := by
  intro other hother
  rw [firings, hagenda]
  refine hw other ?_
  rw [hstore, client?_modifyClient] at hother
  split at hother
  · exact Option.map_eq_none_iff.1 hother
  · exact hother

/-- A client whose firing is counted has the next one scheduled, one period later. -/
theorem rearmed {w v : World σ} {id : ClientId} {scope : ScopeId} {client : Client}
    {event : EventId} (hclient : w.store.client? id = some client)
    (hs : ({ w with store := w.store.modifyClient id fun c => { c with firings := c.firings + 1 } } :
      World σ).schedule client.period .clientFiring (.fire id scope) = .ok (v, event)) :
    v.store.client? id = some { client with firings := client.firings + 1 } ∧
      (w.firings id = [] → ∃ seq, v.firings id =
        [⟨w.now + client.period, seq, .clientFiring, .fire id scope⟩]) ∧
      ∀ other, other ≠ id → Untouched other w v := by
  rcases schedule_eq_ok hs with ⟨agenda, hagenda, rfl, -⟩
  rcases Agenda.schedule_eq_ok hagenda with ⟨-, rfl⟩
  refine ⟨?_, fun hnone => ⟨w.agenda.nextSeq, ?_⟩, ?_⟩
  · rw [client?_modifyClient, if_pos rfl, hclient]
    rfl
  · exact Agenda.filter_insert_first (by simp [Event.fires]) hnone
  · intro other hother
    refine (count_untouched w _ hother).trans (.schedule hs ?_)
    rintro scope' hsame
    cases hsame
    exact hother rfl

theorem Tended.rearmed {w v : World σ} {id : ClientId} {scope : ScopeId} {client : Client}
    {event : EventId} (hw : w.Tended) (hclient : w.store.client? id = some client)
    (hs : ({ w with store := w.store.modifyClient id fun c => { c with firings := c.firings + 1 } } :
      World σ).schedule client.period .clientFiring (.fire id scope) = .ok (v, event)) :
    v.Tended := by
  rcases World.rearmed hclient hs with ⟨hsome, -, hothers⟩
  intro other hnone
  have hother : other ≠ id := by
    rintro rfl
    cases hsome.symm.trans hnone
  have hsame := hothers other hother
  rw [hsame.firings]
  exact hw other (hsame.client.symm.trans hnone)

/-- Taking an event takes at most a firing, the next one. -/
theorem firings_enter {w : World σ} {horizon : Time} {e : Event (Callback σ)}
    {agenda : Agenda (Callback σ)} (ht : w.agenda.take? horizon = some (e, agenda))
    (id : ClientId) :
    w.firings id = if e.fires id then e :: (w.enter e agenda).firings id
      else (w.enter e agenda).firings id := by
  rcases Agenda.take?_eq_some ht with ⟨rest, hpending, -, rfl⟩
  rw [firings, hpending, List.filter_cons]
  rfl

theorem Tended.enter {w : World σ} {horizon : Time} {e : Event (Callback σ)}
    {agenda : Agenda (Callback σ)} (hw : w.Tended)
    (ht : w.agenda.take? horizon = some (e, agenda)) : (w.enter e agenda).Tended := by
  intro id hid
  have hnone := hw id hid
  rw [firings_enter ht] at hnone
  split at hnone
  · cases hnone
  · exact hnone

/-! ## Evaluations -/

theorem suspend_harmless (w : World σ) (delay : Time) (kind : EventKind) {work : Callback σ}
    (hwork : ∀ id scope, work ≠ .fire id scope) : Harmless w (w.suspend delay kind work).1 := by
  unfold suspend
  split
  · rename_i v event hs
    exact .schedule hs hwork
  · exact .refl w

theorem defineOperation_harmless (w : World σ) (name : String) (body : Activity) (frame : Frame) :
    Harmless w (w.defineOperation name body frame).1 := by
  unfold defineOperation
  split
  · exact .refl w
  · exact .of_same rfl rfl

/-- A request that is made and handed over. -/
theorem issue_send_harmless (w : World σ) (caller : Caller) (operation : String)
    (deadline : Option Time) (waiter : Waiter σ) (target : Target) :
    Harmless w ((w.issue caller operation deadline waiter).1.send ⟨w.requests.size⟩ target).1 := by
  have hissued : Harmless w (w.issue caller operation deadline waiter).1 := .of_same rfl rfl
  exact hissued.trans (.of_untouched fun id => .send id _ _ target)

theorem trigger_harmless (w : World σ) (inUse : List Ref) (name operation : String) (frame : Frame)
    (next : Continuation σ) : Harmless w (w.trigger inUse name operation frame next).1 := by
  have hsent (target : Target) :=
    issue_send_harmless w frame.caller operation none .nobody target
  have hid : (w.issue frame.caller operation none .nobody).2 = ⟨w.requests.size⟩ := rfl
  unfold trigger
  split
  · exact .refl w
  · rename_i target _
    simp only [hid]
    split
    · rename_i v cause hs
      have hv := hsent target
      rw [hs] at hv
      exact hv
    · rename_i v hs
      have hv := hsent target
      rw [hs] at hv
      exact hv

theorem query_harmless (w : World σ) (inUse : List Ref) (name operation : String)
    (timeout : Option Time) (frame : Frame) (next : Continuation σ) :
    Harmless w (w.query inUse name operation timeout frame next).1 := by
  have hsent (deadline : Option Time) (target : Target) :=
    issue_send_harmless w frame.caller operation deadline (.continuation next) target
  generalize hquery : w.query inUse name operation timeout frame next = e
  rcases e with ⟨u, result⟩
  rcases query_cases hquery with
    ⟨_, _, rfl, _⟩ | ⟨target, _, _, _, _, hsend⟩ | ⟨target, _, _, _, hsend⟩ |
    ⟨target, delay, v, event, _, _, _, _, hsend, hwatch⟩
  · exact .refl _
  · have hu := hsent none target
    rw [hsend] at hu
    exact hu
  · have hu := hsent none target
    rw [hsend] at hu
    exact hu
  · have hv := hsent (some (w.now + delay)) target
    rw [hsend] at hv
    exact hv.trans (.schedule hwatch (by simp))

theorem afterAttempt_harmless (w : World σ) (state : RetryState) (body : Activity) (frame : Frame)
    (next : Continuation σ) (held : List Ref) (outcome : Outcome) :
    Harmless w (w.afterAttempt state body frame next held outcome).1 := by
  cases outcome with
  | success value => exact .refl w
  | failure cause =>
    unfold afterAttempt
    split
    · exact .refl w
    · split
      · exact .refl w
      · exact suspend_harmless w _ _ (by simp)

/-- One more attempt of a retry evaluates its body. -/
theorem attempt_harmless {w : World σ} {inUse : List Ref} {state : RetryState} {body : Activity}
    {frame : Frame} {next : Continuation σ} {v : World σ}
    (h : Harmless v (evaluate inUse body frame (.retry state.begin body frame next) w).1) :
    Harmless v (attempt inUse state body frame next w).1 := by
  unfold attempt
  dsimp only
  split
  · rename_i u outcome held hu
    rw [hu] at h
    exact h.trans (afterAttempt_harmless ..)
  · exact h

-- Both proofs follow the recursion of the evaluation.
mutual

theorem evaluate_harmless (inUse : List Ref) (activity : Activity) (frame : Frame)
    (next : Continuation σ) (w : World σ) :
    Harmless w (evaluate inUse activity frame next w).1 := by
  cases activity with
  | defineService name body =>
    have hdefined : Harmless w { w with
        store := ((w.store.newService name (some frame.scope)).1).bind frame.scope name
          (.service (w.store.newService name (some frame.scope)).2) } := .of_same rfl rfl
    have hbody := hdefined.trans (evaluateSteps_harmless inUse body
      (frame.inside (w.store.newService name (some frame.scope)).2 ⟨w.store.scopes.size⟩) .unit
      (.service (w.store.newService name (some frame.scope)).2 next) _)
    rw [evaluate]
    dsimp only
    split
    · rename_i v value held hv
      rw [hv] at hbody
      exact hbody
    · rename_i v cause held hv
      rw [hv] at hbody
      exact hbody
    · exact hbody
  | defineOperation name body =>
    rw [evaluate]
    exact defineOperation_harmless ..
  | defineClient name period body =>
    rw [evaluate]
    exact defineClient_harmless ..
  | trigger target operation =>
    rw [evaluate]
    exact trigger_harmless ..
  | query target operation timeout =>
    rw [evaluate]
    exact query_harmless ..
  | sequence steps =>
    rw [evaluate]
    exact evaluateSteps_harmless inUse steps frame .unit next w
  | think duration =>
    rw [evaluate]
    exact suspend_harmless w _ _ (by simp)
  | retry body limit delay =>
    rw [evaluate]
    cases Time.checkDelay delay.base with
    | error e => exact .refl w
    | ok _ =>
      cases RetryState.start limit delay with
      | error e => exact .refl w
      | ok state =>
        exact attempt_harmless
          (evaluate_harmless inUse body frame (.retry state.begin body frame next) w)
  | ignoreError body =>
    have hbody := evaluate_harmless inUse body frame (.ignore next) w
    rw [evaluate]
    split
    · rename_i v cause held hv
      rw [hv] at hbody
      exact hbody
    · exact hbody
  | fail =>
    rw [evaluate]
    exact .refl w

theorem evaluateSteps_harmless (inUse : List Ref) (steps : List Activity) (frame : Frame)
    (last : Value) (next : Continuation σ) (w : World σ) :
    Harmless w (evaluate.evaluateSteps inUse steps frame last next w).1 := by
  cases steps with
  | nil =>
    rw [evaluate.evaluateSteps]
    exact .refl w
  | cons step rest =>
    have hstep := evaluate_harmless inUse step frame (.steps rest frame next) w
    rw [evaluate.evaluateSteps]
    split
    · rename_i v value held hv
      rw [hv] at hstep
      exact hstep.trans (evaluateSteps_harmless inUse rest frame value next v)
    · rename_i v cause held hv
      rw [hv] at hstep
      exact hstep
    · exact hstep

end

/-! ## The number of clients -/

/-- Clients are never taken back. -/
theorem clients_le_of_move {s t : Store} (h : s.Move t) : s.clients.size ≤ t.clients.size := by
  cases h with
  | client name period body => simp [Store.newClient]
  | count id change => simp [Store.modifyClient]
  | _ => exact le_rfl

theorem Move.clients_le {w v : World σ} {deeds : List (Deed σ)} (h : Move w deeds v) :
    w.store.clients.size ≤ v.store.clients.size := by
  cases h with
  | define hm => exact clients_le_of_move hm
  | watch hsend hwatch =>
    rcases watch_eq hsend hwatch with ⟨_, -, -, rfl⟩
    exact le_rfl
  | schedule hs _ =>
    rcases schedule_eq_ok hs with ⟨_, -, rfl, -⟩
    exact le_rfl
  | settle failure _ _ => rw [settle_store]
  | stale failure _ _ => rw [settle_store]
  | expire _ _ _ _ =>
    rw [settle_store]
    exact le_rfl
  | _ => exact le_rfl

theorem Path.client?_isSome {w v : World σ} {deeds : List (Deed σ)} (h : Path w deeds v)
    {id : ClientId} (hid : (w.store.client? id).isSome) : (v.store.client? id).isSome := by
  have hle : w.store.clients.size ≤ v.store.clients.size := by
    induction h with
    | refl => exact le_rfl
    | move _ hm ih => exact ih.trans hm.clients_le
  simp only [Store.client?, isSome_getElem?] at hid ⊢
  exact Nat.lt_of_lt_of_le hid hle

end World
end Callflow
