import Callflow.Proofs.Machine.Horizon
import Callflow.Proofs.Machine.Parts

/-!
# What a transition does to a client

The record of a client changes where it fires and where an outcome is counted for it, and its firings
to come where it fires; everything else is harmless (`step_affects`). So a client that has one firing
to come always has just one (`Next.beats`).
-/

namespace Callflow

variable {σ : Type}

/-- A client after one more outcome has been counted for it. -/
def Client.count (c : Client) : Outcome → Client
  | .success _ => { c with successes := c.successes + 1 }
  | .failure _ => { c with errors := c.errors + 1 }

namespace Machine

open World (Harmless Tended Untouched)

/-- The outcome that the next transition counts for a client. -/
def counts? (id : ClientId) (m : Machine σ) : Option Outcome :=
  match m.focus with
  | .resume (.complete client) outcome => if client = id then some outcome else none
  | _ => none

/-- The firing of a client that the next transition takes. -/
def fired? (id : ClientId) (m : Machine σ) : Option (Event (Callback σ)) :=
  m.taken?.filter (Event.fires id)

/-! ## Harmless transitions -/

theorem evaluate_harmless (w : World σ) (stack : List (Activation σ)) (activity : Activity)
    (frame : Frame) (next : Continuation σ) :
    Harmless w (evaluate w stack activity frame next).world := by
  rw [evaluate, proceed_world]
  exact World.evaluate_harmless ..

theorem execute_harmless (w : World σ) (stack : List (Activation σ)) (scope : ScopeId)
    (op : Operation) (next : Continuation σ) :
    Harmless w (execute w stack scope op next).world := by
  have hscope : Harmless w { w with store := (w.store.newScope (some scope) none).1 } :=
    .of_same rfl rfl
  exact hscope.trans (evaluate_harmless ..)

theorem reply_harmless (w : World σ) (stack : List (Activation σ)) (request : RequestId)
    (failure : Option Failure) : Harmless w (reply w stack request failure).world := by
  rw [reply_world]
  exact .of_untouched fun id => .settle id w request failure

theorem process_harmless (w : World σ) (stack : List (Activation σ)) (request : RequestId)
    (target : Target) : Harmless w (process w stack request target).world := by
  cases target with
  | endpoint id => exact .refl w
  | service id =>
    unfold process
    dsimp only
    split
    · split
      · exact .refl w
      · exact execute_harmless ..
    · exact .refl w

theorem make_harmless (w : World σ) (scope : ScopeId) (draft : Draft) :
    Harmless w { w with store := (w.store.make scope draft).1 } := by
  cases draft with
  | client name period =>
    refine ⟨fun id hid => ⟨(World.client?_newClient ..).trans (if_neg ?_), rfl⟩⟩
    rintro rfl
    rcases hid with hid | hid
    · simp [Store.client?] at hid
    · have hsome := World.client?_newClient w.store name period .fail ⟨w.store.clients.size⟩
      rw [if_pos rfl] at hsome
      cases hsome.symm.trans hid
  | _ => exact .of_same rfl rfl

theorem execScript_harmless (w : World σ) (stack : List (Activation σ)) (script : Script σ) :
    Harmless w (execScript w stack script).world := by
  cases script with
  | evaluate activity caller resume next => exact evaluate_harmless ..
  | execute id op resume next =>
    simp only [execScript]
    split
    · exact .refl w
    · exact execute_harmless ..
  | process request target next => exact process_harmless ..
  | reply request failure next => exact reply_harmless ..
  | schedule delay kind callback next =>
    simp only [execScript]
    split
    · rename_i v event hs
      exact .schedule hs (by simp)
    · exact .refl w
  | replyAfter delay request failure next =>
    simp only [execScript]
    split
    · rename_i v event hs
      exact .schedule hs (by simp)
    · exact .refl w
  | define symbol draft next =>
    have hmade := make_harmless w World.root draft
    exact hmade.trans (.of_same rfl rfl)
  | send request target next =>
    have hsent : Harmless w (w.send request target).1 :=
      .of_untouched fun id => .send id w request target
    simp only [execScript]
    split
    · rename_i v hs
      rw [hs] at hsent
      exact hsent
    · rename_i v cause hs
      rw [hs] at hsent
      exact hsent
  | _ => exact .of_same rfl rfl

theorem resume_harmless (w : World σ) (stack : List (Activation σ)) {next : Continuation σ}
    (outcome : Outcome) (h : ∀ id, next ≠ .complete id) :
    Harmless w (resume w stack next outcome).world := by
  cases next with
  | host code => exact .refl w
  | reply request => cases outcome <;> exact reply_harmless ..
  | complete client => exact absurd rfl (h client)
  | steps rest frame next =>
    cases outcome with
    | success value =>
      rw [resume, proceed_world]
      exact World.evaluateSteps_harmless ..
    | failure cause => exact .refl w
  | service id next => cases outcome <;> exact .refl w
  | ignore next => cases outcome <;> exact .refl w
  | retry state body frame next =>
    rw [resume, proceed_world]
    exact World.afterAttempt_harmless ..

theorem dispatch_harmless (w : World σ) (stack : List (Activation σ)) {work : Callback σ}
    (h : ∀ id scope, work ≠ .fire id scope) : Harmless w (dispatch w stack work).world := by
  cases work with
  | host code => exact .refl w
  | deliver request target => exact process_harmless ..
  | expire request deadline =>
    simp only [dispatch]
    split
    · split
      · exact reply_harmless ..
      · exact .refl w
    · exact .refl w
  | wake next => exact .refl w
  | attempt state body frame next =>
    rw [dispatch, proceed_world]
    exact World.attempt_harmless (World.evaluate_harmless ..)
  | fire client scope => exact absurd rfl (h client scope)
  | reply request failure => exact reply_harmless ..

/-! ## Counting and firing -/

theorem complete_world (w : World σ) (stack : List (Activation σ)) (id : ClientId)
    (outcome : Outcome) :
    (complete w stack id outcome).world.store = w.store.modifyClient id (Client.count · outcome) ∧
      (complete w stack id outcome).world.agenda = w.agenda := by
  cases outcome with
  | success value =>
    unfold complete
    dsimp only
    split <;> exact ⟨rfl, rfl⟩
  | failure cause =>
    unfold complete
    dsimp only
    split <;> exact ⟨rfl, rfl⟩

/-- What a client does that fires: its firing is counted and the next one is scheduled, and what
follows is harmless. -/
theorem fire_rearms {w : World σ} {id : ClientId} {client : Client} (stack : List (Activation σ))
    (scope : ScopeId) (hclient : w.store.client? id = some client)
    (hperiod : Time.checkDelay client.period = .ok ()) :
    ∃ v event, ({ w with store := w.store.modifyClient id fun c =>
        { c with firings := c.firings + 1 } } : World σ).schedule client.period .clientFiring
          (.fire id scope) = .ok (v, event) ∧
      Harmless v (fire w stack id scope).world := by
  rcases World.schedule_of_checkDelay ({ w with store := w.store.modifyClient id fun c =>
    { c with firings := c.firings + 1 } } : World σ) .clientFiring (.fire id scope) hperiod with
    ⟨v, event, hs⟩
  refine ⟨v, event, hs, ?_⟩
  unfold fire
  rw [hclient]
  simp only [hs]
  exact evaluate_harmless ..

/-- A client that fires leaves the others alone. -/
theorem fire_untouched (w : World σ) (stack : List (Activation σ)) {id other : ClientId}
    (scope : ScopeId) (hother : other ≠ id)
    (hknown : (w.store.client? other).isSome ∨
      (fire w stack id scope).world.store.client? other = none) :
    Untouched other w (fire w stack id scope).world := by
  unfold fire at hknown ⊢
  cases hclient : w.store.client? id with
  | none => exact .refl other w
  | some client =>
    rw [hclient] at hknown
    dsimp only at hknown ⊢
    split
    · exact World.count_untouched w _ hother
    · rename_i v event hs
      rw [hs] at hknown
      have hfirst := (World.rearmed hclient hs).2.2 other hother
      have hrest := evaluate_harmless v (.hold [.scope scope] :: stack) client.body
        (.plain scope (.client client.name)) (.complete id)
      refine hfirst.trans (hrest.untouched other ?_)
      rw [hfirst.client]
      exact hknown

/-! ## Transitions -/

/-- What a transition does to the clients. -/
inductive Affects (m n : Machine σ) : Prop where
  | harmless : m.taken? = none → (∀ id, m.counts? id = none) → Harmless m.world n.world →
      Affects m n
  | counts {id : ClientId} {outcome : Outcome} : m.focus = .resume (.complete id) outcome →
      n.world.store = m.world.store.modifyClient id (Client.count · outcome) →
        n.world.agenda = m.world.agenda → Affects m n
  | takes {t : Turn σ} : m.turn? = some t → (∀ id scope, t.event.work ≠ .fire id scope) →
      Harmless t.world n.world → Affects m n
  | fires {t : Turn σ} {id : ClientId} {scope : ScopeId} : m.turn? = some t →
      t.event.work = .fire id scope → n = fire t.world t.stack id scope → Affects m n

theorem turn?_affects {m n : Machine σ} {t : Turn σ} (h : m.turn? = some t)
    (hs : m.step = some n) : Affects m n := by
  cases (turn?_spec h).2.symm.trans hs
  by_cases hfire : ∃ id scope, t.event.work = .fire id scope
  · rcases hfire with ⟨id, scope, hwork⟩
    exact .fires h hwork (by rw [hwork]; rfl)
  · have hnot : ∀ id scope, t.event.work ≠ .fire id scope :=
      fun id scope hwork => hfire ⟨id, scope, hwork⟩
    exact .takes h hnot (dispatch_harmless t.world t.stack hnot)

theorem back_affects {m n : Machine σ} {result : Except SimulationError Unit}
    (hfocus : m.focus = .back result) (hs : m.step = some n) : Affects m n := by
  cases hturn : m.turn? with
  | some t => exact turn?_affects hturn hs
  | none =>
    -- The call returns, and at most the clock moves.
    suffices hsame : Harmless m.world n.world by
      exact .harmless (by rw [taken?, hturn]; rfl) (by simp [counts?, hfocus]) hsame
    rcases m with ⟨w, stack, focus⟩
    cases hfocus
    cases stack with
    | nil => cases hs
    | cons caller stack =>
      cases caller with
      | run horizon count next =>
        cases result with
        | error e =>
          cases hs
          exact .refl w
        | ok _ =>
          have hreturning : Returning ⟨w, .run horizon count next :: stack, .back (.ok ())⟩
              horizon count next stack := ⟨rfl, rfl, hturn⟩
          rcases hreturning.step with ⟨-, hgo⟩ | ⟨-, -, hgo⟩
          · cases hgo.symm.trans hs
            exact .refl w
          · cases hgo.symm.trans hs
            exact .of_same rfl (Agenda.advance_pending w.agenda horizon).1
      | successHook client hook =>
        cases hs
        unfold back restoreSuccess
        dsimp only
        split <;> exact .of_same rfl rfl
      | failureHook client hook =>
        cases hs
        unfold back restoreFailure
        dsimp only
        split <;> exact .of_same rfl rfl
      | _ =>
        cases hs
        exact .refl w

theorem step_affects {m n : Machine σ} (h : m.step = some n) : Affects m n := by
  rcases m with ⟨w, stack, focus⟩
  cases focus with
  | code script =>
    cases h
    exact .harmless rfl (fun _ => rfl) (execScript_harmless ..)
  | resume next outcome =>
    cases h
    by_cases hcomplete : ∃ id, next = .complete id
    · rcases hcomplete with ⟨id, rfl⟩
      rcases complete_world w stack id outcome with ⟨hstore, hagenda⟩
      exact .counts rfl hstore hagenda
    · refine .harmless rfl ?_ (resume_harmless w stack outcome fun id hid => hcomplete ⟨id, hid⟩)
      intro id
      cases next with
      | complete client => exact absurd ⟨client, rfl⟩ hcomplete
      | _ => rfl
  | back result => exact back_affects rfl h
  | crash cause =>
    cases stack with
    | nil => cases h
    | cons caller stack =>
      have hworld : n.world = w := by
        cases h
        cases caller <;> rfl
      exact .harmless rfl (fun _ => rfl) (.of_same (by rw [hworld]) (by rw [hworld]))

theorem Next.affects {m n : Machine σ} (h : Next m n) : Affects m n := by
  cases h with
  | step hs => exact step_affects hs
  | call script hnone =>
    refine .harmless ?_ ?_ (.of_same rfl rfl)
    · cases hturn : m.turn? with
      | none => rw [taken?, hturn]; rfl
      | some t => cases (turn?_spec hturn).2.symm.trans hnone
    · intro id
      rcases m with ⟨w, stack, focus⟩
      cases focus with
      | resume next outcome => cases hnone
      | _ => rfl

/-! ## Clients that there are -/

theorem Next.tended {m n : Machine σ} (h : Next m n) (hm : m.world.Tended) : n.world.Tended := by
  cases h.affects with
  | harmless _ _ hharmless => exact hharmless.tended hm
  | counts _ hstore hagenda => exact hm.count hstore hagenda
  | @takes t hturn _ hharmless =>
    rcases (turn?_spec hturn).1.take with ⟨horizon, agenda, htake, hworld⟩
    rw [hworld] at hharmless
    exact hharmless.tended (hm.enter htake)
  | @fires t id scope hturn hwork hfire =>
    rcases (turn?_spec hturn).1.take with ⟨horizon, agenda, htake, hworld⟩
    have ht : t.world.Tended := by
      rw [hworld]
      exact hm.enter htake
    rw [hfire]
    unfold fire
    cases hclient : t.world.store.client? id with
    | none => exact ht
    | some client =>
      dsimp only
      split
      · exact ht.count rfl rfl
      · rename_i v event hs
        exact (evaluate_harmless ..).tended (ht.rearmed hclient hs)

theorem Life.tended {a b : Machine σ} {past : List (Machine σ)} (h : Life a past b)
    (ha : a.world.Tended) : b.world.Tended := by
  induction h with
  | refl => exact ha
  | next _ hn ih => exact hn.tended ih

theorem Life.client?_isSome {a b : Machine σ} {past : List (Machine σ)} (h : Life a past b)
    {id : ClientId} (ha : (a.world.store.client? id).isSome) :
    (b.world.store.client? id).isSome := by
  induction h with
  | refl => exact ha
  | next _ hn ih =>
    rcases hn.explains with ⟨deeds, hpath, -⟩
    exact hpath.client?_isSome ih

/-! ## A client with one firing to come -/

/-- What follows for a client that has one firing to come: its record and its firing stay, or an
outcome is counted for it, or it fires and has the next firing to come, one period later. -/
inductive Beat (id : ClientId) (client : Client) (e : Event (Callback σ)) (m n : Machine σ) :
    Prop where
  | rests : m.fired? id = none → m.counts? id = none → n.world.store.client? id = some client →
      n.world.firings id = [e] → Beat id client e m n
  | counts {outcome : Outcome} : m.fired? id = none → m.counts? id = some outcome →
      n.world.store.client? id = some (client.count outcome) → n.world.firings id = [e] →
        Beat id client e m n
  | fires : m.fired? id = some e → m.counts? id = none →
      n.world.store.client? id = some { client with firings := client.firings + 1 } →
        (∃ scope seq, e.work = .fire id scope ∧
          n.world.firings id = [⟨e.time + client.period, seq, .clientFiring, .fire id scope⟩]) →
            Beat id client e m n

theorem Beat.of_untouched {id : ClientId} {client : Client} {e : Event (Callback σ)}
    {m n : Machine σ} {w : World σ} (h : Untouched id w n.world) (hfired : m.fired? id = none)
    (hcounts : m.counts? id = none) (hclient : w.store.client? id = some client)
    (hone : w.firings id = [e]) : Beat id client e m n :=
  .rests hfired hcounts (h.client.trans hclient) (h.firings.trans hone)

theorem counts?_of_turn? {m : Machine σ} {t : Turn σ} (h : m.turn? = some t) (id : ClientId) :
    m.counts? id = none := by
  rw [counts?, (turn?_spec h).1.focus]

theorem fired?_of_turn? {m : Machine σ} {t : Turn σ} (h : m.turn? = some t) (id : ClientId) :
    m.fired? id = if t.event.fires id then some t.event else none := by
  rw [fired?, taken?, h, Option.map_some, Option.filter_some]

/-- A client fires in an event that is for it. -/
theorem fired?_eq_some {m : Machine σ} {id : ClientId} {e : Event (Callback σ)}
    (h : m.fired? id = some e) :
    ∃ t scope, m.turn? = some t ∧ t.event = e ∧ e.work = .fire id scope := by
  rcases Option.filter_eq_some_iff.1 h with ⟨htaken, hfires⟩
  rcases Option.map_eq_some_iff.1 htaken with ⟨t, hturn, hevent⟩
  unfold Event.fires at hfires
  split at hfires
  · rename_i client scope hwork
    rw [of_decide_eq_true hfires] at hwork
    exact ⟨t, scope, hturn, hevent, hwork⟩
  · cases hfires

theorem Next.beats {m n : Machine σ} (h : Next m n) {id : ClientId} {client : Client}
    {e : Event (Callback σ)} (hclient : m.world.store.client? id = some client)
    (hone : m.world.firings id = [e]) (hperiod : Time.checkDelay client.period = .ok ()) :
    Beat id client e m n := by
  cases h.affects with
  | harmless htaken hcounts hharmless =>
    exact .of_untouched (hharmless.untouched id (Or.inl (by simp [hclient])))
      (by rw [fired?, htaken]; rfl) (hcounts id) hclient hone
  | @counts other outcome hfocus hstore hagenda =>
    have hfired : m.fired? id = none := by
      simp [fired?, taken?, turn?, hfocus]
    have hfirings : n.world.firings id = [e] := by
      rw [World.firings, hagenda]
      exact hone
    have hrecord : n.world.store.client? id =
        if other = id then some (client.count outcome) else some client := by
      rw [hstore, World.client?_modifyClient, hclient]
      rfl
    by_cases hsame : other = id
    · rw [if_pos hsame] at hrecord
      exact .counts hfired (by simp [counts?, hfocus, hsame]) hrecord hfirings
    · rw [if_neg hsame] at hrecord
      exact .rests hfired (by simp [counts?, hfocus, hsame]) hrecord hfirings
  | @takes t hturn hnot hharmless =>
    have htaking := (turn?_spec hturn).1
    rcases htaking.take with ⟨horizon, agenda, htake, hworld⟩
    have hother : t.event.fires id = false := by
      unfold Event.fires
      split
      · rename_i client scope hwork
        exact absurd hwork (hnot client scope)
      · rfl
    have hfirings := World.firings_enter htake id
    rw [hother, ← hworld, hone] at hfirings
    have hsome : t.world.store.client? id = some client := by
      rw [htaking.store]
      exact hclient
    exact .of_untouched (hharmless.untouched id (Or.inl (by simp [hsome])))
      (by rw [fired?_of_turn? hturn, hother]; rfl) (counts?_of_turn? hturn id) hsome
      hfirings.symm
  | @fires t other scope hturn hwork hfire =>
    have htaking := (turn?_spec hturn).1
    rcases htaking.take with ⟨horizon, agenda, htake, hworld⟩
    have hfires : t.event.fires id = decide (other = id) := by
      rw [Event.fires, hwork]
    have hfirings := World.firings_enter htake id
    rw [hfires, ← hworld, hone] at hfirings
    have hsome : t.world.store.client? id = some client := by
      rw [htaking.store]
      exact hclient
    by_cases hsame : other = id
    · -- The client fires: this was its only firing to come.
      subst hsame
      rw [if_pos (by simp)] at hfirings
      rcases List.cons.inj hfirings with ⟨rfl, hnone⟩
      rcases fire_rearms t.stack scope hsome hperiod with ⟨v, event, hs, hharmless⟩
      rcases World.rearmed hsome hs with ⟨hrecord, hnext, -⟩
      rcases hnext hnone.symm with ⟨seq, hseq⟩
      rw [← hfire] at hharmless
      have hrest := hharmless.untouched other (Or.inl (by simp [hrecord]))
      refine .fires (by rw [fired?_of_turn? hturn, hfires]; simp) (counts?_of_turn? hturn other)
        (hrest.client.trans hrecord) ⟨scope, seq, hwork, ?_⟩
      rw [hrest.firings, hseq, htaking.now]
    · rw [if_neg (by simpa using hsame)] at hfirings
      have huntouched := fire_untouched t.world t.stack scope (fun hid => hsame hid.symm)
        (Or.inl (by rw [hsome]; rfl))
      rw [← hfire] at huntouched
      exact .of_untouched huntouched (by rw [fired?_of_turn? hturn, hfires]; simpa using hsame)
        (counts?_of_turn? hturn id) hsome hfirings.symm

end Machine
end Callflow
