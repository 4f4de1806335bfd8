import Callflow.Proofs.Machine.Apart
import Callflow.Proofs.World.Alike

/-!
# Doing the same in two simulations

Where two worlds are alike to an evaluation, a transition that acts for it does the same in both: it
is `Together` with the other one. Each way to act has one lemma: a reply (`Together.reply`), an
outcome that is handed on (`Together.resume`), and an event of the family (`Together.dispatch`).
-/

namespace Callflow

open Family (Paired)
open World (Alike Agrees Concur)
open Machine (Taking Turn)

variable {σ : Type} {menu : Menu} {F F' : Family σ} {w w' v v' : World σ}

/-! ## Settling -/

namespace World

theorem settle_ahead (w : World σ) (id : RequestId) (failure : Option Failure) :
    Ahead w (w.settle id failure).1 :=
  ⟨(settle_size ..).ge, by rw [settle_agenda]⟩

end World

theorem Family.grow_settle (F : Family σ) (w : World σ) (id : RequestId)
    (failure : Option Failure) : F.grow w (w.settle id failure).1 = F := by
  simp [grow, World.settle_size, World.settle_agenda]

theorem Family.Lives.settle (h : F.Lives menu w) {id : RequestId} {r : Request}
    (hr : w.request? id = some r) (hp : r.isPending = true) (failure : Option Failure) :
    F.Lives menu (w.settle id failure).1 := by
  rw [World.settle_pending failure hr hp]
  refine ⟨h.agenda, ?_, h.offers.of_store rfl, ?_, h.booked, h.nodup⟩
  · simp [h.paired]
  · simpa using h.known

/-! ## Changes that keep worlds alike -/

namespace World.Alike

/-- Changes of one world that leave the family alone. -/
theorem kept (h : Alike menu F F' w w') (hv : F.Lives menu v) (hkept : F.Kept w v) :
    Alike menu F F' v w' where
  left := hv
  right := h.right
  length := h.length
  requests := by
    intro id id' hid
    rw [hkept.requests id hid.mem.1]
    exact h.requests id id' hid
  waiters := by
    intro id id' hid
    rw [hkept.waiters id hid.mem.1]
    exact h.waiters id id' hid
  events := by
    rw [hkept.events]
    exact h.events

/-- New scopes do not matter. -/
theorem newScope (h : Alike menu F F' w w') (parent parent' : Option ScopeId) :
    Alike menu F F' { w with store := (w.store.newScope parent none).1 }
      { w' with store := (w'.store.newScope parent' none).1 } where
  left := ⟨h.left.agenda, h.left.paired, h.left.offers.newScope parent none, h.left.known,
    h.left.booked, h.left.nodup⟩
  right := ⟨h.right.agenda, h.right.paired, h.right.offers.newScope parent' none, h.right.known,
    h.right.booked, h.right.nodup⟩
  length := h.length
  requests := h.requests
  waiters := h.waiters
  events := h.events

/-- A reply to a pending request settles it. -/
theorem settle (h : Alike menu F F' w w') (hnow : w'.now = w.now) {id id' : RequestId}
    (hid : Paired F F' id id') {r r' : Request} (hr : w.request? id = some r)
    (hr' : w'.request? id' = some r') (hlike : r.Like r') (hpending : r.isPending = true)
    (failure : Option Failure) :
    Agrees menu F F' w w' (w.settle id failure).1 (w'.settle id' failure).1 := by
  have hpending' : r'.isPending = true := hlike.isPending.trans hpending
  have hsame {other other' : RequestId} (hother : Paired F F' other other') :
      id' = other' ↔ id = other :=
    hid.eq_iff hother h.left.nodup h.right.nodup
  refine ⟨settle_ahead .., settle_ahead .., settle_now .., settle_now .., ?_⟩
  rw [Family.grow_settle, Family.grow_settle]
  refine ⟨h.left.settle hr hpending failure, h.right.settle hr' hpending' failure, h.length, ?_, ?_,
    ?_⟩
  · intro other other' hother
    rw [request?_settle failure hr hpending, request?_settle failure hr' hpending']
    by_cases hequal : id = other
    · rw [if_pos hequal, if_pos ((hsame hother).2 hequal), hnow]
      exact ⟨_, _, rfl, rfl, hlike.settle _ _⟩
    · rw [if_neg hequal, if_neg fun hequal' => hequal ((hsame hother).1 hequal')]
      exact h.requests other other' hother
  · intro other other' hother
    rw [waiter_settle failure hr hpending, waiter_settle failure hr' hpending']
    by_cases hequal : id = other
    · rw [if_pos hequal, if_pos ((hsame hother).2 hequal)]
      exact .nobody
    · rw [if_neg hequal, if_neg fun hequal' => hequal ((hsame hother).1 hequal')]
      exact h.waiters other other' hother
  · simp only [Family.events, settle_agenda]
    exact h.events

end World.Alike

/-! ## Taking an event -/

section

variable {horizon horizon' : Time} {e e' : Event (Callback σ)}
  {agenda agenda' : Agenda (Callback σ)}

/-- An event of the family that is taken was the first one. -/
theorem Family.events_enter (ht : w.agenda.take? horizon = some (e, agenda))
    (hown : F.owns e = true) : F.events w = e :: F.events (w.enter e agenda) := by
  rcases Agenda.take?_eq_some ht with ⟨rest, hpending, -, rfl⟩
  rw [events, hpending, List.filter_cons_of_pos hown]
  rfl

theorem Family.grow_enter (F : Family σ) (ht : w.agenda.take? horizon = some (e, agenda))
    (v : World σ) : F.grow (w.enter e agenda) v = F.grow w v := by
  rcases Agenda.take?_eq_some ht with ⟨rest, -, -, rfl⟩
  rfl

theorem Family.Lives.enter (h : F.Lives menu w) (ht : w.agenda.take? horizon = some (e, agenda)) :
    F.Lives menu (w.enter e agenda) := by
  have hsound := h.agenda.take? ht
  rcases Agenda.take?_eq_some ht with ⟨rest, -, -, rfl⟩
  exact ⟨hsound, h.paired, h.offers.of_store rfl, h.known, h.booked, h.nodup⟩

/-- The events of the families that are taken do the same. -/
theorem World.Alike.enter (h : Alike menu F F' w w')
    (ht : w.agenda.take? horizon = some (e, agenda))
    (ht' : w'.agenda.take? horizon' = some (e', agenda')) (hown : F.owns e = true)
    (hown' : F'.owns e' = true) :
    e.Like F F' e' ∧ Alike menu F F' (w.enter e agenda) (w'.enter e' agenda') := by
  have hevents := h.events
  rw [Family.events_enter ht hown, Family.events_enter ht' hown'] at hevents
  cases hevents with
  | cons hfirst hrest =>
    exact ⟨hfirst, h.left.enter ht, h.right.enter ht', h.length, h.requests, h.waiters, hrest⟩

end

/-! ## Transitions -/

/-- What happens next is the same: an outcome is handed on in both, or in neither. -/
inductive Focus.Meets (F F' : Family σ) : Focus σ → Focus σ → Prop where
  | resume {k k' : Continuation σ} (outcome : Outcome) : k.Like F F' k' →
      Meets F F' (.resume k outcome) (.resume k' outcome)
  | asleep {focus focus' : Focus σ} : focus.handed? = none → focus'.handed? = none →
      Meets F F' focus focus'

theorem Focus.Meets.handed {focus focus' : Focus σ} (h : focus.Meets F F' focus') :
    focus'.handed? = focus.handed? := by
  cases h with
  | resume outcome hk => rfl
  | asleep hnone hnone' => rw [hnone, hnone']

/-- What is done from two worlds to two machines is the same. -/
structure Machine.Together (menu : Menu) (F F' : Family σ) (w w' : World σ) (n n' : Machine σ) :
    Prop where
  agrees : Agrees menu F F' w w' n.world n'.world
  focus : n.focus.Meets (F.grow w n.world) (F'.grow w' n'.world) n'.focus

theorem World.Agrees.record (h : Alike menu F F' w w') (entry entry' : JournalEntry) :
    Agrees menu F F' w w' (w.record entry) (w'.record entry') where
  ahead := ⟨le_rfl, le_rfl⟩
  ahead' := ⟨le_rfl, le_rfl⟩
  now := rfl
  now' := rfl
  alike := by
    rw [show F.grow w (w.record entry) = F from F.grow_self w,
      show F'.grow w' (w'.record entry') = F' from F'.grow_self w']
    exact h.record entry entry'

namespace Machine.Together

variable {n n' : Machine σ} {stack stack' : List (Activation σ)} {next next' : Continuation σ}

/-- Nothing is done to the worlds. -/
theorem same (h : Alike menu F F' w w') {focus focus' : Focus σ}
    (hfocus : focus.Meets F F' focus') :
    Together menu F F' w w' ⟨w, stack, focus⟩ ⟨w', stack', focus'⟩ := by
  refine ⟨.refl h, ?_⟩
  rw [F.grow_self, F'.grow_self]
  exact hfocus

theorem stops_of_fails {e : Evaluation σ} (h : World.Fails e.2) :
    (proceed stack next e).focus.Stops := by
  rcases e with ⟨v, stop | _⟩
  · cases stop <;> trivial
  · cases h

theorem proceed {e e' : Evaluation σ}
    (h : ¬ World.Fails e.2 → ¬ World.Fails e'.2 → Concur menu F F' w w' e e')
    (hlength : F.requests.length = F'.requests.length) (hnext : next.Like F F' next')
    (hok : ¬ (Machine.proceed stack next e).focus.Stops)
    (hok' : ¬ (Machine.proceed stack' next' e').focus.Stops) :
    Together menu F F' w w' (Machine.proceed stack next e) (Machine.proceed stack' next' e') := by
  rcases h (fun hfails => hok (stops_of_fails hfails)) fun hfails => hok' (stops_of_fails hfails)
    with ⟨hagrees, hresult⟩
  rcases e with ⟨v, result⟩
  rcases e' with ⟨v', result'⟩
  cases hresult with
  | suspended => exact ⟨hagrees, .asleep rfl rfl⟩
  | resolved outcome held held' =>
    exact ⟨hagrees, .resume outcome (hnext.grow hlength)⟩

theorem evaluate (h : Alike menu F F' w w') (hnow : w'.now = w.now) {activity : Activity}
    (hfree : activity.Free) {frame frame' : Frame} (hcaller : frame'.caller = frame.caller)
    (hnext : next.Like F F' next')
    (hok : ¬ (Machine.evaluate w stack activity frame next).focus.Stops)
    (hok' : ¬ (Machine.evaluate w' stack' activity frame' next').focus.Stops) :
    Together menu F F' w w' (Machine.evaluate w stack activity frame next)
      (Machine.evaluate w' stack' activity frame' next') :=
  proceed (World.evaluate_concur h hnow _ _ activity hfree hcaller hnext) h.length hnext hok hok'

/-- New scopes do not matter. -/
theorem execute (h : Alike menu F F' w w') (hnow : w'.now = w.now) (scope scope' : ScopeId)
    {op : Operation} (hfree : op.body.Free) (hnext : next.Like F F' next')
    (hok : ¬ (Machine.execute w stack scope op next).focus.Stops)
    (hok' : ¬ (Machine.execute w' stack' scope' op next').focus.Stops) :
    Together menu F F' w w' (Machine.execute w stack scope op next)
      (Machine.execute w' stack' scope' op next') := by
  have htogether : Together menu F F' { w with store := (w.store.newScope (some scope) none).1 }
      { w' with store := (w'.store.newScope (some scope') none).1 }
      (Machine.execute w stack scope op next) (Machine.execute w' stack' scope' op next') :=
    evaluate (h.newScope (some scope) (some scope')) hnow hfree rfl hnext hok hok'
  exact ⟨⟨⟨htogether.agrees.ahead.size, htogether.agrees.ahead.seq⟩,
    ⟨htogether.agrees.ahead'.size, htogether.agrees.ahead'.seq⟩, htogether.agrees.now,
    htogether.agrees.now', htogether.agrees.alike⟩, htogether.focus⟩

/-- A request of the family is processed. -/
theorem process (h : Alike menu F F' w w') (hmenu : menu.Free) (hnow : w'.now = w.now)
    {id id' : RequestId} (hid : Paired F F' id id') (service : ServiceId)
    (hok : ¬ (Machine.process w stack id (.service service)).focus.Stops)
    (hok' : ¬ (Machine.process w' stack' id' (.service service)).focus.Stops) :
    Together menu F F' w w' (Machine.process w stack id (.service service))
      (Machine.process w' stack' id' (.service service)) := by
  rcases h.requests id id' hid with ⟨r, r', hr, hr', hlike⟩
  have hoffered := Store.menu_operations w.store service
  have hoffered' := Store.menu_operations w'.store service
  rw [h.left.offers.menu] at hoffered
  rw [h.right.offers.menu, hoffered] at hoffered'
  unfold Machine.process at hok hok' ⊢
  simp only [hr, hr'] at hok hok' ⊢
  cases hservice : w.store.service? service with
  | none =>
    cases hservice' : w'.store.service? service with
    | none => exact same h (.asleep rfl rfl)
    | some s' => simp [hservice, hservice'] at hoffered'
  | some s =>
    cases hservice' : w'.store.service? service with
    | none => simp [hservice, hservice'] at hoffered'
    | some s' =>
      -- The services may be in different scopes, but they have the same operations.
      have hsame : s.operations = s'.operations := by
        simpa [hservice, hservice'] using hoffered'
      simp only [hservice, hservice', ← hsame, hlike.operation] at hok hok' ⊢
      cases hop : s.operations.find? r.operation with
      | none => simp [hop, Focus.Stops] at hok
      | some op =>
        have hfree : op.body.Free := by
          refine hmenu s.operations (List.mem_of_getElem? (i := service.index) ?_) r.operation op
            hop
          rw [hoffered, hservice]
          rfl
        simp only [hop] at hok hok' ⊢
        exact execute h hnow _ _ hfree (.reply hid) hok hok'

/-- A reply to a request of the family. -/
theorem reply (h : Alike menu F F' w w') (hnow : w'.now = w.now) {id id' : RequestId}
    (hid : Paired F F' id id') (failure : Option Failure) :
    Together menu F F' w w' (Machine.reply w stack id failure)
      (Machine.reply w' stack' id' failure) := by
  rcases h.requests id id' hid with ⟨r, r', hr, hr', hlike⟩
  cases hp : r.isPending with
  | false =>
    rw [reply_stale stack failure hr hp, reply_stale stack' failure hr' (hlike.isPending.trans hp)]
    exact ⟨.record h _ _, .asleep rfl rfl⟩
  | true =>
    rw [reply_pending stack failure hr hp,
      reply_pending stack' failure hr' (hlike.isPending.trans hp)]
    refine ⟨h.settle hnow hid hr hr' hlike hp failure, ?_⟩
    dsimp only
    rw [F.grow_settle, F'.grow_settle]
    have hwaiter := h.waiters id id' hid
    generalize w.waiter id = waiter at hwaiter ⊢
    generalize w'.waiter id' = waiter' at hwaiter ⊢
    cases hwaiter with
    | nobody => cases failure <;> exact .asleep rfl rfl
    | continuation hk => cases failure <;> exact .resume _ hk

/-- An outcome is handed to a continuation of the family. -/
theorem resume (h : Alike menu F F' w w') (hnow : w'.now = w.now)
    (hnext : next.Like F F' next') (outcome : Outcome)
    (hok : ¬ (Machine.resume w stack next outcome).focus.Stops)
    (hok' : ¬ (Machine.resume w' stack' next' outcome).focus.Stops) :
    Together menu F F' w w' (Machine.resume w stack next outcome)
      (Machine.resume w' stack' next' outcome) := by
  cases hnext with
  | host => exact same h (.asleep rfl rfl)
  | reply hid => cases outcome <;> exact reply h hnow hid _
  | @steps rest frame frame' k k' hrest hcaller hk =>
    cases outcome with
    | success value =>
      exact proceed (World.evaluateSteps_concur h hnow _ _ rest hrest hcaller value hk) h.length hk
        hok hok'
    | failure cause => exact same h (.resume _ hk)
  | ignore hk => cases outcome <;> exact same h (.resume _ hk)
  | @retry state body frame frame' k k' hbody hcaller hk =>
    exact proceed (World.afterAttempt_concur h hnow state hbody hcaller hk [] [] outcome) h.length
      hk hok hok'

/-- An event of the family is carried out. -/
theorem dispatch (h : Alike menu F F' w w') (hmenu : menu.Free) (hnow : w'.now = w.now)
    {work work' : Callback σ} (hwork : work.Like F F' work')
    (hok : ¬ (Machine.dispatch w stack work).focus.Stops)
    (hok' : ¬ (Machine.dispatch w' stack' work').focus.Stops) :
    Together menu F F' w w' (Machine.dispatch w stack work)
      (Machine.dispatch w' stack' work') := by
  cases hwork with
  | wake hk => exact same h (.resume _ hk)
  | @attempt state body frame frame' k k' hbody hcaller hk =>
    exact proceed (World.attempt_concur hnow h.length state hbody hcaller hk
      (World.evaluate_concur h hnow _ _ body hbody hcaller (.retry hbody hcaller hk))) h.length hk
      hok hok'
  | deliver service hid => exact process h hmenu hnow hid service hok hok'
  | @expire id id' deadline hid =>
    rcases h.requests id id' hid with ⟨r, r', hr, hr', hlike⟩
    unfold Machine.dispatch
    simp only [hr, hr', hlike.isPending]
    split
    · exact reply h hnow hid _
    · exact same h (.asleep rfl rfl)

end Machine.Together
end Callflow
