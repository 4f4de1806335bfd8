import Callflow.Proofs.World.Likeness

/-!
# Evaluating the same in two worlds

Two worlds are `Alike` to an evaluation when its families in them correspond to each other. Whatever
an evaluation does then, it does in both worlds, and they stay alike with what it makes: each
operation has one lemma, and `evaluate_concur` follows the recursion of the evaluation.
-/

namespace Callflow

open World (Ahead)
open Family (Paired)

variable {σ : Type}

/-! ## Alike worlds -/

namespace Family

/-- A family with its requests and events in a world that offers a menu. -/
structure Lives (F : Family σ) (menu : Menu) (w : World σ) : Prop where
  agenda : w.agenda.Sound
  paired : w.waiters.size = w.requests.size
  offers : w.Offers menu
  known : ∀ id ∈ F.requests, id.number < w.requests.size
  booked : ∀ seq ∈ F.seqs, seq < w.agenda.nextSeq
  nodup : F.requests.Nodup

end Family

/-- Two worlds are the same to an evaluation with these families. -/
structure World.Alike (menu : Menu) (F F' : Family σ) (w w' : World σ) : Prop where
  left : F.Lives menu w
  right : F'.Lives menu w'
  length : F.requests.length = F'.requests.length
  requests : ∀ id id', Paired F F' id id' →
    ∃ r r', w.request? id = some r ∧ w'.request? id' = some r' ∧ r.Like r'
  waiters : ∀ id id', Paired F F' id id' → (w.waiter id).Like F F' (w'.waiter id')
  events : List.Forall₂ (Event.Like F F') (F.events w) (F'.events w')

theorem World.Alike.symm {menu : Menu} {F F' : Family σ} {w w' : World σ}
    (h : World.Alike menu F F' w w') : World.Alike menu F' F w' w where
  left := h.right
  right := h.left
  length := h.length.symm
  requests := by
    intro id' id hid
    rcases h.requests id id' hid.symm with ⟨r, r', hr, hr', hlike⟩
    exact ⟨r', r, hr', hr, hlike.symm⟩
  waiters := fun id' id hid => (h.waiters id id' hid.symm).symm
  events := h.events.flip.imp fun _ _ he => he.symm

/-- An event of one family has a partner at the same time in the other one. -/
theorem World.Alike.partner {menu : Menu} {F F' : Family σ} {w w' : World σ}
    (h : World.Alike menu F F' w w') {e' : Event (Callback σ)} (he : e' ∈ F'.events w') :
    ∃ e ∈ F.events w, e'.time = e.time := by
  have hevents := h.events
  generalize F.events w = events at hevents ⊢
  generalize F'.events w' = events' at hevents he
  induction hevents with
  | nil => cases he
  | cons hfirst _ ih =>
    rcases List.mem_cons.1 he with rfl | he
    · exact ⟨_, List.mem_cons_self, hfirst.time⟩
    · rcases ih he with ⟨e, hmem, htime⟩
      exact ⟨e, List.mem_cons_of_mem _ hmem, htime⟩

/-- What an evaluation does in two worlds, from `w` and `w'` to `v` and `v'`. -/
structure World.Agrees (menu : Menu) (F F' : Family σ) (w w' v v' : World σ) : Prop where
  ahead : Ahead w v
  ahead' : Ahead w' v'
  now : v.now = w.now
  now' : v'.now = w'.now
  alike : World.Alike menu (F.grow w v) (F'.grow w' v') v v'

open World (Alike Agrees)

namespace World.Agrees

variable {menu : Menu} {F F' : Family σ} {w w' v v' u u' : World σ}

theorem refl (h : Alike menu F F' w w') : Agrees menu F F' w w' w w' where
  ahead := .refl w
  ahead' := .refl w'
  now := rfl
  now' := rfl
  alike := by
    rw [F.grow_self, F'.grow_self]
    exact h

theorem trans (h : Agrees menu F F' w w' v v')
    (k : Agrees menu (F.grow w v) (F'.grow w' v') v v' u u') : Agrees menu F F' w w' u u' where
  ahead := h.ahead.trans k.ahead
  ahead' := h.ahead'.trans k.ahead'
  now := k.now.trans h.now
  now' := k.now'.trans h.now'
  alike := by
    have halike := k.alike
    rw [F.grow_grow h.ahead k.ahead, F'.grow_grow h.ahead' k.ahead'] at halike
    exact halike

end World.Agrees

/-! ## Scheduling -/

namespace Family

variable {menu : Menu} {F : Family σ} {w v : World σ} {delay : Time} {kind : EventKind}
  {work : Callback σ} {event : EventId}

theorem grow_schedule (hs : w.schedule delay kind work = .ok (v, event)) :
    F.grow w v = { F with seqs := F.seqs ++ [w.agenda.nextSeq] } := by
  rcases World.schedule_eq_ok hs with ⟨agenda, hagenda, rfl, -⟩
  rcases Agenda.schedule_eq_ok hagenda with ⟨-, rfl⟩
  simp [grow]

theorem Lives.schedule (h : F.Lives menu w) (hs : w.schedule delay kind work = .ok (v, event)) :
    (F.grow w v).Lives menu v := by
  rw [grow_schedule hs]
  rcases World.schedule_eq_ok hs with ⟨agenda, hagenda, rfl, -⟩
  have hsound := h.agenda.schedule hagenda
  rcases Agenda.schedule_eq_ok hagenda with ⟨-, rfl⟩
  refine ⟨hsound, h.paired, h.offers.of_store rfl, h.known, ?_, h.nodup⟩
  intro seq hseq
  rcases List.mem_append.1 hseq with hold | hnew
  · exact Nat.lt_succ_of_lt (h.booked seq hold)
  · rw [List.mem_singleton] at hnew
    rw [hnew]
    exact Nat.lt_succ_self _

/-- A new event of the family finds its place among the others. -/
theorem Lives.events_schedule (h : F.Lives menu w)
    (hs : w.schedule delay kind work = .ok (v, event)) :
    (F.grow w v).events v =
      Agenda.insert ⟨w.now + delay, w.agenda.nextSeq, kind, work⟩ (F.events w) := by
  rw [grow_schedule hs]
  rcases World.schedule_eq_ok hs with ⟨agenda, hagenda, rfl, -⟩
  rcases Agenda.schedule_eq_ok hagenda with ⟨hcheck, rfl⟩
  rcases Time.place_le_add h.agenda.clock hcheck with ⟨-, hread⟩
  have howns : F.events w = w.agenda.pending.filter
      (Family.mk F.code F.requests (F.seqs ++ [w.agenda.nextSeq])).owns := by
    apply List.filter_congr
    intro x hx
    have hne : x.seq ≠ w.agenda.nextSeq := (h.agenda.numbered x hx).ne
    simp [owns, hne]
  rw [howns]
  exact Agenda.filter_insert_of_pos hread h.agenda.reading h.agenda.ordered (by simp [owns])

end Family

section

variable {menu : Menu} {F F' : Family σ} {w w' v v' : World σ}

theorem World.Alike.schedule (h : Alike menu F F' w w') (hnow : w'.now = w.now) {delay : Time}
    {kind : EventKind} {work work' : Callback σ} {event event' : EventId}
    (hs : w.schedule delay kind work = .ok (v, event))
    (hs' : w'.schedule delay kind work' = .ok (v', event'))
    (hwork : work.Like F F' work') : Agrees menu F F' w w' v v' := by
  have hleft := h.left.schedule hs
  have hright := h.right.schedule hs'
  have hevents := h.left.events_schedule hs
  have hevents' := h.right.events_schedule hs'
  have hgrow : F.grow w v = _ := Family.grow_schedule hs
  have hgrow' : F'.grow w' v' = _ := Family.grow_schedule hs'
  -- No request has been added.
  have hpaired : Paired (F.grow w v) (F'.grow w' v') = Paired F F' := by
    rw [hgrow, hgrow']
    rfl
  rcases World.schedule_eq_ok hs with ⟨agenda, hagenda, rfl, -⟩
  rcases World.schedule_eq_ok hs' with ⟨agenda', hagenda', rfl, -⟩
  have hnumbered : ∀ x ∈ F.events w, x.seq < w.agenda.nextSeq :=
    fun x hx => h.left.agenda.numbered x (List.mem_filter.1 hx).1
  have hnumbered' : ∀ x ∈ F'.events w', x.seq < w'.agenda.nextSeq :=
    fun x hx => h.right.agenda.numbered x (List.mem_filter.1 hx).1
  have hahead : Ahead w { w with agenda } := by
    rcases Agenda.schedule_eq_ok hagenda with ⟨-, rfl⟩
    exact ⟨le_rfl, Nat.le_succ _⟩
  have hahead' : Ahead w' { w' with agenda := agenda' } := by
    rcases Agenda.schedule_eq_ok hagenda' with ⟨-, rfl⟩
    exact ⟨le_rfl, Nat.le_succ _⟩
  refine ⟨hahead, hahead', ?_, ?_, hleft, hright, ?_, ?_, ?_, ?_⟩
  · rcases Agenda.schedule_eq_ok hagenda with ⟨-, rfl⟩
    rfl
  · rcases Agenda.schedule_eq_ok hagenda' with ⟨-, rfl⟩
    rfl
  · rw [hgrow, hgrow']
    exact h.length
  · rw [hpaired]
    exact h.requests
  · rw [hpaired]
    exact fun id id' hid => (h.waiters id id' hid).grow h.length
  · rw [hevents, hevents']
    exact Agenda.forall₂_insert (h.events.imp fun _ _ hx => hx.grow h.length)
      ⟨by rw [hnow], hwork.grow h.length⟩ (fun _ _ hx => hx.time) hnumbered hnumbered'

/-! ## Issuing and handing over -/

theorem Family.grow_issue (F : Family σ) (w : World σ) (caller : Caller) (operation : String)
    (deadline : Option Time) (waiter : Waiter σ) :
    F.grow w (w.issue caller operation deadline waiter).1 =
      { F with requests := F.requests ++ [⟨w.requests.size⟩] } := by
  simp [grow, World.issue]

theorem Family.Lives.issue (h : F.Lives menu w) (caller : Caller) (operation : String)
    (deadline : Option Time) (waiter : Waiter σ) :
    (F.grow w (w.issue caller operation deadline waiter).1).Lives menu
      (w.issue caller operation deadline waiter).1 := by
  rw [F.grow_issue]
  refine ⟨h.agenda, ?_, h.offers.of_store rfl, ?_, h.booked, ?_⟩
  · simp [World.issue, h.paired]
  · intro id hid
    have hsize : (w.issue caller operation deadline waiter).1.requests.size =
        w.requests.size + 1 := Array.size_push _
    rw [hsize]
    rcases List.mem_append.1 hid with hold | hnew
    · exact Nat.lt_succ_of_lt (h.known id hold)
    · rw [List.mem_singleton] at hnew
      rw [hnew]
      exact Nat.lt_succ_self _
  · refine List.nodup_append.2 ⟨h.nodup, by simp, ?_⟩
    intro id hid other hother
    rw [List.mem_singleton] at hother
    rintro rfl
    rw [hother] at hid
    exact lt_irrefl _ (h.known _ hid)

theorem World.Alike.issue (h : Alike menu F F' w w') (hnow : w'.now = w.now) (caller : Caller)
    (operation : String) (deadline : Option Time) {waiter waiter' : Waiter σ}
    (hwaiter : waiter.Like F F' waiter') :
    Agrees menu F F' w w' (w.issue caller operation deadline waiter).1
      (w'.issue caller operation deadline waiter').1 := by
  have hleft := h.left.issue caller operation deadline waiter
  have hright := h.right.issue caller operation deadline waiter'
  -- The new requests are paired with each other.
  have hcases {id id' : RequestId}
      (hid : Paired (F.grow w (w.issue caller operation deadline waiter).1)
        (F'.grow w' (w'.issue caller operation deadline waiter').1) id id') :
      Paired F F' id id' ∨ id = ⟨w.requests.size⟩ ∧ id' = ⟨w'.requests.size⟩ := by
    rw [F.grow_issue, F'.grow_issue, Paired, List.zip_append h.length] at hid
    rcases List.mem_append.1 hid with hold | hnew
    · exact Or.inl hold
    · right
      simpa using hnew
  have hold {id id' : RequestId} (hid : Paired F F' id id') :
      id.number ≠ w.requests.size ∧ id'.number ≠ w'.requests.size :=
    ⟨(h.left.known id hid.mem.1).ne, (h.right.known id' hid.mem.2).ne⟩
  refine ⟨⟨by simp [World.issue], le_rfl⟩, ⟨by simp [World.issue], le_rfl⟩, rfl, rfl, hleft, hright,
    ?_, ?_, ?_, ?_⟩
  · rw [F.grow_issue, F'.grow_issue]
    simp [h.length]
  · intro id id' hid
    have hrequest := World.request?_of_push
      (v := (w.issue caller operation deadline waiter).1) (w := w) rfl id
    have hrequest' := World.request?_of_push
      (v := (w'.issue caller operation deadline waiter').1) (w := w') rfl id'
    rw [hrequest, hrequest']
    rcases hcases hid with hid | ⟨rfl, rfl⟩
    · rw [if_neg (hold hid).1, if_neg (hold hid).2]
      exact h.requests id id' hid
    · rw [if_pos rfl, if_pos rfl]
      refine ⟨_, _, rfl, rfl, ?_⟩
      rw [hnow]
      rfl
  · intro id id' hid
    have hlater := World.waiter_of_push
      (v := (w.issue caller operation deadline waiter).1) (w := w) rfl id
    have hlater' := World.waiter_of_push
      (v := (w'.issue caller operation deadline waiter').1) (w := w') rfl id'
    rw [hlater, hlater']
    rcases hcases hid with hid | ⟨rfl, rfl⟩
    · rw [h.left.paired, h.right.paired, if_neg (hold hid).1, if_neg (hold hid).2]
      exact (h.waiters id id' hid).grow h.length
    · rw [h.left.paired, h.right.paired, if_pos rfl, if_pos rfl]
      exact hwaiter.grow h.length
  · have hsame : (F.grow w (w.issue caller operation deadline waiter).1).events
        (w.issue caller operation deadline waiter).1 = F.events w := by
      rw [F.grow_issue]
      rfl
    have hsame' : (F'.grow w' (w'.issue caller operation deadline waiter').1).events
        (w'.issue caller operation deadline waiter').1 = F'.events w' := by
      rw [F'.grow_issue]
      rfl
    rw [hsame, hsame']
    exact h.events.imp fun _ _ he => he.grow h.length

/-- The journal does not matter. -/
theorem World.Alike.record (h : Alike menu F F' w w') (entry entry' : JournalEntry) :
    Alike menu F F' (w.record entry) (w'.record entry') :=
  ⟨⟨h.left.agenda, h.left.paired, h.left.offers.of_store rfl, h.left.known, h.left.booked,
    h.left.nodup⟩, ⟨h.right.agenda, h.right.paired, h.right.offers.of_store rfl, h.right.known,
    h.right.booked, h.right.nodup⟩, h.length, h.requests, h.waiters, h.events⟩

theorem World.Alike.send (h : Alike menu F F' w w') (hnow : w'.now = w.now) {id id' : RequestId}
    (hid : Paired F F' id id') (service : ServiceId)
    (hs : w.send id (.service service) = (v, .ok ()))
    (hs' : w'.send id' (.service service) = (v', .ok ())) : Agrees menu F F' w w' v v' := by
  rcases h.requests id id' hid with ⟨r, r', hr, hr', -⟩
  rcases World.send_eq hr hs with ⟨_, hwrong, -⟩ | ⟨-, event, hsent⟩
  · cases hwrong
  · rcases World.send_eq hr' hs' with ⟨_, hwrong, -⟩ | ⟨-, event', hsent'⟩
    · cases hwrong
    · have hagrees := (h.record _ _).schedule hnow hsent hsent' (.deliver service hid)
      exact ⟨⟨hagrees.ahead.size, hagrees.ahead.seq⟩, ⟨hagrees.ahead'.size, hagrees.ahead'.seq⟩,
        hagrees.now, hagrees.now', hagrees.alike⟩

/-- A request is issued and handed over. -/
theorem World.Alike.call (h : Alike menu F F' w w') (hnow : w'.now = w.now) (caller : Caller)
    (operation : String) (deadline : Option Time) {waiter waiter' : Waiter σ}
    (hwaiter : waiter.Like F F' waiter') (service : ServiceId)
    (hs : (w.issue caller operation deadline waiter).1.send ⟨w.requests.size⟩ (.service service) =
      (v, .ok ()))
    (hs' : (w'.issue caller operation deadline waiter').1.send ⟨w'.requests.size⟩
      (.service service) = (v', .ok ())) :
    Agrees menu F F' w w' v v' ∧
      Paired (F.grow w v) (F'.grow w' v') ⟨w.requests.size⟩ ⟨w'.requests.size⟩ := by
  have hissued := h.issue hnow caller operation deadline hwaiter
  have hpaired : Paired (F.grow w (w.issue caller operation deadline waiter).1)
      (F'.grow w' (w'.issue caller operation deadline waiter').1) ⟨w.requests.size⟩
      ⟨w'.requests.size⟩ := by
    rw [F.grow_issue, F'.grow_issue, Paired, List.zip_append h.length]
    exact List.mem_append_right _ (by simp)
  have hsent := hissued.alike.send hnow hpaired service hs hs'
  refine ⟨hissued.trans hsent, ?_⟩
  rw [← F.grow_grow hissued.ahead hsent.ahead, ← F'.grow_grow hissued.ahead' hsent.ahead']
  exact Family.paired_grow hpaired hissued.alike.length

end

/-! ## Results -/

namespace World

/-- An evaluation stops for good. -/
def Fails : Except Stop Progress → Prop
  | .error _ => True
  | _ => False

/-- Two evaluations get as far as each other. -/
inductive SameResult : Except Stop Progress → Except Stop Progress → Prop where
  | suspended : SameResult (.ok .suspended) (.ok .suspended)
  | resolved (outcome : Outcome) (held held' : List Ref) :
      SameResult (.ok (.resolved outcome held)) (.ok (.resolved outcome held'))

/-- What two evaluations do is the same. -/
structure Concur (menu : Menu) (F F' : Family σ) (w w' : World σ) (e e' : Evaluation σ) : Prop where
  agrees : Agrees menu F F' w w' e.1 e'.1
  result : SameResult e.2 e'.2

section

variable {menu : Menu} {F F' : Family σ} {w w' : World σ} {frame frame' : Frame}
  {next next' : Continuation σ}

theorem suspend_concur (h : Alike menu F F' w w') (hnow : w'.now = w.now) (delay : Time)
    (kind : EventKind) {work work' : Callback σ} (hwork : work.Like F F' work')
    (hok : ¬ Fails (w.suspend delay kind work).2) (hok' : ¬ Fails (w'.suspend delay kind work').2) :
    Concur menu F F' w w' (w.suspend delay kind work) (w'.suspend delay kind work') := by
  unfold suspend at hok hok' ⊢
  cases hs : w.schedule delay kind work with
  | error e => simp [hs, refuse, Fails] at hok
  | ok scheduled =>
    cases hs' : w'.schedule delay kind work' with
    | error e => simp [hs', refuse, Fails] at hok'
    | ok scheduled' => exact ⟨h.schedule hnow hs hs' hwork, .suspended⟩

theorem trigger_concur (h : Alike menu F F' w w') (hnow : w'.now = w.now) (inUse inUse' : List Ref)
    (name operation : String) (hcaller : frame'.caller = frame.caller)
    (hok : ¬ Fails (w.trigger inUse name operation frame next).2)
    (hok' : ¬ Fails (w'.trigger inUse' name operation frame' next').2) :
    Concur menu F F' w w' (w.trigger inUse name operation frame next)
      (w'.trigger inUse' name operation frame' next') := by
  unfold trigger at hok hok' ⊢
  cases hresolve : w.resolve inUse frame next name with
  | error e => simp [hresolve, mistake, Fails] at hok
  | ok target =>
    cases hresolve' : w'.resolve inUse' frame' next' name with
    | error e => simp [hresolve', mistake, Fails] at hok'
    | ok target' =>
      rcases h.left.offers.resolve_eq h.right.offers hresolve hresolve' with ⟨rfl, service, rfl⟩
      simp only [hresolve, hresolve', hcaller] at hok hok' ⊢
      have hid : (w.issue frame.caller operation none .nobody).2 = ⟨w.requests.size⟩ := rfl
      have hid' : (w'.issue frame.caller operation none .nobody).2 = ⟨w'.requests.size⟩ := rfl
      rw [hid] at hok ⊢
      rw [hid'] at hok' ⊢
      rcases hs : (w.issue frame.caller operation none .nobody).1.send ⟨w.requests.size⟩
        (.service service) with ⟨v, e | _⟩
      · simp [hs, Fails] at hok
      · rcases hs' : (w'.issue frame.caller operation none .nobody).1.send ⟨w'.requests.size⟩
          (.service service) with ⟨v', e | _⟩
        · simp [hs', Fails] at hok'
        · exact ⟨(h.call hnow frame.caller operation none .nobody service hs hs').1,
            .resolved _ _ _⟩

theorem query_concur (h : Alike menu F F' w w') (hnow : w'.now = w.now) (inUse inUse' : List Ref)
    (name operation : String) (timeout : Option Time) (hcaller : frame'.caller = frame.caller)
    (hnext : next.Like F F' next')
    (hok : ¬ Fails (w.query inUse name operation timeout frame next).2)
    (hok' : ¬ Fails (w'.query inUse' name operation timeout frame' next').2) :
    Concur menu F F' w w' (w.query inUse name operation timeout frame next)
      (w'.query inUse' name operation timeout frame' next') := by
  generalize hquery : w.query inUse name operation timeout frame next = e at hok ⊢
  generalize hquery' : w'.query inUse' name operation timeout frame' next' = e' at hok' ⊢
  rcases e with ⟨u, result⟩
  rcases e' with ⟨u', result'⟩
  rcases query_cases hquery with
    ⟨_, rfl, -⟩ | ⟨_, _, rfl, -⟩ | ⟨target, htimeout, rfl, hresolve, hs⟩ |
    ⟨target, delay, v, event, htimeout, rfl, hresolve, -, hs, hwatch⟩
  · exact absurd trivial hok
  · exact absurd trivial hok
  · rcases query_cases hquery' with
      ⟨_, rfl, -⟩ | ⟨_, _, rfl, -⟩ | ⟨target', -, rfl, hresolve', hs'⟩ |
      ⟨_, delay, _, _, hother, -⟩
    · exact absurd trivial hok'
    · exact absurd trivial hok'
    · rcases h.left.offers.resolve_eq h.right.offers hresolve hresolve' with ⟨rfl, service, rfl⟩
      rw [hcaller] at hs'
      exact ⟨(h.call hnow frame.caller operation none (.continuation hnext) service hs hs').1,
        .suspended⟩
    · rw [htimeout] at hother
      cases hother
  · rcases query_cases hquery' with
      ⟨_, rfl, -⟩ | ⟨_, _, rfl, -⟩ | ⟨_, hother, -⟩ |
      ⟨target', delay', v', event', hsame, rfl, hresolve', -, hs', hwatch'⟩
    · exact absurd trivial hok'
    · exact absurd trivial hok'
    · rw [htimeout] at hother
      cases hother
    · rcases h.left.offers.resolve_eq h.right.offers hresolve hresolve' with ⟨rfl, service, rfl⟩
      rw [htimeout] at hsame
      cases hsame
      rw [hcaller, hnow] at hs'
      rw [hnow] at hwatch'
      -- The request is handed over, and then watched.
      rcases h.call hnow frame.caller operation (some (w.now + delay)) (.continuation hnext)
        service hs hs' with ⟨hsent, hpaired⟩
      have hlater : v'.now = v.now := hsent.now'.trans (hnow.trans hsent.now.symm)
      exact ⟨hsent.trans (hsent.alike.schedule hlater hwatch hwatch' (.expire _ hpaired)),
        .suspended⟩

theorem afterAttempt_concur (h : Alike menu F F' w w') (hnow : w'.now = w.now)
    (state : RetryState) {body : Activity} (hbody : body.Free)
    (hcaller : frame'.caller = frame.caller) (hnext : next.Like F F' next')
    (held held' : List Ref) (outcome : Outcome)
    (hok : ¬ Fails (w.afterAttempt state body frame next held outcome).2)
    (hok' : ¬ Fails (w'.afterAttempt state body frame' next' held' outcome).2) :
    Concur menu F F' w w' (w.afterAttempt state body frame next held outcome)
      (w'.afterAttempt state body frame' next' held' outcome) := by
  cases outcome with
  | success value => exact ⟨.refl h, .resolved _ _ _⟩
  | failure cause =>
    simp only [afterAttempt] at hok hok' ⊢
    split
    · exact ⟨.refl h, .resolved _ _ _⟩
    · rename_i hleft
      rw [if_neg hleft] at hok hok'
      exact suspend_concur h hnow _ _ (.attempt hbody hcaller hnext) hok hok'

theorem attempt_concur (hnow : w'.now = w.now) (hlength : F.requests.length = F'.requests.length)
    {inUse inUse' : List Ref} (state : RetryState) {body : Activity} (hbody : body.Free)
    (hcaller : frame'.caller = frame.caller) (hnext : next.Like F F' next')
    (heach : ¬ Fails (evaluate inUse body frame (.retry state.begin body frame next) w).2 →
      ¬ Fails (evaluate inUse' body frame' (.retry state.begin body frame' next') w').2 →
      Concur menu F F' w w' (evaluate inUse body frame (.retry state.begin body frame next) w)
        (evaluate inUse' body frame' (.retry state.begin body frame' next') w'))
    (hok : ¬ Fails (World.attempt inUse state body frame next w).2)
    (hok' : ¬ Fails (World.attempt inUse' state body frame' next' w').2) :
    Concur menu F F' w w' (World.attempt inUse state body frame next w)
      (World.attempt inUse' state body frame' next' w') := by
  unfold World.attempt at hok hok' ⊢
  dsimp only at hok hok' ⊢
  generalize evaluate inUse body frame (.retry state.begin body frame next) w = e at *
  generalize evaluate inUse' body frame' (.retry state.begin body frame' next') w' = e' at *
  rcases e with ⟨v, stop | _ | ⟨outcome, held⟩⟩
  · exact absurd trivial hok
  all_goals rcases e' with ⟨v', stop' | _ | ⟨outcome', held'⟩⟩
  all_goals try exact absurd trivial hok'
  all_goals rcases heach id id with ⟨hagrees, hresult⟩
  · exact ⟨hagrees, .suspended⟩
  · cases hresult
  · cases hresult
  · cases hresult
    have hlater : v'.now = v.now := hagrees.now'.trans (hnow.trans hagrees.now.symm)
    rcases afterAttempt_concur hagrees.alike hlater state.begin hbody hcaller
      (hnext.grow hlength) held held' outcome hok hok' with
      ⟨hmore, hresult⟩
    exact ⟨hagrees.trans hmore, hresult⟩

end

-- Both proofs follow the recursion of the evaluation; the continuations of the parts are like each
-- other because those of the whole are.
mutual

theorem evaluate_concur {menu : Menu} {F F' : Family σ} {w w' : World σ} {frame frame' : Frame}
    {next next' : Continuation σ} (h : Alike menu F F' w w') (hnow : w'.now = w.now)
    (inUse inUse' : List Ref) (activity : Activity) (hfree : activity.Free)
    (hcaller : frame'.caller = frame.caller) (hnext : next.Like F F' next')
    (hok : ¬ Fails (evaluate inUse activity frame next w).2)
    (hok' : ¬ Fails (evaluate inUse' activity frame' next' w').2) :
    Concur menu F F' w w' (evaluate inUse activity frame next w)
      (evaluate inUse' activity frame' next' w') := by
  cases activity with
  | defineService name body => cases hfree
  | defineOperation name body => cases hfree
  | defineClient name period body => cases hfree
  | trigger name operation =>
    exact trigger_concur h hnow inUse inUse' name operation hcaller hok hok'
  | query name operation timeout =>
    exact query_concur h hnow inUse inUse' name operation timeout hcaller hnext hok hok'
  | sequence steps =>
    cases hfree with
    | sequence hsteps =>
      exact evaluateSteps_concur h hnow inUse inUse' steps hsteps hcaller .unit hnext hok hok'
  | think duration => exact suspend_concur h hnow _ _ (.wake hnext) hok hok'
  | retry body limit delay =>
    cases hfree with
    | retry hbody =>
      rw [evaluate] at hok hok' ⊢
      rw [evaluate]
      cases hcheck : Time.checkDelay delay.base with
      | error e => simp [hcheck, refuse, Fails] at hok
      | ok _ =>
        cases hstart : RetryState.start limit delay with
        | error e => simp [hcheck, hstart, mistake, Fails] at hok
        | ok state =>
          rw [hcheck, hstart] at hok hok'
          exact attempt_concur hnow h.length state hbody hcaller hnext
            (evaluate_concur h hnow inUse inUse' body hbody hcaller
              (.retry hbody hcaller hnext)) hok hok'
  | ignoreError body =>
    cases hfree with
    | ignoreError hbody =>
      have hbody' := evaluate_concur h hnow inUse inUse' body hbody hcaller (.ignore hnext)
      rw [evaluate] at hok hok' ⊢
      rw [evaluate]
      generalize evaluate inUse body frame (.ignore next) w = e at *
      generalize evaluate inUse' body frame' (.ignore next') w' = e' at *
      rcases e with ⟨v, stop | _ | ⟨outcome, held⟩⟩
      · exact absurd trivial hok
      all_goals rcases e' with ⟨v', stop' | _ | ⟨outcome', held'⟩⟩
      all_goals try exact absurd trivial hok'
      all_goals rcases hbody' id id with ⟨hagrees, hresult⟩
      all_goals cases hresult
      · exact ⟨hagrees, .suspended⟩
      · cases outcome with
        | success value => exact ⟨hagrees, .resolved _ _ _⟩
        | failure cause => exact ⟨hagrees, .resolved _ _ _⟩
  | fail => exact ⟨.refl h, .resolved _ _ _⟩

theorem evaluateSteps_concur {menu : Menu} {F F' : Family σ} {w w' : World σ} {frame frame' : Frame}
    {next next' : Continuation σ} (h : Alike menu F F' w w') (hnow : w'.now = w.now)
    (inUse inUse' : List Ref) (steps : List Activity) (hfree : ∀ step ∈ steps, step.Free)
    (hcaller : frame'.caller = frame.caller) (last : Value) (hnext : next.Like F F' next')
    (hok : ¬ Fails (evaluate.evaluateSteps inUse steps frame last next w).2)
    (hok' : ¬ Fails (evaluate.evaluateSteps inUse' steps frame' last next' w').2) :
    Concur menu F F' w w' (evaluate.evaluateSteps inUse steps frame last next w)
      (evaluate.evaluateSteps inUse' steps frame' last next' w') := by
  cases steps with
  | nil => exact ⟨.refl h, .resolved _ _ _⟩
  | cons step rest =>
    have hrest : ∀ other ∈ rest, other.Free :=
      fun other hother => hfree other (List.mem_cons_of_mem _ hother)
    have hstep := evaluate_concur h hnow inUse inUse' step (hfree step List.mem_cons_self) hcaller
      (.steps hrest hcaller hnext)
    rw [evaluate.evaluateSteps] at hok hok' ⊢
    rw [evaluate.evaluateSteps]
    generalize evaluate inUse step frame (.steps rest frame next) w = e at *
    generalize evaluate inUse' step frame' (.steps rest frame' next') w' = e' at *
    rcases e with ⟨v, stop | _ | ⟨outcome, held⟩⟩
    · exact absurd trivial hok
    all_goals rcases e' with ⟨v', stop' | _ | ⟨outcome', held'⟩⟩
    all_goals try exact absurd trivial hok'
    · exact ⟨(hstep id id).agrees, .suspended⟩
    · cases (hstep id id).result
    · cases (hstep id id).result
    · rcases hstep id id with ⟨hagrees, hresult⟩
      cases hresult
      cases outcome with
      | success value =>
        have hlater : v'.now = v.now := hagrees.now'.trans (hnow.trans hagrees.now.symm)
        rcases evaluateSteps_concur hagrees.alike hlater inUse inUse' rest hrest hcaller value
          (hnext.grow h.length) hok hok' with
          ⟨hmore, hresult⟩
        exact ⟨hagrees.trans hmore, hresult⟩
      | failure cause => exact ⟨hagrees, .resolved _ _ _⟩

end

end World
end Callflow
