import Callflow.Proofs.Machine.Settlement
import Callflow.Proofs.World.Failures

/-!
# Counting missed deadlines

A request may miss its own deadline: its timeout settles it (`lapse?`). The failure then travels
unchanged through whoever has waited, and where that is the body of an operation, it settles the
request that the operation serves (`inherits?`), which may have no deadline at all. The statistics
only look at the failure, so they count both (`Life.deadlines_counted`): each missed deadline is
counted once more for every operation that fails by it.
-/

namespace Callflow

variable {σ : Type}

/-! ## The statistics -/

/-- Whether an entry is counted as a missed deadline. -/
def JournalEntry.timesOut : JournalEntry → Bool
  | .settled _ _ .error failure => failure.any Failure.isTimeout
  | _ => false

theorem RequestStats.timedOut_count (s : RequestStats) (e : JournalEntry) :
    (s.count e).timedOut = s.timedOut + if e.timesOut then 1 else 0 := by
  cases e with
  | settled time request status failure =>
    cases status with
    | error =>
      cases hfailure : failure.any Failure.isTimeout <;>
        simp [count, JournalEntry.timesOut, hfailure]
    | _ => rfl
  | _ => rfl

theorem Journal.timedOut_foldl (entries : List JournalEntry) (j : Journal) :
    (entries.foldl Journal.record j).stats.timedOut =
      j.stats.timedOut + entries.countP JournalEntry.timesOut := by
  induction entries generalizing j with
  | nil => rfl
  | cons e rest ih =>
    have hrecord : (j.record e).stats = j.stats.count e := rfl
    rw [List.foldl_cons, ih, hrecord, RequestStats.timedOut_count, List.countP_cons]
    omega

/-- The settlements and the host's own entries are all that is counted. -/
theorem World.timesOut_entries (deeds : List (World.Deed σ)) :
    (deeds.filterMap Deed.entry?).countP JournalEntry.timesOut =
      (deeds.filterMap Deed.settled?).countP (fun s => s.2.any Failure.isTimeout) +
        (deeds.filterMap Deed.recorded?).countP JournalEntry.timesOut := by
  induction deeds with
  | nil => rfl
  | cons d rest ih =>
    cases d with
    | agenda deed =>
      cases deed with
      | taken e => exact ih
      | scheduled clock delay e => exact ih
      | advanced horizon => exact ih
    | issued time request caller service operation => exact ih
    | stale time request failure => exact ih
    | recorded entry =>
      simp only [List.filterMap_cons, Deed.entry?, Deed.settled?, Deed.recorded?,
        List.countP_cons, ih]
      omega
    | settled time request failure =>
      have hcounted : (JournalEntry.settled time request (attempted failure) failure).timesOut =
          failure.any Failure.isTimeout := by
        cases failure <;> rfl
      simp only [List.filterMap_cons, Deed.entry?, Deed.settled?, Deed.recorded?,
        List.countP_cons, hcounted, ih]
      omega

namespace Machine

open World (Deed Path Prompt)

/-! ## Missed deadlines -/

/-- The failure that the host replies with next: at once, or in an event that is taken. -/
def asserted? (m : Machine σ) : Option Failure :=
  match m.focus with
  | .code (.reply _ failure _) => failure
  | _ => m.taken?.bind fun e =>
    match e.work with
    | .reply _ failure => failure
    | _ => none

/-- Whether the host, in the next transition, does not claim by itself that a deadline was missed. -/
def candid (m : Machine σ) : Bool :=
  !m.asserted?.any Failure.isTimeout && !m.recorded?.any JournalEntry.timesOut

/-- The request that is settled next by its own timeout, with its deadline. -/
def lapse? (m : Machine σ) : Option (RequestId × Time) :=
  m.taken?.bind fun e =>
    match e.work with
    | .expire id deadline =>
      if (m.world.request? id).any Request.isPending then some (id, deadline) else none
    | _ => none

/-- The request that is settled next because the operation that serves it has failed by a missed
deadline, with this deadline. -/
def inherits? (m : Machine σ) : Option (RequestId × Time) :=
  match m.focus with
  | .resume (.reply id) (.failure (.timedOut deadline)) =>
    if (m.world.request? id).any Request.isPending then some (id, deadline) else none
  | _ => none

/-- The missed deadline with which a reply settles its request. -/
def Answer.missed? (a : Answer σ) : Option (RequestId × Time) :=
  match a.failure with
  | some (.timedOut deadline) => some (a.request, deadline)
  | _ => none

theorem Answer.missed?_isSome (a : Answer σ) :
    a.missed?.isSome = a.failure.any Failure.isTimeout := by
  unfold missed?
  cases a.failure with
  | none => rfl
  | some cause => cases cause <;> rfl

theorem Answer.missed?_eq_none {a : Answer σ} (h : a.failure.any Failure.isTimeout = false) :
    a.missed? = none := by
  rw [← Option.not_isSome_iff_eq_none, missed?_isSome, h]
  simp

/-- Where the host is candid, a request is settled by a missed deadline in one of two ways. -/
theorem settling_missed {m : Machine σ} (hcandid : m.candid = true) :
    m.settling?.bind Answer.missed? = m.lapse?.or m.inherits? := by
  rcases m with ⟨w, stack, focus⟩
  have hassert : (asserted? ⟨w, stack, focus⟩).any Failure.isTimeout = false := by
    simp only [candid, Bool.and_eq_true, Bool.not_eq_true'] at hcandid
    exact hcandid.1
  cases focus with
  | code script =>
    cases script with
    | reply request failure next =>
      -- The host replies, with another failure or with success.
      have hnone : (Answer.mk w (.await next :: stack) request failure).missed? = none :=
        Answer.missed?_eq_none hassert
      simp only [settling?, answer?, Option.filter_some]
      split
      · exact hnone
      · rfl
    | _ => rfl
  | resume next outcome =>
    cases next with
    | reply request =>
      cases outcome with
      | success value =>
        simp only [settling?, answer?, Option.filter_some]
        split <;> rfl
      | failure cause =>
        simp only [settling?, answer?, Option.filter_some]
        cases cause with
        | timedOut deadline =>
          show _ = if (w.request? request).any Request.isPending then _ else _
          split <;> rfl
        | _ => split <;> rfl
    | _ => rfl
  | back result =>
    have hanswer : answer? ⟨w, stack, .back result⟩ =
        (turn? ⟨w, stack, .back result⟩).bind Turn.answer? := rfl
    have hinherits : inherits? ⟨w, stack, .back result⟩ = none := rfl
    rw [hinherits, Option.or_none, settling?, hanswer]
    simp only [asserted?, taken?] at hassert
    cases hturn : turn? ⟨w, stack, .back result⟩ with
    | none => simp [lapse?, taken?, hturn]
    | some t =>
      rw [hturn] at hassert
      have hrequests := (turn?_spec hturn).1.requests
      have hsame (id : RequestId) : t.world.request? id = w.request? id := by
        rw [World.request?, hrequests, World.request?]
      simp only [lapse?, taken?, hturn, Option.map_some, Option.bind_some]
      cases hwork : t.event.work with
      | expire request deadline =>
        simp only [Turn.answer?, hwork, hsame]
        cases hpending : (w.request? request).any Request.isPending with
        | true => simp only [if_true, Option.filter_some, hpending, Option.bind_some, Answer.missed?]
        | false => rfl
      | reply request failure =>
        have hnone : (Answer.mk t.world t.stack request failure).missed? = none := by
          apply Answer.missed?_eq_none
          simpa [hwork] using hassert
        simp only [Turn.answer?, hwork, Option.filter_some]
        split
        · exact hnone
        · rfl
      | _ => simp [Turn.answer?, hwork]
  | crash cause => rfl

/-- A machine takes an event, or hands on an outcome. -/
theorem inherits?_of_lapse {m : Machine σ} (h : m.lapse?.isSome) : m.inherits? = none := by
  rcases m with ⟨w, stack, focus⟩
  cases focus with
  | resume next outcome => cases h
  | _ => rfl

/-! ## Where a missed deadline comes from -/

end Machine

/-- The missed deadline that is handed on. -/
def Focus.missed? : Focus σ → Option Time
  | .resume _ outcome => outcome.missed?
  | _ => none

namespace Machine

open World (Deed Path Prompt)

theorem proceed_missed (stack : List (Activation σ)) (next : Continuation σ) {e : Evaluation σ}
    (h : Prompt e.2) : (proceed stack next e).focus.missed? = none := by
  rcases e with ⟨w, result⟩
  cases result with
  | error cause => cases cause <;> rfl
  | ok progress =>
    cases progress with
    | suspended => rfl
    | resolved outcome held => exact h

theorem execute_missed (w : World σ) (stack : List (Activation σ)) (scope : ScopeId)
    (op : Operation) (next : Continuation σ) :
    (execute w stack scope op next).focus.missed? = none :=
  proceed_missed _ _ (World.evaluate_prompt ..)

theorem reply_missed {w : World σ} {stack : List (Activation σ)} {request : RequestId}
    {failure : Option Failure} {deadline : Time}
    (h : (reply w stack request failure).focus.missed? = some deadline) :
    failure = some (.timedOut deadline) := by
  unfold reply at h
  split at h
  · cases h
  · rename_i v next cause _
    cases cause with
    | timedOut other =>
      cases h
      rfl
    | _ => cases h
  · cases h
  · cases h
  · cases h

theorem process_missed (w : World σ) (stack : List (Activation σ)) (request : RequestId)
    (target : Target) : (process w stack request target).focus.missed? = none := by
  cases target with
  | endpoint id => rfl
  | service id =>
    unfold process
    dsimp only
    split
    · split
      · rfl
      · exact execute_missed ..
    · rfl

theorem fire_missed (w : World σ) (stack : List (Activation σ)) (id : ClientId) (scope : ScopeId) :
    (fire w stack id scope).focus.missed? = none := by
  unfold fire
  split
  · rfl
  · dsimp only
    split
    · rfl
    · exact proceed_missed _ _ (World.evaluate_prompt ..)

theorem complete_missed (w : World σ) (stack : List (Activation σ)) (id : ClientId)
    (outcome : Outcome) : (complete w stack id outcome).focus.missed? = none := by
  cases outcome <;> (unfold complete; dsimp only; split <;> rfl)

/-- Host code is about to claim a missed deadline. -/
theorem execScript_missed {w : World σ} {stack : List (Activation σ)} {script : Script σ}
    {deadline : Time} (h : (execScript w stack script).focus.missed? = some deadline) :
    ∃ request next, script = .reply request (some (.timedOut deadline)) next := by
  cases script with
  | reply request failure next => exact ⟨request, next, by rw [reply_missed h]⟩
  | evaluate activity caller resume next =>
    rw [execScript, Machine.evaluate, proceed_missed _ _ (World.evaluate_prompt ..)] at h
    cases h
  | execute id op resume next =>
    rw [execScript] at h
    split at h
    · cases h
    · rw [execute_missed] at h
      cases h
  | process request target next =>
    rw [execScript, process_missed] at h
    cases h
  | schedule delay kind callback next =>
    rw [execScript] at h
    split at h <;> cases h
  | replyAfter delay request failure next =>
    rw [execScript] at h
    split at h <;> cases h
  | send request target next =>
    rw [execScript] at h
    split at h <;> cases h
  | _ => cases h

/-- A continuation only hands on a missed deadline that it is handed. -/
theorem resume_missed {w : World σ} {stack : List (Activation σ)} {next : Continuation σ}
    {outcome : Outcome} {deadline : Time}
    (h : (resume w stack next outcome).focus.missed? = some deadline) :
    outcome.missed? = some deadline := by
  cases next with
  | host code => cases h
  | reply request =>
    cases outcome with
    | success value => cases reply_missed h
    | failure cause =>
      cases reply_missed h
      rfl
  | complete client =>
    rw [resume, complete_missed] at h
    cases h
  | steps rest frame next =>
    cases outcome with
    | success value =>
      rw [resume, proceed_missed _ _ (World.evaluateSteps_prompt ..)] at h
      cases h
    | failure cause => exact h
  | service id next =>
    cases outcome with
    | success value => cases h
    | failure cause => exact h
  | ignore next => cases outcome <;> cases h
  | retry state body frame next =>
    rw [resume, proceed_missed _ _ (World.afterAttempt_prompt ..)] at h
    cases h

/-- An event that sets off a missed deadline is the timeout of a pending request, or a reply of the
host. -/
theorem dispatch_missed {w : World σ} {stack : List (Activation σ)} {work : Callback σ}
    {deadline : Time} (h : (dispatch w stack work).focus.missed? = some deadline) :
    (∃ id, work = .expire id deadline ∧ (w.request? id).any Request.isPending = true) ∨
      ∃ id, work = .reply id (some (.timedOut deadline)) := by
  cases work with
  | host code => cases h
  | deliver request target =>
    rw [dispatch, process_missed] at h
    cases h
  | expire request other =>
    rw [dispatch] at h
    split at h
    · rename_i r hr
      split at h
      · rename_i hpending
        cases reply_missed h
        exact Or.inl ⟨request, rfl, by rw [hr]; exact hpending⟩
      · cases h
    · cases h
  | wake next => cases h
  | attempt state body frame next =>
    rw [dispatch, proceed_missed _ _ (World.attempt_prompt (World.evaluate_prompt ..))] at h
    cases h
  | fire client scope =>
    rw [dispatch, fire_missed] at h
    cases h
  | reply request failure => exact Or.inr ⟨request, by rw [reply_missed h]⟩

/-- A missed deadline that is handed on was handed on before, or a request has just missed it. -/
theorem step_missed {m n : Machine σ} (h : m.step = some n) (hcandid : m.candid = true)
    {deadline : Time} (hn : n.focus.missed? = some deadline) :
    m.focus.missed? = some deadline ∨ ∃ id, m.lapse? = some (id, deadline) := by
  have hassert : m.asserted?.any Failure.isTimeout = false := by
    simp only [candid, Bool.and_eq_true, Bool.not_eq_true'] at hcandid
    exact hcandid.1
  rcases m with ⟨w, stack, focus⟩
  cases focus with
  | code script =>
    cases h
    rcases execScript_missed hn with ⟨request, next, rfl⟩
    cases hassert
  | resume next outcome =>
    cases h
    exact Or.inl (resume_missed hn)
  | back result =>
    cases hturn : turn? ⟨w, stack, .back result⟩ with
    | some t =>
      rcases turn?_spec hturn with ⟨htaking, hstep⟩
      rw [hstep] at h
      cases h
      rcases dispatch_missed hn with ⟨id, hwork, hpending⟩ | ⟨id, hwork⟩
      · right
        refine ⟨id, ?_⟩
        have hsame : t.world.request? id = w.request? id := by
          rw [World.request?, htaking.requests, World.request?]
        rw [hsame] at hpending
        simp [lapse?, taken?, hturn, hwork, hpending]
      · simp [asserted?, taken?, hturn, hwork, Failure.isTimeout] at hassert
    | none =>
      -- Without an event, a call returns to host code or to another call.
      cases stack with
      | nil => cases h
      | cons caller stack =>
        cases h
        cases caller with
        | run horizon count next =>
          cases result with
          | error e => cases hn
          | ok _ =>
            have hreturned : (continueRun w stack horizon count next).focus.missed? = none := by
              simp only [turn?] at hturn
              unfold continueRun
              split
              · rfl
              · rename_i hspent
                rw [if_neg hspent, Option.map_eq_none_iff] at hturn
                rw [hturn]
                rfl
            rw [back, hreturned] at hn
            cases hn
        | _ => cases hn
  | crash cause =>
    cases stack with
    | nil => cases h
    | cons caller stack =>
      cases h
      cases caller <;> cases hn

/-- Every missed deadline that is handed on is one that a request has missed. -/
theorem Life.missed {a b : Machine σ} {past : List (Machine σ)} (h : Life a past b)
    (ha : a.focus.missed? = none) (hcandid : ∀ x ∈ past, x.candid = true) {deadline : Time}
    (hb : b.focus.missed? = some deadline) : ∃ id, (id, deadline) ∈ past.filterMap lapse? := by
  induction h with
  | refl =>
    rw [ha] at hb
    cases hb
  | @next past b c _ hn ih =>
    rw [List.filterMap_append]
    cases hn with
    | call script hnone => cases hb
    | step hs =>
      rcases step_missed hs (hcandid b (by simp)) hb with hbefore | ⟨id, hlapse⟩
      · rcases ih (fun x hx => hcandid x (List.mem_append_left _ hx)) hbefore with ⟨id, hid⟩
        exact ⟨id, List.mem_append_left _ hid⟩
      · exact ⟨id, List.mem_append_right _ (by simp [hlapse])⟩

/-! ## Requests that miss their deadlines -/

/-- A request that has been settled at its own deadline. -/
def Lapsed (w : World σ) (id : RequestId) (deadline : Time) : Prop :=
  ∃ r, w.request? id = some r ∧ r.deadline = some deadline ∧ r.status = .error ∧
    r.failure = some (.timedOut deadline) ∧ r.settledAt = some deadline

theorem Lapsed.not_pending {w : World σ} {id : RequestId} {deadline : Time}
    (h : Lapsed w id deadline) : (w.request? id).any Request.isPending = false := by
  rcases h with ⟨r, hr, -, hstatus, -, -⟩
  rw [hr, Option.any_some, Request.isPending, hstatus]
  rfl

theorem Lapsed.later {w v : World σ} {deeds : List (Deed σ)} {id : RequestId} {deadline : Time}
    (h : Lapsed w id deadline) (hpath : Path w deeds v) (hw : w.Waiting) :
    Lapsed v id deadline := by
  have hsettled := h.not_pending
  rcases h with ⟨r, hr, hrest⟩
  rw [hr, Option.any_some] at hsettled
  exact ⟨r, (hpath.settled hw hr hsettled).1, hrest⟩

theorem lapse?_pending {m : Machine σ} {id : RequestId} {deadline : Time}
    (h : m.lapse? = some (id, deadline)) :
    (m.world.request? id).any Request.isPending = true ∧
      ∃ t, m.turn? = some t ∧ t.event.work = .expire id deadline := by
  rcases Option.bind_eq_some_iff.1 h with ⟨e, htaken, hlapse⟩
  rcases Option.map_eq_some_iff.1 htaken with ⟨t, hturn, rfl⟩
  split at hlapse
  · rename_i other limit hwork
    split at hlapse
    · rename_i hpending
      cases hlapse
      exact ⟨hpending, t, hturn, hwork⟩
    · cases hlapse
  · cases hlapse

/-- The timeout of a pending request settles it at its deadline. -/
theorem Next.lapsed {m n : Machine σ} (h : Next m n) (hm : m.world.Sound) {id : RequestId}
    {deadline : Time} (hlapse : m.lapse? = some (id, deadline)) : Lapsed n.world id deadline := by
  rcases lapse?_pending hlapse with ⟨hpending, t, hturn, hwork⟩
  rcases (Option.any_eq_true _ _).1 hpending with ⟨r, hr, hp⟩
  rcases turn?_spec hturn with ⟨htaking, hstep⟩
  rcases htaking.take with ⟨horizon, agenda, htake, -⟩
  rcases Agenda.take?_eq_some htake with ⟨rest, hqueue, -, -⟩
  rcases hm.lapses t.event (by simp [hqueue]) id deadline hwork with ⟨-, htime, s, hs, hdeadline⟩
  rw [hr] at hs
  cases hs
  have hsame : t.world.request? id = some r := by
    rw [World.request?, htaking.requests]
    exact hr
  cases h with
  | call script hnone =>
    rw [hstep] at hnone
    cases hnone
  | step hs =>
    rw [hstep, hwork] at hs
    cases hs
    simp only [dispatch, hsame, hp, if_true, reply_world]
    rw [World.settle_pending _ hsame hp]
    refine ⟨r.settle t.world.now (some (.timedOut deadline)), ?_, hdeadline, rfl, rfl, ?_⟩
    · rw [World.request?_of_set hsame rfl, if_pos rfl]
    · rw [← htime, ← htaking.now]
      rfl

/-- Requests miss their deadlines once each, and have missed them ever after. -/
theorem Life.lapsed {a b : Machine σ} {past : List (Machine σ)} (h : Life a past b)
    (ha : a.world.Sound) :
    ((past.filterMap lapse?).map Prod.fst).Nodup ∧
      ∀ id deadline, (id, deadline) ∈ past.filterMap lapse? → Lapsed b.world id deadline := by
  induction h with
  | refl => exact ⟨List.nodup_nil, by simp⟩
  | @next past b c hlife hn ih =>
    rcases ih with ⟨hdistinct, hall⟩
    have hb := hlife.sound ha
    rcases hn.explains with ⟨deeds, hpath, -⟩
    have hlater : ∀ id deadline, (id, deadline) ∈ past.filterMap lapse? →
        Lapsed c.world id deadline :=
      fun id deadline hmem => (hall id deadline hmem).later hpath hb.waiting
    rw [List.filterMap_append]
    cases hlapse : b.lapse? with
    | none =>
      have hone : [b].filterMap lapse? = [] := by simp [hlapse]
      rw [hone, List.append_nil]
      exact ⟨hdistinct, hlater⟩
    | some missed =>
      rcases missed with ⟨id, deadline⟩
      -- The request is still pending, so it is not one of those before.
      have hnew : id ∉ (past.filterMap lapse?).map Prod.fst := by
        intro hmem
        rcases List.mem_map.1 hmem with ⟨⟨other, limit⟩, hother, rfl⟩
        have hsettled := (hall other limit hother).not_pending
        rw [(lapse?_pending hlapse).1] at hsettled
        cases hsettled
      have hone : [b].filterMap lapse? = [(id, deadline)] := by simp [hlapse]
      rw [hone, List.map_append]
      refine ⟨List.nodup_append.2 ⟨hdistinct, by simp, ?_⟩, ?_⟩
      · rintro x hx y hy rfl
        rw [List.map_singleton, List.mem_singleton] at hy
        rw [hy] at hx
        exact hnew hx
      · intro other limit hmem
        rcases List.mem_append.1 hmem with hmem | hmem
        · exact hlater other limit hmem
        · rw [List.mem_singleton] at hmem
          cases hmem
          exact hn.lapsed hb hlapse

/-! ## The count -/

/-- What is counted as a missed deadline in some transitions. -/
theorem Account.timedOut {a b : Machine σ} {past : List (Machine σ)} {deeds : List (Deed σ)}
    (h : Account a past deeds b) (hcandid : ∀ x ∈ past, x.candid = true) :
    b.world.journal.stats.timedOut = a.world.journal.stats.timedOut +
      past.countP fun x => (x.lapse?.or x.inherits?).isSome := by
  have hrecorded : (past.filterMap recorded?).countP JournalEntry.timesOut = 0 := by
    rw [List.countP_eq_zero]
    intro entry hentry
    rcases List.mem_filterMap.1 hentry with ⟨x, hx, hsome⟩
    have hx := hcandid x hx
    simp only [candid, hsome, Option.any_some, Bool.and_eq_true, Bool.not_eq_true'] at hx
    simp [hx.2]
  have hsettled : (past.filterMap fun x => x.settling?.map Answer.settlement).countP
      (fun s => s.2.any Failure.isTimeout) =
        past.countP fun x => (x.lapse?.or x.inherits?).isSome := by
    rw [List.countP_filterMap]
    apply List.countP_congr
    intro x hx
    rw [← settling_missed (hcandid x hx)]
    cases x.settling? with
    | none => simp
    | some answer => simp [Answer.settlement, answer.missed?_isSome]
  rw [h.path.journal, Journal.timedOut_foldl, World.timesOut_entries, h.settled, h.recorded,
    hrecorded, hsettled, Nat.add_zero]

theorem countP_lapses (past : List (Machine σ)) :
    (past.countP fun x => (x.lapse?.or x.inherits?).isSome) =
      (past.filterMap lapse?).length + (past.filterMap inherits?).length := by
  induction past with
  | nil => rfl
  | cons x rest ih =>
    rw [List.countP_cons, List.filterMap_cons, List.filterMap_cons, ih]
    cases hlapse : x.lapse? with
    | none =>
      cases x.inherits? with
      | none => rfl
      | some missed => exact Nat.add_assoc _ _ _
    | some missed =>
      rw [inherits?_of_lapse (by simp [hlapse])]
      simp only [Option.some_or, Option.isSome_some, if_true, List.length_cons]
      omega

/-- What the statistics count as missed deadlines, in any life whose host claims none by itself:

* the requests that their own timeouts have settled, each once, and besides them every request that an
  operation has settled which failed by a missed deadline; so they count deadlines exactly if there is
  none of the latter;
* a request of the former kind was settled at its own deadline;
* one of the latter kind has the failure of another request, which had missed its deadline before. -/
theorem Life.deadlines_counted {config : SimulationConfig} {memory : σ} {past : List (Machine σ)}
    {m : Machine σ} (h : Life (idle (World.start config memory)) past m)
    (hcandid : ∀ x ∈ past, x.candid = true) :
    m.world.journal.stats.timedOut =
      (past.filterMap lapse?).length + (past.filterMap inherits?).length ∧
    (m.world.journal.stats.timedOut = (past.filterMap lapse?).length ↔
      ∀ x ∈ past, x.inherits? = none) ∧
    ((past.filterMap lapse?).map Prod.fst).Nodup ∧
    (∀ id deadline, (id, deadline) ∈ past.filterMap lapse? → Lapsed m.world id deadline) ∧
    ∀ before x after id deadline, past = before ++ x :: after →
      x.inherits? = some (id, deadline) →
        ∃ other, other ≠ id ∧ (other, deadline) ∈ before.filterMap lapse? := by
  have hsound := sound_idle config memory
  rcases h.deeds hsound.waiting with ⟨deeds, hdeeds⟩
  have hcount := hdeeds.timedOut hcandid
  have hzero : (idle (World.start config memory)).world.journal.stats.timedOut = 0 := rfl
  rw [hzero, Nat.zero_add, countP_lapses] at hcount
  rcases h.lapsed hsound with ⟨hdistinct, hlapsed⟩
  refine ⟨hcount, ?_, hdistinct, hlapsed, ?_⟩
  · rw [hcount, Nat.add_eq_left, List.length_eq_zero_iff, List.filterMap_eq_nil_iff]
  · rintro before x after id deadline rfl hinherits
    rcases h.cut with ⟨hbefore, -⟩
    have hearlier : ∀ y ∈ before, y.candid = true :=
      fun y hy => hcandid y (List.mem_append_left _ hy)
    have hfocus : ∃ next outcome, x.focus = .resume next outcome ∧
        outcome.missed? = some deadline ∧ (x.world.request? id).any Request.isPending = true := by
      unfold inherits? at hinherits
      split at hinherits
      · rename_i hfocus
        split at hinherits
        · rename_i hpending
          cases hinherits
          exact ⟨_, _, hfocus, rfl, hpending⟩
        · cases hinherits
      · cases hinherits
    rcases hfocus with ⟨next, outcome, hfocus, hmissed, hpending⟩
    rcases hbefore.missed rfl hearlier (by rw [hfocus]; exact hmissed) with ⟨other, hother⟩
    refine ⟨other, ?_, hother⟩
    -- The request that missed the deadline is settled, and this one is not.
    rintro rfl
    have hsettled := ((hbefore.lapsed hsound).2 other deadline hother).not_pending
    rw [hpending] at hsettled
    cases hsettled

/-! ## One deadline, counted twice -/

/-- Host code that queries an operation, whose body queries a target that never replies, for one time
unit at most. -/
def delegation : Script Unit :=
  .bind "mute" "mute" 0.0 (fun _ => .done) fun _ =>
  .evaluate (.defineService "s" [.defineOperation "go" (.query "mute" "work" (some 1.0))]) .host
    (fun _ => .done) fun _ =>
  .evaluate (.query "s" "go" none) .host (fun _ => .done) fun _ =>
  .run 5.0 fun _ => .done

/-- The machine that begins with it. -/
def delegating : Machine Unit := ⟨World.start ⟨true, none⟩ (), [], .code delegation⟩

theorem life_delegating (fuel : Nat) :
    Life (idle (World.start ⟨true, none⟩ ()))
      ([idle (World.start ⟨true, none⟩ ())] ++ trail fuel delegating) (run fuel delegating) :=
  (Life.refl.next (.call delegation rfl)).trans (life_run fuel _)

theorem delegating_candid (fuel : Nat) (h : (trail fuel delegating).all candid = true) :
    ∀ x ∈ [idle (World.start ⟨true, none⟩ ())] ++ trail fuel delegating, x.candid = true := by
  intro x hx
  rcases List.mem_append.1 hx with hx | hx
  · rw [List.mem_singleton.1 hx]
    rfl
  · exact List.all_eq_true.1 h x hx

/-- The statistics count more than the requests that their own timeouts have settled. -/
theorem delegation_overcounts :
    ¬ ∀ (config : SimulationConfig) (past : List (Machine Unit)) (m : Machine Unit),
      Life (idle (World.start config ())) past m → (∀ x ∈ past, x.candid = true) →
        m.world.journal.stats.timedOut = (past.filterMap lapse?).length := by
  intro hall
  have hcount := hall _ _ _ (life_delegating 40) (delegating_candid 40 (by decide +kernel))
  have htwo : (run 40 delegating).world.journal.stats.timedOut = 2 := by decide +kernel
  have hone : ((trail 40 delegating).filterMap lapse?).length = 1 := by decide +kernel
  have hidle : [idle (World.start ⟨true, none⟩ ())].filterMap lapse? = [] := rfl
  rw [htwo, List.filterMap_append, hidle, List.nil_append, hone] at hcount
  cases hcount

theorem delegation_deadlines_counted :
    (run 40 delegating).world.journal.stats.timedOut =
      ((trail 40 delegating).filterMap lapse?).length +
        ((trail 40 delegating).filterMap inherits?).length ∧
    ((trail 40 delegating).filterMap inherits?).map Prod.fst = [⟨0⟩] ∧
    ((trail 40 delegating).filterMap lapse?).map Prod.fst = [⟨1⟩] :=
  ⟨((life_delegating 40).deadlines_counted (delegating_candid 40 (by decide +kernel))).1,
    by decide +kernel, by decide +kernel⟩

end Machine
end Callflow
