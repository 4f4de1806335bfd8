import Callflow.Proofs.Machine.Settlement
import Callflow.Proofs.Machine.Timing
import Callflow.Proofs.World.Parts
import Callflow.Proofs.World.Sole

/-!
# Where a continuation goes

A continuation that waits is at a spot, and so is one that is handed an outcome (`Machine.Holds`). In
a transition it is gone on with, or it stays where it is (`Spot.acts`). What it is part of can be
followed from spot to spot, unless the evaluation stops for good (`Holds.follow`); and a transition
that goes on with it leaves nothing waiting anywhere else (`Holds.adds`).
-/

namespace Callflow

open Continuation (Through)
open World (Adds Parked Rests Sole)

variable {σ : Type}

/-! ## Spots -/

/-- The outcome that is handed on next. -/
def Focus.handed? : Focus σ → Option Outcome
  | .resume _ outcome => some outcome
  | _ => none

namespace Machine

/-- A continuation is at a spot. -/
inductive Holds (m : Machine σ) : Spot σ → Continuation σ → Prop where
  | focus {k : Continuation σ} {outcome : Outcome} : m.focus = .resume k outcome → Holds m .focus k
  | kept {spot : Spot σ} {k : Continuation σ} : m.world.Keeps spot k → Holds m spot k

/-- Where a continuation is after a transition that has gone on with it, if it is anywhere. -/
def landed (b c : Machine σ) : Option (Spot σ) :=
  if c.focus.handed?.isSome then some .focus else b.world.parked? c.world

end Machine

/-- Where a continuation goes in a transition. -/
def Spot.follow (b c : Machine σ) : Spot σ → Option (Spot σ)
  | .focus => Machine.landed b c
  | .event e =>
    if b.taken?.any fun taken => taken.seq = e.seq then Machine.landed b c else some (.event e)
  | .request id => if (b.answerTo? id).isSome then some .focus else some (.request id)

/-- Whether a transition goes on with what is at a spot. -/
def Spot.acts (b : Machine σ) : Spot σ → Bool
  | .focus => true
  | .event e => b.taken?.any fun taken => taken.seq = e.seq
  | .request id => (b.answerTo? id).isSome

namespace Machine

variable {b c : Machine σ}

/-! ## Events and requests -/

theorem Life.distinct {config : SimulationConfig} {memory : σ} {past : List (Machine σ)}
    {m : Machine σ} (h : Life (idle (World.start config memory)) past m) :
    m.world.agenda.Distinct := by
  rcases h.deeds (sound_idle config memory).waiting with ⟨deeds, hdeeds⟩
  exact hdeeds.path.agenda.distinct Agenda.sound_empty List.nodup_nil

/-- An event that is taken is told by its number. -/
theorem turn?_filter {e : Event (Callback σ)} {turn : Turn σ}
    (hdistinct : b.world.agenda.Distinct) (he : e ∈ b.world.agenda.pending)
    (h : (b.turn?.filter fun turn => turn.event.seq = e.seq) = some turn) :
    b.turn? = some turn ∧ turn.event = e := by
  rcases Option.filter_eq_some_iff.1 h with ⟨hturn, hseq⟩
  have htaken : b.taken? = some turn.event := by
    rw [taken?, hturn]
    rfl
  exact ⟨hturn, hdistinct.eq (taken?_spec htaken).1 he (of_decide_eq_true hseq)⟩

theorem turn?_taken (b : Machine σ) (e : Event (Callback σ)) :
    (b.turn?.filter fun turn => turn.event.seq = e.seq).isSome =
      b.taken?.any fun taken => taken.seq = e.seq := by
  rw [taken?]
  cases b.turn? with
  | none => rfl
  | some turn => by_cases hseq : turn.event.seq = e.seq <;> simp [Option.filter, hseq]

theorem turn_of_acts {e : Event (Callback σ)} (hdistinct : b.world.agenda.Distinct)
    (he : e ∈ b.world.agenda.pending) (hacts : (Spot.event e).acts b = true) :
    ∃ turn, b.turn? = some turn ∧ turn.event = e := by
  have hsome : (b.turn?.filter fun turn => turn.event.seq = e.seq).isSome = true := by
    rw [turn?_taken]
    exact hacts
  rcases Option.isSome_iff_exists.1 hsome with ⟨turn, hturn⟩
  exact ⟨turn, turn?_filter hdistinct he hturn⟩

/-- An event that has been taken is not in the agenda any more. -/
theorem Next.gone (h : Next b c) (hb : b.world.Sound) (hdistinct : b.world.agenda.Distinct)
    {e o : Event (Callback σ)} (he : b.taken? = some e) (ho : o ∈ c.world.agenda.pending) :
    o.seq ≠ e.seq := by
  rcases h.explains with ⟨deeds, hpath, hexplains⟩
  refine hpath.agenda.gone hb.agenda hdistinct ?_ ho
  rw [World.takes_agenda, hexplains.taken, he]
  exact List.mem_singleton_self e

theorem parked?_congr {w v : World σ} (hseq : w.agenda.nextSeq = v.agenda.nextSeq)
    (hwaiters : w.waiters = v.waiters) (u : World σ) : w.parked? u = v.parked? u := by
  unfold World.parked?
  rw [hseq, hwaiters]

/-- The world in which an event is carried out has the same numbers as the one before. -/
theorem Taking.parked? {turn : Turn σ} (h : Taking b turn) (v : World σ) :
    b.world.parked? v = turn.world.parked? v := by
  rcases h.take with ⟨horizon, agenda, htake, hworld⟩
  rcases Agenda.take?_eq_some htake with ⟨rest, -, -, rfl⟩
  refine parked?_congr ?_ ?_ v
  · rw [hworld]
    rfl
  · rw [hworld]
    rfl

theorem Taking.sound {t : Turn σ} (h : Taking b t) (hb : b.world.Sound) :
    t.world.agenda.Sound := by
  rcases h.take with ⟨horizon, agenda, htake, hworld⟩
  rw [hworld]
  exact hb.agenda.take? htake

/-- What an event leaves in the agenda has been there before. -/
theorem Taking.adds {t : Turn σ} (h : Taking b t) : Adds b.world t.world none := by
  rcases h.take with ⟨horizon, agenda, htake, hworld⟩
  rcases Agenda.take?_eq_some htake with ⟨rest, hpending, -, rfl⟩
  rw [hworld]
  rintro spot ⟨k, hkeeps⟩
  left
  cases hkeeps with
  | event hmem hk =>
    refine ⟨k, .event ?_ hk⟩
    rw [hpending]
    exact List.mem_cons_of_mem _ hmem
  | request hk => exact ⟨k, .request hk⟩

/-- A continuation waits for its request until this gets a reply. -/
theorem Next.waiting (h : Next b c) (hb : b.world.Sound) {id : RequestId} {k : Continuation σ}
    (hwaiting : b.world.waiting? id = some k) :
    ((b.answerTo? id).isSome ∧ c.world.waiting? id = none ∧
      ∃ outcome, c.focus = .resume k outcome) ∨
      (b.answerTo? id = none ∧ c.world.waiting? id = some k) := by
  have hwaiter : b.world.waiter id = .continuation k := by
    unfold World.waiting? Waiter.continuation? at hwaiting
    split at hwaiting
    · rename_i other hother
      cases hwaiting
      exact hother
    · cases hwaiting
  have hsomebody : b.world.waiter id ≠ .nobody := by simp [hwaiter]
  rcases hb.waiting.awaited id hsomebody with ⟨r, hr, hpending⟩
  cases hanswer : b.answerTo? id with
  | some a =>
    rcases answerTo?_eq_some.1 hanswer with ⟨ha, rfl⟩
    rcases answer?_spec ha with ⟨hstep, hrequests, hwaiters⟩
    have hrequest : a.world.request? a.request = some r := by
      rw [World.request?, hrequests]
      exact hr
    have hsame : a.world.waiter a.request = .continuation k := by
      rw [World.waiter, hwaiters]
      exact hwaiter
    rw [reply_pending a.stack a.failure hrequest hpending, hsame] at hstep
    have hgone := World.waiter_settle a.failure hrequest hpending a.request
    rw [if_pos rfl] at hgone
    rw [h.eq_of_step hstep, World.waiting?, hgone]
    exact Or.inl ⟨rfl, rfl, _, rfl⟩
  | none =>
    right
    rcases h.explains with ⟨deeds, hpath, hexplains⟩
    have hnone := hexplains.answered id (by simp [hr])
    rw [hanswer] at hnone
    rcases hpath.answered hb.waiting hr hpending with ⟨-, -, hkept⟩ | ⟨_, _, _, hsettled, -⟩
    · refine ⟨rfl, ?_⟩
      rw [World.waiting?, hkept]
      exact hwaiting
    · rw [hnone] at hsettled
      cases hsettled

/-! ## Staying -/

theorem follow_of_rests {spot : Spot σ} (h : spot.acts b = false) :
    spot.follow b c = some spot := by
  cases spot with
  | focus => cases h
  | event e => exact if_neg (Bool.eq_false_iff.1 h)
  | request id => exact if_neg (Bool.eq_false_iff.1 h)

/-- What a transition does not go on with stays where it is. -/
theorem Holds.stays {spot : Spot σ} {k : Continuation σ} (h : b.Holds spot k) (hn : Next b c)
    (hb : b.world.Sound) (hrests : spot.acts b = false) : c.Holds spot k := by
  cases h with
  | focus _ => cases hrests
  | kept hkeeps =>
    cases hkeeps with
    | @event e _ hmem hwork =>
      rcases hn.pending hmem with htaken | hstays
      · simp [Spot.acts, htaken] at hrests
      · exact .kept (.event hstays hwork)
    | request hwaiting =>
      rcases hn.waiting hb hwaiting with ⟨hsome, -, -⟩ | ⟨-, hstays⟩
      · rw [Spot.acts, hsome] at hrests
        cases hrests
      · exact .kept (.request hstays)

/-- What a transition goes on with does not wait there any more. -/
theorem Next.leaves (hn : Next b c) (hb : b.world.Sound) (hdistinct : b.world.agenda.Distinct)
    {spot : Spot σ} (hwaits : b.world.Waits spot) (hacts : spot.acts b = true) :
    ¬ c.world.Waits spot := by
  rintro ⟨_, hlater⟩
  rcases hwaits with ⟨_, hbefore⟩
  cases hlater with
  | @event e _ hmem _ =>
    rcases (Option.any_eq_true _ _).1 hacts with ⟨taken, htaken, hseq⟩
    exact hn.gone hb hdistinct htaken hmem (of_decide_eq_true hseq).symm
  | request hwaiting =>
    cases hbefore with
    | request hwaited =>
      rcases hn.waiting hb hwaited with ⟨-, hnobody, -⟩ | ⟨hnone, -⟩
      · rw [hnobody] at hwaiting
        cases hwaiting
      · rw [Spot.acts, hnone] at hacts
        cases hacts

/-! ## Replies -/

theorem adds_of_answer? {a : Answer σ} (h : b.answer? = some a) : Adds b.world a.world none := by
  unfold answer? at h
  split at h
  · cases h
    exact .refl b.world
  · cases h
    exact .refl b.world
  · cases h
    exact .refl b.world
  · rcases Option.bind_eq_some_iff.1 h with ⟨t, hturn, hanswer⟩
    have hworld : a.world = t.world := by
      unfold Turn.answer? at hanswer
      split at hanswer
      · cases hanswer
        rfl
      · split at hanswer
        · cases hanswer
          rfl
        · cases hanswer
      · cases hanswer
    rw [hworld]
    exact (turn?_spec hturn).1.adds

/-- A reply leaves nothing behind. -/
theorem Next.adds_of_answerTo? (hn : Next b c) {id : RequestId}
    (h : (b.answerTo? id).isSome = true) : Adds b.world c.world none := by
  rcases Option.isSome_iff_exists.1 h with ⟨a, ha⟩
  rcases answerTo?_eq_some.1 ha with ⟨hanswer, -⟩
  rw [hn.eq_of_step (answer?_spec hanswer).1, reply_world]
  exact (adds_of_answer? hanswer).after
    ((Rests.settle a.world a.request a.failure).adds fun _ _ h => h)

/-! ## Going on -/

theorem Next.step_of_focus (h : Next b c) {k : Continuation σ} {outcome : Outcome}
    (hfocus : b.focus = .resume k outcome) :
    c = resume b.world b.stack k outcome := by
  rcases b with ⟨w, stack, focus⟩
  cases hfocus
  exact h.eq_of_step rfl

theorem proceed_handed (stack : List (Activation σ)) (next : Continuation σ) (e : Evaluation σ) :
    (proceed stack next e).focus.handed? = World.handed? e.2 := by
  unfold proceed
  split <;> rfl

theorem landed_of_focus {k : Continuation σ} {outcome : Outcome}
    (h : c.focus = .resume k outcome) : landed b c = some .focus := by
  simp [landed, h, Focus.handed?]

/-- Where a transition leaves a continuation that it evaluates something for. -/
theorem landed_of_proceed {target k : Continuation σ} {w : World σ} {stack : List (Activation σ)}
    {e : Evaluation σ} (hc : c = proceed stack k e) (hparked : Parked k w e) (hw : w.agenda.Sound)
    (hsame : b.world.parked? c.world = w.parked? c.world) (hk : Through target k) :
    (∃ spot other, landed b c = some spot ∧ c.Holds spot other ∧ Through target other) ∨
      (landed b c = none ∧ c.focus.Stops) := by
  have hworld : c.world = e.1 := by rw [hc, proceed_world]
  have hhanded : c.focus.handed? = World.handed? e.2 := by rw [hc, proceed_handed]
  -- What is left behind has been found to go on to the continuation.
  have hspot {spot : Spot σ} (h : w.parked? e.1 = some spot) :
      ∃ other, c.Holds spot other ∧ Through target other := by
    rcases hparked.parks.parked? hw h with ⟨other, hkeeps, -, hthrough⟩
    rw [← hworld] at hkeeps
    exact ⟨other, .kept hkeeps, hk.trans hthrough⟩
  rw [landed, hhanded, hsame, hworld]
  rcases e with ⟨v, result⟩
  cases result with
  | ok progress =>
    cases progress with
    | resolved outcome held =>
      subst hc
      exact Or.inl ⟨.focus, k, rfl, .focus rfl, hk⟩
    | suspended =>
      rcases Option.isSome_iff_exists.1 (hparked.leaves rfl).parked? with ⟨spot, hfound⟩
      rcases hspot hfound with ⟨other, hholds, hthrough⟩
      exact Or.inl ⟨spot, other, hfound, hholds, hthrough⟩
  | error stop =>
    cases hfound : w.parked? v with
    | some spot =>
      rcases hspot hfound with ⟨other, hholds, hthrough⟩
      exact Or.inl ⟨spot, other, by simp [World.handed?], hholds, hthrough⟩
    | none =>
      refine Or.inr ⟨by simp [World.handed?], ?_⟩
      subst hc
      cases stop <;> trivial

/-- A transition goes on with a continuation: it hands an outcome to it, or it evaluates something for
it. Nothing else has begun to wait. -/
inductive GoesOn (b c : Machine σ) (next : Continuation σ) : Prop where
  | hands {outcome : Outcome} : c.focus = .resume next outcome → Adds b.world c.world none →
      GoesOn b c next
  | evaluates {w : World σ} {stack : List (Activation σ)} {e : Evaluation σ} :
      c = proceed stack next e → Parked next w e → Sole w e → w.agenda.Sound →
      Adds b.world w none → b.world.parked? c.world = w.parked? c.world → GoesOn b c next

namespace GoesOn

variable {next : Continuation σ}

/-- What it is part of is where the transition has landed, unless the evaluation stops for good. -/
theorem lands (h : GoesOn b c next) {target : Continuation σ} (hnext : Through target next) :
    (∃ spot k, landed b c = some spot ∧ c.Holds spot k ∧ Through target k) ∨
      (landed b c = none ∧ c.focus.Stops) := by
  cases h with
  | hands hfocus _ =>
    exact Or.inl ⟨.focus, next, landed_of_focus hfocus, .focus hfocus, hnext⟩
  | evaluates hc hparked _ hw _ hsame => exact landed_of_proceed hc hparked hw hsame hnext

/-- All that has begun to wait is where the transition has landed. -/
theorem adds (h : GoesOn b c next) : Adds b.world c.world (landed b c) := by
  cases h with
  | hands _ hnone => exact hnone.of_none
  | @evaluates w stack e hc hparked hsole hw hbefore hsame =>
    have hworld : c.world = e.1 := by rw [hc, proceed_world]
    have hhanded : c.focus.handed? = World.handed? e.2 := by rw [hc, proceed_handed]
    rw [landed, hhanded, hsame, hworld]
    split
    · rename_i hresolved
      cases hsole with
      | resolved hnone => exact (hnone.before hbefore).of_none
      | suspended _ => cases hresolved
      | stopped _ => cases hresolved
    · exact (hsole.adds hw hparked.parks).before hbefore

end GoesOn

/-- What a transition goes on with goes to where the transition has landed; and it goes on with the
same continuation, or with what comes next in it. -/
theorem Holds.goes_on {spot : Spot σ} {k : Continuation σ} (h : b.Holds spot k) (hn : Next b c)
    (hb : b.world.Sound) (hdistinct : b.world.agenda.Distinct)
    (hdepth : spot = .focus → k.depth ≠ 0) (hacts : spot.acts b = true) :
    spot.follow b c = landed b c ∧ ∃ next, GoesOn b c next ∧ ∀ target, Through target k →
      (spot = .focus → k.depth ≠ target.depth) → Through target next := by
  cases h with
  | @focus _ outcome hfocus =>
    have hc := hn.step_of_focus hfocus
    have hdeep := hdepth rfl
    refine ⟨rfl, ?_⟩
    cases k with
    | steps rest frame next =>
      refine ⟨next, ?_, fun target hk hbefore => hk.inner (hbefore rfl) rfl⟩
      cases outcome with
      | success value =>
        exact .evaluates hc (World.evaluateSteps_parks ..) (World.evaluateSteps_sole ..) hb.agenda
          (.refl b.world) rfl
      | failure cause =>
        subst hc
        exact .hands rfl (.refl b.world)
    | service id next =>
      refine ⟨next, ?_, fun target hk hbefore => hk.inner (hbefore rfl) rfl⟩
      subst hc
      cases outcome <;> exact .hands rfl (.refl b.world)
    | ignore next =>
      refine ⟨next, ?_, fun target hk hbefore => hk.inner (hbefore rfl) rfl⟩
      subst hc
      cases outcome <;> exact .hands rfl (.refl b.world)
    | retry state body frame next =>
      refine ⟨next, ?_, fun target hk hbefore => hk.inner (hbefore rfl) rfl⟩
      exact .evaluates hc (.afterAttempt ..) (.afterAttempt ..) hb.agenda (.refl b.world) rfl
    | _ => exact absurd rfl hdeep
  | kept hkeeps =>
    cases hkeeps with
    | @event e _ hmem hk =>
      refine ⟨if_pos hacts, k, ?_, fun _ hthrough _ => hthrough⟩
      rcases turn_of_acts hdistinct hmem hacts with ⟨turn, hturn, rfl⟩
      rcases turn?_spec hturn with ⟨htaking, hstep⟩
      have hc := hn.eq_of_step hstep
      generalize turn.event.work = work at hc hk
      cases work with
      | wake next =>
        cases hk
        subst hc
        exact .hands rfl htaking.adds
      | attempt state body frame next =>
        cases hk
        exact .evaluates hc (.attempt (World.evaluate_parks ..)) (.attempt (World.evaluate_sole ..))
          (htaking.sound hb) htaking.adds (htaking.parked? _)
      | _ => cases hk
    | @request id _ hwaiting =>
      rcases hn.waiting hb hwaiting with ⟨-, -, outcome, hfocus⟩ | ⟨hnone, -⟩
      · have hfollow : (Spot.request id).follow b c = some .focus := if_pos hacts
        exact ⟨hfollow.trans (landed_of_focus hfocus).symm, k,
          .hands hfocus (hn.adds_of_answerTo? hacts), fun _ hthrough _ => hthrough⟩
      · rw [Spot.acts, hnone] at hacts
        cases hacts

/-- What is part of an evaluation goes from spot to spot, unless the evaluation stops for good. -/
theorem Holds.follow {target k : Continuation σ} {spot : Spot σ} (h : b.Holds spot k)
    (hn : Next b c) (hb : b.world.Sound) (hdistinct : b.world.agenda.Distinct)
    (hk : Through target k) (hbefore : spot = .focus → k.depth ≠ target.depth) :
    (∃ spot' other, spot.follow b c = some spot' ∧ c.Holds spot' other ∧ Through target other) ∨
      (spot.follow b c = none ∧ c.focus.Stops) := by
  cases hacts : spot.acts b with
  | false => exact Or.inl ⟨spot, k, follow_of_rests hacts, h.stays hn hb hacts, hk⟩
  | true =>
    have hdepth : spot = .focus → k.depth ≠ 0 := by
      intro hspot
      have hle := hk.depth_le
      have hne := hbefore hspot
      omega
    rcases h.goes_on hn hb hdistinct hdepth hacts with ⟨hfollow, next, hgoes, hnext⟩
    rw [hfollow]
    exact hgoes.lands (hnext target hk hbefore)

/-- A transition that goes on with a continuation leaves nothing waiting but where this goes. -/
theorem Holds.adds {spot : Spot σ} {k : Continuation σ} (h : b.Holds spot k) (hn : Next b c)
    (hb : b.world.Sound) (hdistinct : b.world.agenda.Distinct)
    (hdepth : spot = .focus → k.depth ≠ 0) (hacts : spot.acts b = true) :
    Adds b.world c.world (spot.follow b c) := by
  rcases h.goes_on hn hb hdistinct hdepth hacts with ⟨hfollow, next, hgoes, -⟩
  rw [hfollow]
  exact hgoes.adds

end Machine
end Callflow
