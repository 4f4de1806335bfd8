import Callflow.Proofs.Machine.Confinement

/-!
# Where evaluations come from

Whatever begins to wait in a transition, or is handed an outcome, is where the evaluation has landed
that the transition has begun or gone on with; or the transition has replied to a request, and it has
waited for that (`Next.origin`). A transition that does none of these evaluates nothing, and nothing
begins to wait (`Next.adds_of_idle`).
-/

namespace Callflow

open World (Adds Sole Rests)

variable {σ : Type}

namespace Machine

variable {m b c : Machine σ} {o : Opening σ}

/-! ## What begins -/

theorem turn?_of_code {script : Script σ} (h : m.focus = .code script) : m.turn? = none := by
  rcases m with ⟨w, stack, focus⟩
  cases h
  rfl

theorem turn?_of_resume {k : Continuation σ} {outcome : Outcome} (h : m.focus = .resume k outcome) :
    m.turn? = none := by
  rcases m with ⟨w, stack, focus⟩
  cases h
  rfl

theorem fires?_eq_some (h : m.fires? = some o) :
    ∃ t id scope client, m.turn? = some t ∧ t.event.work = .fire id scope ∧
      t.world.store.client? id = some client ∧
      o = ⟨client.body, scope, .client client.name, .complete id⟩ := by
  rcases Option.bind_eq_some_iff.1 h with ⟨t, hturn, hfires⟩
  split at hfires
  · rename_i id scope hwork
    rcases Option.map_eq_some_iff.1 hfires with ⟨client, hclient, rfl⟩
    exact ⟨t, id, scope, client, hturn, hwork, hclient, rfl⟩
  · cases hfires

theorem opening?_cases (h : m.opening? = some o) :
    (∃ activity caller resume next, m.focus = .code (.evaluate activity caller resume next) ∧
      o = ⟨activity, World.root, caller, .host resume⟩) ∨
    (∃ v, m.invokes? = some v ∧ o = v.opening) ∨ m.fires? = some o := by
  unfold opening? at h
  split at h
  · rename_i activity caller resume next hfocus
    cases h
    exact Or.inl ⟨activity, caller, resume, next, hfocus, rfl⟩
  · rcases Option.or_eq_some_iff.1 h with hinvokes | ⟨-, hfires⟩
    · rcases Option.map_eq_some_iff.1 hinvokes with ⟨v, hv, rfl⟩
      exact Or.inr (Or.inl ⟨v, hv, rfl⟩)
    · exact Or.inr (Or.inr hfires)

/-- Where an evaluation begins, nothing is replied to and no continuation goes on. -/
theorem apart_of_opening? (h : m.opening? = some o) :
    (∀ k outcome, m.focus ≠ .resume k outcome) ∧ m.answer? = none ∧
      ∀ t, m.turn? = some t → t.event.work.pursued? = none := by
  have hcode {script : Script σ} (hfocus : m.focus = .code script)
      (hreply : ∀ request failure next, script ≠ .reply request failure next) :
      (∀ k outcome, m.focus ≠ .resume k outcome) ∧ m.answer? = none ∧
        ∀ t, m.turn? = some t → t.event.work.pursued? = none := by
    have hturn := turn?_of_code hfocus
    refine ⟨by simp [hfocus], ?_, by simp [hturn]⟩
    unfold answer?
    split
    · rename_i request failure next hother
      rw [hfocus] at hother
      cases hother
      exact absurd rfl (hreply request failure next)
    · simp_all
    · simp_all
    · rw [hturn]
      rfl
  have htaken {t : Turn σ} (hturn : m.turn? = some t) (hanswer : t.answer? = none)
      (hpursued : t.event.work.pursued? = none) :
      (∀ k outcome, m.focus ≠ .resume k outcome) ∧ m.answer? = none ∧
        ∀ t, m.turn? = some t → t.event.work.pursued? = none := by
    have htaking := (turn?_spec hturn).1
    refine ⟨by simp [htaking.focus], htaking.answer.trans hanswer, ?_⟩
    intro other hother
    rw [hturn] at hother
    cases hother
    exact hpursued
  rcases opening?_cases h with ⟨_, _, _, _, hfocus, -⟩ | ⟨v, hv, -⟩ | hfires
  · exact hcode hfocus (by simp)
  · rcases invokes?_cases hv with
      ⟨_, _, _, _, _, hfocus, -, -⟩ | ⟨_, _, _, hfocus, -⟩ | ⟨t, _, _, hturn, hwork, -⟩
    · exact hcode hfocus (by simp)
    · exact hcode hfocus (by simp)
    · exact htaken hturn (by simp [Turn.answer?, hwork]) (by simp [hwork, Callback.pursued?])
  · rcases fires?_eq_some hfires with ⟨t, _, _, _, hturn, hwork, -, -⟩
    exact htaken hturn (by simp [Turn.answer?, hwork]) (by simp [hwork, Callback.pursued?])

/-- Whoever gets the outcome of an evaluation is the end of a continuation. -/
theorem depth_of_opening? (h : m.opening? = some o) : o.next.depth = 0 := by
  rcases opening?_cases h with ⟨_, _, _, _, -, rfl⟩ | ⟨v, hv, rfl⟩ | hfires
  · rfl
  · exact (invokes_of_invokes? hv).depth
  · rcases fires?_eq_some hfires with ⟨_, _, _, _, -, -, -, rfl⟩
    rfl

/-- A continuation of an event is what the event goes on with, or is inside of it. -/
theorem continuation?_isSome (work : Callback σ) :
    work.continuation?.isSome = work.pursued?.isSome := by
  cases work <;> rfl

/-! ## What goes on -/

/-- Where an evaluation begins, this is all that goes on. -/
theorem Seated.involves_opening {O : Opening σ → Prop} {log : Part σ → Prop}
    (h : Seated O log m) (ho : m.opening? = some o) : Involves (· = o) log m := by
  rcases apart_of_opening? ho with ⟨hfocus, hanswer, hpursued⟩
  refine ⟨h.root, ?_, fun k outcome hk => absurd hk (hfocus k outcome), ?_, by simp [hanswer]⟩
  · intro other hother
    exact Option.some_inj.1 (hother.symm.trans ho)
  · intro e he
    rcases Option.map_eq_some_iff.1 he with ⟨t, hturn, rfl⟩
    exact ⟨by simp [hpursued t hturn], (h.events t.event (taken?_spec he).1).fires⟩

/-- Where an event goes on with a continuation, nothing begins, and nothing is replied to. -/
theorem apart_of_taken {t : Turn σ} (hturn : m.turn? = some t)
    (hgoes : t.event.work.continuation?.isSome = true) : m.opening? = none ∧ m.answer? = none := by
  have htaking := (turn?_spec hturn).1
  rw [continuation?_isSome] at hgoes
  constructor
  · cases ho : m.opening? with
    | none => rfl
    | some o =>
      rw [(apart_of_opening? ho).2.2 t hturn] at hgoes
      cases hgoes
  · rw [htaking.answer, Turn.answer?]
    generalize t.event.work = work at hgoes
    cases work with
    | reply request failure => cases hgoes
    | expire request deadline => cases hgoes
    | _ => rfl

/-- Where an outcome is handed to what stands inside of an evaluation, nothing begins, and nothing is
replied to. -/
theorem apart_of_focus {k : Continuation σ} {outcome : Outcome} (h : m.focus = .resume k outcome)
    (hdepth : k.depth ≠ 0) : m.opening? = none ∧ m.answer? = none := by
  have hturn := turn?_of_resume h
  constructor
  · cases ho : m.opening? with
    | none => rfl
    | some o => exact absurd h ((apart_of_opening? ho).1 k outcome)
  · unfold answer?
    split
    · simp_all
    · rename_i request value hother
      rw [h] at hother
      cases hother
      exact absurd rfl hdepth
    · rename_i request cause hother
      rw [h] at hother
      cases hother
      exact absurd rfl hdepth
    · rw [hturn]
      rfl

/-- Where an evaluation goes on from a spot, this is all that goes on. -/
theorem Bears.involves {log : Part σ → Prop} {spot : Spot σ}
    (h : m.Bears (Seats (· = o) log) spot)
    (hroot : ∃ scope, m.world.store.scope? World.root = some scope)
    (hdistinct : m.world.agenda.Distinct) (hacts : Thread.acts m (.within spot) = true) :
    Involves (· = o) log m := by
  cases h with
  | @focus k outcome hfocus hseats =>
    have hdepth : k.depth ≠ 0 := by
      intro hdepth
      simp [Thread.acts, Thread.returns, hfocus, hdepth] at hacts
    have hturn := turn?_of_resume hfocus
    rcases apart_of_focus hfocus hdepth with ⟨hopening, hanswer⟩
    refine ⟨hroot, by simp [hopening], ?_, by simp [taken?, hturn], by simp [hanswer]⟩
    intro other result hother _
    rw [hfocus] at hother
    cases hother
    exact hseats
  | @event e k hmem hk hsits =>
    rcases turn_of_acts hdistinct hmem hacts with ⟨t, hturn, rfl⟩
    have htaking := (turn?_spec hturn).1
    rcases apart_of_taken hturn (by rw [hk]; rfl) with ⟨hopening, hanswer⟩
    refine ⟨hroot, by simp [hopening], by simp [htaking.focus], ?_, by simp [hanswer]⟩
    intro other hother
    rw [taken?, hturn] at hother
    cases hother
    exact hsits
  | request _ _ => cases hacts

/-! ## What is left behind -/

theorem adds_of_invokes? {v : Invocation σ} (h : m.invokes? = some v) :
    Adds m.world v.world none := by
  rcases invokes?_cases h with
    ⟨_, _, _, _, _, -, -, rfl⟩ | ⟨_, _, _, -, hprocessed⟩ | ⟨t, _, _, hturn, -, hprocessed⟩
  · exact .refl m.world
  · rw [(process_of_processed hprocessed).2.1]
    exact .refl m.world
  · rw [(process_of_processed hprocessed).2.1]
    exact (turn?_spec hturn).1.adds

/-- What has begun to wait, or is handed an outcome, is where the transition has landed. -/
theorem landed_of_adds {spot : Spot σ} {k : Continuation σ} (hholds : c.Holds spot k)
    (hadds : Adds b.world c.world (landed b c)) : b.world.Waits spot ∨ landed b c = some spot := by
  cases hholds with
  | focus hfocus => exact Or.inr (landed_of_focus hfocus)
  | kept hkeeps => exact hadds spot ⟨k, hkeeps⟩

/-- A client that fires leaves its next firing behind, and what the evaluation of its body does. -/
theorem adds_of_fire {t : Turn σ} (htaking : Taking b t) {id : ClientId} {scope : ScopeId}
    {client : Client} (hclient : t.world.store.client? id = some client)
    (hc : c = fire t.world t.stack id scope) (hsound : t.world.agenda.Sound) :
    Adds b.world c.world (landed b c) := by
  have hcounted : Adds t.world { t.world with store := t.world.store.modifyClient id fun c =>
      { c with firings := c.firings + 1 } } none := .of_same rfl rfl
  have hcountedParks (next : Continuation σ) : World.Parks next t.world { t.world with
      store := t.world.store.modifyClient id fun c => { c with firings := c.firings + 1 } } :=
    .of_same next rfl rfl
  simp only [fire, hclient] at hc
  generalize ({ t.world with store := t.world.store.modifyClient id fun c =>
    { c with firings := c.firings + 1 } } : World σ) = counted at hcounted hcountedParks hc
  cases hs : counted.schedule client.period .clientFiring (.fire id scope) with
  | error cause =>
    rw [hs] at hc
    subst hc
    exact (htaking.adds.after hcounted).of_none
  | ok scheduled =>
    rcases scheduled with ⟨v, event⟩
    rw [hs] at hc
    have hv : Adds t.world v none := hcounted.after (.schedule_idle hs rfl)
    have hparks (next : Continuation σ) : World.Parks next t.world v :=
      (hcountedParks next).trans (.schedule hs (by simp [Callback.continuation?]))
    exact (GoesOn.evaluates hc ((World.evaluate_parks ..).before (hparks _))
      ((World.evaluate_sole ..).before hv) hsound htaking.adds (htaking.parked? _)).adds

/-- What a transition leaves behind in which an evaluation begins is where it goes on. -/
theorem adds_of_opening? (hn : Next b c) (hb : b.world.Sound) (ho : b.opening? = some o) :
    Adds b.world c.world (landed b c) := by
  rcases opening?_cases ho with ⟨activity, caller, resume, next, hfocus, -⟩ | ⟨v, hv, -⟩ | hfires
  · have hstep : b.step =
        some (evaluate b.world (.await next :: b.stack) activity (.plain World.root caller)
          (.host resume)) := by
      simp only [step, hfocus]
      rfl
    exact (GoesOn.evaluates (hn.eq_of_step hstep) (World.evaluate_parks ..)
      (World.evaluate_sole ..) hb.agenda (.refl b.world) rfl).adds
  · have hbegins := invokes_of_invokes? hv
    have hentered : Adds b.world v.entered none := (adds_of_invokes? hv).after (.of_same rfl rfl)
    exact (GoesOn.evaluates (hn.eq_of_step hbegins.step) (World.evaluate_parks ..)
      (World.evaluate_sole ..) (hbegins.sound hb.agenda) hentered (hbegins.parked _)).adds
  · rcases fires?_eq_some hfires with ⟨t, id, scope, client, hturn, hwork, hclient, -⟩
    rcases turn?_spec hturn with ⟨htaking, hstep⟩
    rw [hwork] at hstep
    exact adds_of_fire htaking hclient (hn.eq_of_step hstep) (htaking.sound hb)

/-- What a transition leaves behind in which an evaluation goes on is where it goes on further. -/
theorem adds_of_acts (hn : Next b c) (hb : b.world.Sound) (hdistinct : b.world.agenda.Distinct)
    {before : Spot σ} {next : Continuation σ} (hbefore : b.Holds before next)
    (hacts : Thread.acts b (.within before) = true) : Adds b.world c.world (landed b c) := by
  have hspot : before.acts b = true := by
    cases before with
    | focus => rfl
    | event e => exact hacts
    | request id => cases hacts
  have hdepth : before = .focus → next.depth ≠ 0 := by
    rintro rfl hdepth
    cases hbefore with
    | focus hfocus => simp [Thread.acts, Thread.returns, hfocus, hdepth] at hacts
    | kept hkeeps => cases hkeeps
  rcases hbefore.goes_on hn hb hdistinct hdepth hspot with ⟨-, k, hgoes, -⟩
  exact hgoes.adds

/-! ## Nothing comes from nowhere -/

/-- The next transition replies to a request that a continuation waits for. -/
def Answers (m : Machine σ) (id : RequestId) : Prop :=
  (m.answerTo? id).isSome = true ∧ ∃ k, m.world.waiting? id = some k

/-- Where nothing begins or goes on, nothing is left behind. -/
theorem Next.adds_of_idle {O : Opening σ → Prop} {log : Part σ → Prop} (hn : Next b c)
    (hseated : Seated O log b) (hopening : b.opening? = none)
    (hrests : ∀ spot k, b.Holds spot k → Thread.acts b (.within spot) = false)
    (hanswers : ∀ id, ¬ b.Answers id) :
    Adds b.world c.world none ∧ (∀ k outcome, c.focus ≠ .resume k outcome) ∧ b.parts = [] := by
  have hinvolves : Involves (fun _ => False) (fun _ => True) b := by
    refine ⟨hseated.root, by simp [hopening], ?_, ?_, ?_⟩
    · intro k outcome hfocus hdepth
      have hstill := hrests .focus k (.focus hfocus)
      simp [Thread.acts, Thread.returns, hfocus, hdepth] at hstill
    · intro e he
      have hmem := (taken?_spec he).1
      refine ⟨?_, (hseated.events e hmem).fires⟩
      intro k hk
      have hsome : e.work.continuation?.isSome = true := by
        rw [continuation?_isSome, hk]
        rfl
      rcases Option.isSome_iff_exists.1 hsome with ⟨next, hnext⟩
      have hstill := hrests (.event e) next (.kept (.event hmem hnext))
      simp [Thread.acts, he] at hstill
    · intro a k ha hk
      refine absurd ⟨?_, k, hk⟩ (hanswers a.request)
      rw [answerTo?_eq_some.2 ⟨ha, rfl⟩]
      rfl
  have hnobody (s : Store) (k : Continuation σ) :
      ¬ Seats (fun _ => False) (fun _ => True) s k := by
    rintro ⟨_, hnone, -⟩
    exact hnone
  have hstays := hn.stays hinvolves fun _ _ => trivial
  refine ⟨hstays.rests.adds hnobody, ?_, ?_⟩
  · intro k outcome hfocus
    exact hnobody _ _ (hstays.focus k outcome hfocus)
  · rw [List.eq_nil_iff_forall_not_mem]
    intro p hp
    rcases hstays.placed p hp with ⟨_, _, hnone, -⟩
    exact hnone

/-- What is left behind by a transition has been there before, or an evaluation that begins or goes
on has left it behind, or it has waited for a reply and is handed the outcome. -/
theorem Next.origin {O : Opening σ → Prop} {log : Part σ → Prop} (hn : Next b c)
    (hb : b.world.Sound) (hdistinct : b.world.agenda.Distinct) (hseated : Seated O log b)
    {spot : Spot σ} {k : Continuation σ} (hholds : c.Holds spot k) :
    b.world.Waits spot ∨
    (landed b c = some spot ∧ ((∃ o, b.opening? = some o) ∨
      ∃ before next, b.Holds before next ∧ Thread.acts b (.within before) = true)) ∨
    (spot = .focus ∧ ∃ id, b.Answers id) := by
  cases hopening : b.opening? with
  | some o =>
    exact (landed_of_adds hholds (adds_of_opening? hn hb hopening)).imp_right fun hlanded =>
      Or.inl ⟨hlanded, Or.inl ⟨o, rfl⟩⟩
  | none =>
    by_cases hacts : ∃ before next, b.Holds before next ∧ Thread.acts b (.within before) = true
    · rcases hacts with ⟨before, next, hbefore, hacts⟩
      have hadds := adds_of_acts hn hb hdistinct hbefore hacts
      exact (landed_of_adds hholds hadds).imp_right fun hlanded =>
        Or.inl ⟨hlanded, Or.inr ⟨before, next, hbefore, hacts⟩⟩
    · by_cases hanswers : ∃ id, b.Answers id
      · rcases hanswers with ⟨id, hid⟩
        cases hholds with
        | focus _ => exact Or.inr (Or.inr ⟨rfl, id, hid⟩)
        | kept hkeeps => exact Or.inl ((hn.adds_of_answerTo? hid.1).waited ⟨k, hkeeps⟩)
      · have hrests : ∀ spot k, b.Holds spot k → Thread.acts b (.within spot) = false := by
          intro before next hbefore
          exact Bool.eq_false_iff.2 fun htrue => hacts ⟨before, next, hbefore, htrue⟩
        rcases hn.adds_of_idle hseated hopening hrests (fun id hid => hanswers ⟨id, hid⟩) with
          ⟨hadds, hfocus, -⟩
        cases hholds with
        | @focus _ outcome hk => exact absurd hk (hfocus k outcome)
        | kept hkeeps => exact Or.inl (hadds.waited ⟨k, hkeeps⟩)

end Machine
end Callflow
