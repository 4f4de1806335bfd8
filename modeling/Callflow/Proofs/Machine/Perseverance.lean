import Callflow.Proofs.Machine.Retries
import Callflow.Proofs.Program.Waits

/-!
# Retries that are carried through

Before its first attempt, a retry checks its limit and the base of its delay, but not the waits that
grow out of the base. What a failed attempt leads to is decided by the wait after it: the next attempt
is scheduled (`Trial.Fails.goes_on`), or the call that the retry has been evaluated in returns with an
error (`Trial.Fails.aborts`). So a retry goes through with all of its attempts in every life exactly
when two of its waits are valid: `retry_perseveres_iff`.
-/

namespace Callflow

open Machine (Life idle)

variable {σ : Type}

/-! ## After a failed attempt -/

namespace World

theorem suspend_of_checkDelay (w : World σ) {delay : Time} (kind : EventKind) (work : Callback σ)
    (h : Time.checkDelay delay = .ok ()) :
    ∃ v e, w.suspend delay kind work = (v, .ok .suspended) ∧ v.budget = w.budget ∧
      v.agenda.pending = Agenda.insert e w.agenda.pending ∧ e.work = work ∧
      e.time = w.now + delay := by
  rcases schedule_of_checkDelay w kind work h with ⟨v, event, hs⟩
  have hsuspend : w.suspend delay kind work = (v, .ok .suspended) := by
    rw [suspend, hs]
  rcases schedule_eq_ok hs with ⟨agenda, hagenda, rfl, -⟩
  rcases Agenda.schedule_eq_ok hagenda with ⟨-, rfl⟩
  exact ⟨_, _, hsuspend, rfl, rfl, rfl, rfl⟩

theorem suspend_of_refused (w : World σ) {delay : Time} {cause : SchedulingError}
    (kind : EventKind) (work : Callback σ) (h : Time.checkDelay delay = .error cause) :
    w.suspend delay kind work = w.refuse cause := by
  simp only [suspend, schedule, Agenda.schedule, h]

theorem not_resolved_suspend (w : World σ) (delay : Time) (kind : EventKind)
    (work : Callback σ) : ¬ Resolved (w.suspend delay kind work).2 := by
  unfold suspend
  split <;> exact id

end World

namespace Trial

variable {t : Trial σ} {m n : Machine σ} {made : ℕ}

/-- What the event of the next attempt does when some have been made. -/
def work (t : Trial σ) (made : ℕ) : Callback σ := .attempt (t.state made) t.body t.frame t.next

/-- In the next transition, the attempt that comes after `made` others fails: its failure is handed to
the retry, or the body resolves at once, in the transition that evaluates the retry or in the event of
the attempt. -/
inductive Fails (t : Trial σ) (m : Machine σ) : ℕ → Prop where
  | resumed {made : ℕ} {cause : Failure} :
      m.focus = .resume (t.point (made + 1)) (.failure cause) → Fails t m made
  | first {v : World σ} {cause : Failure} {held : List Ref} : t.part ∈ m.parts →
      t.bodyOf 1 t.inUse t.world = (v, .ok (.resolved (.failure cause) held)) → Fails t m 0
  | again {made : ℕ} {turn : Machine.Turn σ} {v : World σ} {cause : Failure} {held : List Ref} :
      m.turn? = some turn → turn.event.work = t.work made →
      t.bodyOf (made + 1) (Machine.inUse (.hold t.frame.refs :: turn.stack)) turn.world =
        (v, .ok (.resolved (.failure cause) held)) → Fails t m made

theorem now_of_bodyOf {number : ℕ} {inUse : List Ref} {w v : World σ}
    {result : Except Stop Progress} (h : t.bodyOf number inUse w = (v, result)) : v.now = w.now := by
  rcases World.evaluate_quiet inUse t.body t.frame (t.point number) w with ⟨deeds, hpath, hquiet⟩
  rw [← bodyOf, h] at hpath
  exact (hpath.clock hquiet).1

/-- If another attempt is allowed, all that the transition does after the failure is to schedule it. -/
theorem Fails.proceed (h : t.Fails m made) (hs : m.step = some n) (hless : made + 1 < t.limit)
    (hbase : Time.checkDelay t.delay.base = .ok ()) :
    ∃ (w : World σ) (stack : List (Activation σ)) (next : Continuation σ), w.now = m.moment ∧
      n = Machine.proceed stack next
        (w.suspend (t.delay.waitAfter (made + 1)) .retry (t.work (made + 1))) := by
  cases h with
  | @resumed _ cause hfocus =>
    refine ⟨m.world, m.stack, t.next, ?_, ?_⟩
    · rw [Machine.moment, Machine.taken?, Machine.turn?, hfocus]
      rfl
    · rw [work, ← t.after_of_lt hless [] cause]
      exact (Machine.Next.step hs).step_of_focus hfocus
  | @first v cause held hpart hbody =>
    have hresult : t.part.result = v.suspend (t.delay.waitAfter 1) .retry (t.work 1) := by
      rw [result_of_accepted (by omega) hbase, launch_of_resolved hbody, after_of_lt hless, work]
    rcases Machine.step_parts hs hpart with ⟨w, -, hnow, -, hcomes⟩
    rcases hcomes.quiet with ⟨deeds, hpath, hquiet⟩
    have hunresolved : ¬ World.Resolved t.part.result.2 := by
      rw [hresult]
      exact World.not_resolved_suspend _ _ _ _
    rcases hcomes.unresolved hunresolved with ⟨stack, next, hn⟩
    rw [hresult] at hn
    have hclock : t.world.now = m.moment := (hpath.clock hquiet).1.trans hnow
    exact ⟨v, stack, next, (now_of_bodyOf hbody).trans hclock, hn⟩
  | @again _ turn v cause held hturn hwork hbody =>
    rcases Machine.turn?_spec hturn with ⟨htaking, hstep⟩
    refine ⟨v, .hold t.frame.refs :: turn.stack, t.next,
      (now_of_bodyOf hbody).trans htaking.moment, ?_⟩
    rw [hwork] at hstep
    rw [work, ← t.after_of_lt hless held cause, ← launch_of_resolved hbody]
    exact Option.some.inj (hs.symm.trans hstep)

/-- After a valid wait, the next attempt is due. -/
theorem Fails.goes_on (h : t.Fails m made) (hs : m.step = some n) (hless : made + 1 < t.limit)
    (hbase : Time.checkDelay t.delay.base = .ok ())
    (hwait : Time.checkDelay (t.delay.waitAfter (made + 1)) = .ok ()) :
    n.focus = .back (.ok ()) ∧ ∃ e ∈ n.world.agenda.pending, e.work = t.work (made + 1) ∧
      e.time = m.moment + t.delay.waitAfter (made + 1) := by
  rcases h.proceed hs hless hbase with ⟨w, stack, next, hnow, rfl⟩
  rcases World.suspend_of_checkDelay w .retry (t.work (made + 1)) hwait with
    ⟨v, e, hsuspend, -, hpending, hwork, htime⟩
  rw [hsuspend]
  have hmem : e ∈ v.agenda.pending := by
    rw [hpending]
    exact Agenda.mem_insert.2 (Or.inl rfl)
  exact ⟨rfl, e, hmem, hwork, by rw [htime, hnow]⟩

/-- A refused wait ends the retry and the call that it has been evaluated in. -/
theorem Fails.aborts (h : t.Fails m made) (hs : m.step = some n) (hless : made + 1 < t.limit)
    (hbase : Time.checkDelay t.delay.base = .ok ()) {cause : SchedulingError}
    (hwait : Time.checkDelay (t.delay.waitAfter (made + 1)) = .error cause) :
    n.focus = .back (.error (.scheduling cause)) := by
  rcases h.proceed hs hless hbase with ⟨w, stack, next, -, rfl⟩
  rw [World.suspend_of_refused _ _ _ hwait]
  rfl

end Trial

/-- Every retry with this limit and this delay goes on after a failed attempt if another one is
allowed: the call it has been evaluated in does not fail, and the next attempt is due after the wait. -/
def Delay.Perseveres (d : Delay) (limit : ℕ) : Prop :=
  ∀ {σ : Type} {config : SimulationConfig} {memory : σ} {past : List (Machine σ)}
    {m n : Machine σ} {t : Trial σ} {made : ℕ}, t.limit = limit → t.delay = d →
      Life (idle (World.start config memory)) past m → m.step = some n → t.Fails m made →
        made + 1 < limit → n.focus = .back (.ok ()) ∧ ∃ e ∈ n.world.agenda.pending,
          e.work = t.work (made + 1) ∧ e.time = m.moment + d.waitAfter (made + 1)

/-- What becomes of every retry with this limit and this delay, at every moment of a life: its record
is as it should be; it has ended with a success or because no further attempt is allowed, if it has
ended; and a run without a budget does not return as long as the next attempt is due. -/
def Delay.Completes (d : Delay) (limit : ℕ) : Prop :=
  ∀ {σ : Type} {config : SimulationConfig} {memory : σ} {early past : List (Machine σ)}
    {m m₁ n : Machine σ} {t : Trial σ}, t.limit = limit → t.delay = d →
      Life (idle (World.start config memory)) early m → m.step = some m₁ → t.part ∈ m.parts →
        Life m₁ past n → t.Exact (m :: past ++ [n]) n (t.record past n) ∧
          (∀ outcome, (t.record past n).stand = .finished outcome →
            (∃ value, outcome = .success value) ∨ outcome = .failure (.exhausted limit)) ∧
          ∀ e horizon count next stack, (t.record past n).stand = .waiting e →
            config.maxEvents = none → n.Returning horizon count next stack → ¬ e.time ≤ horizon

/-! ## A retry that always fails -/

namespace Machine

/-- The end of all times. -/
def forever : Time := 1.0 / 0.0

theorem isReading_forever : forever.IsReading := by
  show Time.place (1.0 / 0.0) ≤ Time.lastPlace
  decide

/-- Evaluates a retry whose attempts all fail at once, and lets all of them be made. -/
def stubborn (limit : ℕ) (delay : Delay) : Script Unit :=
  .evaluate (.retry .fail limit delay) .host (fun _ => .done) fun _ => .run forever fun _ => .done

/-- What it waits with for the retry. -/
def expectant : List (Activation Unit) := [.await fun _ => .run forever fun _ => .done]

/-- The retry that it evaluates. -/
def failing (limit : ℕ) (delay : Delay) : Trial Unit where
  world := World.start ⟨false, none⟩ ()
  inUse := inUse expectant
  frame := .plain World.root .host
  next := .host fun _ => .done
  body := .fail
  limit := limit
  delay := delay

def setOut (limit : ℕ) (delay : Delay) : Machine Unit :=
  ⟨World.start ⟨false, none⟩ (), [], .code (stubborn limit delay)⟩

/-- Some attempts have been made, and nothing else is left than the event of the next one. -/
structure Pausing (limit : ℕ) (delay : Delay) (made : ℕ) (m : Machine Unit) : Prop where
  life : ∃ past, Life (idle (World.start ⟨false, none⟩ ())) past m
  focus : m.focus = .back (.ok ())
  stack : ∃ count, m.stack = [.run forever count fun _ => .done]
  budget : m.world.budget = none
  pending : ∃ e, m.world.agenda.pending = [e] ∧ e.work = (failing limit delay).work made

variable {limit : ℕ} {delay : Delay}

theorem life_setOut : Life (idle (World.start ⟨false, none⟩ ()))
    [idle (World.start ⟨false, none⟩ ())] (setOut limit delay) :=
  Life.refl.next (.call (stubborn limit delay) rfl)

theorem setOut_fails : (failing limit delay).Fails (setOut limit delay) 0 :=
  .first List.mem_cons_self rfl

theorem setOut_step (hallowed : 1 ≤ limit) (hbase : Time.checkDelay delay.base = .ok ()) :
    (setOut limit delay).step = some (proceed expectant (failing limit delay).next
      ((failing limit delay).launch 0 (failing limit delay).inUse (failing limit delay).world)) := by
  rw [← Trial.result_of_accepted (t := failing limit delay) hallowed hbase]
  rfl

/-- An attempt fails at once, and only the event of the next one is left. -/
theorem failing_launch {made : ℕ} (inUse : List Ref) {w : World Unit} (hless : made + 1 < limit)
    (hwait : Time.checkDelay (delay.waitAfter (made + 1)) = .ok ())
    (hempty : w.agenda.pending = []) :
    ∃ v e, (failing limit delay).launch made inUse w = (v, .ok .suspended) ∧
      v.budget = w.budget ∧ v.agenda.pending = [e] ∧
      e.work = (failing limit delay).work (made + 1) := by
  rcases World.suspend_of_checkDelay w .retry ((failing limit delay).work (made + 1)) hwait with
    ⟨v, e, hsuspend, hbudget, hpending, hwork, -⟩
  refine ⟨v, e, ?_, hbudget, ?_, hwork⟩
  · rw [Trial.launch_of_resolved rfl, Trial.after_of_lt hless]
    exact hsuspend
  · rw [hpending, hempty]
    rfl

theorem Pausing.of_setOut (hlimit : 1 < limit) (hbase : Time.checkDelay delay.base = .ok ())
    (hwait : Time.checkDelay (delay.waitAfter 1) = .ok ()) :
    ∃ m, Pausing limit delay 1 m := by
  have hfirst := setOut_step hlimit.le hbase
  rcases failing_launch (failing limit delay).inUse (w := (failing limit delay).world) hlimit hwait
    rfl with ⟨v, e, hlaunch, hbudget, hpending, hwork⟩
  rw [hlaunch] at hfirst
  have hlife := ((life_setOut.next (.step hfirst)).next (.step rfl)).next (.step rfl)
  exact ⟨_, ⟨_, hlife⟩, rfl, ⟨0, rfl⟩, hbudget, e, hpending, hwork⟩

variable {made : ℕ} {m : Machine Unit}

/-- The event of the next attempt is taken: it is due at any time. -/
theorem Pausing.turn (h : Pausing limit delay made m) :
    ∃ turn count, m.turn? = some turn ∧ turn.event.work = (failing limit delay).work made ∧
      turn.stack = [.run forever count fun _ => .done] ∧ turn.world.budget = none ∧
      turn.world.agenda.pending = [] := by
  rcases h with ⟨⟨past, hlife⟩, hfocus, ⟨count, hstack⟩, hbudget, e, hpending, hwork⟩
  have hread := (hlife.sound (sound_idle _ ())).agenda.reading e (by simp [hpending])
  have hdue : e.time ≤ forever := (Time.le_iff hread isReading_forever).2 hread
  have hturn : m.turn? = some ⟨e, m.world.enter e { m.world.agenda with
      now := e.time, pending := [], dispatched := m.world.agenda.dispatched + 1 },
      [.run forever (count + 1) fun _ => .done]⟩ := by
    simp [turn?, hfocus, hstack, spent, hbudget, Agenda.take?, hpending, hdue]
  exact ⟨_, count + 1, hturn, hwork, rfl, hbudget, rfl⟩

theorem Pausing.fails (h : Pausing limit delay made m) : (failing limit delay).Fails m made := by
  rcases h.turn with ⟨turn, count, hturn, hwork, -⟩
  exact .again hturn hwork rfl

theorem Pausing.next (h : Pausing limit delay made m) (hless : made + 1 < limit)
    (hwait : Time.checkDelay (delay.waitAfter (made + 1)) = .ok ()) :
    ∃ n, Pausing limit delay (made + 1) n := by
  rcases h.turn with ⟨turn, count, hturn, hwork, hstack, hbudget, hempty⟩
  rcases h.life with ⟨past, hlife⟩
  have hfirst := (turn?_spec hturn).2
  rcases failing_launch (inUse (.hold (failing limit delay).frame.refs :: turn.stack)) hless hwait
    hempty with ⟨v, e, hlaunch, hbudget', hpending, hwork'⟩
  have hdispatch : dispatch turn.world turn.stack turn.event.work =
      ⟨v, .hold (failing limit delay).frame.refs :: turn.stack, .back (.ok ())⟩ := by
    rw [hwork]
    show proceed _ _ ((failing limit delay).launch made _ turn.world) = _
    rw [hlaunch]
    rfl
  rw [hdispatch] at hfirst
  exact ⟨⟨v, turn.stack, .back (.ok ())⟩,
    ⟨_, (hlife.next (.step hfirst)).next (.step rfl)⟩, rfl, ⟨count, hstack⟩,
    hbudget'.trans hbudget, e, hpending, hwork'⟩

/-- As long as the waits are valid, one attempt comes after the other. -/
theorem Pausing.of_waits (hlimit : made < limit) (hmade : 1 ≤ made)
    (hbase : Time.checkDelay delay.base = .ok ())
    (hwaits : ∀ i, 1 ≤ i → i ≤ made → Time.checkDelay (delay.waitAfter i) = .ok ()) :
    ∃ m, Pausing limit delay made m := by
  induction made, hmade using Nat.le_induction with
  | base => exact Pausing.of_setOut hlimit hbase (hwaits 1 le_rfl le_rfl)
  | succ made hmade ih =>
    rcases ih (by omega) fun i hi hle => hwaits i hi (by omega) with ⟨m, hm⟩
    exact hm.next hlimit (hwaits _ (by omega) le_rfl)

end Machine

/-! ## Which retries are carried through -/

namespace Delay

variable {d : Delay} {limit : ℕ}

/-- Retries are carried through exactly when all of the waits are valid: the one that always fails comes
to every wait before a refused one. -/
theorem perseveres_iff_waits_ok (hallowed : 1 ≤ limit) (hbase : Time.checkDelay d.base = .ok ()) :
    d.Perseveres limit ↔
      ∀ i, 1 ≤ i → i < limit → Time.checkDelay (d.waitAfter i) = .ok () := by
  constructor
  · intro h i hi hlimit
    induction i using Nat.strong_induction_on with
    | h i ih =>
      have hreached : ∃ m n past made, made + 1 = i ∧
          Life (idle (World.start ⟨false, none⟩ ())) past m ∧ m.step = some n ∧
          (Machine.failing limit d).Fails m made := by
        rcases Nat.lt_or_ge 1 i with hlater | hfirst
        · obtain ⟨made, rfl⟩ : ∃ made, i = made + 1 := ⟨i - 1, by omega⟩
          have hpausing : ∃ m, Machine.Pausing limit d made m :=
            Machine.Pausing.of_waits (by omega) (by omega) hbase fun j hj hle =>
              ih j (by omega) hj (by omega)
          rcases hpausing with ⟨m, hm⟩
          rcases hm.life with ⟨past, hlife⟩
          rcases hm.turn with ⟨turn, -, hturn, -⟩
          exact ⟨m, _, past, made, rfl, hlife, (Machine.turn?_spec hturn).2, hm.fails⟩
        · exact ⟨_, _, _, 0, by omega, Machine.life_setOut, Machine.setOut_step hallowed hbase,
            Machine.setOut_fails⟩
      rcases hreached with ⟨m, n, past, made, rfl, hlife, hs, hfails⟩
      have hfocus := (h rfl rfl hlife hs hfails hlimit).1
      cases hwait : Time.checkDelay (d.waitAfter (made + 1)) with
      | ok u => rfl
      | error cause =>
        rw [hfails.aborts hs hlimit hbase hwait] at hfocus
        cases hfocus
  · rintro h σ config memory past m n t made rfl rfl - hs hfails hless
    exact hfails.goes_on hs hless hbase (h _ (by omega) hless)

/-- The record of a retry with valid waits is as it should be. -/
theorem completes_of_waits_ok (hallowed : 1 ≤ limit) (hbase : Time.checkDelay d.base = .ok ())
    (hwaits : ∀ i, 1 ≤ i → i < limit → Time.checkDelay (d.waitAfter i) = .ok ()) :
    d.Completes limit := by
  rintro σ config memory early past m m₁ n t rfl rfl h hs ht hlife
  have hvalid : t.Valid := ⟨hallowed, hbase, hwaits⟩
  have hexact := h.record_exact hs ht hvalid hlife
  refine ⟨hexact, ?_, fun e horizon count next stack hstand hbudget hreturning =>
    hexact.not_due ((h.next (.step hs)).trans hlife) hstand hbudget hreturning⟩
  intro outcome hstand
  have hstands := hexact.stands
  rw [hstand] at hstands
  generalize (t.record past n).log = log at hstands
  cases hstands with
  | succeeded => exact Or.inl ⟨_, rfl⟩
  | exhausted => exact Or.inr rfl

end Delay

/-- The checks before the first attempt of a retry, whether its limit and the base of its delay are
valid, do not say whether it can be carried through; the waits after the second and after the last but
one of the attempts do, whatever the factor and the cap are:

* all waits between attempts are valid exactly when these two are;
* exactly then no retry with this limit and this delay ever breaks off after a failed attempt, in any
  life of any simulation and whatever its body is;
* and then all of these retries end with a success or because no further attempt is allowed. -/
theorem retry_perseveres_iff {limit : ℕ} {delay : Delay} (hallowed : 1 ≤ limit)
    (hbase : Time.checkDelay delay.base = .ok ()) :
    ((∀ i, 1 ≤ i → i < limit → Time.checkDelay (delay.waitAfter i) = .ok ()) ↔
      delay.Sustains limit) ∧
    (delay.Perseveres limit ↔ delay.Sustains limit) ∧
    (delay.Sustains limit → delay.Completes limit) := by
  have hwaits := Delay.waits_ok_iff hbase limit
  refine ⟨hwaits, ?_, fun hsustains => ?_⟩
  · rw [Delay.perseveres_iff_waits_ok hallowed hbase, hwaits]
  · exact Delay.completes_of_waits_ok hallowed hbase (hwaits.2 hsustains)

/-- A wait that changes its sign with every attempt. -/
def alternating : Delay := .exponential 1.0 (-2.0)

theorem alternating_second :
    Time.checkDelay (alternating.waitAfter 2) = .error (.negativeDelay (-2.0)) := by
  show Time.checkDelay (1.0 * power (-2.0) 1) = _
  rw [power_one]
  rfl

/-- Neither are all waits of an accepted retry valid, nor is every accepted retry carried through: with
this delay and three attempts, it breaks off after the second one. -/
theorem alternating_aborts :
    (¬ ∀ (limit : ℕ) (delay : Delay), 1 ≤ limit → Time.checkDelay delay.base = .ok () →
      ∀ i, 1 ≤ i → i < limit → Time.checkDelay (delay.waitAfter i) = .ok ()) ∧
    Time.checkDelay alternating.base = .ok () ∧
    ∃ past m n, Life (idle (World.start ⟨false, none⟩ ())) past m ∧ m.step = some n ∧
      (Machine.failing 3 alternating).Fails m 1 ∧
      n.focus = .back (.error (.scheduling (.negativeDelay (-2.0)))) := by
  have hbase : Time.checkDelay alternating.base = .ok () := rfl
  have hfirst : Time.checkDelay (alternating.waitAfter 1) = .ok () := by
    show Time.checkDelay (1.0 * power (-2.0) 0) = _
    rw [power_zero]
    rfl
  have hpausing : ∃ m, Machine.Pausing 3 alternating 1 m :=
    Machine.Pausing.of_setOut (by decide) hbase hfirst
  rcases hpausing with ⟨m, hm⟩
  rcases hm.life with ⟨past, hlife⟩
  rcases hm.turn with ⟨turn, -, hturn, -⟩
  have hstep := (Machine.turn?_spec hturn).2
  refine ⟨fun hall => ?_, hbase, past, m, _, hlife, hstep, hm.fails,
    hm.fails.aborts hstep (by decide) hbase alternating_second⟩
  have hcheck := hall 3 alternating (by decide) hbase 2 (by decide) (by decide)
  rw [alternating_second] at hcheck
  cases hcheck

/-- A wait that doubles with every attempt, up to a cap. -/
def doubling : Delay := (Delay.exponential 1.0 2.0).capped 3.0

theorem doubling_completes_alternating_not :
    (doubling.Perseveres 5 ∧ doubling.Completes 5) ∧ ¬ alternating.Perseveres 3 := by
  have hsecond : Time.checkDelay (doubling.waitAfter 2) = .ok () := by
    show Time.checkDelay (Time.capped (1.0 * power 2.0 1) 3.0) = _
    rw [power_one]
    rfl
  have hfourth : Time.checkDelay (doubling.waitAfter 4) = .ok () := by
    show Time.checkDelay (Time.capped (1.0 * power 2.0 3) 3.0) = _
    rw [power, power.go_odd _ _ 1, power.go_odd _ _ 0, power.go_zero]
    rfl
  have hsustains : doubling.Sustains 5 := ⟨fun _ => hsecond, fun _ => hfourth⟩
  have hbase : Time.checkDelay doubling.base = .ok () := rfl
  rcases retry_perseveres_iff (by decide : 1 ≤ 5) hbase with ⟨-, hperseveres, hcompletes⟩
  refine ⟨⟨hperseveres.2 hsustains, hcompletes hsustains⟩, fun h => ?_⟩
  have hbase' : Time.checkDelay alternating.base = .ok () := rfl
  have hcheck := ((retry_perseveres_iff (by decide) hbase').2.1.1 h).second (by decide)
  rw [alternating_second] at hcheck
  cases hcheck

end Callflow
