import Callflow.Proofs.Agenda.Fifo
import Callflow.Proofs.Machine.Horizon
import Callflow.Proofs.Machine.Stock
import Callflow.Proofs.World.Timing

/-!
# Timed activities end on time

When the host has a timed activity evaluated, the code that it has given for the outcome is resumed
just when the activity's meaning says, with the outcome that the meaning says, whatever else the
simulation does meanwhile: `Timing.resumes_on_time`.

A timed activity is at every moment in one of three stages (`Stage`): an event goes on with it, an
outcome is being handed on, or the host code has been resumed. That the code is resumed no second time
follows from the stock of continuations (`Life.stock`).
-/

namespace Callflow

variable {σ : Type}

theorem Continuation.Timed.bottom {resume : Outcome → Script σ} {next : Continuation σ}
    (h : next.Timed resume) : next.bottom = .host resume := by
  induction h with
  | host => rfl
  | steps _ _ ih => exact ih
  | ignore _ ih => exact ih
  | retry _ _ _ ih => exact ih

variable {resume : Outcome → Script σ} {own : Continuation σ → Bool}

theorem Callback.Timed.stock {work : Callback σ} (h : work.Timed resume)
    (hown : own (.host resume) = true) : work.stock own = 1 := by
  have hone {next : Continuation σ} (hbottom : next.bottom = .host resume) : next.stock own = 1 := by
    rw [Continuation.stock, hbottom, hown]
    rfl
  cases h with
  | wake hnext => exact hone hnext.bottom
  | attempt hretry => exact hone hretry.bottom

/-- An activity that is asleep keeps its continuation. -/
theorem World.Asleep.stock {w : World σ} {done : Time × Outcome} (h : w.Asleep resume done)
    (hown : own (.host resume) = true) : 1 ≤ w.stock own := by
  rcases h with ⟨e, he, hwork, -⟩
  have hmem : 1 ∈ w.agenda.pending.map fun e => e.work.stock own :=
    List.mem_map.2 ⟨e, he, hwork.stock hown⟩
  exact (List.le_sum_of_mem hmem).trans (Nat.le_add_right _ _)

namespace Machine

/-- The horizon of the run that goes on in the next transition, if one does. -/
def horizon? (m : Machine σ) : Option Time :=
  match m.focus, m.stack with
  | .back (.ok ()), .run horizon _ _ :: _ => some horizon
  | _, _ => none

/-- Only a run takes an event, and it does so up to its horizon. -/
theorem due_of_taken? {m : Machine σ} {e : Event (Callback σ)} (h : m.taken? = some e) :
    ∃ horizon, m.horizon? = some horizon ∧ e.time ≤ horizon := by
  rcases Option.map_eq_some_iff.1 h with ⟨t, hturn, rfl⟩
  rcases m with ⟨w, stack, focus⟩
  unfold turn? at hturn
  split at hturn
  · rename_i horizon count next callers hfocus hstack
    cases hfocus
    cases hstack
    split at hturn
    · cases hturn
    · rcases Option.map_eq_some_iff.1 hturn with ⟨taken, htake, rfl⟩
      rcases Agenda.take?_eq_some htake with ⟨_, _, hdue, -⟩
      exact ⟨horizon, rfl, hdue⟩
  · cases hturn

/-- An event stays in the agenda until it is taken. -/
theorem Next.pending {m n : Machine σ} (h : Next m n) {e : Event (Callback σ)}
    (he : e ∈ m.world.agenda.pending) : m.taken? = some e ∨ e ∈ n.world.agenda.pending := by
  rcases h.explains with ⟨deeds, hpath, hexplains⟩
  have hmem := hpath.agenda.perm.mem_iff.2 (List.mem_append_left _ he)
  rw [World.takes_agenda, hexplains.taken, List.mem_append, Option.mem_toList] at hmem
  exact hmem

/-! ## The stages of a timed activity -/

/-- The clock has been moved to a time by an event, unless it has shown it from the start. -/
def Reached (start : Time) (past : List (Machine σ)) (t : Time) : Prop :=
  t = start ∨ ∃ y ∈ past, ∃ e, y.taken? = some e ∧ e.time = t

theorem Reached.append {start t : Time} {past : List (Machine σ)} (h : Reached start past t)
    (more : List (Machine σ)) : Reached start (past ++ more) t := by
  rcases h with h | ⟨y, hy, hrest⟩
  · exact Or.inl h
  · exact Or.inr ⟨y, List.mem_append_left _ hy, hrest⟩

/-- Where a timed activity is that will end like this. -/
inductive Stage (resume : Outcome → Script σ) (done : Time × Outcome) (start : Time)
    (past : List (Machine σ)) (n : Machine σ) : Prop where
  -- An event goes on with it.
  | asleep : n.world.Asleep resume done → Stage resume done start past n
  -- An outcome is handed on.
  | awake {next : Continuation σ} {outcome : Outcome} : n.focus = .resume next outcome →
      next.Timed resume → next.meaning (n.world.now, outcome) = done →
      Reached start past n.world.now → Stage resume done start past n
  -- The host code has been resumed.
  | ended {x : Machine σ} : x ∈ past → x.focus = .resume (.host resume) done.2 →
      x.world.now = done.1 → Stage resume done start past n

variable {done : Time × Outcome} {start : Time} {past : List (Machine σ)}

theorem Stage.of_evaluates {w : World σ} {stack : List (Activation σ)} {next : Continuation σ}
    {part : Time × Outcome} {e : Evaluation σ} (h : World.Evaluates resume w next part e)
    (hnext : next.Timed resume) (hdone : next.meaning part = done)
    (hreached : Reached start past w.now) : Stage resume done start past (proceed stack next e) := by
  rcases h with ⟨outcome, held, rfl, rfl⟩ | ⟨v, rfl, hasleep⟩
  · exact .awake rfl hnext hdone hreached
  · rw [hdone] at hasleep
    exact .asleep hasleep

/-- An outcome is handed on to the next part of the activity. -/
theorem Stage.resumed {w : World σ} {stack : List (Activation σ)} {next : Continuation σ}
    {outcome : Outcome} (hnext : next.Timed resume) (hdone : next.meaning (w.now, outcome) = done)
    (hreached : Reached start past w.now) :
    Stage resume done start (past ++ [⟨w, stack, .resume next outcome⟩])
      (Machine.resume w stack next outcome) := by
  have hlater := hreached.append [⟨w, stack, .resume next outcome⟩]
  cases hnext with
  | host =>
    subst hdone
    exact .ended (List.mem_append_right _ (List.mem_singleton.2 rfl)) rfl rfl
  | steps hrest hnext =>
    cases outcome with
    | success value =>
      exact .of_evaluates (World.evaluateSteps_timed hrest (inUse stack) _ value hnext w) hnext
        hdone hlater
    | failure cause =>
      rw [Continuation.meaning, Activity.continued_failure] at hdone
      exact .awake rfl hnext hdone hlater
  | ignore hnext =>
    cases outcome with
    | success value => exact .awake rfl hnext hdone hlater
    | failure cause => exact .awake rfl hnext hdone hlater
  | retry hstate hbody hnext =>
    exact .of_evaluates (World.afterAttempt_timed hstate hbody hnext) hnext hdone hlater

/-- The event that goes on with the activity is taken. -/
theorem Stage.woken {m : Machine σ} {e : Event (Callback σ)} {w : World σ}
    {stack : List (Activation σ)} (htaken : m.taken? = some e) (hnow : w.now = e.time)
    (hwork : e.work.Timed resume) (hdone : e.work.meaning e.time = done) :
    Stage resume done start (past ++ [m]) (dispatch w stack e.work) := by
  have hreached : Reached start (past ++ [m]) w.now :=
    Or.inr ⟨m, List.mem_append_right _ (List.mem_singleton.2 rfl), e, htaken, hnow.symm⟩
  rw [← hnow] at hdone
  generalize e.work = work at hwork hdone
  cases hwork with
  | wake hnext => exact .awake rfl hnext hdone hreached
  | attempt hretry =>
    cases hretry with
    | retry hstate hbody hnext =>
      exact .of_evaluates (World.attempt_timed hstate hbody _ _ hnext w) hnext hdone hreached

theorem Stage.next {b c : Machine σ} (h : Stage resume done start past b) (hn : Next b c) :
    Stage resume done start (past ++ [b]) c := by
  cases h with
  | asleep hasleep =>
    rcases hasleep with ⟨e, he, hwork, hdone⟩
    rcases hn.pending he with htaken | hstays
    · rcases taken?_spec htaken with ⟨-, w, stack, hstep, hnow⟩
      cases hn with
      | step hs =>
        rw [hstep] at hs
        cases hs
        exact .woken htaken hnow hwork hdone
      | call script hnone =>
        rw [hstep] at hnone
        cases hnone
    · exact .asleep ⟨e, hstays, hwork, hdone⟩
  | @awake next outcome hfocus hnext hdone hreached =>
    rcases b with ⟨w, stack, focus⟩
    cases hfocus
    cases hn with
    | step hs =>
      cases hs
      exact .resumed hnext hdone hreached
    | call script hnone => cases hnone
  | ended hx hfocus hnow => exact .ended (List.mem_append_left _ hx) hfocus hnow

/-! ## The resumption -/

/-- The evaluation of a timed activity by the host, in the transition from `m` to `m₁`, in a life that
goes on up to `n`. Equal code cannot be told apart, so the code that is given for the outcome is this
evaluation's own: `own` tells it from the code that other evaluations are given, before it (`unused`)
and after it (`alone`). -/
structure Timing (config : SimulationConfig) (memory : σ) (early : List (Machine σ))
    (m m₁ : Machine σ) (activity : Activity) (resume : Outcome → Script σ)
    (own : Continuation σ → Bool) (past : List (Machine σ)) (n : Machine σ) : Prop where
  before : Life (idle (World.start config memory)) early m
  focus : ∃ caller next, m.focus = .code (.evaluate activity caller resume next)
  timed : activity.Timed
  step : m.step = some m₁
  after : Life m₁ past n
  owned : own (.host resume) = true
  unused : m.stock own = 0
  alone : ∀ x ∈ past, x.begun own = 0

namespace Timing

variable {config : SimulationConfig} {memory : σ} {early past : List (Machine σ)}
  {m m₁ n : Machine σ} {activity : Activity}

theorem cut {before after : List (Machine σ)} {x : Machine σ}
    (h : Timing config memory early m m₁ activity resume own (before ++ x :: after) n) :
    Timing config memory early m m₁ activity resume own before x where
  before := h.before
  focus := h.focus
  timed := h.timed
  step := h.step
  after := h.after.cut.1
  owned := h.owned
  unused := h.unused
  alone := fun y hy => h.alone y (List.mem_append_left _ hy)

theorem sound (h : Timing config memory early m m₁ activity resume own past n) :
    n.world.Sound :=
  ((h.before.next (.step h.step)).trans h.after).sound (sound_idle config memory)

theorem stage (h : Timing config memory early m m₁ activity resume own past n) :
    Stage resume (activity.meaning m.world.now) m.world.now past n := by
  have hlife := h.after
  have hstart : Stage resume (activity.meaning m.world.now) m.world.now [] m₁ := by
    rcases h.focus with ⟨caller, next, hfocus⟩
    have hstep := h.step
    rcases m with ⟨w, stack, focus⟩
    cases hfocus
    cases hstep
    exact .of_evaluates (World.evaluate_timed h.timed _ _ .host w) .host rfl (Or.inl rfl)
  clear h
  induction hlife with
  | refl => exact hstart
  | next _ hn ih => exact ih.next hn

/-- One continuation is begun for the code, so it comes to its end at most once. -/
theorem stock_le (h : Timing config memory early m m₁ activity resume own past n) :
    n.stock own + (past.map (ended own)).sum ≤ 1 := by
  rcases h.focus with ⟨caller, next, hfocus⟩
  have hstock := ((Life.refl.next (.step h.step)).trans h.after).stock own
  have hended : m.ended own = 0 := by rw [ended, hfocus]; rfl
  have hbegun : m.begun own = 1 := by rw [begun, hfocus]; simp [h.owned]
  have hlater : (past.map (begun own)).sum = 0 := by
    rw [List.sum_eq_zero_iff_forall_eq_nat]
    intro k hk
    rcases List.mem_map.1 hk with ⟨x, hx, rfl⟩
    exact h.alone x hx
  have hunused := h.unused
  simp only [List.nil_append, List.map_append, List.map_cons, List.map_nil, List.sum_append,
    List.sum_cons, List.sum_nil] at hstock
  omega

theorem ended_of_mem {x : Machine σ} (hx : x ∈ past) {outcome : Outcome}
    (hown : own (.host resume) = true) (hfocus : x.focus = .resume (.host resume) outcome) :
    1 ≤ (past.map (ended own)).sum := by
  have hone : x.ended own = 1 := by
    rw [ended, hfocus]
    simp [Focus.ended, hown]
  rw [← hone]
  exact List.le_sum_of_mem (List.mem_map_of_mem hx)

/-- When the code is resumed, the activity ends as it means, and the code has not been resumed before. -/
theorem resumed (h : Timing config memory early m m₁ activity resume own past n) {outcome : Outcome}
    (hfocus : n.focus = .resume (.host resume) outcome) :
    activity.meaning m.world.now = (n.world.now, outcome) ∧
      Reached m.world.now past n.world.now ∧
      ∀ x ∈ past, ∀ other, x.focus ≠ .resume (.host resume) other := by
  have hstock := h.stock_le
  have hhere : n.stock own = n.world.stock own + 1 := by
    rw [stock, hfocus]
    simp [Focus.stock, Continuation.stock, Continuation.bottom, h.owned]
  have hfirst : ∀ x ∈ past, ∀ other, x.focus ≠ .resume (.host resume) other := by
    intro x hx other hother
    have hbefore := ended_of_mem hx h.owned hother
    omega
  cases h.stage with
  | asleep hasleep =>
    have hkept := hasleep.stock h.owned
    omega
  | awake hnext htimed hdone hreached =>
    rw [hfocus] at hnext
    cases hnext
    exact ⟨hdone.symm, hreached, hfirst⟩
  | ended hx hearlier _ => exact absurd hearlier (hfirst _ hx _)

/-- A run that has come to its end with a horizon that is late enough has had the code resumed. -/
theorem resumed_of_returning (h : Timing config memory early m m₁ activity resume own past n)
    {horizon : Time} {count : Nat} {next : Except SimulationError Nat → Script σ}
    {stack : List (Activation σ)} (hbudget : config.maxEvents = none)
    (hreturning : n.Returning horizon count next stack)
    (hdue : (activity.meaning m.world.now).1 ≤ horizon) :
    ∃ x ∈ past, x.focus = .resume (.host resume) (activity.meaning m.world.now).2 ∧
      x.world.now = (activity.meaning m.world.now).1 := by
  cases h.stage with
  | asleep hasleep =>
    -- The event that goes on with the activity would still be due.
    rcases hasleep with ⟨e, he, hwork, hdone⟩
    have hread := h.sound.agenda.reading e he
    rcases hwork.precedes hread with ⟨hplace, hlast⟩
    rw [hdone] at hplace hlast
    have hearly : e.time ≤ horizon := hread.le_of_place_le hlast hplace hdue
    rcases hreturning.step with ⟨hspent, -⟩ | ⟨-, htake, -⟩
    · rcases spent_iff.1 hspent with ⟨limit, hlimit, -⟩
      rw [((h.before.next (.step h.step)).trans h.after).budget] at hlimit
      cases hbudget.symm.trans hlimit
    · exact absurd hearly (h.sound.agenda.not_due htake e he)
  | awake hfocus _ _ _ =>
    rw [hreturning.focus] at hfocus
    cases hfocus
  | ended hx hfocus hnow => exact ⟨_, hx, hfocus, hnow⟩

/-- Runs with early horizons do not have the code resumed. -/
theorem unresumed (h : Timing config memory early m m₁ activity resume own past n)
    (hstart : m.world.now < (activity.meaning m.world.now).1)
    (hshort : ∀ x ∈ past, ∀ horizon, x.horizon? = some horizon →
      ¬ (activity.meaning m.world.now).1 ≤ horizon) (outcome : Outcome) :
    n.focus ≠ .resume (.host resume) outcome := by
  intro hfocus
  rcases h.resumed hfocus with ⟨hmeaning, hreached, -⟩
  rw [hmeaning] at hstart hshort
  rcases hreached with hsame | ⟨y, hy, e, htaken, htime⟩
  · have hclock := (h.before.sound (sound_idle config memory)).agenda.clock
    rw [hsame] at hstart
    exact absurd ((Time.lt_iff hclock hclock).1 hstart) (lt_irrefl _)
  · -- The event that the code is resumed in was taken by a run with a later horizon.
    rcases due_of_taken? htaken with ⟨horizon, hhorizon, hdue⟩
    rw [htime] at hdue
    exact hshort y hy horizon hhorizon hdue

/-- Whatever else a simulation does after the host has had a timed activity evaluated:

* the code that was given for the outcome is resumed at most once, at the time at which the activity
  ends according to its meaning, with the outcome of its meaning;
* when a run without a budget has come to its end, and this time is not after its horizon, the code
  has been resumed;
* as long as only runs with horizons before this time go on, the code has not been resumed. -/
theorem resumes_on_time (h : Timing config memory early m m₁ activity resume own past n) :
    (∀ before x after outcome, past = before ++ x :: after →
      x.focus = .resume (.host resume) outcome →
      activity.meaning m.world.now = (x.world.now, outcome) ∧
      ∀ y ∈ before ++ after, ∀ other, y.focus ≠ .resume (.host resume) other) ∧
    (∀ horizon count next stack, config.maxEvents = none → n.Returning horizon count next stack →
      (activity.meaning m.world.now).1 ≤ horizon →
      ∃ x ∈ past, x.focus = .resume (.host resume) (activity.meaning m.world.now).2 ∧
        x.world.now = (activity.meaning m.world.now).1) ∧
    (m.world.now < (activity.meaning m.world.now).1 →
      (∀ x ∈ past, ∀ horizon, x.horizon? = some horizon →
        ¬ (activity.meaning m.world.now).1 ≤ horizon) →
      ∀ x ∈ past, ∀ outcome, x.focus ≠ .resume (.host resume) outcome) := by
  refine ⟨?_, ?_, ?_⟩
  · rintro before x after outcome rfl hfocus
    rcases h.cut.resumed hfocus with ⟨hmeaning, -, hfirst⟩
    refine ⟨hmeaning, ?_⟩
    intro y hy other hother
    rcases List.mem_append.1 hy with hy | hy
    · exact hfirst y hy other hother
    · -- A later resumption would not be the first one.
      rcases List.append_of_mem hy with ⟨between, later, rfl⟩
      rw [← List.cons_append, ← List.append_assoc] at h
      exact (h.cut.resumed hother).2.2 x (by simp) outcome hfocus
  · intro horizon count next stack hbudget hreturning hdue
    exact h.resumed_of_returning hbudget hreturning hdue
  · intro hstart hshort x hx outcome
    rcases List.append_of_mem hx with ⟨before, after, rfl⟩
    exact h.cut.unresumed hstart (fun y hy => hshort y (List.mem_append_left _ hy)) outcome

end Timing

/-- An activity that fails twice, goes on, and ends after four and a half time units. -/
def patient : Activity :=
  .sequence [.ignoreError (.retry (.sequence [.think 1.0, .fail]) 2 (.constant 2.0)), .think 0.5]

theorem patient_timed : patient.Timed := by
  refine .sequence ?_
  intro step hstep
  simp only [List.mem_cons, List.not_mem_nil, or_false] at hstep
  rcases hstep with rfl | rfl
  · have hbody : (Activity.sequence [.think 1.0, .fail]).Timed := by
      refine .sequence ?_
      intro part hpart
      simp only [List.mem_cons, List.not_mem_nil, or_false] at hpart
      rcases hpart with rfl | rfl
      · exact .think rfl
      · exact .fail
    have hwait : Time.checkDelay 2.0 = .ok () := rfl
    exact .ignoreError (.retry hbody (by decide) hwait fun _ _ _ => hwait)
  · exact .think rfl

/-- Host code that has the activity evaluated, and runs up to a time before its end and up to the end. -/
def patience : Script Unit :=
  .schedule 3.0 .external .done fun _ =>
    .evaluate patient .host (fun _ => .done) fun _ => .run 4.0 fun _ => .run 4.5 fun _ => .done

/-- Whether host code gets the outcome in the end. -/
def forHost : Continuation Unit → Bool
  | .host _ => true
  | _ => false

/-- The simulation when the activity is about to be evaluated, and after that. -/
def impatient : Machine Unit := run 1 ⟨World.start ⟨true, none⟩ (), [], .code patience⟩
def sleeping : Machine Unit := run 1 impatient

theorem patience_timing (fuel : Nat)
    (h : ∀ x ∈ trail fuel sleeping, x.begun forHost = 0) :
    Timing ⟨true, none⟩ () (idle (World.start ⟨true, none⟩ ()) ::
        trail 1 ⟨World.start ⟨true, none⟩ (), [], .code patience⟩)
      impatient sleeping patient (fun _ => .done) forHost (trail fuel sleeping)
      (run fuel sleeping) where
  before := (Life.refl.next (.call patience rfl)).trans (life_run 1 _)
  focus := ⟨_, _, rfl⟩
  timed := patient_timed
  step := rfl
  after := life_run fuel sleeping
  owned := rfl
  unused := by decide +kernel
  alone := h

theorem patience_resumes_on_time :
    patient.meaning impatient.world.now = (4.5, .success .unit) ∧
    (∀ x ∈ trail 17 sleeping, ∀ outcome, x.focus ≠ .resume (.host fun _ => .done) outcome) ∧
    ∃ x ∈ trail 24 sleeping, x.focus = .resume (.host fun _ => .done) (.success .unit) ∧
      x.world.now = 4.5 := by
  have hmeaning : patient.meaning impatient.world.now = (4.5, .success .unit) := by
    with_unfolding_all rfl
  have hreturning : (run 24 sleeping).Returning 4.5 1 (fun _ => .done) [] :=
    ⟨by with_unfolding_all rfl, by with_unfolding_all rfl, by with_unfolding_all rfl⟩
  have hbefore := (patience_timing 17 (by decide +kernel)).resumes_on_time.2.2
  have hend := (patience_timing 24 (by decide +kernel)).resumes_on_time.2.1
  rw [hmeaning] at hbefore hend
  refine ⟨hmeaning, hbefore (by decide +kernel) (by decide +kernel), ?_⟩
  exact hend 4.5 1 _ [] rfl hreturning (by decide +kernel)

end Machine
end Callflow
