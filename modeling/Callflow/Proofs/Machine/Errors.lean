import Callflow.Proofs.Machine.Accounting
import Callflow.Proofs.Machine.Clock
import Callflow.Proofs.Machine.Parts
import Callflow.Proofs.Machine.Stock

/-!
# Errors are not absorbed

A transition that raises an error (`Raises`) ends with it, and the machine goes on by returning it to
the nearest caller that waits for a result: host code, or the run that has taken the event
(`Based.returns`). Between the two, references are only held (`Life.poised`), so no construct of the
program gets to see the error, and nothing else happens: `Life.error_not_absorbed`.
-/

namespace Callflow

variable {σ : Type}

/-- The host code that a caller goes on with when what it has called returns an error. -/
def Activation.onError? : Activation σ → Option (SimulationError → Script σ)
  | .await next => some fun e => next (.error e)
  | .run _ _ next => some fun e => next (.error e)
  | _ => none

namespace Machine

open World (Resolved)

/-! ## The nearest caller that waits -/

/-- A caller that waits for a result, with some above it that only hold references. -/
structure Based (stack holds : List (Activation σ)) (base : Activation σ)
    (handler : SimulationError → Script σ) (below : List (Activation σ)) : Prop where
  stack : stack = holds ++ base :: below
  holding : ∀ caller ∈ holds, caller.isHold = true
  waits : base.onError? = some handler

/-- Whether some caller waits for a result, with only references held above it. -/
def HasBase (stack : List (Activation σ)) : Prop :=
  ∃ holds base handler below, Based stack holds base handler below

theorem hasBase_cons {base : Activation σ} (below : List (Activation σ))
    (h : base.onError?.isSome = true) : HasBase (base :: below) := by
  rcases Option.isSome_iff_exists.1 h with ⟨handler, hwaits⟩
  exact ⟨[], base, handler, below, rfl, by simp, hwaits⟩

/-- Where no host code is executed next, references are only held above the callers. -/
theorem Based.over {stack holds : List (Activation σ)} {base : Activation σ}
    {handler : SimulationError → Script σ} {below : List (Activation σ)}
    (h : Based stack holds base handler below) {n : Machine σ} (hover : Over stack n)
    (hcode : n.focus.isCode = false) : ∃ more, Based n.stack more base handler below := by
  rcases h with ⟨hstack, hholding, hwaits⟩
  rcases hover with ⟨extra, hextra, -, hheld⟩
  refine ⟨extra ++ holds, ?_, ?_, hwaits⟩
  · rw [hextra, hstack, List.append_assoc]
  · intro caller hcaller
    rcases List.mem_append.1 hcaller with hcaller | hcaller
    · exact hheld hcode caller hcaller
    · exact hholding caller hcaller

theorem HasBase.over {stack : List (Activation σ)} {n : Machine σ} (h : HasBase stack)
    (hover : Over stack n) (hcode : n.focus.isCode = false) : HasBase n.stack := by
  rcases h with ⟨holds, base, handler, below, hbased⟩
  rcases hbased.over hover hcode with ⟨more, hmore⟩
  exact ⟨more, base, handler, below, hmore⟩

/-- An error is returned to the nearest caller that waits, and nothing happens on the way. -/
theorem Based.returns {stack holds : List (Activation σ)} {base : Activation σ}
    {handler : SimulationError → Script σ} {below : List (Activation σ)}
    (h : Based stack holds base handler below) (w : World σ) (e : SimulationError) :
    run (holds.length + 1) ⟨w, stack, .back (.error e)⟩ = ⟨w, below, .code (handler e)⟩ ∧
      ∀ x ∈ trail (holds.length + 1) ⟨w, stack, .back (.error e)⟩,
        x.world = w ∧ x.focus = .back (.error e) := by
  induction holds generalizing stack with
  | nil =>
    rcases h with ⟨rfl, -, hwaits⟩
    cases base with
    | await next =>
      cases hwaits
      exact ⟨rfl, by simp [trail, step]⟩
    | run horizon count next =>
      cases hwaits
      exact ⟨rfl, by simp [trail, step]⟩
    | _ => cases hwaits
  | cons caller holds ih =>
    rcases h with ⟨rfl, hholding, hwaits⟩
    have hcaller := hholding caller List.mem_cons_self
    cases caller with
    | hold refs =>
      rcases ih ⟨rfl, fun x hx => hholding x (List.mem_cons_of_mem _ hx), hwaits⟩ with
        ⟨hrun, htrail⟩
      refine ⟨hrun, ?_⟩
      intro x hx
      rcases List.mem_cons.1 hx with rfl | hx
      · exact ⟨rfl, rfl⟩
      · exact htrail x hx
    | _ => cases hcaller

/-! ## Who waits for an outcome -/

/-- Whether the next transition goes on with a program, or with an event. -/
def works (m : Machine σ) : Bool :=
  match m.focus with
  | .code script => script.caller?.isSome
  | .resume _ _ => true
  | .back _ => m.turn?.isSome
  | .crash _ => false

/-- Where an outcome is handed on, references are only held above a caller that waits. -/
def Poised (m : Machine σ) : Prop :=
  ∀ next outcome, m.focus = .resume next outcome → HasBase m.stack

/-- A transition that goes on with a program, and does not get to host code. -/
theorem Poised.step {m n : Machine σ} (hm : Poised m) (hs : m.step = some n)
    (hworks : m.works = true) (hcode : n.focus.isCode = false) : HasBase n.stack := by
  rcases m with ⟨w, stack, focus⟩
  cases focus with
  | code script =>
    cases hs
    rcases execScript_over w stack script with ⟨caller, hcaller, hover⟩ | ⟨-, hgoes | hnone⟩
    · -- Whoever calls waits for the result, except a shield, which executes host code.
      have hwaits : caller.onError?.isSome = true := by
        cases script <;> cases hcaller <;> first | rfl | cases hcode
      exact (hasBase_cons stack hwaits).over hover hcode
    · rw [hgoes] at hcode
      cases hcode
    · simp [works, hnone] at hworks
  | resume next outcome =>
    cases hs
    exact (hm next outcome rfl).over (.resume ..) hcode
  | crash cause => cases hworks
  | back result =>
    rcases Option.isSome_iff_exists.1 hworks with ⟨t, hturn⟩
    cases (turn?_spec hturn).2.symm.trans hs
    rcases turn?_stack hturn with ⟨_, _, _, callers, -, hcallers⟩
    have hbase : HasBase t.stack := by
      rw [hcallers]
      exact hasBase_cons callers rfl
    exact hbase.over (.dispatch ..) hcode

/-- A transition that goes on with no program hands no outcome on. -/
theorem step_of_not_works {m n : Machine σ} (hs : m.step = some n) (hworks : m.works = false) :
    ∀ next outcome, n.focus ≠ .resume next outcome := by
  intro next outcome hfocus
  rcases m with ⟨w, stack, focus⟩
  cases focus with
  | code script =>
    cases hs
    have hnone : script.caller? = none := by simpa [works] using hworks
    rcases execScript_focus w stack hnone with hcode | ⟨cause, hcrash⟩ | hback | ⟨e, -, hback⟩
    · rw [hfocus] at hcode
      cases hcode
    · cases hcrash.symm.trans hfocus
    · cases hback.symm.trans hfocus
    · cases hback.symm.trans hfocus
  | resume next outcome => cases hworks
  | crash cause =>
    cases stack with
    | nil => cases hs
    | cons caller stack =>
      cases hs
      cases caller <;> cases hfocus
  | back result =>
    cases stack with
    | nil => cases hs
    | cons caller stack =>
      cases hs
      cases caller with
      | run horizon count goesOn =>
        cases result with
        | error e => cases hfocus
        | ok _ =>
          have hturn : turn? ⟨w, .run horizon count goesOn :: stack, .back (.ok ())⟩ = none := by
            simpa [works] using hworks
          have hreturning : Returning ⟨w, .run horizon count goesOn :: stack, .back (.ok ())⟩
              horizon count goesOn stack := ⟨rfl, rfl, hturn⟩
          rcases hreturning.step with ⟨-, hgo⟩ | ⟨-, -, hgo⟩
          · rw [Machine.step, Option.some_inj] at hgo
            rw [hgo] at hfocus
            cases hfocus
          · rw [Machine.step, Option.some_inj] at hgo
            rw [hgo] at hfocus
            cases hfocus
      | _ => cases hfocus

theorem Life.poised {a b : Machine σ} {past : List (Machine σ)} (h : Life a past b)
    (ha : Poised a) : Poised b := by
  induction h with
  | refl => exact ha
  | @next past b c _ hn ih =>
    intro next outcome hfocus
    cases hn with
    | call script hnone => cases hfocus
    | step hs =>
      cases hworks : b.works with
      | false => exact absurd hfocus (step_of_not_works hs hworks next outcome)
      | true => exact ih.step hs hworks (by rw [hfocus]; rfl)

/-! ## Raising an error -/

/-- The next transition raises an error of the program. -/
inductive Raises (m : Machine σ) (e : SimulationError) : Prop where
  -- It evaluates an activity that ends with the error.
  | node {p : Part σ} : p ∈ m.parts → p.result.2 = .error (.error e) → Raises m e
  -- An attempt of a retry has failed, and the wait for the next one is refused.
  | wait {state : RetryState} {body : Activity} {frame : Frame} {next : Continuation σ}
      {outcome : Outcome} : m.focus = .resume (.retry state body frame next) outcome →
        (m.world.afterAttempt state body frame next [] outcome).2 = .error (.error e) → Raises m e
  -- An event makes the next attempt of a retry, which ends with the error.
  | attempt {t : Turn σ} {state : RetryState} {body : Activity} {frame : Frame}
      {next : Continuation σ} : m.turn? = some t → t.event.work = .attempt state body frame next →
        (World.attempt (inUse (.hold frame.refs :: t.stack)) state body frame next t.world).2 =
          .error (.error e) → Raises m e
  -- A request is delivered to a service that does not have the operation.
  | operation {t : Turn σ} {request : RequestId} {id : ServiceId} {service : Service} {r : Request} :
      m.turn? = some t → t.event.work = .deliver request (.service id) →
        t.world.store.service? id = some service → t.world.request? request = some r →
          service.operations.find? r.operation = none →
            e = .program (.undefinedOperation service.name r.operation) → Raises m e

theorem works_of_turn? {m : Machine σ} {t : Turn σ} (h : m.turn? = some t) : m.works = true := by
  have hfocus := (turn?_spec h).1.focus
  rw [works, hfocus]
  simp [h]

/-- Whoever evaluates an activity goes on with a program. -/
theorem works_of_mem_parts {m : Machine σ} {p : Part σ} (h : p ∈ m.parts) : m.works = true := by
  unfold parts at h
  split at h
  · rename_i hfocus
    rw [works, hfocus]
    rfl
  · rename_i hfocus
    rw [works, hfocus]
    rfl
  · rename_i hfocus
    rw [works, hfocus]
    rfl
  · rename_i hfocus
    rw [works, hfocus]
  · cases hturn : m.turn? with
    | none => simp [hturn] at h
    | some t => exact works_of_turn? hturn

theorem proceed_of_error {stack : List (Activation σ)} {next : Continuation σ} {e : Evaluation σ}
    {cause : SimulationError} (h : e.2 = .error (.error cause)) :
    proceed stack next e = ⟨e.1, stack, .back (.error cause)⟩ := by
  rcases e with ⟨w, result⟩
  cases h
  rfl

/-- A transition that raises an error ends with it. -/
theorem Raises.focus {m n : Machine σ} {e : SimulationError} (h : m.Raises e)
    (hs : m.step = some n) : m.works = true ∧ n.focus = .back (.error e) := by
  cases h with
  | @node p hp hresult =>
    rcases step_parts hs hp with ⟨w, -, -, -, hcomes⟩
    rcases hcomes.unresolved (by simp [hresult, Resolved]) with ⟨stack, next, rfl⟩
    exact ⟨works_of_mem_parts hp, by rw [proceed_of_error hresult]⟩
  | wait hfocus hresult =>
    rcases m with ⟨w, stack, focus⟩
    cases hfocus
    cases hs
    exact ⟨rfl, by rw [resume, proceed_of_error hresult]⟩
  | attempt hturn hwork hresult =>
    refine ⟨works_of_turn? hturn, ?_⟩
    cases (turn?_spec hturn).2.symm.trans hs
    rw [hwork, dispatch, proceed_of_error hresult]
  | operation hturn hwork hservice hrequest hnone he =>
    refine ⟨works_of_turn? hturn, ?_⟩
    cases (turn?_spec hturn).2.symm.trans hs
    simp only [hwork, dispatch, process, hservice, hrequest, hnone, he]

/-- An activity that raises an error is the last one that is evaluated, and the world is left as it
leaves it. -/
theorem Raises.part {m n : Machine σ} {e : SimulationError} (h : m.Raises e)
    (hs : m.step = some n) {p : Part σ} (hp : p ∈ m.parts) (hunresolved : ¬ Resolved p.result.2) :
    p.result = (n.world, .error (.error e)) ∧ World.own p <:+ m.parts := by
  refine ⟨?_, m.sealed_parts p hp hunresolved⟩
  have hfocus := (h.focus hs).2
  rcases step_parts hs hp with ⟨w, -, -, -, hcomes⟩
  rcases hcomes.unresolved hunresolved with ⟨stack, next, rfl⟩
  rcases hresult : p.result with ⟨v, result⟩
  rw [hresult] at hfocus
  cases result with
  | ok progress =>
    cases progress with
    | suspended => cases hfocus
    | resolved outcome held => cases hfocus
  | error stop =>
    cases stop with
    | crash cause => cases hfocus
    | error cause =>
      cases hfocus
      rfl

/-! ## The event in which an error is raised -/

/-- Some transitions in which an event is carried out that a run has taken. No other event is taken
and no run is started in them, and the run is not left. -/
structure Handles (stack : List (Activation σ)) (horizon : Time) (count : Nat)
    (next : Except SimulationError Nat → Script σ) (e : Event (Callback σ)) (x : Machine σ)
    (all : List (Machine σ)) (c : Machine σ) : Prop where
  callers : x.stack = .run horizon count next :: stack
  taken : x.taken? = some e
  inside : Inside stack x all c
  alone : all.filterMap taken? = [e]
  single : ∀ y ∈ all, y.focus.startsRun = false

namespace Handles

variable {stack : List (Activation σ)} {horizon : Time} {count : Nat}
  {next : Except SimulationError Nat → Script σ} {e : Event (Callback σ)} {x c : Machine σ}
  {all : List (Machine σ)}

/-- The event is taken first. -/
theorem first (h : Handles stack horizon count next e x all c) :
    ∃ y rest, all = x :: rest ∧ x.step = some y ∧ stack.length < y.stack.length ∧
      Inside stack y rest c ∧ rest.filterMap taken? = [] := by
  rcases h with ⟨-, htaken, hinside, halone, -⟩
  cases hinside with
  | refl => cases halone
  | @step _ y _ rest hs hlong hrest =>
    refine ⟨y, rest, rfl, hs, hlong, hrest, ?_⟩
    rw [List.filterMap_cons_some htaken] at halone
    exact List.tail_eq_of_cons_eq halone

theorem started (h : Handles stack horizon count next e x all c) :
    Running stack horizon next count x := by
  rcases x with ⟨w, callers, focus⟩
  cases h.callers
  exact .intro w [] count focus (by simp)

theorem running (h : Handles stack horizon count next e x all c) :
    Running stack horizon next (count + 1) c := by
  have hrunning := h.started.inside h.inside h.single
  rw [h.alone] at hrunning
  exact hrunning

/-- The clock shows the time of the event. -/
theorem now (h : Handles stack horizon count next e x all c) : c.world.now = e.time := by
  rcases h.first with ⟨y, rest, rfl, hs, hlong, hinside, hnone⟩
  have hmoment : x.moment = e.time := by
    rw [moment, h.taken]
    rfl
  have hy : y.world.now = e.time :=
    (step_now hs (h.started.not_returning hs hlong)).trans hmoment
  have hrunning := h.started.step hs hlong (h.single x List.mem_cons_self)
  -- Nothing moves the clock from there on.
  exact (hrunning.now hinside (fun z hz => h.single z (List.mem_cons_of_mem _ hz)) hnone).trans hy

/-- Whoever waits next is host code that is executed in the event, or the run. -/
theorem base (h : Handles stack horizon count next e x all c) {holds : List (Activation σ)}
    {base : Activation σ} {handler : SimulationError → Script σ} {below : List (Activation σ)}
    (hbased : Based c.stack holds base handler below) :
    (∃ goesOn, base = .await goesOn) ∨ (base = .run horizon (count + 1) next ∧ below = stack) := by
  have hrunning := h.running
  rcases hbased with ⟨hstack, hholding, hwaits⟩
  generalize count + 1 = number at hrunning ⊢
  cases hrunning with
  | intro w inner number focus hinner =>
    rcases List.append_eq_append_iff.1 (show inner ++ .run horizon number next :: stack = _ from hstack)
      with ⟨extra, hholds, hrest⟩ | ⟨extra, hinner', hrest⟩
    · cases extra with
      | nil =>
        cases hrest
        exact Or.inr ⟨rfl, rfl⟩
      | cons first extra =>
        cases hrest
        -- The run would be among those who only hold references.
        cases hholding (.run horizon number next) (by simp [hholds])
    · cases extra with
      | nil =>
        cases hrest
        exact Or.inr ⟨rfl, rfl⟩
      | cons first extra =>
        cases hrest
        have hother := hinner base (by simp [hinner'])
        cases base with
        | await goesOn => exact Or.inl ⟨goesOn, rfl⟩
        | run _ _ _ => cases hother
        | _ => cases hwaits

end Handles

/-- A run stays the next one who waits, as long as no host code is executed. -/
theorem Based.stays {stack holds : List (Activation σ)} {horizon : Time} {count : Nat}
    {next : Except SimulationError Nat → Script σ} {handler : SimulationError → Script σ}
    {m n : Machine σ} (h : Based m.stack holds (.run horizon count next) handler stack)
    (hs : m.step = some n) (hlong : stack.length < n.stack.length) (hm : m.focus.isCode = false)
    (hn : n.focus.isCode = false) :
    ∃ more number, Based n.stack more (.run horizon number next) handler stack := by
  rcases m with ⟨w, callers, focus⟩
  have hpop {first : Activation σ} {rest : List (Activation σ)} (hfirst : holds = first :: rest)
      (v : World σ) (other : Focus σ) :
      Based (Machine.mk v (rest ++ .run horizon count next :: stack) other).stack rest
        (.run horizon count next) handler stack :=
    ⟨rfl, fun x hx => h.holding x (by simp [hfirst, hx]), h.waits⟩
  cases focus with
  | code script => cases hm
  | resume going outcome =>
    cases hs
    rcases h.over (.resume ..) hn with ⟨more, hmore⟩
    exact ⟨more, count, hmore⟩
  | crash cause =>
    have hstack := h.stack
    cases holds with
    | nil =>
      cases hstack
      cases hs
      exact absurd hlong (lt_irrefl _)
    | cons first rest =>
      cases hstack
      have hfirst := h.holding first List.mem_cons_self
      cases first with
      | hold refs =>
        cases hs
        exact ⟨rest, count, hpop rfl _ _⟩
      | _ => cases hfirst
  | back result =>
    have hstack := h.stack
    cases holds with
    | nil =>
      cases hstack
      cases result with
      | error cause =>
        cases hs
        exact absurd hlong (lt_irrefl _)
      | ok _ =>
        rcases Running.continues hs hlong with ⟨t, -, rfl⟩
        have hrun : Based (.run horizon (count + 1) next :: stack) []
            (.run horizon (count + 1) next) handler stack := ⟨rfl, by simp, h.waits⟩
        rcases hrun.over (.dispatch ..) hn with ⟨more, hmore⟩
        exact ⟨more, count + 1, hmore⟩
    | cons first rest =>
      cases hstack
      have hfirst := h.holding first List.mem_cons_self
      cases first with
      | hold refs =>
        cases hs
        exact ⟨rest, count, hpop rfl _ _⟩
      | _ => cases hfirst

theorem Based.inside {stack holds : List (Activation σ)} {horizon : Time} {count : Nat}
    {next : Except SimulationError Nat → Script σ} {handler : SimulationError → Script σ}
    {m x : Machine σ} {past : List (Machine σ)} (hinside : Inside stack m past x)
    (h : Based m.stack holds (.run horizon count next) handler stack)
    (hcode : ∀ y ∈ past ++ [x], y.focus.isCode = false) :
    ∃ more number, Based x.stack more (.run horizon number next) handler stack := by
  induction hinside generalizing holds count with
  | refl m => exact ⟨holds, count, h⟩
  | @step m n x past hs hlong hrest ih =>
    have hn : n ∈ past ++ [x] := by
      cases hrest with
      | refl => simp
      | step => simp
    rcases h.stays hs hlong (hcode m (by simp)) (hcode n (List.mem_cons_of_mem _ hn)) with
      ⟨more, number, hmore⟩
    exact ih hmore fun y hy => hcode y (List.mem_cons_of_mem _ hy)

/-- The callers above which references are only held, and the next one who waits, are unique. -/
theorem Based.unique {stack holds more : List (Activation σ)} {base other : Activation σ}
    {handler handler' : SimulationError → Script σ} {below below' : List (Activation σ)}
    (h : Based stack holds base handler below) (k : Based stack more other handler' below') :
    base = other ∧ below = below' := by
  rcases h with ⟨rfl, hholding, hwaits⟩
  rcases k with ⟨hstack, kholding, kwaits⟩
  rcases List.append_eq_append_iff.1 hstack with ⟨extra, hmore, hrest⟩ | ⟨extra, hholds, hrest⟩
  · cases extra with
    | nil =>
      cases hrest
      exact ⟨rfl, rfl⟩
    | cons first extra =>
      cases hrest
      have hheld := kholding base (by simp [hmore])
      cases base with
      | hold refs => cases hwaits
      | _ => cases hheld
  · cases extra with
    | nil =>
      cases hrest
      exact ⟨rfl, rfl⟩
    | cons first extra =>
      cases hrest
      have hheld := hholding other (by simp [hholds])
      cases other with
      | hold refs => cases kwaits
      | _ => cases hheld

/-- A machine that returns an error goes on with the caller that is known to wait next. -/
theorem Based.returns_to {c : Machine σ} {holds : List (Activation σ)} {base other : Activation σ}
    {handler handler' : SimulationError → Script σ} {below below' : List (Activation σ)}
    {e : SimulationError} (h : Based c.stack holds base handler below)
    (hfocus : c.focus = .back (.error e)) (hother : other.onError? = some handler')
    (hsame : base = other ∧ below = below') :
    run (holds.length + 1) c = ⟨c.world, below', .code (handler' e)⟩ := by
  rcases c with ⟨w, stack, focus⟩
  cases hfocus
  rcases hsame with ⟨rfl, rfl⟩
  cases h.waits.symm.trans hother
  exact (h.returns w e).1

namespace Handles

variable {stack : List (Activation σ)} {horizon : Time} {count : Nat}
  {next : Except SimulationError Nat → Script σ} {e : Event (Callback σ)} {x c : Machine σ}
  {all : List (Machine σ)}

/-- If no host code is executed in the event, then it is the run. -/
theorem base_run (h : Handles stack horizon count next e x all c)
    {holds : List (Activation σ)} {base : Activation σ} {handler : SimulationError → Script σ}
    {below : List (Activation σ)} (hbased : Based c.stack holds base handler below)
    (hcode : ∀ y ∈ all ++ [c], y.focus.isCode = false) :
    base = .run horizon (count + 1) next ∧ below = stack := by
  have hstart : Based x.stack [] (.run horizon count next) (fun e => next (.error e)) stack :=
    ⟨h.callers, by simp, rfl⟩
  rcases hstart.inside h.inside hcode with ⟨more, number, hrun⟩
  rcases h.base hbased with ⟨goesOn, rfl⟩ | hfound
  · cases (hbased.unique hrun).1
  · exact hfound

end Handles

/-! ## The agenda -/

/-- Whatever is pending is taken, or stays pending. -/
theorem Life.pending {a b : Machine σ} {past : List (Machine σ)} (h : Life a past b) :
    ∀ e ∈ a.world.agenda.pending, e ∈ past.filterMap taken? ∨ e ∈ b.world.agenda.pending := by
  rcases h.sendings with ⟨deeds, hdeeds⟩
  intro e he
  have hmem := hdeeds.path.agenda.perm.mem_iff.2 (List.mem_append_left _ he)
  rw [hdeeds.takes] at hmem
  exact List.mem_append.1 hmem

/-- What has been taken precedes what is taken later, and has another number than what is pending. -/
theorem Life.taken_apart {config : SimulationConfig} {memory : σ} {past : List (Machine σ)}
    {m : Machine σ} (h : Life (idle (World.start config memory)) past m) :
    (past.filterMap taken?).Pairwise Event.Precedes ∧
      ∀ e ∈ past.filterMap taken?, ∀ o ∈ m.world.agenda.pending, o.seq ≠ e.seq := by
  rcases h.sendings with ⟨deeds, hdeeds⟩
  have hagenda : Agenda.Path .empty (deeds.filterMap World.Deed.agenda?) m.world.agenda :=
    hdeeds.path.agenda
  rw [← hdeeds.takes]
  refine ⟨hagenda.history.ordered, ?_⟩
  intro e he o ho
  exact hagenda.gone Agenda.sound_empty List.nodup_nil he ho

/-- A later part of a life takes the pending events in their order and loses none of them. Where there
is no budget, a run that returns has taken all of them that are due. -/
theorem Life.drains {config : SimulationConfig} {memory : σ} {past later : List (Machine σ)}
    {c n : Machine σ} (h : Life (idle (World.start config memory)) past c) (hlater : Life c later n) :
    (later.filterMap taken?).Pairwise Event.Precedes ∧
      (∀ o ∈ c.world.agenda.pending,
        o ∈ later.filterMap taken? ∨ o ∈ n.world.agenda.pending) ∧
      ∀ (horizon : Time) (count : Nat) (next : Except SimulationError Nat → Script σ)
        (stack : List (Activation σ)), config.maxEvents = none →
          n.Returning horizon count next stack → ∀ o ∈ c.world.agenda.pending, o.time ≤ horizon →
            o ∈ later.filterMap taken? := by
  have hn := h.trans hlater
  refine ⟨?_, hlater.pending, ?_⟩
  · have hordered := hn.taken_apart.1
    rw [List.filterMap_append] at hordered
    exact (List.pairwise_append.1 hordered).2.1
  · intro horizon count next stack hbudget hreturning o ho hdue
    rcases hlater.pending o ho with hmem | hmem
    · exact hmem
    · exact absurd hdue (hn.not_due hbudget hreturning o hmem)

namespace Handles

variable {stack : List (Activation σ)} {horizon : Time} {count : Nat}
  {next : Except SimulationError Nat → Script σ} {e : Event (Callback σ)} {x c : Machine σ}
  {all : List (Machine σ)}

/-- The event that is taken is the only one that is not pending any more. -/
theorem pending (h : Handles stack horizon count next e x all c) :
    ∀ o ∈ x.world.agenda.pending, o = e ∨ o ∈ c.world.agenda.pending := by
  intro o ho
  rcases h.inside.life.pending o ho with hmem | hmem
  · rw [h.alone] at hmem
    exact Or.inl (List.mem_singleton.1 hmem)
  · exact Or.inr hmem

/-- The event that is taken is taken for good. -/
theorem gone (h : Handles stack horizon count next e x all c) {config : SimulationConfig}
    {memory : σ} {before : List (Machine σ)} (hx : Life (idle (World.start config memory)) before x) :
    ∀ o ∈ c.world.agenda.pending, o.seq ≠ e.seq := by
  have htaken : (before ++ all).filterMap taken? = before.filterMap taken? ++ [e] := by
    rw [List.filterMap_append, h.alone]
  exact (hx.trans h.inside.life).taken_apart.2 e (by simp [htaken])

end Handles

/-! ## The error that is raised -/

theorem poised_idle (w : World σ) : Poised (idle w) := by
  intro next outcome hfocus
  cases hfocus

/-- Whoever has called waits for the result next. -/
theorem Based.of_caller {b c : Machine σ} {script : Script σ}
    {goesOn : Except SimulationError Unit → Script σ} (hs : b.step = some c)
    (hfocus : b.focus = .code script) (hcaller : script.caller? = some (.await goesOn))
    (hcode : c.focus.isCode = false) :
    ∃ holds, Based c.stack holds (.await goesOn) (fun e => goesOn (.error e)) b.stack := by
  rcases b with ⟨w, stack, focus⟩
  cases hfocus
  cases hs
  rcases execScript_over w stack script with ⟨caller, hsome, hover⟩ | ⟨-, hgoes | hnone⟩
  · cases hcaller.symm.trans hsome
    have hfirst : Based (.await goesOn :: stack) [] (.await goesOn) (fun e => goesOn (.error e))
        stack := ⟨rfl, by simp, rfl⟩
    exact hfirst.over hover hcode
  · rw [hgoes] at hcode
    cases hcode
  · cases hnone.symm.trans hcaller

/-- No construct of a program absorbs an error. If a transition of a life raises one, with an activity
or otherwise, then:

* the activity that raises it and those around it that are being evaluated end with just this error,
  leave the world as it is after the transition, and nothing is evaluated any more besides what is
  inside of them; and no continuation waits afterwards but those that have waited before, less the one
  in the event that was taken;
* the error is returned to the nearest caller that waits for a result, with only references held above
  it, and meanwhile nothing happens to the world; that is the host code that has called here, if it
  has. If it is raised in an event that a run has taken, with no run inside, it is host code executed
  in the event, or the run; and the run, if no host code is executed. The clock stays at the time of
  the event, the event is taken for good, and all others that were pending still are;
* whatever happens then takes the pending events in their order and loses none of them; and where there
  is no budget, a run that returns has taken all of them that are due. -/
theorem Life.error_not_absorbed {config : SimulationConfig} {memory : σ} {early : List (Machine σ)}
    {b c : Machine σ} {e : SimulationError} (h : Life (idle (World.start config memory)) early b)
    (hs : b.step = some c) (hraises : b.Raises e) :
    ((∀ p ∈ b.parts, ¬ Resolved p.result.2 →
        p.result = (c.world, .error (.error e)) ∧ World.own p <:+ b.parts) ∧
      ∀ counted, c.world.stock counted + b.carried counted = b.world.stock counted) ∧
    (∃ holds base handler below, c.focus = .back (.error e) ∧ Based c.stack holds base handler below ∧
      run (holds.length + 1) c = ⟨c.world, below, .code (handler e)⟩ ∧
      (∀ x ∈ trail (holds.length + 1) c, x.world = c.world ∧ x.focus = .back (.error e)) ∧
      (∀ script goesOn, b.focus = .code script → script.caller? = some (.await goesOn) →
        run (holds.length + 1) c = ⟨c.world, b.stack, .code (goesOn (.error e))⟩) ∧
      ∀ (before all : List (Machine σ)) (x : Machine σ) (stack : List (Activation σ))
        (horizon : Time) (count : Nat) (next : Except SimulationError Nat → Script σ)
        (event : Event (Callback σ)), Life (idle (World.start config memory)) before x →
          Handles stack horizon count next event x (all ++ [b]) c →
            ((∃ goesOn, base = .await goesOn) ∨
              run (holds.length + 1) c = ⟨c.world, stack, .code (next (.error e))⟩) ∧
            ((∀ y ∈ all ++ [b], y.focus.isCode = false) →
              run (holds.length + 1) c = ⟨c.world, stack, .code (next (.error e))⟩) ∧
            c.world.now = event.time ∧
            (∀ o ∈ c.world.agenda.pending, o.seq ≠ event.seq) ∧
            ∀ o ∈ x.world.agenda.pending, o = event ∨ o ∈ c.world.agenda.pending) ∧
    ∀ (later : List (Machine σ)) (n : Machine σ), Life c later n →
      (later.filterMap taken?).Pairwise Event.Precedes ∧
      (∀ o ∈ c.world.agenda.pending,
        o ∈ later.filterMap taken? ∨ o ∈ n.world.agenda.pending) ∧
      ∀ (horizon : Time) (count : Nat) (next : Except SimulationError Nat → Script σ)
        (stack : List (Activation σ)), config.maxEvents = none →
          n.Returning horizon count next stack → ∀ o ∈ c.world.agenda.pending, o.time ≤ horizon →
            o ∈ later.filterMap taken? := by
  rcases hraises.focus hs with ⟨hworks, hfocus⟩
  have hcode : c.focus.isCode = false := by
    rw [hfocus]
    rfl
  have hc : Life (idle (World.start config memory)) (early ++ [b]) c := h.next (.step hs)
  refine ⟨⟨fun p hp => hraises.part hs hp, fun counted => step_stock_error counted hs hfocus⟩, ?_,
    fun later n hlater => hc.drains hlater⟩
  rcases (h.poised (poised_idle _)).step hs hworks hcode with ⟨holds, base, handler, below, hbased⟩
  have hmachine : (⟨c.world, c.stack, .back (.error e)⟩ : Machine σ) = c := by
    rw [← hfocus]
  have hquiet := (hbased.returns c.world e).2
  rw [hmachine] at hquiet
  refine ⟨holds, base, handler, below, hfocus, hbased,
    hbased.returns_to hfocus hbased.waits ⟨rfl, rfl⟩, hquiet, ?_, ?_⟩
  · intro script goesOn hscript hcaller
    rcases Based.of_caller hs hscript hcaller hcode with ⟨more, hmore⟩
    exact hbased.returns_to hfocus hmore.waits (hbased.unique hmore)
  · intro before all x stack horizon count next event hx hhandles
    have hrun : (Activation.run horizon (count + 1) next).onError? =
        some fun e => next (.error e) := rfl
    refine ⟨?_, ?_, hhandles.now, hhandles.gone hx, hhandles.pending⟩
    · rcases hhandles.base hbased with hawait | hsame
      · exact Or.inl hawait
      · exact Or.inr (hbased.returns_to hfocus hrun hsame)
    · intro hnone
      refine hbased.returns_to hfocus hrun (hhandles.base_run hbased ?_)
      intro y hy
      rcases List.mem_append.1 hy with hy | hy
      · exact hnone y hy
      · rw [List.mem_singleton.1 hy]
        exact hcode

/-- An activity that calls what nobody has defined, after a while, with constructs around it that
handle failures. -/
def careless : Activity :=
  .ignoreError (.retry (.sequence [.think 1.0, .trigger "missing" "op", .fail]) 3 (.constant 0.5))

/-- Host code that evaluates it, with something else to come, and that runs the agenda twice. -/
def carelessness : Script Unit :=
  .schedule 2.0 .external .done fun _ =>
    .evaluate careless .host (fun _ => .done) fun _ => .run 5.0 fun _ => .run 5.0 fun _ => .done

/-- The simulation after some transitions. -/
def stumbling (fuel : Nat) : Machine Unit :=
  run fuel ⟨World.start ⟨true, none⟩ (), [], .code carelessness⟩

theorem stumbling_raises :
    (stumbling 5).Raises (.program (.undefinedSymbol "missing")) := by
  exact .node List.mem_cons_self (by with_unfolding_all rfl)

theorem stumbling_handles :
    Handles [] 5.0 0 (fun _ => .run 5.0 fun _ => .done)
      ⟨0.0 + 1.0, 1, .think, .wake (.steps [.trigger "missing" "op", .fail] (.plain World.root .host)
        (.retry (RetryState.begin ⟨0, 3, .constant 0.5⟩)
          (.sequence [.think 1.0, .trigger "missing" "op", .fail]) (.plain World.root .host)
          (.ignore (.host fun _ => .done))))⟩
      (stumbling 4) [stumbling 4, stumbling 5] (stumbling 6) where
  callers := rfl
  taken := by with_unfolding_all rfl
  inside := .step (n := stumbling 5) (by with_unfolding_all rfl) (by decide +kernel)
    (.step (n := stumbling 6) (by with_unfolding_all rfl) (by decide +kernel) (.refl _))
  alone := by with_unfolding_all rfl
  single := by
    intro y hy
    simp only [List.mem_cons, List.not_mem_nil, or_false] at hy
    rcases hy with rfl | rfl <;> rfl

theorem carelessness_not_absorbed :
    (∃ fuel, run fuel (stumbling 6) =
      ⟨(stumbling 6).world, [], .code (.run 5.0 fun _ => .done)⟩) ∧
    (stumbling 6).world.now = 0.0 + 1.0 ∧
    (stumbling 6).world.agenda.pending.map Event.time = [2.0] ∧
    ∀ o ∈ (stumbling 6).world.agenda.pending,
      o.seq ≠ 1 ∧ o ∈ (trail 4 (stumbling 6)).filterMap taken? := by
  have hearly (fuel : Nat) : Life (idle (World.start ⟨true, none⟩ ())) _ (stumbling fuel) :=
    (Life.refl.next (.call carelessness rfl)).trans (life_run fuel _)
  have hstep : (stumbling 5).step = some (stumbling 6) := by with_unfolding_all rfl
  rcases (hearly 5).error_not_absorbed hstep stumbling_raises with
    ⟨-, ⟨holds, base, handler, below, -, -, -, -, -, hevent⟩, hlater⟩
  rcases hevent _ [stumbling 4] _ _ _ _ _ _ (hearly 4) stumbling_handles with
    ⟨-, hback, hnow, hgone, -⟩
  have hreturning : (run 4 (stumbling 6)).Returning 5.0 1 (fun _ => .done) [] :=
    ⟨by with_unfolding_all rfl, by with_unfolding_all rfl, by with_unfolding_all rfl⟩
  have hdue : ∀ o ∈ (stumbling 6).world.agenda.pending, o.time ≤ (5.0 : Time) := by decide +kernel
  refine ⟨⟨_, hback ?_⟩, hnow, by with_unfolding_all rfl, ?_⟩
  · intro y hy
    simp only [List.cons_append, List.nil_append, List.mem_cons, List.not_mem_nil, or_false] at hy
    rcases hy with rfl | rfl <;> rfl
  · intro o ho
    exact ⟨hgone o ho, (hlater _ _ (life_run 4 _)).2.2 5.0 1 _ [] rfl hreturning o ho (hdue o ho)⟩

end Machine
end Callflow
