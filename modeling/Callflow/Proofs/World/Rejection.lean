import Callflow.Proofs.Time.Sum
import Callflow.Proofs.World.Menu

/-!
# Rejected activities

Some activities check what they are given before they do anything. `Part.Rejected` lists the reasons
for which an activity is rejected by its own checks, each with its error. An activity is rejected
exactly if nothing is evaluated besides it and it ends with the error (`Part.rejected_iff`), and
then the world is as it was before (`Part.Rejected.result`).
-/

namespace Callflow

variable {σ : Type}

/-! ## Refused delays -/

/-- Why a delay is refused. -/
inductive Time.Refused (d : Time) : SchedulingError → Prop where
  | notFinite : Decimal.isFinite d = false → Refused d (.nonFiniteDelay d)
  | negative : Decimal.isFinite d = true → d < 0.0 → Refused d (.negativeDelay d)

theorem Time.checkDelay_eq_error {d : Time} {cause : SchedulingError} :
    Time.checkDelay d = .error cause ↔ d.Refused cause := by
  constructor
  · intro h
    unfold Time.checkDelay at h
    cases hfinite : Decimal.isFinite d with
    | false =>
      rw [hfinite] at h
      cases h
      exact .notFinite hfinite
    | true =>
      by_cases hneg : d < 0.0
      · simp [hfinite, hneg] at h
        subst h
        exact .negative hfinite hneg
      · simp [hfinite, hneg] at h
  · intro h
    cases h with
    | notFinite hfinite => simp [Time.checkDelay, hfinite]
    | negative hfinite hneg => simp [Time.checkDelay, hfinite, hneg]

theorem Time.isPeriod_eq_false {period : Time} :
    Time.isPeriod period = false ↔ Decimal.isFinite period = false ∨ period ≤ 0.0 := by
  rw [isPeriod, Bool.and_eq_false_iff, Bool.not_eq_false', decide_eq_true_iff]

/-- Nothing can be scheduled after a refused delay. -/
theorem World.schedule_of_refused {w : World σ} {delay : Time} {cause : SchedulingError}
    (h : delay.Refused cause) (kind : EventKind) (work : Callback σ) :
    w.schedule delay kind work = .error cause := by
  rw [World.schedule, Agenda.schedule, Time.checkDelay_eq_error.2 h]

/-! ## Reasons -/

/-- The symbol that an activity calls. -/
def Activity.symbol? : Activity → Option String
  | .trigger symbol _ => some symbol
  | .query symbol _ _ => some symbol
  | _ => none

/-- What a symbol stands for where a part is evaluated. -/
def Part.found? (p : Part σ) (symbol : String) : Option Value :=
  p.world.store.lookUp? (p.world.alive (p.inUse ++ p.frame.refs) p.next) p.frame.scope symbol

/-- The checks that an activity makes itself reject it with an error. -/
inductive Part.Rejected (p : Part σ) : SimulationError → Prop where
  -- A call of a symbol that nobody has defined.
  | undefined {symbol : String} : p.activity.symbol? = some symbol → p.found? symbol = none →
      Rejected p (.program (.undefinedSymbol symbol))
  -- A call of something that cannot be called.
  | notAService {symbol : String} {value : Value} : p.activity.symbol? = some symbol →
      p.found? symbol = some value → value.target? = none →
        Rejected p (.program (.notAService symbol))
  -- A query of something that can be called, with an invalid timeout.
  | timeout {symbol operation : String} {delay : Time} {cause : SchedulingError} :
      p.activity = .query symbol operation (some delay) →
        ((p.found? symbol).bind Value.target?).isSome = true → delay.Refused cause →
          Rejected p (.scheduling cause)
  | duration {delay : Time} {cause : SchedulingError} : p.activity = .think delay →
      delay.Refused cause → Rejected p (.scheduling cause)
  -- A retry with an invalid first wait, whatever its limit.
  | base {body : Activity} {limit : Nat} {delay : Delay} {cause : SchedulingError} :
      p.activity = .retry body limit delay → delay.base.Refused cause →
        Rejected p (.scheduling cause)
  -- A retry that allows no attempt.
  | limit {body : Activity} {delay : Delay} : p.activity = .retry body 0 delay →
      Time.checkDelay delay.base = .ok () → Rejected p (.program (.invalidRetryLimit 0))
  | period {name : String} {period : Time} {body : Activity} :
      p.activity = .defineClient name period body →
        Decimal.isFinite period = false ∨ period ≤ 0.0 →
          Rejected p (.program (.invalidPeriod period))
  -- An operation outside of any service body.
  | outside {name : String} {body : Activity} : p.activity = .defineOperation name body →
      p.frame.service = none → Rejected p (.program (.noEnclosingService name))

namespace World

/-! ## What rejected activities do -/

theorem resolve_of_found? {p : Part σ} {symbol : String} :
    p.world.resolve p.inUse p.frame p.next symbol =
      match p.found? symbol with
      | none => .error (.undefinedSymbol symbol)
      | some value =>
        match value.target? with
        | none => .error (.notAService symbol)
        | some target => .ok target := rfl

/-- A call whose symbol cannot be resolved ends with the mistake. -/
theorem result_of_unresolved {p : Part σ} {symbol : String} {cause : ProgramError}
    (hsymbol : p.activity.symbol? = some symbol)
    (h : p.world.resolve p.inUse p.frame p.next symbol = .error cause) :
    p.result = (p.world, .error (.error (.program cause))) := by
  rcases p with ⟨w, inUse, activity, frame, next⟩
  cases activity with
  | trigger target operation =>
    cases hsymbol
    simp only [Part.result, evaluate, trigger, h, mistake]
  | query target operation timeout =>
    cases hsymbol
    simp only [Part.result, evaluate, query, h, mistake]
  | _ => cases hsymbol

/-- A call comes upon nothing else. -/
theorem own_of_symbol? {p : Part σ} {symbol : String} (h : p.activity.symbol? = some symbol) :
    own p = [p] := by
  rcases p with ⟨w, inUse, activity, frame, next⟩
  cases activity with
  | trigger target operation => rfl
  | query target operation timeout => rfl
  | _ => cases h

end World

open World (own evaluate parts)

/-- A rejected activity ends with the error, and leaves the world as it is. -/
theorem Part.Rejected.result {p : Part σ} {e : SimulationError} (h : p.Rejected e) :
    p.result = (p.world, .error (.error e)) := by
  cases h with
  | undefined hsymbol hfound =>
    refine World.result_of_unresolved hsymbol ?_
    rw [World.resolve_of_found?, hfound]
  | notAService hsymbol hfound hvalue =>
    refine World.result_of_unresolved hsymbol ?_
    simp only [World.resolve_of_found?, hfound, hvalue]
  | @timeout symbol operation delay cause hactivity hfound hrefused =>
    rcases Option.isSome_iff_exists.1 hfound with ⟨target, htarget⟩
    rcases Option.bind_eq_some_iff.1 htarget with ⟨value, hvalue, hcallable⟩
    have hresolve : p.world.resolve p.inUse p.frame p.next symbol = .ok target := by
      simp only [World.resolve_of_found?, hvalue, hcallable]
    have hcheck : (some delay).mapM Time.checkDelay = .error cause := by
      rw [Option.mapM_some, Time.checkDelay_eq_error.2 hrefused]
      rfl
    rw [Part.result, hactivity, evaluate, World.query, hresolve]
    simp only [hcheck, World.refuse]
  | duration hactivity hrefused =>
    rw [Part.result, hactivity, evaluate, World.suspend, World.schedule_of_refused hrefused]
    rfl
  | base hactivity hrefused =>
    rw [Part.result, hactivity, evaluate, Time.checkDelay_eq_error.2 hrefused]
    rfl
  | limit hactivity hcheck =>
    rw [Part.result, hactivity, evaluate, hcheck]
    rfl
  | period hactivity hinvalid =>
    rw [Part.result, hactivity, evaluate, World.defineClient, Time.isPeriod_eq_false.2 hinvalid]
    rfl
  | outside hactivity hservice =>
    rw [Part.result, hactivity, evaluate, World.defineOperation, hservice]
    rfl

/-- Nothing is evaluated besides a rejected activity. -/
theorem Part.Rejected.own {p : Part σ} {e : SimulationError} (h : p.Rejected e) : own p = [p] := by
  rcases p with ⟨w, inUse, activity, frame, next⟩
  cases h with
  | undefined hsymbol _ => exact World.own_of_symbol? hsymbol
  | notAService hsymbol _ _ => exact World.own_of_symbol? hsymbol
  | timeout hactivity _ _ =>
    cases hactivity
    rfl
  | duration hactivity _ =>
    cases hactivity
    rfl
  | base hactivity hrefused =>
    cases hactivity
    simp only [World.own, parts, Time.checkDelay_eq_error.2 hrefused]
  | limit hactivity hcheck =>
    cases hactivity
    simp only [World.own, parts, hcheck, RetryState.start, if_true]
  | period hactivity _ =>
    cases hactivity
    rfl
  | outside hactivity _ =>
    cases hactivity
    rfl

namespace World

/-! ## What is not rejected -/

theorem parts_ne_nil (inUse : List Ref) (activity : Activity) (frame : Frame)
    (next : Continuation σ) (w : World σ) : parts inUse activity frame next w ≠ [] :=
  List.ne_nil_of_mem (mem_parts ..)

theorem ofSteps_ne_nil (inUse : List Ref) (step : Activity) (rest : List Activity) (frame : Frame)
    (last : Value) (next : Continuation σ) (w : World σ) :
    parts.ofSteps inUse (step :: rest) frame last next w ≠ [] := by
  rw [parts.ofSteps]
  exact List.append_ne_nil_of_left_ne_nil (parts_ne_nil inUse step frame _ w) _

/-- A symbol that resolves stands for something that can be called. -/
theorem found?_of_resolve {p : Part σ} {symbol : String} {target : Target}
    (h : p.world.resolve p.inUse p.frame p.next symbol = .ok target) :
    (p.found? symbol).bind Value.target? = some target := by
  rw [resolve_of_found?] at h
  cases hfound : p.found? symbol with
  | none =>
    rw [hfound] at h
    cases h
  | some value =>
    cases hvalue : value.target? with
    | none => simp [hfound, hvalue] at h
    | some other => simpa [hfound, hvalue] using h

/-- A call whose symbol cannot be resolved is rejected. -/
theorem rejected_of_unresolved {p : Part σ} {symbol : String} {cause : ProgramError}
    (hsymbol : p.activity.symbol? = some symbol)
    (h : p.world.resolve p.inUse p.frame p.next symbol = .error cause) :
    p.Rejected (.program cause) := by
  rw [resolve_of_found?] at h
  split at h
  · rename_i hfound
    cases h
    exact .undefined hsymbol hfound
  · rename_i value hfound
    split at h
    · rename_i hvalue
      cases h
      exact .notAService hsymbol hfound hvalue
    · cases h

theorem defineClient_rejected {w : World σ} {inUse : List Ref} {name : String} {period : Time}
    {body : Activity} {frame : Frame} {next : Continuation σ} {e : SimulationError}
    (h : (w.defineClient name period body frame).2 = .error (.error e)) :
    (⟨w, inUse, .defineClient name period body, frame, next⟩ : Part σ).Rejected e := by
  cases hperiod : Time.isPeriod period with
  | false =>
    rw [defineClient, hperiod] at h
    cases h
    exact .period rfl (Time.isPeriod_eq_false.1 hperiod)
  | true =>
    -- The first firing can be scheduled.
    have hcheck := Time.checkDelay_of_isPeriod hperiod
    unfold defineClient at h
    simp only [hperiod, Bool.not_true, Bool.false_eq_true, if_false] at h
    split at h
    · cases h
    · rename_i cause hs
      simp [World.schedule, Agenda.schedule, hcheck] at hs

theorem trigger_rejected {w : World σ} {inUse : List Ref} {symbol operation : String} {frame : Frame}
    {next : Continuation σ} {e : SimulationError}
    (h : (w.trigger inUse symbol operation frame next).2 = .error (.error e)) :
    (⟨w, inUse, .trigger symbol operation, frame, next⟩ : Part σ).Rejected e := by
  unfold trigger at h
  split at h
  · rename_i cause hresolve
    cases h
    exact rejected_of_unresolved rfl hresolve
  · dsimp only at h
    split at h <;> cases h

theorem query_rejected {w : World σ} {inUse : List Ref} {symbol operation : String}
    {timeout : Option Time} {frame : Frame} {next : Continuation σ} {e : SimulationError}
    (h : (w.query inUse symbol operation timeout frame next).2 = .error (.error e)) :
    (⟨w, inUse, .query symbol operation timeout, frame, next⟩ : Part σ).Rejected e := by
  cases hresolve : w.resolve inUse frame next symbol with
  | error cause =>
    unfold query at h
    rw [hresolve] at h
    cases h
    exact rejected_of_unresolved rfl hresolve
  | ok target =>
    -- The symbol can be called, so it is the timeout.
    rcases query_cases (Prod.mk.eta (p := w.query inUse symbol operation timeout frame next)).symm with
      ⟨cause, hresult, -, hinvalid⟩ | ⟨_, _, hresult, -⟩ | ⟨_, _, hresult, -⟩ |
        ⟨_, _, _, _, _, hresult, -⟩
    · rcases hinvalid target hresolve with ⟨delay, rfl, hrefused⟩
      cases hcheck : Time.checkDelay delay with
      | ok _ => exact absurd hcheck hrefused
      | error cause =>
        have hrejected : (⟨w, inUse, .query symbol operation (some delay), frame, next⟩ :
            Part σ).Rejected (.scheduling cause) := by
          refine .timeout rfl ?_ (Time.checkDelay_eq_error.1 hcheck)
          exact Option.isSome_iff_exists.2 ⟨target, found?_of_resolve hresolve⟩
        have hsame := (congrArg Prod.snd hrejected.result).symm.trans h
        cases hsame
        exact hrejected
    · cases hresult.symm.trans h
    · cases hresult.symm.trans h
    · cases hresult.symm.trans h

end World

/-- An activity is rejected by its own checks exactly if nothing is evaluated besides it and it ends
with the error. -/
theorem Part.rejected_iff {p : Part σ} {e : SimulationError} :
    p.Rejected e ↔ World.own p = [p] ∧ p.result.2 = .error (.error e) := by
  refine ⟨fun h => ⟨h.own, by rw [h.result]⟩, ?_⟩
  rintro ⟨hown, hresult⟩
  rcases p with ⟨w, inUse, activity, frame, next⟩
  cases activity with
  | defineService name body =>
    cases body with
    | nil => cases hresult
    | cons step rest =>
      simp only [World.own, parts, List.cons.injEq, World.ofSteps_ne_nil, and_false] at hown
  | defineOperation name body =>
    cases hservice : frame.service with
    | none =>
      simp only [Part.result, evaluate, World.defineOperation, hservice] at hresult
      cases hresult
      exact .outside rfl hservice
    | some id =>
      simp only [Part.result, evaluate, World.defineOperation, hservice] at hresult
      cases hresult
  | defineClient name period body => exact World.defineClient_rejected hresult
  | trigger symbol operation => exact World.trigger_rejected hresult
  | query symbol operation timeout => exact World.query_rejected hresult
  | sequence steps =>
    cases steps with
    | nil => cases hresult
    | cons step rest =>
      simp only [World.own, parts, List.cons.injEq, World.ofSteps_ne_nil, and_false] at hown
  | think duration =>
    cases hcheck : Time.checkDelay duration with
    | error cause =>
      have hrefused := Time.checkDelay_eq_error.1 hcheck
      rw [Part.result, evaluate, World.suspend, World.schedule_of_refused hrefused] at hresult
      cases hresult
      exact .duration rfl hrefused
    | ok _ =>
      rcases World.schedule_of_checkDelay w .think (.wake next) hcheck with ⟨v, event, hs⟩
      rw [Part.result, evaluate, World.suspend, hs] at hresult
      cases hresult
  | retry body limit delay =>
    cases hcheck : Time.checkDelay delay.base with
    | error cause =>
      rw [Part.result, evaluate, hcheck] at hresult
      cases hresult
      exact .base rfl (Time.checkDelay_eq_error.1 hcheck)
    | ok _ =>
      by_cases hlimit : limit = 0
      · subst hlimit
        rw [Part.result, evaluate, hcheck] at hresult
        cases hresult
        exact .limit rfl hcheck
      · simp only [World.own, parts, hcheck, RetryState.start, if_neg hlimit, List.cons.injEq,
          World.parts_ne_nil, and_false] at hown
  | ignoreError body =>
    simp only [World.own, parts, List.cons.injEq, World.parts_ne_nil, and_false] at hown
  | fail => cases hresult

end Callflow
