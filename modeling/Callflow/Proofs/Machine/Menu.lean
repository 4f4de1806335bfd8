import Callflow.Proofs.Machine.Parts
import Callflow.Proofs.World.Menu

/-!
# Transitions that keep the menu

What programs can call changes in a transition only if the host or one of the parts that the
transition evaluates defines something that can be called, or takes the name of it
(`Machine.defines`). Where no transition does so, the programs can call the same services all along
(`Life.offers`).
-/

namespace Callflow

open World (Offers)

variable {σ : Type}

namespace Machine

/-- Whether the host binds a symbol to something that can be called, or takes the name of it. -/
def rebinds (m : Machine σ) : Bool :=
  match m.focus with
  | .code (.define symbol draft _) =>
    (m.world.store.make World.root draft).2.target?.isSome ||
      ((m.world.store.local? World.root symbol).bind Value.target?).isSome
  | .code (.bind ..) => true
  | _ => false

/-- Whether the next transition changes what programs can call. -/
def defines (m : Machine σ) : Bool := m.rebinds || m.parts.any Part.defines

variable {menu : Menu} {w : World σ} {stack : List (Activation σ)}

theorem defines_eq_false {m : Machine σ} (h : m.defines = false) :
    m.rebinds = false ∧ ∀ p ∈ m.parts, p.defines = false := by
  rw [defines, Bool.or_eq_false_iff, List.any_eq_false] at h
  exact ⟨h.1, fun p hp => Bool.eq_false_iff.2 (h.2 p hp)⟩

/-! ## Evaluations, processing and clients -/

theorem evaluate_offers (h : w.Offers menu) {activity : Activity} {frame : Frame}
    {next : Continuation σ}
    (hparts : ∀ p ∈ World.parts (inUse stack) activity frame next w, p.defines = false) :
    (evaluate w stack activity frame next).world.Offers menu := by
  rw [evaluate, proceed_world]
  exact World.evaluate_offers _ activity frame next h hparts

theorem execute_offers (h : w.Offers menu) {scope : ScopeId} {op : Operation}
    {next : Continuation σ}
    (hparts : ∀ p ∈ executeParts w stack scope op next, p.defines = false) :
    (execute w stack scope op next).world.Offers menu :=
  evaluate_offers (h.newScope (some scope) none) hparts

theorem process_offers (h : w.Offers menu) {request : RequestId} {target : Target}
    (hparts : ∀ p ∈ processParts w stack request target, p.defines = false) :
    (process w stack request target).world.Offers menu := by
  cases target with
  | endpoint id => exact h
  | service id =>
    simp only [processParts] at hparts
    simp only [process]
    cases hservice : w.store.service? id with
    | none => exact h
    | some service =>
      cases hrequest : w.request? request with
      | none => exact h
      | some r =>
        rw [hservice, hrequest] at hparts
        dsimp only at hparts ⊢
        cases hop : service.operations.find? r.operation with
        | none => exact h
        | some op =>
          rw [hop] at hparts
          exact execute_offers h hparts

theorem fire_offers (h : w.Offers menu) {id : ClientId} {scope : ScopeId}
    (hparts : ∀ p ∈ fireParts w stack id scope, p.defines = false) :
    (fire w stack id scope).world.Offers menu := by
  unfold fireParts at hparts
  unfold fire
  cases hclient : w.store.client? id with
  | none => exact h
  | some client =>
    have hcounted : Offers menu { w with store := w.store.modifyClient id fun c =>
        { c with firings := c.firings + 1 } } := h.of_same rfl rfl
    rw [hclient] at hparts
    dsimp only at hparts ⊢
    generalize ({ w with store := w.store.modifyClient id fun c =>
      { c with firings := c.firings + 1 } } : World σ) = counted at hcounted hparts ⊢
    cases hs : counted.schedule client.period .clientFiring (.fire id scope) with
    | error cause => exact hcounted
    | ok scheduled =>
      rw [hs] at hparts
      exact evaluate_offers (hcounted.of_store (World.schedule_store hs)) hparts

theorem complete_offers (h : w.Offers menu) (id : ClientId) (outcome : Outcome) :
    (complete w stack id outcome).world.Offers menu := by
  cases outcome with
  | success value =>
    unfold complete
    dsimp only
    split <;> exact h.of_same rfl rfl
  | failure cause =>
    unfold complete
    dsimp only
    split <;> exact h.of_same rfl rfl

theorem reply_offers (h : w.Offers menu) (request : RequestId) (failure : Option Failure) :
    (reply w stack request failure).world.Offers menu := by
  rw [reply_world]
  exact h.of_store (World.settle_store ..)

/-! ## Transitions -/

theorem execScript_offers (h : w.Offers menu) {script : Script σ}
    (hnone : defines ⟨w, stack, .code script⟩ = false) :
    (execScript w stack script).world.Offers menu := by
  rcases defines_eq_false hnone with ⟨hrebinds, hparts⟩
  cases script with
  | evaluate activity caller resume next => exact evaluate_offers h hparts
  | execute id op resume next =>
    simp only [parts] at hparts
    simp only [execScript]
    cases hservice : w.store.service? id with
    | none => exact h
    | some service =>
      rw [hservice] at hparts
      exact execute_offers h hparts
  | process request target next => exact process_offers h hparts
  | reply request failure next => exact reply_offers h request failure
  | define symbol draft next =>
    rw [rebinds, Bool.or_eq_false_iff] at hrebinds
    have hvalue := Option.isNone_iff_eq_none.1 (Option.isSome_eq_false_iff.1 hrebinds.1)
    have hfree := Option.isNone_iff_eq_none.1 (Option.isSome_eq_false_iff.1 hrebinds.2)
    have hmade : Offers menu { w with store := (w.store.make World.root draft).1 } := by
      cases draft with
      | service name => cases hvalue
      | endpoint name => cases hvalue
      | _ => exact h.of_same rfl rfl
    refine hmade.bind hvalue ?_
    cases draft with
    | service name => cases hvalue
    | _ => exact hfree
  | bind symbol name transit handler next => cases hrebinds
  | schedule delay kind callback next =>
    simp only [execScript]
    split
    · rename_i hs
      exact h.of_store (World.schedule_store hs)
    · exact h
  | replyAfter delay request failure next =>
    simp only [execScript]
    split
    · rename_i hs
      exact h.of_store (World.schedule_store hs)
    · exact h
  | send request target next =>
    have hsent := World.send_store w request target
    simp only [execScript]
    split
    · rename_i hs
      rw [hs] at hsent
      exact h.of_store hsent
    · rename_i hs
      rw [hs] at hsent
      exact h.of_store hsent
  | _ => exact h.of_same rfl rfl

theorem resume_offers (h : w.Offers menu) {next : Continuation σ} {outcome : Outcome}
    (hnone : defines ⟨w, stack, .resume next outcome⟩ = false) :
    (resume w stack next outcome).world.Offers menu := by
  cases next with
  | host code => exact h
  | reply request => cases outcome <;> exact reply_offers h _ _
  | complete client => exact complete_offers h client outcome
  | steps rest frame next =>
    cases outcome with
    | success value =>
      rw [resume, proceed_world]
      exact World.evaluateSteps_offers _ rest frame value next h (defines_eq_false hnone).2
    | failure cause => exact h
  | service id next => cases outcome <;> exact h
  | ignore next => cases outcome <;> exact h
  | retry state body frame next =>
    rw [resume, proceed_world]
    exact h.of_store (World.afterAttempt_store ..)

theorem dispatch_offers {t : Turn σ} (h : t.world.Offers menu)
    (hparts : ∀ p ∈ t.parts, p.defines = false) :
    (dispatch t.world t.stack t.event.work).world.Offers menu := by
  unfold Turn.parts at hparts
  cases hwork : t.event.work with
  | host code => exact h
  | deliver request target =>
    rw [hwork] at hparts
    exact process_offers h hparts
  | expire request deadline =>
    simp only [dispatch]
    split
    · split
      · exact reply_offers h _ _
      · exact h
    · exact h
  | wake next => exact h
  | attempt state body frame next =>
    rw [hwork] at hparts
    simp only [dispatch, proceed_world]
    exact .attempt (World.evaluate_offers _ body frame _ h hparts)
  | fire client scope =>
    rw [hwork] at hparts
    exact fire_offers h hparts
  | reply request failure => exact reply_offers h request failure

theorem back_offers (h : w.Offers menu) {result : Except SimulationError Unit}
    {caller : Activation σ} (hturn : turn? ⟨w, caller :: stack, .back result⟩ = none) :
    (back w stack result caller).world.Offers menu := by
  cases caller with
  | run horizon count next =>
    cases result with
    | error e => exact h
    | ok _ =>
      unfold back continueRun
      dsimp only
      split
      · exact h
      · rename_i hspent
        cases htake : w.agenda.take? horizon with
        | none => exact h.of_store rfl
        | some taken => simp [turn?, hspent, htake] at hturn
  | successHook client hook =>
    simp only [back, restoreSuccess]
    split <;> exact h.of_store rfl
  | failureHook client hook =>
    simp only [back, restoreFailure]
    split <;> exact h.of_store rfl
  | _ => exact h

theorem Next.offers {b c : Machine σ} (h : Next b c) (hb : b.world.Offers menu)
    (hnone : b.defines = false) : c.world.Offers menu := by
  cases h with
  | call script _ => exact hb
  | step hs =>
    cases hturn : b.turn? with
    | some t =>
      rcases turn?_spec hturn with ⟨htaking, hstep⟩
      rw [hstep] at hs
      cases hs
      have hparts := (defines_eq_false hnone).2
      refine dispatch_offers (hb.of_store ?_) fun p hp => hparts p ?_
      · rcases htaking.take with ⟨horizon, agenda, -, hworld⟩
        rw [hworld]
        rfl
      · simp only [parts, htaking.focus, hturn, Option.map_some, Option.getD_some]
        exact hp
    | none =>
      rcases b with ⟨w, stack, focus⟩
      cases focus with
      | code script =>
        cases hs
        exact execScript_offers hb hnone
      | resume next outcome =>
        cases hs
        exact resume_offers hb hnone
      | back result =>
        cases stack with
        | nil => cases hs
        | cons caller stack =>
          cases hs
          exact back_offers hb hturn
      | crash cause =>
        cases stack with
        | nil => cases hs
        | cons caller stack =>
          cases hs
          cases caller <;> exact hb

/-- Where no transition changes what programs can call, it stays the same. -/
theorem Life.offers {past : List (Machine σ)} {b c : Machine σ} (h : Life b past c)
    (hb : b.world.Offers menu) (hnone : ∀ x ∈ past, x.defines = false) : c.world.Offers menu := by
  induction h with
  | refl => exact hb
  | next _ hn ih =>
    exact hn.offers (ih fun x hx => hnone x (List.mem_append_left _ hx)) (hnone _ (by simp))

end Machine
end Callflow
