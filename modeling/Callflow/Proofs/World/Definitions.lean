import Callflow.Proofs.World.Menu

/-!
# What an evaluation defines

An evaluation changes the store only by what its parts define, each by itself: a service with its
scope, an operation, or a client (`Part.effect`). The parts are evaluated one after another, so the
store goes from one to the next (`Chain`): `World.evaluate_chain` says so of any evaluation, and
everything about definitions follows part by part.
-/

namespace Callflow

variable {σ : Type}

/-- The service that a part defines, if it is the definition of a service. -/
def Part.service (p : Part σ) : ServiceId := ⟨p.world.store.services.size⟩

/-- The scope that is made with it. -/
def Part.scope (p : Part σ) : ScopeId := ⟨p.world.store.scopes.size⟩

/-- The store after what a part defines by itself, apart from the activities inside of it. -/
def Part.effect (p : Part σ) : Store :=
  match p.activity with
  | .defineService name _ =>
    ((p.world.store.newService name (some p.frame.scope)).1).bind p.frame.scope name
      (.service p.service)
  | .defineOperation name body =>
    match p.frame.service with
    | none => p.world.store
    | some id => p.world.store.register id ⟨name, p.world.store.targetName (.service id), body⟩
  | .defineClient name period body =>
    if Time.isPeriod period then
      ((p.world.store.newClient name period body).1).bind p.frame.scope name
        (.client ⟨p.world.store.clients.size⟩)
    else p.world.store
  | _ => p.world.store

/-- What some parts define one after another leads from one store to another. -/
inductive Chain : Store → List (Part σ) → Store → Prop where
  | nil {s : Store} : Chain s [] s
  | cons {p : Part σ} {rest : List (Part σ)} {t : Store} :
      Chain p.effect rest t → Chain p.world.store (p :: rest) t

namespace Chain

theorem append {s t u : Store} {ps qs : List (Part σ)} (h : Chain s ps t) (k : Chain t qs u) :
    Chain s (ps ++ qs) u := by
  induction h with
  | nil => exact k
  | cons _ ih => exact .cons (ih k)

/-- A part that defines nothing. -/
theorem idle {p : Part σ} {rest : List (Part σ)} {t : Store} (hidle : p.effect = p.world.store)
    (h : Chain p.world.store rest t) : Chain p.world.store (p :: rest) t := by
  refine .cons ?_
  rw [hidle]
  exact h

theorem single (p : Part σ) : Chain p.world.store [p] p.effect := .cons .nil

end Chain

namespace World

theorem defineOperation_effect (w : World σ) (inUse : List Ref) (name : String) (body : Activity)
    (frame : Frame) (next : Continuation σ) :
    (w.defineOperation name body frame).1.store =
      (⟨w, inUse, .defineOperation name body, frame, next⟩ : Part σ).effect := by
  unfold defineOperation
  cases hservice : frame.service with
  | none => simp only [Part.effect, hservice, mistake]
  | some id => simp only [Part.effect, hservice]

theorem defineClient_effect (w : World σ) (inUse : List Ref) (name : String) (period : Time)
    (body : Activity) (frame : Frame) (next : Continuation σ) :
    (w.defineClient name period body frame).1.store =
      (⟨w, inUse, .defineClient name period body, frame, next⟩ : Part σ).effect := by
  unfold defineClient
  cases hperiod : Time.isPeriod period with
  | false => simp only [Part.effect, hperiod, mistake, Bool.not_false, if_true, if_false,
      Bool.false_eq_true]
  | true =>
    simp only [Part.effect, hperiod, Bool.not_true, Bool.false_eq_true, if_true, if_false]
    split
    · rename_i hs
      rw [schedule_store hs]
      rfl
    · rfl

/-! ## Around a body -/

/-- The definition of a service ends in the world in which its body ends. -/
theorem defineService_world (inUse : List Ref) (name : String) (body : List Activity)
    (frame : Frame) (next : Continuation σ) (w : World σ) :
    let p : Part σ := ⟨w, inUse, .defineService name body, frame, next⟩
    (evaluate inUse (.defineService name body) frame next w).1 =
      (evaluate.evaluateSteps inUse body (frame.inside p.service p.scope) .unit
        (.service p.service next) { w with store := p.effect }).1 := by
  rw [evaluate]
  dsimp only
  split
  · rename_i hv
    exact (congrArg Prod.fst hv).symm
  · rename_i hv
    exact (congrArg Prod.fst hv).symm
  · rfl

theorem ignoreError_world (inUse : List Ref) (body : Activity) (frame : Frame)
    (next : Continuation σ) (w : World σ) :
    (evaluate inUse (.ignoreError body) frame next w).1 =
      (evaluate inUse body frame (.ignore next) w).1 := by
  rw [evaluate]
  split
  · rename_i hv
    rw [hv]
  · rfl

/-- One more attempt of a retry defines what its body defines. -/
theorem attempt_store (w : World σ) (inUse : List Ref) (state : RetryState) (body : Activity)
    (frame : Frame) (next : Continuation σ) :
    (attempt inUse state body frame next w).1.store =
      (evaluate inUse body frame (.retry state.begin body frame next) w).1.store := by
  unfold attempt
  dsimp only
  split
  · rename_i v outcome held hv
    rw [afterAttempt_store, hv]
  · rfl

-- Both proofs follow the recursion of the evaluation, which the lists of parts share.
mutual

theorem evaluate_chain (inUse : List Ref) (activity : Activity) (frame : Frame)
    (next : Continuation σ) (w : World σ) :
    Chain w.store (parts inUse activity frame next w)
      (evaluate inUse activity frame next w).1.store := by
  cases activity with
  | defineService name body =>
    let p : Part σ := ⟨w, inUse, .defineService name body, frame, next⟩
    have hbody := evaluateSteps_chain inUse body (frame.inside p.service p.scope) .unit
      (.service p.service next) { w with store := p.effect }
    rw [defineService_world]
    exact Chain.cons (p := p) hbody
  | defineOperation name body =>
    rw [evaluate, defineOperation_effect w inUse name body frame next]
    exact .single ⟨w, inUse, .defineOperation name body, frame, next⟩
  | defineClient name period body =>
    rw [evaluate, defineClient_effect w inUse name period body frame next]
    exact .single ⟨w, inUse, .defineClient name period body, frame, next⟩
  | trigger target operation =>
    rw [evaluate, trigger_store]
    exact .single ⟨w, inUse, .trigger target operation, frame, next⟩
  | query target operation timeout =>
    rw [evaluate, query_store]
    exact .single ⟨w, inUse, .query target operation timeout, frame, next⟩
  | sequence steps =>
    rw [parts, evaluate]
    exact Chain.idle (p := ⟨w, inUse, .sequence steps, frame, next⟩) rfl
      (evaluateSteps_chain inUse steps frame .unit next w)
  | think duration =>
    rw [evaluate, suspend_store]
    exact .single ⟨w, inUse, .think duration, frame, next⟩
  | retry body limit delay =>
    rw [parts, evaluate]
    refine Chain.idle (p := ⟨w, inUse, .retry body limit delay, frame, next⟩) rfl ?_
    cases Time.checkDelay delay.base with
    | error e => exact .nil
    | ok _ =>
      cases RetryState.start limit delay with
      | error e => exact .nil
      | ok state =>
        have hbody := evaluate_chain inUse body frame (.retry state.begin body frame next) w
        rw [← attempt_store] at hbody
        exact hbody
  | ignoreError body =>
    rw [ignoreError_world]
    exact Chain.idle (p := ⟨w, inUse, .ignoreError body, frame, next⟩) rfl
      (evaluate_chain inUse body frame (.ignore next) w)
  | fail => exact .single ⟨w, inUse, .fail, frame, next⟩

theorem evaluateSteps_chain (inUse : List Ref) (steps : List Activity) (frame : Frame)
    (last : Value) (next : Continuation σ) (w : World σ) :
    Chain w.store (parts.ofSteps inUse steps frame last next w)
      (evaluate.evaluateSteps inUse steps frame last next w).1.store := by
  cases steps with
  | nil => exact .nil
  | cons step rest =>
    have hstep := evaluate_chain inUse step frame (.steps rest frame next) w
    rw [parts.ofSteps, evaluate.evaluateSteps]
    -- Only a step that resolves to a value is followed by another one.
    split
    · rename_i v value held hv
      rw [hv] at hstep
      rw [hv]
      exact hstep.append (evaluateSteps_chain inUse rest frame value next v)
    · rename_i hother
      rw [List.append_nil]
      split
      · rename_i v value held hv
        exact absurd hv (hother v value held)
      · rename_i hv
        rw [hv] at hstep
        exact hstep
      · exact hstep

end

end World
end Callflow
