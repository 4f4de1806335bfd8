import Callflow.Proofs.Machine.Life

/-!
# What is put above the callers

Whatever a machine is called to do, it puts only activations above its callers that hold references;
and where it goes on with host code, the hook of a client may stand above them (`Over`). Only host
code gets callers of its own: a run, or host code that waits for an answer (`execScript_over`).
-/

namespace Callflow

variable {σ : Type}

/-- Whether an activation only holds references. -/
def Activation.isHold : Activation σ → Bool
  | .hold _ => true
  | _ => false

/-- Whether an activation is a run in progress. -/
def Activation.isRun : Activation σ → Bool
  | .run .. => true
  | _ => false

/-- Whether host code is executed next. -/
def Focus.isCode : Focus σ → Bool
  | .code _ => true
  | _ => false

/-- Whether a call returns next, or is given up. -/
def Focus.returns : Focus σ → Bool
  | .back _ => true
  | .crash _ => true
  | _ => false

/-- The caller that a piece of host code becomes when it calls something that has to return. -/
def Script.caller? : Script σ → Option (Activation σ)
  | .shield _ next => some (.shield next)
  | .run horizon next => some (.run horizon 0 next)
  | .evaluate _ _ _ next => some (.await next)
  | .execute _ _ _ next => some (.await next)
  | .process _ _ next => some (.await next)
  | .reply _ _ next => some (.await next)
  | _ => none

namespace Machine

/-- A machine that has put some activations above its callers. -/
structure Raised (stack extra : List (Activation σ)) (m : Machine σ) : Prop where
  stack : m.stack = extra ++ stack
  running : ∀ caller ∈ extra, caller.isRun = false
  holding : m.focus.isCode = false → ∀ caller ∈ extra, caller.isHold = true

/-- A machine above some callers. -/
def Over (stack : List (Activation σ)) (m : Machine σ) : Prop := ∃ extra, Raised stack extra m

namespace Over

theorem same (w : World σ) (stack : List (Activation σ)) (focus : Focus σ) :
    Over stack ⟨w, stack, focus⟩ :=
  ⟨[], rfl, by simp, by simp⟩

/-- What is above a caller that holds references is above the others, too. -/
theorem push {stack : List (Activation σ)} {refs : List Ref} {m : Machine σ}
    (h : Over (.hold refs :: stack) m) : Over stack m := by
  rcases h with ⟨extra, hstack, hrunning, hholding⟩
  refine ⟨extra ++ [.hold refs], by rw [hstack, List.append_assoc]; rfl, ?_, ?_⟩
  · intro caller hcaller
    rcases List.mem_append.1 hcaller with hcaller | hcaller
    · exact hrunning caller hcaller
    · rw [List.mem_singleton.1 hcaller]
      rfl
  · intro hcode caller hcaller
    rcases List.mem_append.1 hcaller with hcaller | hcaller
    · exact hholding hcode caller hcaller
    · rw [List.mem_singleton.1 hcaller]
      rfl

/-- The hook of a client runs above its callers. -/
theorem hook (w : World σ) {stack : List (Activation σ)} (caller : Activation σ)
    (script : Script σ) (h : caller.isRun = false) :
    Over stack ⟨w, caller :: stack, .code script⟩ := by
  refine ⟨[caller], rfl, ?_, by simp [Focus.isCode]⟩
  intro other hother
  rw [List.mem_singleton.1 hother]
  exact h

theorem proceed (stack : List (Activation σ)) (next : Continuation σ) (e : Evaluation σ) :
    Over stack (Machine.proceed stack next e) := by
  rcases e with ⟨w, result⟩
  cases result with
  | error cause => cases cause <;> exact same ..
  | ok progress =>
    cases progress with
    | suspended => exact same ..
    | resolved outcome held => exact (same _ (.hold held :: stack) _).push

theorem execute (w : World σ) (stack : List (Activation σ)) (scope : ScopeId) (op : Operation)
    (next : Continuation σ) : Over stack (Machine.execute w stack scope op next) :=
  (proceed (.hold [.scope _] :: stack) next _).push

theorem reply (w : World σ) (stack : List (Activation σ)) (request : RequestId)
    (failure : Option Failure) : Over stack (Machine.reply w stack request failure) := by
  unfold Machine.reply
  split <;> exact same ..

theorem process (w : World σ) (stack : List (Activation σ)) (request : RequestId)
    (target : Target) : Over stack (Machine.process w stack request target) := by
  cases target with
  | endpoint id => exact (same w (.hold [.request request] :: stack) _).push
  | service id =>
    unfold Machine.process
    dsimp only
    split
    · split
      · exact same ..
      · exact (execute ..).push
    · exact same ..

theorem fire (w : World σ) (stack : List (Activation σ)) (id : ClientId) (scope : ScopeId) :
    Over stack (Machine.fire w stack id scope) := by
  unfold Machine.fire
  split
  · exact same ..
  · dsimp only
    split
    · exact same ..
    · exact (proceed (.hold [.scope scope] :: stack) ..).push

theorem complete (w : World σ) (stack : List (Activation σ)) (id : ClientId) (outcome : Outcome) :
    Over stack (Machine.complete w stack id outcome) := by
  cases outcome with
  | success value =>
    unfold Machine.complete
    dsimp only
    split
    · exact same ..
    · rename_i success _
      exact (hook _ (.successHook id success) success rfl).push
  | failure cause =>
    unfold Machine.complete
    dsimp only
    split
    · exact same ..
    · rename_i failed _
      exact hook _ (.failureHook id failed) (failed cause) rfl

theorem resume (w : World σ) (stack : List (Activation σ)) (next : Continuation σ)
    (outcome : Outcome) : Over stack (Machine.resume w stack next outcome) := by
  cases next with
  | host code => exact same ..
  | reply request =>
    cases outcome with
    | success value => exact (reply w (.hold value.refs :: stack) request none).push
    | failure cause => exact reply w stack request (some cause)
  | complete client => exact complete w stack client outcome
  | steps rest frame next =>
    cases outcome with
    | success value => exact proceed stack next _
    | failure cause => exact (same w (.hold frame.refs :: stack) _).push
  | service id next =>
    cases outcome with
    | success value => exact (same w (.hold value.refs :: stack) _).push
    | failure cause => exact (same w (.hold [.service id] :: stack) _).push
  | ignore next => cases outcome <;> exact same ..
  | retry state body frame next => exact proceed stack next _

theorem dispatch (w : World σ) (stack : List (Activation σ)) (work : Callback σ) :
    Over stack (Machine.dispatch w stack work) := by
  cases work with
  | host code => exact same ..
  | deliver request target => exact process w stack request target
  | expire request deadline =>
    unfold Machine.dispatch
    dsimp only
    split
    · split
      · exact reply w stack request _
      · exact same ..
    · exact same ..
  | wake next => exact same ..
  | attempt state body frame next => exact (proceed (.hold frame.refs :: stack) next _).push
  | fire client scope => exact fire w stack client scope
  | reply request failure => exact reply w stack request failure

end Over

/-- Host code calls something, and waits below it; or it goes on, returns or gives up. -/
theorem execScript_over (w : World σ) (stack : List (Activation σ)) (script : Script σ) :
    (∃ caller, script.caller? = some caller ∧ Over (caller :: stack) (execScript w stack script)) ∨
    ((execScript w stack script).stack = stack ∧
      ((execScript w stack script).focus.isCode = true ∨ script.caller? = none)) := by
  cases script with
  | shield body next => exact Or.inl ⟨_, rfl, .same ..⟩
  | run horizon next => exact Or.inl ⟨_, rfl, .same ..⟩
  | evaluate activity caller resume next => exact Or.inl ⟨_, rfl, .proceed ..⟩
  | execute id op resume next =>
    cases hservice : w.store.service? id with
    | none => exact Or.inr (by simp [execScript, hservice, Focus.isCode])
    | some service =>
      refine Or.inl ⟨_, rfl, ?_⟩
      simp only [execScript, hservice]
      exact (Over.execute ..).push
  | process request target next => exact Or.inl ⟨_, rfl, .process ..⟩
  | reply request failure next => exact Or.inl ⟨_, rfl, .reply ..⟩
  | schedule delay kind callback next =>
    refine Or.inr ⟨?_, Or.inr rfl⟩
    unfold execScript
    dsimp only
    split <;> rfl
  | replyAfter delay request failure next =>
    refine Or.inr ⟨?_, Or.inr rfl⟩
    unfold execScript
    dsimp only
    split <;> rfl
  | send request target next =>
    refine Or.inr ⟨?_, Or.inr rfl⟩
    unfold execScript
    dsimp only
    split <;> rfl
  | _ => exact Or.inr ⟨rfl, Or.inr rfl⟩

/-- Host code that calls nothing goes on, gives up, or returns. -/
theorem execScript_focus (w : World σ) (stack : List (Activation σ)) {script : Script σ}
    (h : script.caller? = none) :
    (execScript w stack script).focus.isCode = true ∨
    (∃ cause, (execScript w stack script).focus = .crash cause) ∨
    (execScript w stack script).focus = .back (.ok ()) ∨
    ∃ e, script = .fail e ∧ (execScript w stack script).focus = .back (.error e) := by
  cases script with
  | shield body next => cases h
  | run horizon next => cases h
  | evaluate activity caller resume next => cases h
  | execute id op resume next => cases h
  | process request target next => cases h
  | reply request failure next => cases h
  | done => exact Or.inr (Or.inr (Or.inl rfl))
  | fail cause => exact Or.inr (Or.inr (Or.inr ⟨cause, rfl, rfl⟩))
  | crash cause => exact Or.inr (Or.inl ⟨cause, rfl⟩)
  | schedule delay kind callback next =>
    left
    unfold execScript
    dsimp only
    split <;> rfl
  | replyAfter delay request failure next =>
    left
    unfold execScript
    dsimp only
    split <;> rfl
  | send request target next =>
    unfold execScript
    dsimp only
    split
    · exact Or.inl rfl
    · exact Or.inr (Or.inl ⟨_, rfl⟩)
  | _ => exact Or.inl rfl

end Machine
end Callflow
