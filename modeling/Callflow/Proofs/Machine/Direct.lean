import Callflow.Proofs.Machine.Running
import Callflow.Proofs.Machine.Slots
import Callflow.Proofs.World.Direct

/-!
# Direct worlds stay direct

A machine is direct above some callers if its world is, and all host code above the callers, where
no run stands (`DirectAbove`). No transition changes this, until the callers are returned to
(`DirectAbove.step`).
-/

namespace Callflow

variable {σ : Type}

/-- A caller that is no run, and whose host code is direct. -/
def Activation.Direct : Activation σ → Prop
  | .hold _ => True
  | .run .. => False
  | .await next => (Piece.branch next).Direct
  | .shield next => (Piece.branch next).Direct
  | .successHook _ hook => (Piece.code hook).Direct
  | .failureHook _ hook => (Piece.branch hook).Direct

theorem Activation.Direct.not_isRun {caller : Activation σ} (h : caller.Direct) :
    caller.isRun = false := by
  cases caller <;> first | rfl | cases h

/-- Only direct host code goes on from here. -/
def Focus.Direct : Focus σ → Prop
  | .code script => (Piece.code script).Direct
  | .resume next _ => next.Direct
  | _ => True

namespace World

/-- The hooks of a client are set. -/
theorem Direct.setObservers {w : World σ} (hw : w.Direct) (id : ClientId) {o : Observers σ}
    (ho : o.Direct) : (w.setObservers id o).Direct where
  events := hw.events
  ends := hw.ends
  hooks := hw.hooks
  observers := by
    intro other
    rw [observersOf_setObservers]
    split
    · exact ho
    · exact hw.observers other
  handlers := hw.handlers

/-- An endpoint gets a handler. -/
theorem Direct.bind {w : World σ} (hw : w.Direct) (id : EndpointId)
    {handler : RequestId → Script σ} (h : (Piece.branch handler).Direct) :
    World.Direct { w with handlers := (id, handler) :: w.handlers } where
  events := hw.events
  ends := hw.ends
  hooks := hw.hooks
  observers := hw.observers
  handlers := by
    intro other
    by_cases hsame : other = id
    · have hhandle : World.handle { w with handlers := (id, handler) :: w.handlers } other =
          handler := by
        funext request
        simp [World.handle, hsame]
      rw [hhandle]
      exact h
    · have hhandle : World.handle { w with handlers := (id, handler) :: w.handlers } other =
          w.handle other := by
        funext request
        have hne : (other == id) = false := by simpa using hsame
        simp [World.handle, List.lookup_cons, hne]
      rw [hhandle]
      exact hw.handlers other

end World

namespace Machine

/-- In the world, and above some callers, all host code is direct, and there is no run. -/
structure DirectAbove (callers : List (Activation σ)) (m : Machine σ) : Prop where
  stack : ∃ inner, m.stack = inner ++ callers ∧ ∀ caller ∈ inner, caller.Direct
  focus : m.focus.Direct
  world : m.world.Direct

namespace DirectAbove

variable {w : World σ} {stack : List (Activation σ)}

theorem same (hw : w.Direct) {focus : Focus σ} (hfocus : focus.Direct) :
    DirectAbove stack ⟨w, stack, focus⟩ :=
  ⟨⟨[], rfl, by simp⟩, hfocus, hw⟩

/-- What is above direct callers is above those below them, too. -/
theorem append {inner : List (Activation σ)} {m : Machine σ} (h : DirectAbove (inner ++ stack) m)
    (hinner : ∀ caller ∈ inner, caller.Direct) : DirectAbove stack m := by
  rcases h with ⟨⟨extra, hstack, hextra⟩, hfocus, hworld⟩
  refine ⟨⟨extra ++ inner, by rw [hstack, List.append_assoc], ?_⟩, hfocus, hworld⟩
  intro caller hcaller
  rcases List.mem_append.1 hcaller with hcaller | hcaller
  · exact hextra caller hcaller
  · exact hinner caller hcaller

theorem push {caller : Activation σ} {m : Machine σ} (h : DirectAbove (caller :: stack) m)
    (hcaller : caller.Direct) : DirectAbove stack m := by
  have hone : DirectAbove ([caller] ++ stack) m := h
  refine hone.append ?_
  intro other hother
  rw [List.mem_singleton.1 hother]
  exact hcaller

/-! ## Evaluations and replies -/

theorem proceed {next : Continuation σ} (hnext : next.Direct) {e : Evaluation σ}
    (he : e.1.Direct) : DirectAbove stack (Machine.proceed stack next e) := by
  rcases e with ⟨v, result⟩
  cases result with
  | error cause => cases cause <;> exact same he trivial
  | ok progress =>
    cases progress with
    | suspended => exact same he trivial
    | resolved outcome held => exact push (same he hnext) trivial

theorem execute (hw : w.Direct) (scope : ScopeId) (op : Operation) {next : Continuation σ}
    (hnext : next.Direct) : DirectAbove stack (Machine.execute w stack scope op next) := by
  have hfresh : World.Direct { w with store := (w.store.newScope (some scope) none).1 } :=
    hw.of_same rfl rfl rfl
  exact push (proceed hnext (hfresh.evaluate hnext ..)) trivial

/-- The end of an operation is no host code. -/
theorem direct_reply (request : RequestId) :
    (Continuation.reply request : Continuation σ).Direct := by
  rintro resume ⟨⟩

theorem reply (hw : w.Direct) (request : RequestId) (failure : Option Failure) :
    DirectAbove stack (Machine.reply w stack request failure) := by
  have hsettle := hw.settle request failure
  unfold Machine.reply
  generalize w.settle request failure = settled at hsettle
  rcases settled with ⟨v, waiter⟩
  rcases hsettle with ⟨hv, hhooks, hnext⟩
  cases waiter with
  | nobody => cases failure <;> exact same hv trivial
  | continuation next => cases failure <;> exact same hv (hnext next rfl)
  | host succeeded failed =>
    cases failure with
    | none =>
      cases succeeded with
      | none => cases failed <;> exact same hv trivial
      | some hook =>
        have hhook := hhooks (.code hook) (by simp [Waiter.hooks])
        cases failed <;> exact same hv hhook
    | some cause =>
      cases failed with
      | none => cases succeeded <;> exact same hv trivial
      | some hook =>
        have hhook := hhooks (.branch hook) (by simp [Waiter.hooks])
        cases succeeded <;> exact same hv (hhook.answer cause)

theorem process (hw : w.Direct) (request : RequestId) (target : Target) :
    DirectAbove stack (Machine.process w stack request target) := by
  cases target with
  | endpoint id => exact push (same hw ((hw.handlers id).answer request)) trivial
  | service id =>
    unfold Machine.process
    split
    · cases ‹_ = _›
    · split
      · split
        · exact same hw trivial
        · exact push (execute hw _ _ (direct_reply request)) trivial
      · exact same hw trivial

/-! ## Clients -/

theorem fire (hw : w.Direct) (id : ClientId) (scope : ScopeId) :
    DirectAbove stack (Machine.fire w stack id scope) := by
  cases hclient : w.store.client? id with
  | none =>
    simp only [Machine.fire, hclient]
    exact same hw trivial
  | some client =>
    have hcounted : World.Direct { w with
        store := w.store.modifyClient id fun c => { c with firings := c.firings + 1 } } :=
      hw.of_same rfl rfl rfl
    simp only [Machine.fire, hclient]
    split
    · have hrefused (e : SimulationError) : (Focus.back (.error e) : Focus σ).Direct := trivial
      exact same hcounted (hrefused _)
    · rename_i v event hs
      have hv := hcounted.schedule hs (by simp) fun _ => rfl
      have hnext : (Continuation.complete id : Continuation σ).Direct := by rintro resume ⟨⟩
      exact push (proceed hnext (hv.evaluate hnext ..)) trivial

/-- The hook of a client is kept below it while it runs. -/
theorem complete (hw : w.Direct) (id : ClientId) (outcome : Outcome) :
    DirectAbove stack (Machine.complete w stack id outcome) := by
  have hcounted (change : Client → Client) :
      World.Direct { w with store := w.store.modifyClient id change } := hw.of_same rfl rfl rfl
  have hset := hw.observers id
  cases outcome with
  | success value =>
    unfold Machine.complete
    dsimp only
    split
    · exact same (hcounted _) trivial
    · rename_i hook hhook
      have htaken : Observers.Direct { w.observersOf id with onSuccess := none } :=
        ⟨by simp, hset.failure⟩
      have hrun := hset.success hook hhook
      exact push (push (same ((hcounted _).setObservers id htaken) hrun) hrun) trivial
  | failure cause =>
    unfold Machine.complete
    dsimp only
    split
    · exact same (hcounted _) trivial
    · rename_i hook hhook
      have htaken : Observers.Direct { w.observersOf id with onFailure := none } :=
        ⟨hset.success, by simp⟩
      have hrun := hset.failure hook hhook
      exact push (same ((hcounted _).setObservers id htaken) (hrun.answer cause)) hrun

end DirectAbove

/-! ## Host code -/

/-- What some host code comes to with its first node, in a direct world: it goes on by itself, it is
done, or it has called something direct; or it is a run, which is about to go on. -/
inductive Executed (w : World σ) (stack : List (Activation σ)) (script : Script σ) :
    Machine σ → Prop where
  | code {v : World σ} {next : Script σ} : v.Direct → .code next ∈ script.onward →
      Executed w stack script ⟨v, stack, .code next⟩
  | answer {v : World σ} {α : Type} {next : α → Script σ} (answer : α) : v.Direct →
      .branch next ∈ script.onward → Executed w stack script ⟨v, stack, .code (next answer)⟩
  | done {v : World σ} {focus : Focus σ} : v.Direct → focus.Direct →
      Executed w stack script ⟨v, stack, focus⟩
  | calls {m : Machine σ} {next : Except SimulationError Unit → Script σ} :
      .branch next ∈ script.onward → DirectAbove (.await next :: stack) m →
      Executed w stack script m
  | shields {body : Script σ}
      {next : Except SchedulingError (Except SimulationError Unit) → Script σ} :
      .code body ∈ script.onward → .branch next ∈ script.onward →
      Executed w stack script ⟨w, .shield next :: stack, .code body⟩
  | runs (horizon : Time) (next : Except SimulationError Nat → Script σ) :
      script = .run horizon next →
      Executed w stack script ⟨w, .run horizon 0 next :: stack, .back (.ok ())⟩

/-- Host code that hands over only what is direct executes its first node. -/
theorem execScript_executed {w : World σ} (hw : w.Direct) (stack : List (Activation σ))
    {script : Script σ} (hstarts : ∀ c ∈ script.starts, c.piece.Direct)
    (hleaves : ∀ x ∈ script.leaves, x.Direct) :
    Executed w stack script (execScript w stack script) := by
  have hresume (resume : Outcome → Script σ) (hstart : .host resume ∈ script.starts) :
      (Continuation.host resume).Direct := by
    rintro _ ⟨⟩
    exact hstarts _ hstart
  cases script with
  | done => exact .done hw trivial
  | fail cause => exact .done hw trivial
  | crash cause => exact .done hw trivial
  | shield body next => exact .shields (by simp [Script.onward]) (by simp [Script.onward])
  | «recall» next => exact .answer _ hw (by simp [Script.onward])
  | remember change next => exact .code (hw.of_same rfl rfl rfl) (by simp [Script.onward])
  | observe next => exact .answer _ hw (by simp [Script.onward])
  | readJournal next => exact .answer _ hw (by simp [Script.onward])
  | record entry next => exact .code (hw.of_same rfl rfl rfl) (by simp [Script.onward])
  | schedule delay kind callback next =>
    unfold execScript
    dsimp only
    split
    · rename_i v id hs
      refine .answer _ (hw.schedule hs ?_ fun _ => rfl) (by simp [Script.onward])
      rintro code ⟨⟩
      exact hleaves _ (by simp [Script.leaves])
    · exact .answer _ hw (by simp [Script.onward])
  | replyAfter delay request failure next =>
    unfold execScript
    dsimp only
    split
    · rename_i v id hs
      exact .answer _ (hw.schedule hs (by simp) fun _ => rfl) (by simp [Script.onward])
    · exact .answer _ hw (by simp [Script.onward])
  | run horizon next => exact .runs horizon next rfl
  | evaluate activity caller resume next =>
    have hnext := hresume resume (by simp [Script.starts])
    exact .calls (by simp [Script.onward]) (DirectAbove.proceed hnext (hw.evaluate hnext ..))
  | execute id op resume next =>
    unfold execScript
    dsimp only
    split
    · exact .answer _ hw (by simp [Script.onward])
    · have hnext := hresume resume (by simp [Script.starts])
      exact .calls (by simp [Script.onward]) (.push (.execute hw _ op hnext) trivial)
  | define symbol draft next =>
    exact .answer _ (hw.of_same rfl rfl rfl) (by simp [Script.onward])
  | bind symbol name transit handler next =>
    have hbound := hw.bind (w.store.newEndpoint name transit).2
      (hleaves (.branch handler) (by simp [Script.leaves]))
    exact .answer _ (hbound.of_same rfl rfl rfl) (by simp [Script.onward])
  | onSuccess client hook next =>
    have hset : Observers.Direct { w.observersOf client with onSuccess := some hook } := by
      refine ⟨?_, (hw.observers client).failure⟩
      rintro _ ⟨⟩
      exact hleaves _ (by simp [Script.leaves])
    exact .code (hw.setObservers client hset) (by simp [Script.onward])
  | onFailure client hook next =>
    have hset : Observers.Direct { w.observersOf client with onFailure := some hook } := by
      refine ⟨(hw.observers client).success, ?_⟩
      rintro _ ⟨⟩
      exact hleaves _ (by simp [Script.leaves])
    exact .code (hw.setObservers client hset) (by simp [Script.onward])
  | allocate next => exact .answer _ hw.allocate (by simp [Script.onward])
  | request caller operation deadline succeeded failed next =>
    exact .answer _ (hw.issue caller operation deadline hleaves fun _ => rfl)
      (by simp [Script.onward])
  | keep label request next => exact .code (hw.of_same rfl rfl rfl) (by simp [Script.onward])
  | send request target next =>
    have hsent := hw.send request target
    unfold execScript
    dsimp only
    split
    · rename_i v hs
      rw [hs] at hsent
      exact .code hsent (by simp [Script.onward])
    · rename_i v cause hs
      rw [hs] at hsent
      exact .done hsent trivial
  | process request target next =>
    exact .calls (by simp [Script.onward]) (DirectAbove.process hw request target)
  | reply request failure next =>
    exact .calls (by simp [Script.onward]) (DirectAbove.reply hw request failure)

/-! ## Transitions -/

namespace DirectAbove

variable {w : World σ} {stack : List (Activation σ)}

theorem resume (hw : w.Direct) {next : Continuation σ} (hnext : next.Direct) (outcome : Outcome) :
    DirectAbove stack (Machine.resume w stack next outcome) := by
  cases next with
  | host code => exact same hw ((hnext code rfl).answer outcome)
  | reply request =>
    cases outcome with
    | success value => exact push (reply hw request none) trivial
    | failure cause => exact reply hw request (some cause)
  | complete client => exact complete hw client outcome
  | steps rest frame next =>
    -- The parts of a continuation have the same end.
    have hpart : next.Direct := hnext
    cases outcome with
    | success value => exact proceed hpart (hw.evaluateSteps hpart ..)
    | failure cause => exact push (same hw hpart) trivial
  | service id next =>
    have hpart : next.Direct := hnext
    cases outcome <;> exact push (same hw hpart) trivial
  | ignore next =>
    have hpart : next.Direct := hnext
    cases outcome <;> exact same hw hpart
  | retry state body frame next =>
    have hpart : next.Direct := hnext
    exact proceed hpart (hw.afterAttempt hpart ..)

/-- What an event does is direct if the event is. -/
theorem dispatch (hw : w.Direct) {work : Callback σ}
    (hcode : ∀ code, work = .host code → (Piece.code code).Direct)
    (hends : ∀ resume, .host resume ∈ work.ends → (Piece.branch resume).Direct) :
    DirectAbove stack (Machine.dispatch w stack work) := by
  cases work with
  | host code => exact same hw (hcode code rfl)
  | deliver request target => exact process hw request target
  | expire request deadline =>
    unfold Machine.dispatch
    dsimp only
    split
    · split
      · exact reply hw request _
      · exact same hw trivial
    · exact same hw trivial
  | wake next =>
    have hnext : next.Direct := fun resume h => hends resume (by simp [Callback.ends, h])
    exact same hw hnext
  | attempt state body frame next =>
    have hnext : next.Direct := fun resume h => hends resume (by simp [Callback.ends, h])
    exact push (proceed hnext (hw.attempt hnext ..)) trivial
  | fire client scope => exact fire hw client scope
  | reply request failure => exact reply hw request failure

/-- The first node of direct host code is no run, and goes on with direct host code. -/
theorem execScript (hw : w.Direct) {script : Script σ} (h : (Piece.code script).Direct) :
    DirectAbove stack (Machine.execScript w stack script) := by
  have hexecuted := execScript_executed hw stack h.starts h.leaves
  generalize Machine.execScript w stack script = m at hexecuted ⊢
  cases hexecuted with
  | code hv hnext => exact same hv (h.onward _ hnext)
  | answer answer hv hnext => exact same hv ((h.onward _ hnext).answer answer)
  | done hv hfocus => exact same hv hfocus
  | calls hnext habove => exact push habove (h.onward _ hnext)
  | shields hbody hnext => exact push (same hw (h.onward _ hbody)) (h.onward _ hnext)
  | runs horizon next hrun =>
    subst hrun
    cases h.first

/-- Whoever is returned to above the callers goes on with direct host code, if with any. -/
theorem back (hw : w.Direct) (result : Except SimulationError Unit) {caller : Activation σ}
    (hcaller : caller.Direct) : DirectAbove stack (Machine.back w stack result caller) := by
  cases caller with
  | hold refs => exact same hw trivial
  | run horizon count next => cases hcaller
  | await next => exact same hw (Piece.Direct.answer hcaller result)
  | shield next => exact same hw (Piece.Direct.answer hcaller (.ok result))
  | successHook client hook =>
    refine same ?_ trivial
    unfold restoreSuccess
    dsimp only
    split
    · exact hw
    · refine hw.setObservers client ⟨?_, (hw.observers client).failure⟩
      rintro _ ⟨⟩
      exact hcaller
  | failureHook client hook =>
    refine same ?_ trivial
    unfold restoreFailure
    dsimp only
    split
    · exact hw
    · refine hw.setObservers client ⟨(hw.observers client).success, ?_⟩
      rintro _ ⟨⟩
      exact hcaller

theorem unwind (hw : w.Direct) (cause : SchedulingError) {caller : Activation σ}
    (hcaller : caller.Direct) : DirectAbove stack (Machine.unwind w stack cause caller) := by
  cases caller with
  | shield next => exact same hw (Piece.Direct.answer hcaller (.error cause))
  | _ => exact same hw trivial

/-- A transition that does not return to the callers. -/
theorem step {callers : List (Activation σ)} {m n : Machine σ} (h : DirectAbove callers m)
    (hs : m.step = some n) (habove : m.focus.returns = true → m.stack ≠ callers) :
    DirectAbove callers n := by
  rcases m with ⟨w, all, focus⟩
  rcases h with ⟨⟨inner, hstack, hinner⟩, hfocus, hw⟩
  cases hstack
  cases focus with
  | code script =>
    cases hs
    exact (execScript hw hfocus).append hinner
  | resume next outcome =>
    cases hs
    exact (resume hw hfocus outcome).append hinner
  | back result =>
    cases inner with
    | nil => exact absurd rfl (habove rfl)
    | cons caller inner =>
      cases hs
      exact (back hw result (hinner caller List.mem_cons_self)).append
        fun other hother => hinner other (List.mem_cons_of_mem _ hother)
  | crash cause =>
    cases inner with
    | nil => exact absurd rfl (habove rfl)
    | cons caller inner =>
      cases hs
      exact (unwind hw cause (hinner caller List.mem_cons_self)).append
        fun other hother => hinner other (List.mem_cons_of_mem _ hother)

end DirectAbove
end Machine
end Callflow
