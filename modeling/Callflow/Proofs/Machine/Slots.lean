import Callflow.Proofs.Machine.Cadence
import Callflow.Proofs.World.Setup
import Mathlib.Data.List.Induction

/-!
# What becomes of a hook

The hook for one outcome of a client's body is taken when such an outcome is counted, and it is set
again when it has returned, unless another one has been set meanwhile. So the hook that is set and the
calls of hooks that are in progress make a `Slot`, and every transition makes the move of the slot that
the machine tells, or none (`Next.moves_slot`).
-/

namespace Callflow

variable {σ : Type}

/-! ## Slots -/

/-- The hook that is set, and the calls of hooks that are in progress, the innermost one first. -/
structure Slot (σ : Type) where
  hook? : Option (Script σ)
  running : List (Script σ)

/-- What may happen to a slot. -/
inductive Slot.Move (σ : Type) where
  -- The host sets a hook.
  | set (hook : Script σ)
  -- The body of the client has ended.
  | due
  -- The innermost call returns.
  | returned (hook : Script σ)
  -- The innermost call is given up.
  | lost

namespace Slot

/-- A slot after a move. -/
def apply (s : Slot σ) : Move σ → Slot σ
  | .set hook => ⟨some hook, s.running⟩
  | .due => ⟨none, s.hook?.toList ++ s.running⟩
  | .returned hook => ⟨s.hook?.or (some hook), s.running.tail⟩
  | .lost => ⟨s.hook?, s.running.tail⟩

/-- Whether a hook is set after a move, whatever there was before. -/
def Move.fills : Move σ → Bool
  | .set _ => true
  | .returned _ => true
  | _ => false

theorem apply_due_of_none {s : Slot σ} (h : s.hook? = none) : s.apply .due = s := by
  rcases s with ⟨hook?, running⟩
  cases h
  rfl

/-- A hook has been set or has returned, and no body has ended since. -/
def Ready (moves : List (Move σ)) : Prop :=
  ∃ before move after, moves = before ++ move :: after ∧ move.fills = true ∧ .due ∉ after

/-- A hook has been set, and since then no other one has been set and none has been given up. -/
def Latest (hook : Script σ) (moves : List (Move σ)) : Prop :=
  ∃ before after, moves = before ++ .set hook :: after ∧ .lost ∉ after ∧ ∀ other, .set other ∉ after

theorem Ready.concat {moves : List (Move σ)} {move : Move σ} :
    Ready (moves ++ [move]) ↔ move.fills = true ∨ (Ready moves ∧ move ≠ .due) := by
  constructor
  · rintro ⟨before, first, after, hmoves, hfills, hdue⟩
    rcases Machine.split_concat hmoves with ⟨-, rfl⟩ | ⟨less, hless⟩
    · exact Or.inl hfills
    · rw [hless] at hmoves
      have hafter : after = less ++ [move] := by simpa using hmoves.symm
      rw [hafter, List.mem_append, List.mem_singleton] at hdue
      exact Or.inr ⟨⟨before, first, less, hless, hfills, fun h => hdue (Or.inl h)⟩,
        fun h => hdue (Or.inr h.symm)⟩
  · rintro (hfills | ⟨⟨before, first, after, rfl, hfills, hdue⟩, hnot⟩)
    · exact ⟨moves, move, [], rfl, hfills, List.not_mem_nil⟩
    · refine ⟨before, first, after ++ [move], by simp, hfills, ?_⟩
      simp [hdue, Ne.symm hnot]

theorem Latest.concat {hook : Script σ} {moves : List (Move σ)} {move : Move σ}
    (h : Latest hook (moves ++ [move])) :
    move = .set hook ∨ (Latest hook moves ∧ (move = .due ∨ ∃ other, move = .returned other)) := by
  rcases h with ⟨before, after, hmoves, hlost, hset⟩
  rcases Machine.split_concat hmoves with ⟨-, hlast⟩ | ⟨less, hless⟩
  · exact Or.inl hlast
  · rw [hless] at hmoves
    have hafter : after = less ++ [move] := by simpa using hmoves.symm
    rw [hafter] at hlost hset
    simp only [List.mem_append, List.mem_singleton, not_or] at hlost hset
    refine Or.inr ⟨⟨before, less, hless, hlost.1, fun other => (hset other).1⟩, ?_⟩
    cases move with
    | set other => exact absurd rfl (hset other).2
    | due => exact Or.inl rfl
    | returned other => exact Or.inr ⟨other, rfl⟩
    | lost => exact absurd rfl hlost.2

/-- A hook is set when one has been set or has returned since the last body has ended. -/
theorem hook?_isSome_iff {s : Slot σ} (hs : s.hook? = none) (moves : List (Move σ)) :
    (moves.foldl apply s).hook?.isSome ↔ Ready moves := by
  induction moves using List.reverseRecOn with
  | nil =>
    refine iff_of_false (by simp [hs]) ?_
    rintro ⟨before, move, after, hnil, -⟩
    simp at hnil
  | append_singleton moves move ih =>
    rw [List.foldl_append, List.foldl_cons, List.foldl_nil, Ready.concat, ← ih]
    generalize moves.foldl apply s = t
    rcases t with ⟨hook?, running⟩
    cases move with
    | set hook => simp [apply, Move.fills]
    | due => simp [apply, Move.fills]
    | returned hook => cases hook? <;> simp [apply, Move.fills]
    | lost => simp [apply, Move.fills]

end Slot

/-! ## Hooks -/

/-- The hook that is set for an outcome of a client's body. -/
def World.hook? (w : World σ) (id : ClientId) : Outcome → Option (Script σ)
  | .success _ => (w.observersOf id).onSuccess
  | .failure cause => (w.observersOf id).onFailure.map fun hook => hook cause

/-- The hook for an outcome that is being run, if a call is one of a hook. -/
def Activation.hook? (caller : Activation σ) (id : ClientId) (outcome : Outcome) :
    Option (Script σ) :=
  match caller, outcome with
  | .successHook client hook, .success _ => if client = id then some hook else none
  | .failureHook client hook, .failure cause => if client = id then some (hook cause) else none
  | _, _ => none

/-- The hook for an outcome that host code sets. -/
def Script.hook? (script : Script σ) (id : ClientId) (outcome : Outcome) : Option (Script σ) :=
  match script, outcome with
  | .onSuccess client hook _, .success _ => if client = id then some hook else none
  | .onFailure client hook _, .failure cause => if client = id then some (hook cause) else none
  | _, _ => none

namespace World

theorem observersOf_setObservers (w : World σ) (id other : ClientId) (o : Observers σ) :
    (w.setObservers id o).observersOf other = if other = id then o else w.observersOf other := by
  have hlookup : ∀ entries : List (ClientId × Observers σ), other ≠ id →
      (entries.filter fun entry => entry.1 ≠ id).lookup other = entries.lookup other := by
    intro entries hother
    induction entries with
    | nil => rfl
    | cons entry entries ih =>
      rcases entry with ⟨client, observers⟩
      by_cases hclient : client = id
      · have hne : (other == client) = false := by simpa [hclient] using hother
        rw [List.filter_cons_of_neg (by simpa using hclient), ih, List.lookup_cons, hne]
      · rw [List.filter_cons_of_pos (by simpa using hclient), List.lookup_cons, List.lookup_cons, ih]
  unfold observersOf setObservers
  by_cases hother : other = id
  · simp [hother]
  · have hne : (other == id) = false := by simpa using hother
    rw [List.lookup_cons, hne, if_neg hother]
    simp only [hlookup w.observers hother]

/-- The slot for an outcome, with some callers. -/
def slot (w : World σ) (stack : List (Activation σ)) (id : ClientId) (outcome : Outcome) : Slot σ :=
  ⟨w.hook? id outcome, stack.filterMap fun caller => caller.hook? id outcome⟩

theorem slot_eq {w v : World σ} (h : v.observers = w.observers) (stack : List (Activation σ))
    (id : ClientId) (outcome : Outcome) : v.slot stack id outcome = w.slot stack id outcome := by
  have hook (o : Outcome) : v.hook? id o = w.hook? id o := by
    cases o <;> simp only [hook?, observersOf, h]
  rw [slot, slot, hook]

theorem slot_cons (w : World σ) {caller : Activation σ} (stack : List (Activation σ))
    (id : ClientId) (outcome : Outcome) (h : caller.hook? id outcome = none) :
    w.slot (caller :: stack) id outcome = w.slot stack id outcome := by
  rw [slot, slot, List.filterMap_cons, h]

theorem slot_hook (w : World σ) {caller : Activation σ} (stack : List (Activation σ))
    {id : ClientId} {outcome : Outcome} {hook : Script σ} (h : caller.hook? id outcome = some hook) :
    w.slot (caller :: stack) id outcome =
      ⟨w.hook? id outcome, hook :: (w.slot stack id outcome).running⟩ := by
  rw [slot, List.filterMap_cons, h]
  rfl

/-- Setting a hook for success. -/
theorem slot_setSuccess (w : World σ) (stack : List (Activation σ)) (id client : ClientId)
    (outcome : Outcome) (hook : Option (Script σ)) :
    (w.setObservers client { w.observersOf client with onSuccess := hook }).slot stack id outcome =
      match outcome with
      | .success _ =>
        if client = id then ⟨hook, (w.slot stack id outcome).running⟩ else w.slot stack id outcome
      | .failure _ => w.slot stack id outcome := by
  by_cases hsame : client = id
  · subst hsame
    cases outcome <;> simp [slot, hook?, observersOf_setObservers]
  · cases outcome <;> simp [slot, hook?, observersOf_setObservers, Ne.symm hsame, hsame]

/-- Setting a hook for failure. -/
theorem slot_setFailure (w : World σ) (stack : List (Activation σ)) (id client : ClientId)
    (outcome : Outcome) (hook : Option (Failure → Script σ)) :
    (w.setObservers client { w.observersOf client with onFailure := hook }).slot stack id outcome =
      match outcome with
      | .success _ => w.slot stack id outcome
      | .failure cause =>
        if client = id then ⟨hook.map fun hook => hook cause, (w.slot stack id outcome).running⟩
        else w.slot stack id outcome := by
  by_cases hsame : client = id
  · subst hsame
    cases outcome <;> simp [slot, hook?, observersOf_setObservers]
  · cases outcome <;> simp [slot, hook?, observersOf_setObservers, Ne.symm hsame, hsame]

end World

namespace Machine

open World (slot_eq slot_cons)

/-- The slot for an outcome of a client's body. -/
def slot (m : Machine σ) (id : ClientId) (outcome : Outcome) : Slot σ :=
  m.world.slot m.stack id outcome

/-- Whether the next transition counts for a client that its body has ended like this. -/
def endsLike (id : ClientId) (outcome : Outcome) (m : Machine σ) : Bool :=
  (m.counts? id).any fun ended => ended.isSuccess == outcome.isSuccess

/-- What the next transition makes of the slot, if it does anything about it. -/
def move? (id : ClientId) (outcome : Outcome) (m : Machine σ) : Option (Slot.Move σ) :=
  match m.focus, m.stack with
  | .code script, _ => (script.hook? id outcome).map .set
  | .resume _ _, _ => if m.endsLike id outcome then some .due else none
  | .back _, caller :: _ => (caller.hook? id outcome).map .returned
  | .crash _, caller :: _ => (caller.hook? id outcome).map fun _ => .lost
  | _, _ => none

/-! ## Transitions that leave the hooks alone -/

section

variable (w : World σ) (stack : List (Activation σ)) (id : ClientId) (outcome : Outcome)

theorem proceed_slot (next : Continuation σ) (e : Evaluation σ) :
    (proceed stack next e).slot id outcome = e.1.slot stack id outcome := by
  rcases e with ⟨v, (_ | _) | _ | _⟩ <;> rfl

theorem evaluate_slot (activity : Activity) (frame : Frame) (next : Continuation σ) :
    (evaluate w stack activity frame next).slot id outcome = w.slot stack id outcome := by
  rw [evaluate, proceed_slot]
  exact slot_eq (World.observers_eq (World.setup_evaluate ..)) ..

theorem execute_slot (scope : ScopeId) (op : Operation) (next : Continuation σ) :
    (execute w stack scope op next).slot id outcome = w.slot stack id outcome :=
  evaluate_slot ..

theorem reply_slot (request : RequestId) (failure : Option Failure) :
    (reply w stack request failure).slot id outcome = w.slot stack id outcome := by
  have hsettled := slot_eq (World.observers_eq (World.setup_settle w request failure)) stack id outcome
  unfold reply
  split <;> simp_all [slot]

theorem process_slot (request : RequestId) (target : Target) :
    (process w stack request target).slot id outcome = w.slot stack id outcome := by
  cases target with
  | endpoint endpoint => rfl
  | service service =>
    unfold process
    dsimp only
    split
    · split
      · rfl
      · exact execute_slot ..
    · rfl

theorem fire_slot (client : ClientId) (scope : ScopeId) :
    (fire w stack client scope).slot id outcome = w.slot stack id outcome := by
  unfold fire
  split
  · rfl
  · dsimp only
    split
    · rfl
    · rename_i v event hs
      have hv := World.observers_eq (World.setup_schedule hs)
      exact (evaluate_slot ..).trans (slot_eq hv ..)

theorem dispatch_slot (work : Callback σ) :
    (dispatch w stack work).slot id outcome = w.slot stack id outcome := by
  cases work with
  | host code => rfl
  | deliver request target => exact process_slot ..
  | expire request deadline =>
    unfold dispatch
    dsimp only
    split
    · split
      · exact reply_slot ..
      · rfl
    · rfl
  | wake next => rfl
  | attempt state body frame next =>
    refine (proceed_slot ..).trans (slot_eq ?_ ..)
    exact World.observers_eq (World.setup_attempt (World.setup_evaluate ..))
  | fire client scope => exact fire_slot ..
  | reply request failure => exact reply_slot ..

theorem continueRun_slot (horizon : Time) (count : Nat)
    (next : Except SimulationError Nat → Script σ) :
    (continueRun w stack horizon count next).slot id outcome = w.slot stack id outcome := by
  unfold continueRun
  split
  · rfl
  · split
    · rfl
    · exact dispatch_slot ..

theorem resume_slot {next : Continuation σ} (result : Outcome) (h : ∀ id, next ≠ .complete id) :
    (resume w stack next result).slot id outcome = w.slot stack id outcome := by
  cases next with
  | host code => rfl
  | reply request => cases result <;> exact reply_slot ..
  | complete client => exact absurd rfl (h client)
  | steps rest frame next =>
    cases result with
    | success value =>
      exact (proceed_slot ..).trans (slot_eq (World.observers_eq (World.setup_evaluateSteps ..)) ..)
    | failure cause => rfl
  | service service next => cases result <;> rfl
  | ignore next => cases result <;> rfl
  | retry state body frame next =>
    exact (proceed_slot ..).trans (slot_eq (World.observers_eq (World.setup_afterAttempt ..)) ..)

end

/-! ## Moves -/

section

variable (w : World σ) (stack : List (Activation σ)) (id : ClientId) (outcome : Outcome)

theorem execScript_slot (script : Script σ) :
    (execScript w stack script).slot id outcome =
      ((script.hook? id outcome).map .set).elim (w.slot stack id outcome)
        (w.slot stack id outcome).apply := by
  cases script with
  | onSuccess client hook next =>
    refine (World.slot_setSuccess w stack id client outcome (some hook)).trans ?_
    cases outcome with
    | success value => by_cases hsame : client = id <;> simp [Script.hook?, hsame, Slot.apply]
    | failure cause => rfl
  | onFailure client hook next =>
    refine (World.slot_setFailure w stack id client outcome (some hook)).trans ?_
    cases outcome with
    | success value => rfl
    | failure cause => by_cases hsame : client = id <;> simp [Script.hook?, hsame, Slot.apply]
  | evaluate activity caller resume next => exact evaluate_slot ..
  | execute service op resume next =>
    simp only [execScript]
    split
    · rfl
    · exact execute_slot ..
  | schedule delay kind callback next =>
    simp only [execScript]
    split
    · rename_i v event hs
      exact slot_eq (World.observers_eq (World.setup_schedule hs)) ..
    · rfl
  | replyAfter delay request failure next =>
    simp only [execScript]
    split
    · rename_i v event hs
      exact slot_eq (World.observers_eq (World.setup_schedule hs)) ..
    · rfl
  | send request target next =>
    have hsent := slot_eq (World.observers_eq (World.setup_send w request target)) stack id outcome
    simp only [execScript]
    split
    · rename_i v hs
      rw [hs] at hsent
      exact hsent
    · rename_i v cause hs
      rw [hs] at hsent
      exact hsent
  | process request target next => exact process_slot ..
  | reply request failure next => exact reply_slot ..
  | _ => rfl

/-- What follows when a body has ended well and this has been counted. -/
theorem complete_success (client : ClientId) (value : Value) :
    ∃ v : World σ, v.observers = w.observers ∧
      complete w stack client (.success value) = match (v.observersOf client).onSuccess with
        | none => ⟨v, stack, .back (.ok ())⟩
        | some hook => ⟨v.setObservers client { v.observersOf client with onSuccess := none },
            .successHook client hook :: .hold value.refs :: stack, .code hook⟩ :=
  ⟨{ w with store := w.store.modifyClient client fun c =>
      { c with successes := c.successes + 1 } }, rfl, rfl⟩

/-- What follows when a body has ended badly and this has been counted. -/
theorem complete_failure (client : ClientId) (cause : Failure) :
    ∃ v : World σ, v.observers = w.observers ∧
      complete w stack client (.failure cause) = match (v.observersOf client).onFailure with
        | none => ⟨v, stack, .back (.ok ())⟩
        | some hook => ⟨v.setObservers client { v.observersOf client with onFailure := none },
            .failureHook client hook :: stack, .code (hook cause)⟩ :=
  ⟨{ w with store := w.store.modifyClient client fun c =>
      { c with errors := c.errors + 1 } }, rfl, rfl⟩

/-- A success takes the hook for successes, and calls it if there is one. -/
theorem complete_slot_success (client : ClientId) (value : Value) :
    (complete w stack client (.success value)).slot id outcome =
      if client = id ∧ (Outcome.success value).isSuccess = outcome.isSuccess then
        (w.slot stack id outcome).apply .due
      else w.slot stack id outcome := by
  rcases complete_success w stack client value with ⟨v, hsame, hcomplete⟩
  rw [hcomplete, ← slot_eq hsame]
  by_cases hdue : client = id ∧ (Outcome.success value).isSuccess = outcome.isSuccess
  · rw [if_pos hdue]
    rcases hdue with ⟨rfl, hkind⟩
    cases outcome with
    | failure cause => cases hkind
    | success other =>
      cases hhook : (v.observersOf client).onSuccess with
      | none => exact (Slot.apply_due_of_none hhook).symm
      | some hook =>
        refine (World.slot_setSuccess ..).trans ?_
        simp [World.slot, World.hook?, Activation.hook?, Slot.apply, hhook]
  · rw [if_neg hdue]
    cases (v.observersOf client).onSuccess with
    | none => rfl
    | some hook =>
      have hnone : (Activation.successHook client hook).hook? id outcome = none := by
        cases outcome with
        | success other => exact if_neg fun hclient => hdue ⟨hclient, rfl⟩
        | failure cause => rfl
      refine (slot_cons _ _ id outcome hnone).trans ?_
      refine (World.slot_setSuccess ..).trans ?_
      cases outcome with
      | success other => exact if_neg fun hclient => hdue ⟨hclient, rfl⟩
      | failure cause => rfl

/-- A failure takes the hook for failures, and calls it if there is one. -/
theorem complete_slot_failure (client : ClientId) (cause : Failure) :
    (complete w stack client (.failure cause)).slot id outcome =
      if client = id ∧ (Outcome.failure cause).isSuccess = outcome.isSuccess then
        (w.slot stack id outcome).apply .due
      else w.slot stack id outcome := by
  rcases complete_failure w stack client cause with ⟨v, hsame, hcomplete⟩
  rw [hcomplete, ← slot_eq hsame]
  by_cases hdue : client = id ∧ (Outcome.failure cause).isSuccess = outcome.isSuccess
  · rw [if_pos hdue]
    rcases hdue with ⟨rfl, hkind⟩
    cases outcome with
    | success value => cases hkind
    | failure other =>
      cases hhook : (v.observersOf client).onFailure with
      | none =>
        have hnone : v.hook? client (.failure other) = none := by rw [World.hook?, hhook]; rfl
        exact (Slot.apply_due_of_none hnone).symm
      | some hook =>
        refine (World.slot_setFailure ..).trans ?_
        simp [World.slot, World.hook?, Activation.hook?, Slot.apply, hhook]
  · rw [if_neg hdue]
    cases (v.observersOf client).onFailure with
    | none => rfl
    | some hook =>
      have hnone : (Activation.failureHook client hook).hook? id outcome = none := by
        cases outcome with
        | success value => rfl
        | failure other => exact if_neg fun hclient => hdue ⟨hclient, rfl⟩
      refine (slot_cons _ _ id outcome hnone).trans ?_
      refine (World.slot_setFailure ..).trans ?_
      cases outcome with
      | success value => rfl
      | failure other => exact if_neg fun hclient => hdue ⟨hclient, rfl⟩

/-- The end of a body takes the hook for it, and calls it if there is one. -/
theorem complete_slot (client : ClientId) (ended : Outcome) :
    (complete w stack client ended).slot id outcome =
      if client = id ∧ ended.isSuccess = outcome.isSuccess then (w.slot stack id outcome).apply .due
      else w.slot stack id outcome := by
  cases ended with
  | success value => exact complete_slot_success w stack id outcome client value
  | failure cause => exact complete_slot_failure w stack id outcome client cause

/-- A hook for success is set again, unless another one has been set. -/
theorem restoreSuccess_slot (client : ClientId) (hook : Script σ) :
    (restoreSuccess w client hook).slot stack id outcome =
      match outcome with
      | .success _ =>
        if client = id then
          ⟨(w.hook? id outcome).or (some hook), (w.slot stack id outcome).running⟩
        else w.slot stack id outcome
      | .failure _ => w.slot stack id outcome := by
  unfold restoreSuccess
  dsimp only
  cases hother : (w.observersOf client).onSuccess with
  | none =>
    refine (World.slot_setSuccess ..).trans ?_
    cases outcome with
    | success value =>
      by_cases hsame : client = id
      · subst hsame
        simp [World.hook?, hother]
      · exact (if_neg hsame).trans (if_neg hsame).symm
    | failure cause => rfl
  | some other =>
    cases outcome with
    | success value =>
      by_cases hsame : client = id
      · subst hsame
        simp [World.slot, World.hook?, hother]
      · exact (if_neg hsame).symm
    | failure cause => rfl

/-- A hook for failure is set again, unless another one has been set. -/
theorem restoreFailure_slot (client : ClientId) (hook : Failure → Script σ) :
    (restoreFailure w client hook).slot stack id outcome =
      match outcome with
      | .success _ => w.slot stack id outcome
      | .failure cause =>
        if client = id then
          ⟨(w.hook? id outcome).or (some (hook cause)), (w.slot stack id outcome).running⟩
        else w.slot stack id outcome := by
  unfold restoreFailure
  dsimp only
  cases hother : (w.observersOf client).onFailure with
  | none =>
    refine (World.slot_setFailure ..).trans ?_
    cases outcome with
    | success value => rfl
    | failure cause =>
      by_cases hsame : client = id
      · subst hsame
        simp [World.hook?, hother]
      · exact (if_neg hsame).trans (if_neg hsame).symm
  | some other =>
    cases outcome with
    | success value => rfl
    | failure cause =>
      by_cases hsame : client = id
      · subst hsame
        simp [World.slot, World.hook?, hother]
      · exact (if_neg hsame).symm

/-- A hook that returns is set again, unless another one has been set. -/
theorem back_slot (result : Except SimulationError Unit) (caller : Activation σ) :
    (back w stack result caller).slot id outcome =
      ((caller.hook? id outcome).map .returned).elim (w.slot stack id outcome)
        (w.slot (caller :: stack) id outcome).apply := by
  cases caller with
  | successHook client hook =>
    have hrestored := restoreSuccess_slot w stack id outcome client hook
    refine Eq.trans hrestored ?_
    cases outcome with
    | success value =>
      by_cases hsame : client = id
      · have hhook : (Activation.successHook client hook).hook? id (.success value) = some hook :=
          if_pos hsame
        rw [hhook, World.slot_hook w stack hhook]
        exact if_pos hsame
      · have hhook : (Activation.successHook client hook).hook? id (.success value) = none :=
          if_neg hsame
        rw [hhook]
        exact if_neg hsame
    | failure cause => rfl
  | failureHook client hook =>
    have hrestored := restoreFailure_slot w stack id outcome client hook
    refine Eq.trans hrestored ?_
    cases outcome with
    | success value => rfl
    | failure cause =>
      by_cases hsame : client = id
      · have hhook : (Activation.failureHook client hook).hook? id (.failure cause) =
            some (hook cause) := if_pos hsame
        rw [hhook, World.slot_hook w stack hhook]
        exact if_pos hsame
      · have hhook : (Activation.failureHook client hook).hook? id (.failure cause) = none :=
          if_neg hsame
        rw [hhook]
        exact if_neg hsame
  | run horizon count next =>
    cases result with
    | error e => rfl
    | ok _ => exact continueRun_slot ..
  | _ => rfl

theorem unwind_slot (cause : SchedulingError) (caller : Activation σ) :
    (unwind w stack cause caller).slot id outcome =
      ((caller.hook? id outcome).map fun _ => .lost).elim (w.slot stack id outcome)
        (w.slot (caller :: stack) id outcome).apply := by
  have hsame : (unwind w stack cause caller).slot id outcome = w.slot stack id outcome := by
    cases caller <;> rfl
  rw [hsame]
  cases hhook : caller.hook? id outcome with
  | none => rfl
  | some hook =>
    rw [World.slot_hook w stack hhook]
    rfl

end

/-- A machine makes a move of the slot, or leaves it as it is. -/
theorem Next.moves_slot {m n : Machine σ} (h : Next m n) (id : ClientId) (outcome : Outcome) :
    n.slot id outcome = (m.move? id outcome).elim (m.slot id outcome) (m.slot id outcome).apply := by
  rcases m with ⟨w, stack, focus⟩
  cases h with
  | call script hnone =>
    cases focus with
    | code script => cases hnone
    | resume next result => cases hnone
    | back result =>
      cases stack with
      | nil => rfl
      | cons caller stack => cases hnone
    | crash cause =>
      cases stack with
      | nil => rfl
      | cons caller stack => cases hnone
  | step hs =>
    cases focus with
    | code script =>
      cases hs
      exact execScript_slot ..
    | resume next result =>
      cases hs
      by_cases hcomplete : ∃ client, next = .complete client
      · rcases hcomplete with ⟨client, rfl⟩
        refine (complete_slot w stack id outcome client result).trans ?_
        by_cases hsame : client = id <;> by_cases hkind : result.isSuccess = outcome.isSuccess <;>
          simp [move?, endsLike, counts?, hsame, hkind, slot]
      · have hnot : endsLike id outcome ⟨w, stack, .resume next result⟩ = false := by
          cases next with
          | complete client => exact absurd ⟨client, rfl⟩ hcomplete
          | _ => rfl
        refine (resume_slot w stack id outcome result fun client h => hcomplete ⟨client, h⟩).trans ?_
        simp [move?, hnot, slot]
    | back result =>
      cases stack with
      | nil => cases hs
      | cons caller stack =>
        cases hs
        refine (back_slot w stack id outcome result caller).trans ?_
        unfold move? slot
        dsimp only
        cases hhook : caller.hook? id outcome with
        | none => exact (slot_cons w stack id outcome hhook).symm
        | some hook => rfl
    | crash cause =>
      cases stack with
      | nil => cases hs
      | cons caller stack =>
        cases hs
        refine (unwind_slot w stack id outcome cause caller).trans ?_
        unfold move? slot
        dsimp only
        cases hhook : caller.hook? id outcome with
        | none => exact (slot_cons w stack id outcome hhook).symm
        | some hook => rfl

end Machine
end Callflow
