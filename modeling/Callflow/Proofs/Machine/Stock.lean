import Callflow.Proofs.Machine.Horizon
import Callflow.Proofs.World.Stock

/-!
# Continuations are used once

A transition begins continuations (`Machine.begun`), or hands an outcome to the end of one
(`Machine.ended`). Those that it goes on with it keeps, handing them on or leaving them behind, unless
it stops for good (`Spends`). It never copies one: as many continuations have come to their end, or
are still to come to it, as have been begun, or fewer, as an error drops them (`Life.stock`).
-/

namespace Callflow

variable {σ : Type} (p : Continuation σ → Bool)

/-- The continuation that an outcome is handed to. -/
def Focus.stock : Focus σ → Nat
  | .resume next _ => next.stock p
  | _ => 0

/-- One, if an outcome is handed to the end of a continuation that is counted. -/
def Focus.ended : Focus σ → Nat
  | .resume (.host hook) _ => (p (.host hook)).toNat
  | .resume (.reply request) _ => (p (.reply request)).toNat
  | .resume (.complete client) _ => (p (.complete client)).toNat
  | _ => 0

/-- An evaluation has stopped for good. -/
def Focus.Stops : Focus σ → Prop
  | .back (.error _) => True
  | .crash _ => True
  | _ => False

namespace Machine

open World (Left)

/-- The continuations that wait in a machine. -/
def stock (m : Machine σ) : Nat := m.world.stock p + m.focus.stock p

/-- One, if the next transition hands an outcome to the end of a continuation that is counted. -/
def ended (m : Machine σ) : Nat := m.focus.ended p

/-- The continuations in the event that the next transition takes. -/
def carried (m : Machine σ) : Nat := (m.taken?.map fun e => e.work.stock p).getD 0

/-- One, if an event may begin a continuation that is counted. -/
def Turn.begun (t : Turn σ) : Nat :=
  match t.event.work with
  | .deliver request _ => (p (.reply request)).toNat
  | .fire client _ => (p (.complete client)).toNat
  | _ => 0

/-- One, if the next transition may begin a continuation that is counted. -/
def begun (m : Machine σ) : Nat :=
  match m.focus with
  | .code (.evaluate _ _ resume _) => (p (.host resume)).toNat
  | .code (.execute _ _ resume _) => (p (.host resume)).toNat
  | .code (.process request _ _) => (p (.reply request)).toNat
  | _ => (m.turn?.map (Turn.begun p)).getD 0

/-! ## Keeping and dropping -/

/-- What becomes of continuations, worth `k`, that a transition goes on with from a world on: it keeps
them, or it stops for good and drops them. With an error, it always does. -/
inductive Spends (w : World σ) (k : Nat) (n : Machine σ) : Prop where
  | kept : n.stock p = w.stock p + k → (∀ e, n.focus ≠ .back (.error e)) → Spends w k n
  | dropped : n.stock p = w.stock p → n.focus.Stops → Spends w k n

variable {p}

/-- A transition that goes on with none leaves as many as there have been. -/
theorem Spends.none {w : World σ} {n : Machine σ} (h : n.stock p = w.stock p) :
    Spends p w 0 n := by
  cases hfocus : n.focus with
  | back result =>
    cases result with
    | error e => exact .dropped h (by rw [hfocus]; trivial)
    | ok _ => exact .kept h (by simp [hfocus])
  | _ => exact .kept h (by simp [hfocus])

theorem Spends.of_stock {w v : World σ} {k : Nat} {n : Machine σ} (h : Spends p v k n)
    (hw : v.stock p = w.stock p) : Spends p w k n := by
  cases h with
  | kept hstock hnot => exact .kept (by rw [hstock, hw]) hnot
  | dropped hstock hstops => exact .dropped (hstock.trans hw) hstops

theorem Spends.le {w : World σ} {k : Nat} {n : Machine σ} (h : Spends p w k n) :
    n.stock p ≤ w.stock p + k := by
  cases h with
  | kept hstock _ => exact hstock.le
  | dropped hstock _ => exact hstock.le.trans (Nat.le_add_right _ _)

/-- With an error, nothing is left of them. -/
theorem Spends.error {w : World σ} {k : Nat} {n : Machine σ} (h : Spends p w k n)
    {e : SimulationError} (he : n.focus = .back (.error e)) : n.stock p = w.stock p := by
  cases h with
  | kept _ hnot => exact absurd he (hnot e)
  | dropped hstock _ => exact hstock

/-! ## Evaluations, processing and clients -/

/-- An evaluation keeps the continuation, unless it fails. -/
theorem Spends.proceed (stack : List (Activation σ)) {next : Continuation σ} {w : World σ}
    {e : Evaluation σ} (h : Left p next w e) :
    Spends p w (next.stock p) (proceed stack next e) := by
  cases h with
  | suspended hv => exact .kept hv (by simp [Machine.proceed])
  | resolved hv => exact .kept (congrArg (· + next.stock p) hv) (by simp [Machine.proceed])
  | failed hv => exact .dropped hv trivial
  | crashed hv =>
    rcases hv with hv | hv
    · exact .dropped hv trivial
    · exact .kept hv (by simp [Machine.proceed])

theorem Spends.evaluate (w : World σ) (stack : List (Activation σ)) (activity : Activity)
    (frame : Frame) (next : Continuation σ) :
    Spends p w (next.stock p) (evaluate w stack activity frame next) :=
  .proceed stack (World.evaluate_left ..)

theorem Spends.execute (w : World σ) (stack : List (Activation σ)) (scope : ScopeId)
    (op : Operation) (next : Continuation σ) :
    Spends p w (next.stock p) (execute w stack scope op next) :=
  (evaluate _ _ op.body _ next).of_stock rfl

/-- A target that processes a request has an operation executed that serves it, or nothing. -/
theorem Spends.process (w : World σ) (stack : List (Activation σ)) (request : RequestId)
    (target : Target) :
    ∃ k ≤ (p (.reply request)).toNat, Spends p w k (process w stack request target) := by
  have hnothing (focus : Focus σ) (stack : List (Activation σ)) (h : focus.stock p = 0) :
      ∃ k ≤ (p (.reply request)).toNat, Spends p w k ⟨w, stack, focus⟩ :=
    ⟨0, Nat.zero_le _, .none (congrArg (w.stock p + ·) h)⟩
  cases target with
  | endpoint id => exact hnothing _ _ rfl
  | service id =>
    simp only [Machine.process]
    split
    · split
      · exact hnothing _ _ rfl
      · rename_i op _
        exact ⟨_, le_rfl, execute w _ _ op (.reply request)⟩
    · exact hnothing _ _ rfl

/-- A client that fires has its body evaluated. -/
theorem Spends.fire {w : World σ} {id : ClientId} {client : Client}
    (h : w.store.client? id = some client) (stack : List (Activation σ)) (scope : ScopeId) :
    Spends p w (p (.complete id)).toNat (fire w stack id scope) := by
  unfold Machine.fire
  rw [h]
  dsimp only
  split
  · exact .dropped rfl trivial
  · rename_i v event hs
    exact (evaluate v _ client.body _ (.complete id)).of_stock (World.stock_schedule p hs)

theorem complete_stock (w : World σ) (stack : List (Activation σ)) (id : ClientId)
    (outcome : Outcome) : (complete w stack id outcome).stock p = w.stock p := by
  cases outcome with
  | success value =>
    unfold complete
    dsimp only
    split <;> rfl
  | failure cause =>
    unfold complete
    dsimp only
    split <;> rfl

/-- A reply hands the outcome to whoever has waited. -/
theorem reply_stock (w : World σ) (stack : List (Activation σ)) (request : RequestId)
    (failure : Option Failure) : (reply w stack request failure).stock p = w.stock p := by
  have hsettle := World.stock_settle p w request failure
  unfold reply
  generalize w.settle request failure = settled at hsettle
  rcases settled with ⟨v, waiter⟩
  cases waiter with
  | nobody => cases failure <;> exact hsettle
  | continuation next => cases failure <;> exact hsettle
  | host succeeded failed => cases succeeded <;> cases failed <;> cases failure <;> exact hsettle

/-! ## Transitions -/

variable (p)

/-- A transition goes on with continuations worth `k`: with those that an outcome is handed to, with
those in the event that it takes, and with those that it begins. -/
structure Tally (m n : Machine σ) (w : World σ) (k : Nat) : Prop where
  spends : Spends p w k n
  taken : w.stock p + m.carried p = m.world.stock p
  least : m.focus.stock p + m.carried p ≤ k + m.ended p
  most : k + m.ended p ≤ m.focus.stock p + m.carried p + m.begun p

/-- A transition that takes no event and hands no outcome on. -/
theorem Tally.plain {m n : Machine σ} {k : Nat} (h : Spends p m.world k n)
    (htaken : m.taken? = none) (hfocus : m.focus.stock p = 0) (hended : m.ended p = 0)
    (hk : k ≤ m.begun p) : Tally p m n m.world k := by
  have hcarried : m.carried p = 0 := by
    rw [carried, htaken]
    rfl
  exact ⟨h, by omega, by omega, by omega⟩

theorem execScript_tally (w : World σ) (stack : List (Activation σ)) (script : Script σ) :
    ∃ k, Tally p ⟨w, stack, .code script⟩ (execScript w stack script) w k := by
  have hcode {k : Nat} (h : Spends p w k (execScript w stack script))
      (hk : k ≤ begun p ⟨w, stack, .code script⟩) :
      ∃ k, Tally p ⟨w, stack, .code script⟩ (execScript w stack script) w k :=
    ⟨k, .plain p h rfl rfl rfl hk⟩
  cases script with
  | evaluate activity caller resume next => exact hcode (.evaluate ..) le_rfl
  | execute id op resume next =>
    cases hservice : w.store.service? id with
    | none => exact hcode (.none (by simp only [execScript, hservice]; rfl)) (Nat.zero_le _)
    | some service =>
      refine hcode ?_ le_rfl
      simp only [execScript, hservice]
      exact .execute w _ service.scope op (.host resume)
  | process request target next =>
    rcases Spends.process (p := p) w (.await next :: stack) request target with ⟨k, hk, hspends⟩
    exact hcode hspends hk
  | reply request failure next => exact hcode (.none (reply_stock ..)) (Nat.zero_le _)
  | schedule delay kind callback next =>
    refine hcode (.none ?_) (Nat.zero_le _)
    simp only [execScript]
    split
    · rename_i v id hs
      exact World.stock_schedule p hs
    · rfl
  | replyAfter delay request failure next =>
    refine hcode (.none ?_) (Nat.zero_le _)
    simp only [execScript]
    split
    · rename_i v id hs
      exact World.stock_schedule p hs
    · rfl
  | allocate next =>
    have hpush : w.allocate.1.stock p = w.stock p := by
      simp [World.stock, World.allocate, Waiter.stock]
    exact hcode (.none hpush) (Nat.zero_le _)
  | request caller operation deadline succeeded failed next =>
    exact hcode (.none (World.stock_issue p w caller operation deadline (.host succeeded failed)))
      (Nat.zero_le _)
  | send request target next =>
    have hsent := World.stock_send p w request target
    refine hcode (.none ?_) (Nat.zero_le _)
    simp only [execScript]
    split
    · rename_i v hs
      rw [hs] at hsent
      exact hsent
    · rename_i v cause hs
      rw [hs] at hsent
      exact hsent
  | _ => exact hcode (.none rfl) (Nat.zero_le _)

theorem resume_tally (w : World σ) (stack : List (Activation σ)) (next : Continuation σ)
    (outcome : Outcome) :
    ∃ k, Tally p ⟨w, stack, .resume next outcome⟩ (resume w stack next outcome) w k := by
  have hgoes {k : Nat} (h : Spends p w k (resume w stack next outcome))
      (hk : k + (Focus.resume next outcome).ended p = next.stock p) :
      ∃ k, Tally p ⟨w, stack, .resume next outcome⟩ (resume w stack next outcome) w k :=
    ⟨k, h, rfl, hk.ge, hk.le⟩
  cases next with
  | host code => exact hgoes (.none rfl) (Nat.zero_add _)
  | reply request =>
    refine hgoes (.none ?_) (Nat.zero_add _)
    cases outcome <;> exact reply_stock ..
  | complete client => exact hgoes (.none (complete_stock ..)) (Nat.zero_add _)
  | steps rest frame next =>
    cases outcome with
    | success value => exact hgoes (.proceed stack (World.evaluateSteps_left ..)) rfl
    | failure cause => exact hgoes (.kept rfl (by simp [resume])) rfl
  | service id next => cases outcome <;> exact hgoes (.kept rfl (by simp [resume])) rfl
  | ignore next => cases outcome <;> exact hgoes (.kept rfl (by simp [resume])) rfl
  | retry state body frame next => exact hgoes (.proceed stack (World.afterAttempt_left ..)) rfl

theorem dispatch_spends (t : Turn σ) :
    ∃ k, Spends p t.world k (dispatch t.world t.stack t.event.work) ∧
      t.event.work.stock p ≤ k ∧ k ≤ t.event.work.stock p + t.begun p := by
  unfold Turn.begun
  cases t.event.work with
  | host code => exact ⟨0, .none rfl, le_rfl, le_rfl⟩
  | deliver request target =>
    rcases Spends.process (p := p) t.world t.stack request target with ⟨k, hk, hspends⟩
    exact ⟨k, hspends, Nat.zero_le _, hk.trans (Nat.le_add_left _ _)⟩
  | expire request deadline =>
    refine ⟨0, .none ?_, le_rfl, le_rfl⟩
    simp only [dispatch]
    split
    · split
      · exact reply_stock ..
      · rfl
    · rfl
  | wake next => exact ⟨next.stock p, .kept rfl (by simp [dispatch]), le_rfl, le_rfl⟩
  | attempt state body frame next =>
    exact ⟨next.stock p, .proceed _ (World.attempt_left (World.evaluate_left ..)), le_rfl, le_rfl⟩
  | fire client scope =>
    cases hclient : t.world.store.client? client with
    | none =>
      refine ⟨0, .none ?_, le_rfl, Nat.zero_le _⟩
      simp only [dispatch, fire, hclient]
      rfl
    | some found =>
      exact ⟨_, .fire hclient t.stack scope, Nat.zero_le _, Nat.le_add_left _ _⟩
  | reply request failure => exact ⟨0, .none (reply_stock ..), le_rfl, le_rfl⟩

/-- The continuations in an event that is taken are not in the agenda any more. -/
theorem Taking.stock {m : Machine σ} {t : Turn σ} (h : Taking m t) :
    t.world.stock p + t.event.work.stock p = m.world.stock p := by
  rcases h.take with ⟨horizon, agenda, htake, hworld⟩
  have htaken := Agenda.stock_take? p htake
  rw [hworld]
  simp only [World.stock, World.enter, World.record]
  omega

theorem turn?_tally {m n : Machine σ} {t : Turn σ} (h : m.turn? = some t) (hs : m.step = some n) :
    ∃ k, Tally p m n t.world k := by
  rcases turn?_spec h with ⟨htaking, hstep⟩
  cases hstep.symm.trans hs
  rcases dispatch_spends p t with ⟨k, hspends, hleast, hmost⟩
  have hcarried : m.carried p = t.event.work.stock p := by
    rw [carried, taken?, h]
    rfl
  have hbegun : m.begun p = t.begun p := by
    simp only [begun, htaking.focus, h]
    rfl
  have hfocus : m.focus.stock p = 0 := by
    rw [htaking.focus]
    rfl
  have hended : m.ended p = 0 := by
    rw [ended, htaking.focus]
    rfl
  refine ⟨k, hspends, ?_, by omega, by omega⟩
  rw [hcarried]
  exact htaking.stock p

theorem back_tally {m n : Machine σ} {result : Except SimulationError Unit}
    (hfocus : m.focus = .back result) (hs : m.step = some n) : ∃ w k, Tally p m n w k := by
  cases hturn : m.turn? with
  | some t =>
    rcases turn?_tally p hturn hs with ⟨k, htally⟩
    exact ⟨t.world, k, htally⟩
  | none =>
    -- The call returns, and nothing is gone on with.
    suffices hsame : n.stock p = m.world.stock p by
      exact ⟨m.world, 0, .plain p (.none hsame) (by rw [taken?, hturn]; rfl)
        (by rw [hfocus]; rfl) (by rw [ended, hfocus]; rfl) (Nat.zero_le _)⟩
    rcases m with ⟨w, stack, focus⟩
    cases hfocus
    cases stack with
    | nil => cases hs
    | cons caller stack =>
      cases caller with
      | run horizon count next =>
        cases result with
        | error e =>
          cases hs
          rfl
        | ok _ =>
          have hreturning : Returning ⟨w, .run horizon count next :: stack, .back (.ok ())⟩
              horizon count next stack := ⟨rfl, rfl, hturn⟩
          rcases hreturning.step with ⟨-, hgo⟩ | ⟨-, -, hgo⟩
          · cases hgo.symm.trans hs
            rfl
          · cases hgo.symm.trans hs
            have hclock := Agenda.stock_advance p w.agenda horizon
            simp only [stock, Focus.stock, World.stock, hclock]
            rfl
      | successHook client hook =>
        cases hs
        have hsame : (restoreSuccess w client hook).stock p = w.stock p := by
          unfold restoreSuccess
          dsimp only
          split <;> rfl
        exact hsame
      | failureHook client hook =>
        cases hs
        have hsame : (restoreFailure w client hook).stock p = w.stock p := by
          unfold restoreFailure
          dsimp only
          split <;> rfl
        exact hsame
      | _ =>
        cases hs
        rfl

/-- Every transition accounts for the continuations that it goes on with. -/
theorem step_tally {m n : Machine σ} (h : m.step = some n) : ∃ w k, Tally p m n w k := by
  rcases m with ⟨w, stack, focus⟩
  cases focus with
  | code script =>
    cases h
    exact ⟨w, execScript_tally p w stack script⟩
  | resume next outcome =>
    cases h
    exact ⟨w, resume_tally p w stack next outcome⟩
  | back result => exact back_tally p rfl h
  | crash cause =>
    cases stack with
    | nil => cases h
    | cons caller stack =>
      have hsame : n.stock p = w.stock p := by
        cases h
        cases caller <;> rfl
      exact ⟨w, 0, .plain p (.none hsame) rfl rfl rfl (Nat.zero_le _)⟩

/-- No transition copies a continuation. -/
theorem step_stock {m n : Machine σ} (h : m.step = some n) :
    n.stock p + m.ended p ≤ m.stock p + m.begun p := by
  rcases step_tally p h with ⟨w, k, htally⟩
  have hle := htally.spends.le
  have htaken := htally.taken
  have hmost := htally.most
  unfold stock at hle ⊢
  omega

/-- A transition that ends with an error drops the continuations that it has gone on with, and leaves
the others. -/
theorem step_stock_error {m n : Machine σ} (h : m.step = some n) {e : SimulationError}
    (he : n.focus = .back (.error e)) : n.world.stock p + m.carried p = m.world.stock p := by
  rcases step_tally p h with ⟨w, k, hspends, htaken, -, -⟩
  have hsame := hspends.error he
  rw [stock, he] at hsame
  rw [← htaken, ← hsame]
  rfl

theorem Next.stock {m n : Machine σ} (h : Next m n) :
    n.stock p + m.ended p ≤ m.stock p + m.begun p := by
  cases h with
  | step hs => exact step_stock p hs
  | call script hnone =>
    rcases m with ⟨w, stack, focus⟩
    cases focus with
    | resume next outcome => cases hnone
    | _ => exact Nat.le_add_right _ _

/-- Over a life, no more continuations come to their end than have been begun. -/
theorem Life.stock {a b : Machine σ} {past : List (Machine σ)} (h : Life a past b) :
    b.stock p + (past.map (ended p)).sum ≤ a.stock p + (past.map (begun p)).sum := by
  induction h with
  | refl => exact le_rfl
  | next _ hn ih =>
    have hstep := hn.stock p
    simp only [List.map_append, List.map_cons, List.map_nil, List.sum_append, List.sum_cons,
      List.sum_nil]
    omega

end Machine
end Callflow
