import Callflow.Proofs.Machine.Direct
import Callflow.Proofs.Machine.Horizon

/-!
# What a simulation gets into

A simulation is driven from outside: whenever it has returned from everything, the host may call it
with host code that runs it, but hands over only direct host code to be called by it. In all states
that a simulation gets into in this way (`Reachable`), all host code that waits in the world is
direct (`Reachable.direct`), since either a direct machine works above the callers outside, or it is
their own code that is executed (`Driven`).
-/

namespace Callflow

variable {σ : Type}

/-- A caller outside of the simulation. -/
def Activation.Outer : Activation σ → Prop
  | .run _ _ next => (Piece.branch next).Outer
  | .await next => (Piece.branch next).Outer
  | .shield next => (Piece.branch next).Outer
  | _ => False

namespace Machine

/-- A machine that callers outside drive: they have called something direct, or their code goes on.
-/
inductive Driven : Machine σ → Prop where
  | within {callers : List (Activation σ)} {m : Machine σ} : (∀ caller ∈ callers, caller.Outer) →
      DirectAbove callers m → Driven m
  | outside {w : World σ} {callers : List (Activation σ)} {script : Script σ} :
      (∀ caller ∈ callers, caller.Outer) → w.Direct → (Piece.code script).Outer →
      Driven ⟨w, callers, .code script⟩

namespace Driven

theorem direct {m : Machine σ} (h : Driven m) : m.world.Direct := by
  cases h with
  | within _ habove => exact habove.world
  | outside _ hw _ => exact hw

variable {w : World σ} {callers : List (Activation σ)}

theorem outer_cons {caller : Activation σ} (hcaller : caller.Outer)
    (houter : ∀ other ∈ callers, other.Outer) : ∀ other ∈ caller :: callers, other.Outer :=
  List.forall_mem_cons.2 ⟨hcaller, houter⟩

/-- A run that is returned to takes an event, which is direct like all others, or it ends. -/
theorem continueRun (hw : w.Direct) (houter : ∀ caller ∈ callers, caller.Outer) (horizon : Time)
    (count : Nat) {next : Except SimulationError Nat → Script σ}
    (hnext : (Piece.branch next).Outer) :
    Driven (Machine.continueRun w callers horizon count next) := by
  unfold Machine.continueRun
  split
  · exact .outside houter hw (hnext.answer _)
  · cases htake : w.agenda.take? horizon with
    | none =>
      have hadvanced : World.Direct { w with agenda := w.agenda.advance horizon } :=
        hw.of_same (Agenda.advance_pending ..).1 rfl rfl
      exact .outside houter hadvanced (hnext.answer _)
    | some taken =>
      rcases taken with ⟨e, agenda⟩
      rcases hw.enter htake with ⟨hentered, hcode, hends⟩
      have hrun : (Activation.run horizon (count + 1) next).Outer := hnext
      exact .within (outer_cons hrun houter) (.dispatch hentered hcode hends)

/-- A caller outside that is returned to goes on. -/
theorem back (hw : w.Direct) {caller : Activation σ} (hcaller : caller.Outer)
    (houter : ∀ caller ∈ callers, caller.Outer) (result : Except SimulationError Unit) :
    Driven (Machine.back w callers result caller) := by
  cases caller with
  | run horizon count next =>
    cases result with
    | error cause => exact .outside houter hw (Piece.Outer.answer hcaller _)
    | ok _ => exact continueRun hw houter horizon count hcaller
  | await next => exact .outside houter hw (Piece.Outer.answer hcaller _)
  | shield next => exact .outside houter hw (Piece.Outer.answer hcaller _)
  | _ => cases hcaller

theorem unwind (hw : w.Direct) {caller : Activation σ} (hcaller : caller.Outer)
    (houter : ∀ caller ∈ callers, caller.Outer) (cause : SchedulingError) :
    Driven (Machine.unwind w callers cause caller) := by
  cases caller with
  | shield next => exact .outside houter hw (Piece.Outer.answer hcaller _)
  | run horizon count next => exact .within houter (.same hw trivial)
  | await next => exact .within houter (.same hw trivial)
  | _ => cases hcaller

/-- Host code outside executes its first node. -/
theorem execScript (hw : w.Direct) (houter : ∀ caller ∈ callers, caller.Outer) {script : Script σ}
    (h : (Piece.code script).Outer) : Driven (Machine.execScript w callers script) := by
  have hexecuted := execScript_executed hw callers (h script .refl).1 (h script .refl).2
  generalize Machine.execScript w callers script = m at hexecuted ⊢
  cases hexecuted with
  | code hv hnext => exact .outside houter hv (h.onward _ hnext)
  | answer answer hv hnext => exact .outside houter hv ((h.onward _ hnext).answer answer)
  | done hv hfocus => exact .within houter (.same hv hfocus)
  | @calls _ next hnext habove =>
    have hawait : (Activation.await next).Outer := h.onward _ hnext
    exact .within (outer_cons hawait houter) habove
  | @shields body next hbody hnext =>
    have hshield : (Activation.shield next).Outer := h.onward _ hnext
    exact .outside (outer_cons hshield houter) hw (h.onward _ hbody)
  | runs horizon next hscript =>
    subst hscript
    have hrun : (Activation.run horizon 0 next).Outer :=
      h.onward (.branch next) (by simp [Script.onward])
    exact .within (outer_cons hrun houter) (.same hw trivial)

theorem step {m n : Machine σ} (h : Driven m) (hs : m.step = some n) : Driven n := by
  cases h with
  | outside houter hw hscript =>
    cases hs
    exact execScript hw houter hscript
  | @within callers m houter habove =>
    by_cases hend : m.focus.returns = true ∧ m.stack = callers
    · rcases m with ⟨w, stack, focus⟩
      rcases hend with ⟨hreturns, rfl⟩
      have hw := habove.world
      cases focus with
      | code script => cases hreturns
      | resume next outcome => cases hreturns
      | back result =>
        cases stack with
        | nil => cases hs
        | cons caller stack =>
          cases hs
          exact back hw (houter caller List.mem_cons_self)
            (fun other hother => houter other (List.mem_cons_of_mem caller hother)) result
      | crash cause =>
        cases stack with
        | nil => cases hs
        | cons caller stack =>
          cases hs
          exact unwind hw (houter caller List.mem_cons_self)
            (fun other hother => houter other (List.mem_cons_of_mem caller hother)) cause
    · exact .within houter (habove.step hs fun hreturns hstack => hend ⟨hreturns, hstack⟩)

end Driven

/-- The states that a simulation gets into while it is driven from outside. -/
inductive Reachable (config : SimulationConfig) (memory : σ) : Machine σ → Prop where
  | start : Reachable config memory (idle (World.start config memory))
  | step {m n : Machine σ} : Reachable config memory m → m.step = some n →
      Reachable config memory n
  | call {m : Machine σ} {script : Script σ} : Reachable config memory m → m.step = none →
      (Piece.code script).Outer → Reachable config memory ⟨m.world, [], .code script⟩

namespace Reachable

variable {config : SimulationConfig} {memory : σ} {m : Machine σ}

theorem driven (h : Reachable config memory m) : Driven m := by
  induction h with
  | start =>
    have hstart := World.direct_start config memory
    exact .within (by simp) (.same hstart trivial)
  | step _ hs ih => exact ih.step hs
  | call _ _ hscript ih => exact .outside (by simp) ih.direct hscript

/-- All host code that waits in a simulation is direct. -/
theorem direct (h : Reachable config memory m) : m.world.Direct := h.driven.direct

theorem life (h : Reachable config memory m) :
    ∃ past, Life (idle (World.start config memory)) past m := by
  induction h with
  | start => exact ⟨[], .refl⟩
  | step _ hs ih =>
    rcases ih with ⟨past, hlife⟩
    exact ⟨_, hlife.next (.step hs)⟩
  | call _ hnone _ ih =>
    rcases ih with ⟨past, hlife⟩
    exact ⟨_, hlife.next (.call _ hnone)⟩

theorem budget (h : Reachable config memory m) : m.world.budget = config.maxEvents := by
  rcases h.life with ⟨past, hlife⟩
  exact hlife.budget

theorem run (h : Reachable config memory m) (fuel : Nat) :
    Reachable config memory (Machine.run fuel m) := by
  induction fuel generalizing m with
  | zero => exact h
  | succ fuel ih =>
    rw [Machine.run]
    cases hs : m.step with
    | none => exact h
    | some n => exact ih (h.step hs)

end Reachable
end Machine
end Callflow
