import Callflow.Proofs.Machine.Dispatch

/-!
# When a run reaches its horizon

A run that returns without an error has used up its budget, and then leaves the clock where it is; or
nothing is due any more, and then the clock moves up to the horizon: `Life.horizon_reached_iff`. So
the clock stops short where the budget just suffices for the last event that is due
(`budget_misses_horizon`).
-/

namespace Callflow

variable {σ : Type}

/-- Moving the clock to a number takes it that far, unless it has been further already. -/
theorem Agenda.Sound.horizon_le_advance {α : Type} {a : Agenda α} {horizon : Time} (s : a.Sound)
    (hnumber : horizon.isNaN = false) : horizon ≤ (a.advance horizon).now := by
  unfold Agenda.advance
  split
  · rename_i hlt
    have hread : horizon.IsReading := s.clock.of_lt hlt
    exact (Time.le_iff hread hread).2 le_rfl
  · rename_i hnot
    exact (s.clock.not_lt_iff hnumber).1 hnot

namespace Machine

/-- A run that has taken `count` events and returns in the next transition, without an error. -/
structure Returning (m : Machine σ) (horizon : Time) (count : Nat)
    (next : Except SimulationError Nat → Script σ) (stack : List (Activation σ)) : Prop where
  focus : m.focus = .back (.ok ())
  stack : m.stack = .run horizon count next :: stack
  turn : m.turn? = none

/-- How a run returns: its budget is used up, or nothing is due and the clock is moved. -/
theorem Returning.step {m : Machine σ} {horizon : Time} {count : Nat}
    {next : Except SimulationError Nat → Script σ} {stack : List (Activation σ)}
    (h : m.Returning horizon count next stack) :
    (spent m.world count = true ∧
      m.step = some ⟨m.world, stack, .code (next (.ok count))⟩) ∨
    (spent m.world count = false ∧ m.world.agenda.take? horizon = none ∧
      m.step = some ⟨{ m.world with agenda := m.world.agenda.advance horizon }, stack,
        .code (next (.ok count))⟩) := by
  rcases h with ⟨hfocus, hstack, hturn⟩
  rcases m with ⟨w, callers, focus⟩
  cases hfocus
  cases hstack
  cases hspent : spent w count with
  | true => exact Or.inl ⟨rfl, by simp [Machine.step, back, continueRun, hspent]⟩
  | false =>
    have htake : w.agenda.take? horizon = none := by
      simpa [turn?, hspent] using hturn
    exact Or.inr ⟨rfl, htake, by simp [Machine.step, back, continueRun, hspent, htake]⟩

theorem Life.budget {a b : Machine σ} {past : List (Machine σ)} (h : Life a past b) :
    b.world.budget = a.world.budget := by
  induction h with
  | refl => rfl
  | next _ hn ih =>
    rcases hn.explains with ⟨deeds, hpath, -⟩
    exact hpath.budget.trans ih

theorem spent_iff {w : World σ} {count : Nat} :
    spent w count = true ↔ ∃ limit, w.budget = some limit ∧ limit ≤ count := by
  unfold spent
  cases w.budget with
  | none => simp
  | some limit => simp

/-- Where no budget is set, nothing is due when a run returns. -/
theorem Life.not_due {config : SimulationConfig} {memory : σ} {past : List (Machine σ)}
    {m : Machine σ} {horizon : Time} {count : Nat} {next : Except SimulationError Nat → Script σ}
    {stack : List (Activation σ)} (h : Life (idle (World.start config memory)) past m)
    (hbudget : config.maxEvents = none) (hreturning : m.Returning horizon count next stack) :
    ∀ e ∈ m.world.agenda.pending, ¬ e.time ≤ horizon := by
  rcases hreturning.step with ⟨hspent, -⟩ | ⟨-, htake, -⟩
  · rcases spent_iff.1 hspent with ⟨limit, hlimit, -⟩
    rw [h.budget] at hlimit
    cases hbudget.symm.trans hlimit
  · exact (h.sound (sound_idle config memory)).agenda.not_due htake

/-- What a run leaves behind that returns without an error, in any life and whatever its horizon:

* if its budget is used up, everything stays as it is, the clock included;
* otherwise no event is due by the horizon any more;
* where no event is due any more, the clock has reached the horizon exactly if the budget is not used
  up, or if it had been there before. -/
theorem Life.horizon_reached_iff {config : SimulationConfig} {memory : σ}
    {past : List (Machine σ)} {m : Machine σ} {horizon : Time} {count : Nat}
    {next : Except SimulationError Nat → Script σ} {stack : List (Activation σ)}
    (h : Life (idle (World.start config memory)) past m)
    (hreturning : m.Returning horizon count next stack) (hnumber : horizon.isNaN = false) :
    ∃ v, m.step = some ⟨v, stack, .code (next (.ok count))⟩ ∧
      ((∃ limit, config.maxEvents = some limit ∧ limit ≤ count) → v = m.world) ∧
      ((¬ ∃ limit, config.maxEvents = some limit ∧ limit ≤ count) →
        ∀ e ∈ v.agenda.pending, ¬ e.time ≤ horizon) ∧
      ((∀ e ∈ v.agenda.pending, ¬ e.time ≤ horizon) →
        (horizon ≤ v.now ↔ (¬ ∃ limit, config.maxEvents = some limit ∧ limit ≤ count) ∨
          horizon ≤ m.world.now)) := by
  have hsound : m.world.Sound := h.sound (sound_idle config memory)
  have hbudget : m.world.budget = config.maxEvents := h.budget
  have hspent : spent m.world count = true ↔
      ∃ limit, config.maxEvents = some limit ∧ limit ≤ count := by
    rw [← hbudget]
    exact spent_iff
  rw [← hspent]
  rcases hreturning.step with ⟨hused, hstep⟩ | ⟨hleft, htake, hstep⟩
  · refine ⟨m.world, hstep, fun _ => rfl, fun hnot => absurd hused hnot, ?_⟩
    intro _
    simp [hused]
  · have hnone := hsound.agenda.not_due htake
    have hreached := hsound.agenda.horizon_le_advance hnumber
    refine ⟨_, hstep, fun hused => ?_, fun _ => ?_, fun _ => ?_⟩
    · rw [hleft] at hused
      cases hused
    · rw [(Agenda.advance_pending m.world.agenda horizon).1]
      exact hnone
    · refine iff_of_true hreached (Or.inl ?_)
      simp [hleft]

/-- Host code that schedules an event, and runs up to a horizon beyond it. -/
def errand : Script Unit :=
  .schedule 1.0 .external .done fun _ => .run 5.0 fun _ => .done

/-- The run has taken the event, and returns. -/
def errandDone (budget : Option Nat) : Machine Unit :=
  run 4 ⟨World.start ⟨true, budget⟩ (), [], .code errand⟩

theorem life_errandDone (budget : Option Nat) :
    ∃ past, Life (idle (World.start ⟨true, budget⟩ ())) past (errandDone budget) :=
  ⟨_, (Life.refl.next (.call errand rfl)).trans (life_run 4 _)⟩

/-- A run can leave nothing that is due and return without having moved the clock to its horizon. -/
theorem budget_misses_horizon :
    ¬ ∀ (config : SimulationConfig) (past : List (Machine Unit)) (m n : Machine Unit)
      (horizon : Time) (count : Nat) (next : Except SimulationError Nat → Script Unit)
      (stack : List (Activation Unit)),
      Life (idle (World.start config ())) past m → m.Returning horizon count next stack →
        horizon.isNaN = false → m.step = some n →
          (∀ e ∈ n.world.agenda.pending, ¬ e.time ≤ horizon) → horizon ≤ n.world.now := by
  intro hall
  rcases life_errandDone (some 1) with ⟨past, hlife⟩
  have hreached : 5.0 ≤ (errandDone (some 1)).world.now :=
    hall _ past (errandDone (some 1)) ⟨(errandDone (some 1)).world, [], .code .done⟩ 5.0 1
      (fun _ => .done) [] hlife ⟨rfl, rfl, rfl⟩ rfl rfl (by decide +kernel)
  have hshort : ¬ 5.0 ≤ (errandDone (some 1)).world.now := by decide +kernel
  exact hshort hreached

theorem errand_horizon_reached :
    ∃ v, (errandDone (some 2)).step = some ⟨v, [], .code .done⟩ ∧ 5.0 ≤ v.now ∧
      ¬ 5.0 ≤ (errandDone (some 2)).world.now := by
  rcases life_errandDone (some 2) with ⟨past, hlife⟩
  have hreturning : (errandDone (some 2)).Returning 5.0 1 (fun _ => .done) [] := ⟨rfl, rfl, rfl⟩
  rcases hlife.horizon_reached_iff hreturning rfl with ⟨v, hstep, _, hnone, hiff⟩
  have hleft : ¬ ∃ limit, (some 2 : Option Nat) = some limit ∧ limit ≤ 1 := by simp
  exact ⟨v, hstep, (hiff (hnone hleft)).2 (Or.inl hleft), by decide +kernel⟩

end Machine
end Callflow
