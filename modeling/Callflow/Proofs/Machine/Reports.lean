import Callflow.Journal.Fingerprint
import Callflow.Proofs.Format.Report
import Callflow.Proofs.Machine.Clock
import Callflow.Proofs.Machine.Timing
import Callflow.Proofs.Time.Size

/-!
# Reports of a life

The clock of a simulation is finite as long as no run to infinity has been made: it shows the time of
an event that was due, or a horizon that came later (`Life.isFinite_now`). Delays may add up to
infinity, but then the event is due by no other horizon. So the report of a simulation survives its
text unless the clock has been sent to infinity: `Life.report_survives_iff`.
-/

namespace Callflow
namespace Machine

variable {σ : Type} {m n : Machine σ}

/-- Short of infinity, no transition moves the clock to infinity. -/
theorem Next.isFinite_now (h : Next m n) (hsound : m.world.Sound)
    (hhorizon : m.horizon? ≠ some (1.0 / 0.0)) (hfinite : Decimal.isFinite m.world.now = true) :
    Decimal.isFinite n.world.now = true := by
  cases h with
  | call script hnone => exact hfinite
  | step hstep =>
    by_cases hreturning : ∃ horizon count next stack, m.Returning horizon count next stack
    · rcases hreturning with ⟨horizon, count, next, stack, hreturning⟩
      have htop : m.horizon? = some horizon := by
        rw [horizon?, hreturning.focus, hreturning.stack]
      rcases hreturning.step with ⟨-, hs⟩ | ⟨-, -, hs⟩
      · cases hstep.symm.trans hs
        exact hfinite
      · cases hstep.symm.trans hs
        show Decimal.isFinite (m.world.agenda.advance horizon).now = true
        unfold Agenda.advance
        split
        · rename_i hlater
          have hreading := hsound.agenda.clock.of_lt hlater
          apply hreading.isFinite_of_ne
          intro hsame
          exact hhorizon (htop.trans (congrArg some hsame))
        · exact hfinite
    · simp only [not_exists] at hreturning
      rw [step_now hstep hreturning]
      cases htaken : m.taken? with
      | none =>
        rw [moment_of_not_taken htaken]
        exact hfinite
      | some e =>
        rcases due_of_taken? htaken with ⟨horizon, htop, hdue⟩
        have hreading := hsound.agenda.reading e (taken?_spec htaken).1
        rw [moment, htaken]
        apply hreading.isFinite_of_le hdue
        intro hsame
        exact hhorizon (htop.trans (congrArg some hsame))

/-- The clock of a life is finite unless a run to infinity has been made. -/
theorem Life.isFinite_now {config : SimulationConfig} {memory : σ} {past : List (Machine σ)}
    (h : Life (idle (World.start config memory)) past m)
    (hhorizon : ∀ b ∈ past, b.horizon? ≠ some (1.0 / 0.0)) :
    Decimal.isFinite m.world.now = true := by
  generalize hstart : idle (World.start config memory) = a at h
  induction h with
  | refl =>
    rw [← hstart]
    exact Decimal.isFinite_zero
  | @next past b c hlife hn ih =>
    subst hstart
    have hbefore := ih fun x hx => hhorizon x (List.mem_append_left _ hx)
    have hsound := hlife.sound (sound_idle config memory)
    exact hn.isFinite_now hsound (hhorizon b (by simp)) hbefore

/-- The report of a simulation, in any state that it can get into, is read back from its text exactly
when the clock is finite, and the text is not read at all when it is not. The clock is finite as long
as no run to infinity has been made. -/
theorem Life.report_survives_iff {config : SimulationConfig} {memory : σ} {past : List (Machine σ)}
    (h : Life (idle (World.start config memory)) past m) {runId : RunId} {createdAt : Timestamp}
    {fingerprint : Journal → String}
    (hlegible : (m.world.report runId createdAt fingerprint).Legible) :
    let report := m.world.report runId createdAt fingerprint
    (SimulationReport.parse? report.render = some report ↔
      Decimal.isFinite m.world.now = true) ∧
    (Decimal.isFinite m.world.now = false → SimulationReport.parse? report.render = none) ∧
    ((∀ b ∈ past, b.horizon? ≠ some (1.0 / 0.0)) →
      SimulationReport.parse? report.render = some report) := by
  intro report
  have hread : SimulationReport.parse? report.render =
      if Decimal.isFinite m.world.now then some report else none :=
    SimulationReport.parse?_render_eq hlegible
  rw [hread]
  refine ⟨?_, ?_, ?_⟩
  · cases Decimal.isFinite m.world.now <;> simp
  · intro hinfinite
    rw [hinfinite]
    rfl
  · intro hhorizon
    rw [h.isFinite_now hhorizon]
    rfl

/-! ## A clock at infinity -/

/-- Host code that lets some time pass, and runs up to a horizon. -/
def napping (horizon : Time) : Script Unit :=
  .evaluate (.think 0.5) .host (fun _ => .done) fun _ => .run horizon fun _ => .done

/-- The machine that begins with it. -/
def toNap (horizon : Time) : Machine Unit := ⟨World.start .default (), [], .code (napping horizon)⟩

/-- The run has returned. -/
def napped (horizon : Time) : Machine Unit := run 8 (toNap horizon)

theorem life_napped (horizon : Time) :
    Life (idle (World.start .default ())) ([idle (World.start .default ())] ++
      trail 8 (toNap horizon)) (napped horizon) :=
  (Life.refl.next (.call (napping horizon) rfl)).trans (life_run 8 _)

/-- The report of a simulation after the nap. -/
def napReport (horizon : Time) : SimulationReport :=
  (napped horizon).world.report ⟨0x3f2c⟩ ⟨86399, 500000000⟩ Journal.fingerprint

theorem legible_napReport (horizon : Time)
    (hcount : (napped horizon).world.agenda.dispatched < Json.word64)
    (hpending : (napped horizon).world.agenda.pending.length < Json.word64)
    (hstats : (napped horizon).world.journal.stats = ⟨0, 0, 0, 0, 0⟩) :
    (napReport horizon).Legible where
  runId := by
    show RunId.parse? (RunId.render ⟨0x3f2c⟩) = some ⟨0x3f2c⟩
    decide +kernel
  createdAt := by
    show Timestamp.parse? (Timestamp.render ⟨86399, 500000000⟩) = some ⟨86399, 500000000⟩
    decide +kernel
  eventsDispatched := hcount
  pendingEvents := hpending
  requests := by
    show (napped horizon).world.journal.stats.Fits
    rw [hstats]
    exact ⟨by decide, by decide, by decide, by decide, by decide⟩

/-- After a run to infinity, the report cannot be read. -/
theorem infinite_report_lost :
    Life (idle (World.start .default ())) ([idle (World.start .default ())] ++
      trail 8 (toNap (1.0 / 0.0))) (napped (1.0 / 0.0)) ∧
      (napped (1.0 / 0.0)).step = none ∧
      SimulationReport.parse? (napReport (1.0 / 0.0)).render = none := by
  have hlegible := legible_napReport (1.0 / 0.0) (by decide +kernel) (by decide +kernel)
    (by decide +kernel)
  have hinfinite : Decimal.isFinite (napReport (1.0 / 0.0)).now = false := by decide +kernel
  refine ⟨life_napped _, by with_unfolding_all rfl, ?_⟩
  rw [SimulationReport.parse?_render_eq hlegible, hinfinite]
  rfl

/-- After a run to a finite horizon, it can. -/
theorem nap_report_survives :
    (∀ b ∈ [idle (World.start .default ())] ++ trail 8 (toNap 3.0),
        b.horizon? ≠ some (1.0 / 0.0)) ∧
      SimulationReport.parse? (napReport 3.0).render = some (napReport 3.0) := by
  have hlegible := legible_napReport 3.0 (by decide +kernel) (by decide +kernel)
    (by decide +kernel)
  have hhorizon : ∀ b ∈ [idle (World.start .default ())] ++ trail 8 (toNap 3.0),
      b.horizon? ≠ some (1.0 / 0.0) := by
    have hplaces : (([idle (World.start .default ())] ++ trail 8 (toNap 3.0)).filterMap
        horizon?).all (fun horizon => decide (horizon.place < Time.lastPlace)) = true := by
      decide +kernel
    intro b hb hinfinite
    have hplace := List.all_eq_true.1 hplaces _ (List.mem_filterMap.2 ⟨b, hb, hinfinite⟩)
    exact absurd hplace (by decide +kernel)
  exact ⟨hhorizon, ((life_napped 3.0).report_survives_iff hlegible).2.2 hhorizon⟩

end Machine
end Callflow
