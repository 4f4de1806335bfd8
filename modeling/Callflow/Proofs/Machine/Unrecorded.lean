import Callflow.Proofs.Machine.Disguise
import Callflow.Proofs.Machine.Life
import Mathlib.Data.List.Forall2

/-!
# What a journal keeps is out of sight

A simulation goes the same way whether its journal keeps entries or not. Every transition does the
same without a record (`step_unrecorded`), as long as host code that looks at the journal looks at
its statistics only (`Discreet`). So two simulations that begin alike but for what their journals
keep stay so, and each life of one is a life of the other (`Life.mirrored`).
`Life.journal_out_of_sight` is this for two simulations that are set up with different journals.
-/

namespace Callflow

variable {σ : Type}

/-- The world with a journal that is off and has kept nothing. -/
def World.unrecorded (w : World σ) : World σ :=
  { w with journal := ⟨false, #[], w.journal.stats⟩ }

/-- Host code that does not depend on what a journal keeps, or on whether it keeps anything. It may
depend on the statistics. -/
def Script.Discreet : Script σ → Prop
  | .readJournal next => ∀ j k : Journal, j.stats = k.stats → next j = next k
  | _ => True

namespace Machine

/-- The machine in the world without a record. -/
def unrecorded (m : Machine σ) : Machine σ := { m with world := m.world.unrecorded }

/-- A machine whose next transition does not depend on what the journal keeps. -/
def Discreet (m : Machine σ) : Prop := ∀ script, m.focus = .code script → script.Discreet

/-- A machine in which host code looks at the journal. -/
def looks (m : Machine σ) : Bool :=
  match m.focus with
  | .code (.readJournal _) => true
  | _ => false

theorem discreet_of_looks {m : Machine σ} (h : m.looks = false) : m.Discreet := by
  intro script hscript
  rw [looks, hscript] at h
  cases script <;> trivial

/-- A journal that is off and has kept nothing, with the same statistics. -/
def withoutRecord : Disguise where
  budget := id
  journal j := ⟨false, #[], j.stats⟩
  record _ _ := rfl
  stats _ := rfl

/-- A transition does the same without a record. -/
theorem step_unrecorded {m : Machine σ} (h : m.Discreet) :
    m.unrecorded.step = m.step.map unrecorded :=
  step_disguised (d := withoutRecord)
    ⟨fun next hlooks => h (.readJournal next) hlooks _ _ rfl, fun _ _ _ _ _ _ => rfl⟩

/-! ## Lives -/

/-- Two machines that are the same but for what their journals keep. The host sees the same of both,
and both report the same but for the fingerprint. -/
structure Mirrors (m n : Machine σ) : Prop where
  stack : n.stack = m.stack
  focus : n.focus = m.focus
  world : n.world = { m.world with journal := n.world.journal }
  stats : n.world.journal.stats = m.world.journal.stats
  view : n.world.view = m.world.view
  report : ∀ (runId : RunId) (createdAt : Timestamp) (fingerprint : Journal → String),
    n.world.report runId createdAt fingerprint =
      { m.world.report runId createdAt fingerprint with
        fingerprint := fingerprint n.world.journal }

variable {m m' n : Machine σ}

theorem Mirrors.unrecorded (h : Mirrors m n) : n.unrecorded = m.unrecorded := by
  have hworld : n.world.unrecorded = m.world.unrecorded := by
    rw [h.world]
    simp only [World.unrecorded, h.stats]
  simp only [Machine.unrecorded, hworld, h.stack, h.focus]

theorem mirrors_of_unrecorded (h : n.unrecorded = m.unrecorded) : Mirrors m n where
  stack := congrArg (fun x => x.stack) h
  focus := congrArg (fun x => x.focus) h
  world := congrArg (fun x => { x.world with journal := n.world.journal }) h
  stats := congrArg (fun x => x.world.journal.stats) h
  view := congrArg (fun x => x.world.view) h
  report runId createdAt fingerprint :=
    congrArg (fun x => { x.world.report runId createdAt fingerprint with
      fingerprint := fingerprint n.world.journal }) h

/-- What follows in one machine follows in the other. -/
theorem Mirrors.next (h : Mirrors m n) (hdiscreet : m.Discreet) (hn : Next m m') :
    ∃ n', Next n n' ∧ Mirrors m' n' := by
  have hsame : n.unrecorded.step = m.unrecorded.step := congrArg step h.unrecorded
  have hother : n.Discreet := by
    rw [Discreet, h.focus]
    exact hdiscreet
  rw [step_unrecorded hother, step_unrecorded hdiscreet] at hsame
  cases hn with
  | step hs =>
    rw [hs, Option.map_some, Option.map_eq_some_iff] at hsame
    rcases hsame with ⟨n', hs', hunrecorded⟩
    exact ⟨n', .step hs', mirrors_of_unrecorded hunrecorded⟩
  | call script hnone =>
    rw [hnone, Option.map_none, Option.map_eq_none_iff] at hsame
    exact ⟨_, .call script hsame, rfl, rfl, h.world, h.stats, h.view, h.report⟩

/-- A life of one machine is a life of the other. -/
theorem Life.mirrored {a : Machine σ} {past : List (Machine σ)} (h : Life m past a)
    (hdiscreet : ∀ x ∈ past, x.Discreet) (hmirrors : Mirrors m n) :
    ∃ past' a', Life n past' a' ∧ List.Forall₂ Mirrors past past' ∧ Mirrors a a' := by
  induction h with
  | refl => exact ⟨[], n, .refl, .nil, hmirrors⟩
  | @next past b _ _ hn ih =>
    rcases ih fun x hx => hdiscreet x (List.mem_append_left _ hx) with
      ⟨past', b', hlife', hpast, hb⟩
    rcases hb.next (hdiscreet b (by simp)) hn with ⟨c', hn', hc⟩
    exact ⟨past' ++ [b'], c', hlife'.next hn', List.rel_append hpast (.cons hb .nil), hc⟩

/-- A journal keeps entries if it has been set up to, and none otherwise. -/
theorem Life.keeps {config : SimulationConfig} {memory : σ} {past : List (Machine σ)}
    (h : Life (idle (World.start config memory)) past m) :
    m.world.journal.enabled = config.journal ∧
      (config.journal = false → m.world.journal.entries = #[]) := by
  rcases h.deeds (sound_idle config memory).waiting with ⟨deeds, hdeeds⟩
  rw [hdeeds.path.journal]
  exact ⟨Journal.enabled_foldl _, fun hdisabled => Journal.entries_foldl_of_disabled _ hdisabled⟩

/-- Whether a journal keeps entries is out of sight. Take any life of a simulation in which host
code that looks at the journal looks at its statistics only, and set up another simulation that
differs in the switch of the journal alone. It has a life, with the same host code and through as
many machines, in which at every moment

* everything is the same but for what the journal keeps: who has called and what happens next, with
  its results and outcomes, and the whole world, with its clock, its pending events, its numbers,
  its requests and its clients; the statistics of the journal are the same, too;
* the host sees the same, and a report says the same but for the fingerprint;
* the switch is as it was set up, and where it is off, no entry is kept. -/
theorem Life.journal_out_of_sight {config : SimulationConfig} {memory : σ}
    {past : List (Machine σ)} (h : Life (idle (World.start config memory)) past m)
    (hdiscreet : ∀ x ∈ past, x.Discreet) (journal : Bool) :
    ∃ past' m', Life (idle (World.start { config with journal } memory)) past' m' ∧
      List.Forall₂ Mirrors past past' ∧ Mirrors m m' ∧
      ∀ y ∈ past' ++ [m'], y.world.journal.enabled = journal ∧
        (journal = false → y.world.journal.entries = #[]) := by
  have hstart : Mirrors (idle (World.start config memory))
      (idle (World.start { config with journal } memory)) := mirrors_of_unrecorded rfl
  rcases h.mirrored hdiscreet hstart with ⟨past', m', hlife, hpast, hm⟩
  refine ⟨past', m', hlife, hpast, hm, ?_⟩
  intro y hy
  rcases hlife.through hy with ⟨before, -, hbefore, -⟩
  exact hbefore.keeps

/-- Host code that remembers how many requests have missed their deadlines. -/
def tallying : Script Nat :=
  .bind "mute" "mute" 0.0 (fun _ => .done) fun _ =>
  .evaluate (.query "mute" "work" (some 1.0)) .host (fun _ => .done) fun _ =>
  .run 5.0 fun _ =>
  .observe fun view =>
  .remember (fun _ => view.stats.timedOut) .done

/-- The machine that begins with it. -/
def tally : Machine Nat := ⟨World.start ⟨true, none⟩ 0, [], .code tallying⟩

theorem tally_journal_out_of_sight :
    (run 14 tally).world.journal.entries.size = 4 ∧
      ∃ past m, Life (idle (World.start ⟨false, none⟩ 0)) past m ∧ m.world.memory = 1 ∧
        m.world.journal.stats = (run 14 tally).world.journal.stats ∧
        m.world.journal.entries = #[] := by
  have hlife : Life (idle (World.start ⟨true, none⟩ 0)) _ (run 14 tally) :=
    (Life.refl.next (.call tallying rfl)).trans (life_run 14 tally)
  have hdiscreet : ∀ x ∈ [idle (World.start ⟨true, none⟩ 0)] ++ trail 14 tally, x.Discreet := by
    have hlooks : ([idle (World.start ⟨true, none⟩ 0)] ++ trail 14 tally).all (!looks ·) := by
      decide +kernel
    intro x hx
    exact discreet_of_looks (by simpa using List.all_eq_true.1 hlooks x hx)
  rcases hlife.journal_out_of_sight hdiscreet false with ⟨past, m, hother, -, hm, hkept⟩
  refine ⟨by decide +kernel, past, m, hother, ?_, hm.stats, (hkept m (by simp)).2 rfl⟩
  have hmemory : (run 14 tally).world.memory = 1 := by decide +kernel
  rw [hm.world]
  exact hmemory

end Machine
end Callflow
