import Callflow.Proofs.Agenda.Fifo
import Callflow.Proofs.Machine.Ledger
import Callflow.Proofs.Machine.Running

/-!
# No event is lost or taken twice

At every point of a life, also inside of callbacks and after errors and crashes, the events that have
been scheduled are those that have been taken and those that are pending: `Life.accounted`. Taking an
event, counting it and noting it down are one deed (`Life.dispatched`), so a run inside of which no
other one is started returns how many events the simulation has counted meanwhile
(`Ends.dispatched`).
-/

namespace Callflow

variable {σ : Type}

/-- What an entry says about an event that was taken. -/
def JournalEntry.dispatched? : JournalEntry → Option (Time × Nat × EventKind)
  | .dispatched time seq kind => some (time, seq, kind)
  | _ => none

/-- What the journal tells of an event. -/
def Event.listed {α : Type} (e : Event α) : Time × Nat × EventKind := (e.time, e.seq, e.kind)

namespace Agenda

variable {α : Type}

/-- The numbers given out are those of the events taken and of those pending. -/
theorem Path.seqs {log : List (Deed α)} {a : Agenda α} (h : Path empty log a) :
    ((takes log ++ a.pending).map Event.seq).Perm (List.range a.nextSeq) ∧
      a.dispatched + a.pending.length = (schedules log).length ∧
      a.nextSeq = (schedules log).length := by
  rcases h.numbers with ⟨hseqs, hnext⟩
  have hperm : (takes log ++ a.pending).Perm (schedules log) := h.perm
  have hcount : a.nextSeq = (schedules log).length := hnext.trans (Nat.zero_add _)
  refine ⟨?_, ?_, hcount⟩
  · rw [hcount, List.range_eq_range']
    refine (hperm.map Event.seq).trans ?_
    rw [hseqs]
    exact .refl _
  · have hlength := hperm.length_eq
    rw [List.length_append] at hlength
    rw [← hlength, h.dispatched]
    simp [empty]

end Agenda

namespace World

/-- The host and the events taken write the entries about dispatches. -/
theorem dispatched_entries (deeds : List (Deed σ)) :
    ((deeds.filter fun d => d.recorded?.isNone).filterMap Deed.entry?).filterMap
        JournalEntry.dispatched? = (deeds.filterMap Deed.taken?).map Event.listed := by
  induction deeds with
  | nil => rfl
  | cons d rest ih =>
    cases d with
    | agenda deed =>
      cases deed with
      | taken e => exact congrArg (e.listed :: ·) ih
      | scheduled clock delay e => exact ih
      | advanced horizon => exact ih
    | issued time request caller service operation => exact ih
    | settled time request failure => exact ih
    | stale time request failure => exact ih
    | recorded entry => exact ih

end World

namespace Machine

open World (Deed Path)

/-! ## Counting -/

/-- The events taken in a life are those that the simulation counts. -/
theorem Life.dispatched {a b : Machine σ} {past : List (Machine σ)} (h : Life a past b) :
    b.world.agenda.dispatched = a.world.agenda.dispatched + (past.filterMap taken?).length := by
  rcases h.sendings with ⟨deeds, hdeeds⟩
  rw [hdeeds.path.agenda.dispatched, hdeeds.takes]

/-- A run inside of which no other one is started returns how many events the simulation has counted
meanwhile. -/
theorem Ends.dispatched {stack : List (Activation σ)} {horizon : Time}
    {next : Except SimulationError Nat → Script σ} {w v : World σ} {past : List (Machine σ)}
    {x : Machine σ} {count : Nat} (hends : Ends stack horizon next x (.taken count) v)
    (hinside : Inside stack (called w stack horizon next) past x)
    (hcode : ∀ y ∈ past, y.focus.startsRun = false) :
    v.agenda.dispatched = w.agenda.dispatched + count := by
  rcases hends.step with ⟨hstep, htaken⟩
  have hwhole := (hinside.life.next (.step hstep)).dispatched
  rw [List.filterMap_append, List.filterMap_cons_none htaken, List.filterMap_nil,
    List.append_nil] at hwhole
  -- The run has counted the events that have been taken inside of it.
  have hstart : Running stack horizon next 0 (called w stack horizon next) :=
    .intro w [] 0 (.back (.ok ())) (by simp)
  have hcount : count = (past.filterMap taken?).length := by
    cases hends with
    | taken hreturning _ =>
      have hsame := (hstart.inside hinside hcode).count_eq hreturning.stack
      rw [hsame, Nat.zero_add]
  rw [hcount]
  exact hwhole

/-! ## Lives -/

/-- The events of a simulation, at any point of any life:

* the numbers below the next one are those of the events that have been taken and of the events that
  are pending, each of them once;
* the events taken are those that the simulation counts, and together with those pending they are as
  many as have been scheduled with an accepted delay;
* besides what the host writes itself, the journal has got an entry for each event taken, in their
  order and with their times, numbers and kinds; and if the host has written nothing, an enabled
  journal has no other entries about dispatches;
* a run that is called here, starts no other run inside and returns a number of events has raised the
  number that the simulation counts by just so many. -/
theorem Life.accounted {config : SimulationConfig} {memory : σ} {past : List (Machine σ)}
    {m : Machine σ} (h : Life (idle (World.start config memory)) past m) :
    ((past.filterMap taken? ++ m.world.agenda.pending).map Event.seq).Perm
      (List.range m.world.agenda.nextSeq) ∧
    m.world.view.dispatched = (past.filterMap taken?).length ∧
    (∃ log, Agenda.Path .empty log m.world.agenda ∧ Agenda.takes log = past.filterMap taken? ∧
      m.world.view.dispatched + m.world.view.pending = (Agenda.schedules log).length) ∧
    (∃ deeds : List (Deed σ),
      m.world.journal = (deeds.filterMap Deed.entry?).foldl Journal.record (.empty config.journal) ∧
      deeds.filterMap Deed.recorded? = past.filterMap recorded? ∧
      ((deeds.filter fun d => d.recorded?.isNone).filterMap Deed.entry?).filterMap
        JournalEntry.dispatched? = (past.filterMap taken?).map Event.listed) ∧
    (config.journal = true → (∀ x ∈ past, x.recorded? = none) →
      m.world.journal.entries.toList.filterMap JournalEntry.dispatched? =
        (past.filterMap taken?).map Event.listed) ∧
    ∀ (stack : List (Activation σ)) (horizon : Time)
      (next : Except SimulationError Nat → Script σ) (inside : List (Machine σ)) (x : Machine σ)
      (count : Nat) (v : World σ),
      Inside stack (called m.world stack horizon next) inside x →
        (∀ y ∈ inside, y.focus.startsRun = false) →
          Ends stack horizon next x (.taken count) v →
            v.view.dispatched = m.world.view.dispatched + count := by
  rcases h.deeds (sound_idle config memory).waiting with ⟨deeds, hdeeds⟩
  have htakes : Agenda.takes (deeds.filterMap Deed.agenda?) = past.filterMap taken? := by
    rw [World.takes_agenda, hdeeds.taken]
  have hpath : Agenda.Path .empty (deeds.filterMap Deed.agenda?) m.world.agenda :=
    hdeeds.path.agenda
  have hjournal : m.world.journal =
      (deeds.filterMap Deed.entry?).foldl Journal.record (.empty config.journal) :=
    hdeeds.path.journal
  have hlisted : ((deeds.filter fun d => d.recorded?.isNone).filterMap Deed.entry?).filterMap
      JournalEntry.dispatched? = (past.filterMap taken?).map Event.listed := by
    rw [World.dispatched_entries, hdeeds.taken]
  rcases hpath.seqs with ⟨hseqs, hcounts, -⟩
  refine ⟨?_, ?_, ⟨_, hpath, htakes, hcounts⟩, ⟨deeds, hjournal, hdeeds.recorded, hlisted⟩, ?_, ?_⟩
  · rw [← htakes]
    exact hseqs
  · rw [← htakes]
    exact hpath.dispatched.trans (Nat.zero_add _)
  · intro henabled hsilent
    -- Where the host has written nothing, no deed is left out.
    have hnone : deeds.filterMap Deed.recorded? = [] := by
      rw [hdeeds.recorded, List.filterMap_eq_nil_iff]
      exact hsilent
    have hall : (deeds.filter fun d => d.recorded?.isNone) = deeds := by
      rw [List.filter_eq_self]
      intro d hd
      rw [List.filterMap_eq_nil_iff.1 hnone d hd]
      rfl
    rw [hall] at hlisted
    rw [hjournal, Journal.entries_foldl _ henabled]
    exact hlisted
  · intro stack horizon next inside x count v hinside hcode hends
    exact hends.dispatched hinside hcode

/-- The host code that the first callback of `relay` is when it starts its own run. -/
def relaying : Machine Unit := run 5 ⟨World.start ⟨true, none⟩ (), [], .code relay⟩

theorem relaying_accounted :
    let w := World.start ⟨true, none⟩ ()
    let taken := ([idle w] ++ trail 5 ⟨w, [], .code relay⟩).filterMap taken?
    taken.map Event.seq = [0] ∧ relaying.world.agenda.pending.map Event.seq = [2, 1] ∧
      ((taken ++ relaying.world.agenda.pending).map Event.seq).Perm (List.range 3) ∧
      relaying.world.journal.entries.toList.filterMap JournalEntry.dispatched? =
        taken.map Event.listed ∧
      ∃ v : World Unit, v.view.dispatched = relaying.world.view.dispatched + 2 := by
  have hlife : Life (idle (World.start ⟨true, none⟩ ())) _ relaying :=
    (Life.refl.next (.call relay rfl)).trans (life_run 5 _)
  rcases hlife.accounted with ⟨hseqs, -, -, -, hentries, hrun⟩
  refine ⟨by decide, by decide, hseqs, hentries rfl (by decide), ?_⟩
  exact ⟨_, hrun relaying.stack 5.0 (fun _ => .done) _ _ 2 _
    (.step rfl (by decide) (.step rfl (by decide) (.step rfl (by decide) (.step rfl (by decide)
      (.refl _))))) (by decide) (.taken ⟨rfl, rfl, rfl⟩ rfl)⟩

end Machine
end Callflow
