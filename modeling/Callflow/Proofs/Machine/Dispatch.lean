import Callflow.Proofs.Machine.Life

/-!
# Events are dispatched in order

Over the whole life of a simulation, whatever the host and its callbacks do, the events are taken in
the order of their times and numbers, each at the time it was scheduled for, and the clock is never
turned back: `Life.dispatched_in_order`.
-/

namespace Callflow
namespace Machine

open World (Deed Path)

variable {σ : Type}

/-! ## Turns -/

/-- An event that a machine is about to take is carried out by its next transition. -/
theorem turn?_spec {m : Machine σ} {t : Turn σ} (h : m.turn? = some t) :
    Taking m t ∧ m.step = some (dispatch t.world t.stack t.event.work) := by
  rcases m with ⟨w, stack, focus⟩
  unfold turn? at h
  split at h
  · rename_i horizon count next callers hfocus hstack
    cases hfocus
    cases hstack
    split at h
    · cases h
    · rename_i hspent
      cases htake : w.agenda.take? horizon with
      | none =>
        rw [htake] at h
        cases h
      | some taken =>
        rw [htake] at h
        cases h
        refine ⟨⟨rfl, by simp [turn?, hspent, htake], horizon, taken.2, htake, rfl⟩, ?_⟩
        simp only [step, back, continueRun, htake, if_neg hspent]
        rfl
  · cases h

theorem taken?_spec {m : Machine σ} {e : Event (Callback σ)} (h : m.taken? = some e) :
    e ∈ m.world.agenda.pending ∧
      ∃ w stack, m.step = some (dispatch w stack e.work) ∧ w.now = e.time := by
  rcases Option.map_eq_some_iff.1 h with ⟨t, hturn, rfl⟩
  rcases turn?_spec hturn with ⟨htaking, hstep⟩
  rcases htaking.take with ⟨horizon, agenda, htake, -⟩
  rcases Agenda.take?_eq_some htake with ⟨rest, hpending, -, -⟩
  exact ⟨by simp [hpending], t.world, t.stack, hstep, htaking.now⟩

/-! ## The clock -/

theorem Life.place_le {a b : Machine σ} {past : List (Machine σ)} (h : Life a past b)
    (ha : a.world.Sound) : a.world.now.place ≤ b.world.now.place := by
  rcases h.deeds ha.waiting with ⟨deeds, hdeeds⟩
  exact (hdeeds.path.agenda.place_le ha.agenda).2

/-- The clock of a life is never turned back. -/
theorem Life.clock {a b : Machine σ} {past : List (Machine σ)} (h : Life a past b)
    (ha : a.world.Sound) : ((past ++ [b]).map fun m => m.world.now).Pairwise (· ≤ ·) := by
  rw [List.pairwise_map]
  induction h with
  | refl => exact List.pairwise_singleton _ _
  | @next past b c hlife hn ih =>
    rw [List.pairwise_append]
    refine ⟨ih, List.pairwise_singleton _ _, ?_⟩
    intro x hx y hy
    rw [List.mem_singleton] at hy
    subst hy
    -- Cut the life at the earlier machine: from there on the clock only moves forward.
    rcases (hlife.next hn).through (List.mem_append_left [y] hx) with ⟨_, _, hbefore, hlater⟩
    have hsound := hbefore.sound ha
    exact (Time.le_iff hsound.agenda.clock (hlater.sound hsound).agenda.clock).2
      (hlater.place_le hsound)

/-! ## Scheduling -/

/-- A machine of the past in whose transition an event was scheduled: with an accepted delay after the
time that the clock showed then, and by the host if it is host code. -/
def Planned (past : List (Machine σ)) (e : Event (Callback σ)) : Prop :=
  ∃ y ∈ past, ∃ delay, Time.checkDelay delay = .ok () ∧ e.time = y.moment + delay ∧
    y.world.agenda.nextSeq ≤ e.seq ∧
    ∀ code, e.work = .host code → ∃ next, y.focus = .code (.schedule delay e.kind code next)

theorem Planned.append {past : List (Machine σ)} {e : Event (Callback σ)} (h : Planned past e)
    (more : List (Machine σ)) : Planned (past ++ more) e := by
  rcases h with ⟨y, hy, hrest⟩
  exact ⟨y, List.mem_append_left _ hy, hrest⟩

/-- Whatever is pending was pending at the start, or has been scheduled since. -/
theorem Life.planned {a b : Machine σ} {past : List (Machine σ)} (h : Life a past b) :
    ∀ e ∈ b.world.agenda.pending, e ∈ a.world.agenda.pending ∨ Planned past e := by
  induction h with
  | refl => exact fun e he => Or.inl he
  | @next past b c _ hn ih =>
    intro e he
    rcases hn.explains with ⟨deeds, hpath, hexplains⟩
    rcases hpath.agenda.planned.2 e he with hold | ⟨clock, delay, hmem, hcheck, htime, hseq⟩
    · rcases ih e hold with hstart | hplanned
      · exact Or.inl hstart
      · exact Or.inr (hplanned.append _)
    · -- The event was scheduled in the last transition.
      right
      rcases List.mem_filterMap.1 hmem with ⟨d, hd, hagenda⟩
      have hdeed : d = .agenda (.scheduled clock delay e) := by
        cases d <;> cases hagenda
        rfl
      rw [hdeed] at hd
      refine ⟨b, by simp, delay, hcheck, ?_, hseq, ?_⟩
      · rw [htime, hexplains.clocked clock delay e hd]
      · intro code hwork
        exact hexplains.booked clock delay e code hd hwork

/-! ## The order of a life -/

/-- Over the whole life of a simulation, whatever the host and the callbacks do:

* the events are taken in strictly ascending order of their times and, at equal times, of their
  numbers, and the simulation counts all of them;
* an event is carried out when the clock shows its own time;
* this is the time at which it was scheduled, by a transition before, plus the delay that was asked
  for;
* the clock is never turned back. -/
theorem Life.dispatched_in_order {config : SimulationConfig} {memory : σ}
    {past : List (Machine σ)} {m : Machine σ}
    (h : Life (idle (World.start config memory)) past m) :
    (past.filterMap taken?).Pairwise Event.Precedes ∧
    m.world.agenda.dispatched = (past.filterMap taken?).length ∧
    (∀ before x after e, past = before ++ x :: after → x.taken? = some e →
      (∃ w stack, x.step = some (dispatch w stack e.work) ∧ w.now = e.time) ∧
      Planned before e) ∧
    ((past ++ [m]).map fun x => x.world.now).Pairwise (· ≤ ·) := by
  have hsound := sound_idle config memory
  rcases h.deeds hsound.waiting with ⟨deeds, hdeeds⟩
  -- The events taken from the agenda are those that the machines were about to take.
  have htakes : Agenda.takes (deeds.filterMap Deed.agenda?) = past.filterMap taken? := by
    rw [← hdeeds.taken, Agenda.takes, List.filterMap_filterMap]
    rfl
  refine ⟨?_, ?_, ?_, h.clock hsound⟩
  · rw [← htakes]
    exact hdeeds.path.agenda.history.ordered
  · rw [hdeeds.path.agenda.dispatched, htakes]
    exact Nat.zero_add _
  · rintro before x after e rfl htaken
    rcases taken?_spec htaken with ⟨hmem, hentry⟩
    rcases h.cut with ⟨hbefore, -⟩
    refine ⟨hentry, ?_⟩
    rcases hbefore.planned e hmem with hstart | hplanned
    · cases hstart
    · exact hplanned

/-- Host code with a callback that schedules another one without a delay and starts a run of its own,
which goes beyond the horizon of the run that it is part of. -/
def relay : Script Unit :=
  .schedule 1.0 .external (.schedule 0.0 .external .done fun _ => .run 5.0 fun _ => .done) fun _ =>
    .schedule 3.0 .external .done fun _ => .run 2.0 fun _ => .done

theorem relay_dispatched_in_order :
    let w := World.start ⟨true, none⟩ ()
    let taken := ([idle w] ++ trail 20 ⟨w, [], .code relay⟩).filterMap taken?
    taken.map Event.seq = [0, 2, 1] ∧ taken.Pairwise Event.Precedes :=
  ⟨by decide, ((Life.refl.next (.call relay rfl)).trans (life_run 20 _)).dispatched_in_order.1⟩

end Machine
end Callflow
