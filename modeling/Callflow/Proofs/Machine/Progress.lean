import Callflow.Proofs.Machine.Cadence
import Callflow.Proofs.Time.Spacing

/-!
# How far a client's firings get

The next firing of a client is queued one period later, but the clock may be so great that it does
not notice the period: the sum is rounded back to the clock (`Time.Notices`). Up to there each
firing comes later than the one before, and there are not more of them up to a horizon than there
are readings of the clock. From there on the client fires again and again without the clock moving
on, and a run whose horizon is not before does not return (`Starting.fires_later_iff`).
-/

namespace Callflow

variable {σ : Type}

/-- A place that all elements with a property come before in a list bounds their number. -/
theorem countP_le_of_lt {β : Type} {l : List β} {p : β → Bool} {bound : Nat}
    (h : ∀ i x, l[i]? = some x → p x = true → i < bound) : l.countP p ≤ bound := by
  have hlate : (l.drop bound).countP p = 0 := by
    rw [List.countP_eq_zero]
    intro x hx hp
    rcases List.mem_iff_getElem?.1 hx with ⟨i, hi⟩
    rw [List.getElem?_drop] at hi
    exact absurd (h _ x hi hp) (by omega)
  calc l.countP p = (l.take bound).countP p + (l.drop bound).countP p := by
        rw [← List.countP_append, List.take_append_drop]
    _ ≤ (l.take bound).length := by
        rw [hlate]
        exact List.countP_le_length
    _ ≤ bound := List.length_take_le bound l

/-! ## Ticks -/

namespace Time

section Ticks

variable {start period horizon : Time} (hstart : start.IsReading) (hperiod : isPeriod period = true)
  {i j : Nat}

include hstart hperiod

theorem isReading_tick (i : Nat) : (tick start period i).IsReading := by
  induction i with
  | zero => exact hstart
  | succ i ih => exact (place_le_add ih (checkDelay_of_isPeriod hperiod)).2

theorem place_tick_le (h : i ≤ j) : (tick start period i).place ≤ (tick start period j).place := by
  induction j, h using Nat.le_induction with
  | base => exact le_rfl
  | succ j _ ih =>
    have hnext := place_le_add (isReading_tick hstart hperiod j) (checkDelay_of_isPeriod hperiod)
    exact ih.trans hnext.1

/-- A clock that does not notice the period stands still. -/
theorem tick_eq_of_not_notices (hfinite : Decimal.isFinite (tick start period i) = true)
    (hnot : ¬ (tick start period i).Notices period) (h : i ≤ j) :
    tick start period j = tick start period i := by
  induction j, h using Nat.le_induction with
  | base => rfl
  | succ j _ ih =>
    have hread := isReading_tick hstart hperiod i
    have hsum := place_le_add hread (checkDelay_of_isPeriod hperiod)
    rw [← hread.lt_add_iff hfinite hperiod, lt_iff hread hsum.2] at hnot
    rw [tick, ih]
    exact place_inj (by omega)

/-- Of two ticks the later one shows a later time exactly if the earlier one notices the period. -/
theorem tick_lt_tick_iff (hfinite : Decimal.isFinite (tick start period i) = true) (h : i < j) :
    tick start period i < tick start period j ↔ (tick start period i).Notices period := by
  have hread := isReading_tick hstart hperiod i
  have hlater := isReading_tick hstart hperiod j
  constructor
  · intro hlt
    by_contra hnot
    rw [tick_eq_of_not_notices hstart hperiod hfinite hnot h.le] at hlt
    exact lt_irrefl _ hlt
  · intro hnotices
    have hnext : tick start period i < tick start period (i + 1) :=
      (hread.lt_add_iff hfinite hperiod).2 hnotices
    rw [lt_iff hread (isReading_tick hstart hperiod (i + 1))] at hnext
    exact (lt_iff hread hlater).2 (hnext.trans_le (place_tick_le hstart hperiod h))

theorem tick_le_of_le (hij : i ≤ j) (h : tick start period j ≤ horizon) :
    tick start period i ≤ horizon :=
  (isReading_tick hstart hperiod i).le_of_place_le (isReading_tick hstart hperiod j)
    (place_tick_le hstart hperiod hij) h

theorem isFinite_tick (hfinite : Decimal.isFinite horizon = true)
    (h : tick start period i ≤ horizon) : Decimal.isFinite (tick start period i) = true := by
  have hne : horizon ≠ 1.0 / 0.0 := by
    rintro rfl
    cases hfinite
  exact (isReading_tick hstart hperiod i).isFinite_of_le h hne

/-- A period of more than half the way from a horizon to the next reading is noticed up to there. -/
theorem notices_of_tick_le (hhorizon : horizon.IsReading)
    (hway : spacing horizon.place < 2 * magnitude period.place)
    (h : tick start period i ≤ horizon) : (tick start period i).Notices period :=
  .of_le ((le_iff (isReading_tick hstart hperiod i) hhorizon).1 h) hway

/-- As long as the period is noticed, each tick takes at least one reading further. -/
theorem add_le_place_tick (hfinite : Decimal.isFinite horizon = true)
    (hall : ∀ i, tick start period i ≤ horizon → (tick start period i).Notices period)
    (h : tick start period i ≤ horizon) : start.place + i ≤ (tick start period i).place := by
  induction i with
  | zero => exact le_rfl
  | succ i ih =>
    have hread := isReading_tick hstart hperiod i
    have hbefore := tick_le_of_le hstart hperiod (Nat.le_succ i) h
    have hlt := (tick_lt_tick_iff hstart hperiod (isFinite_tick hstart hperiod hfinite hbefore)
      (Nat.lt_succ_self i)).2 (hall i hbefore)
    rw [lt_iff hread (isReading_tick hstart hperiod (i + 1))] at hlt
    have hfar := ih hbefore
    omega

/-- Then the readings up to a horizon bound the number of ticks. -/
theorem tick_bound (hfinite : Decimal.isFinite horizon = true)
    (hall : ∀ i, tick start period i ≤ horizon → (tick start period i).Notices period)
    (h : tick start period i ≤ horizon) : start.place + i ≤ horizon.place := by
  have hread := isReading_tick hstart hperiod i
  have hfar := add_le_place_tick hstart hperiod hfinite hall h
  by_cases hreading : horizon.IsReading
  · exact hfar.trans ((le_iff hread hreading).1 h)
  · unfold IsReading at hread hreading
    omega

/-- If one tick up to a horizon does not notice the period, no tick passes the horizon. -/
theorem tick_le_of_not_notices (hfinite : Decimal.isFinite horizon = true)
    (h : tick start period i ≤ horizon) (hnot : ¬ (tick start period i).Notices period) (j : Nat) :
    tick start period j ≤ horizon := by
  rcases Nat.le_total j i with hji | hij
  · exact tick_le_of_le hstart hperiod hji h
  · rw [tick_eq_of_not_notices hstart hperiod (isFinite_tick hstart hperiod hfinite h) hnot hij]
    exact h

end Ticks

end Time

/-! ## Firings -/

namespace Machine

namespace Beating

variable {name : String} {period : Time} {body : Activity} {start : Time} {id : ClientId}
  {scope : ScopeId} {past : List (Machine σ)} {x : Machine σ}

theorem time_eq (h : Beating name period body start id scope past x) {i : Nat}
    {e : Event (Callback σ)} (he : (past.filterMap (fired? id))[i]? = some e) :
    e.time = Time.tick start period (i + 1) := by
  rcases List.getElem?_eq_some_iff.1 he with ⟨hlength, hget⟩
  have htime := congrArg (·[i]?) h.times
  simpa [hlength, hget] using htime

theorem pending (h : Beating name period body start id scope past x) :
    ∃ e ∈ x.world.agenda.pending,
      e.time = Time.tick start period ((past.filterMap (fired? id)).length + 1) := by
  rcases h.next with ⟨seq, hone⟩
  have hmem : _ ∈ x.world.firings id := hone.symm ▸ List.mem_singleton_self _
  exact ⟨_, (List.mem_filter.1 hmem).1, rfl⟩

end Beating

namespace Starting

variable {config : SimulationConfig} {memory : σ} {early : List (Machine σ)} {m n : Machine σ}
  {p : Part σ} {name : String} {period : Time} {body : Activity} {id : ClientId}
  {past : List (Machine σ)} {x y z : Machine σ} {e : Event (Callback σ)}

theorem isPeriod (h : Starting config memory early m n p name period body id) :
    Time.isPeriod period = true := by
  rcases h.result with ⟨held, hdefine⟩
  exact World.isPeriod_of_defineClient hdefine

theorem isReading_start (h : Starting config memory early m n p name period body id) :
    m.moment.IsReading :=
  isReading_moment (h.life.sound (sound_idle config memory))

theorem beating_later (h : Starting config memory early m n p name period body id)
    (hlater : Life n past x) : Beating name period body m.moment id p.frame.scope past x := by
  rcases h.beating with ⟨hcheck, hstart⟩
  induction hlater with
  | refl => exact hstart
  | next _ hn ih => exact ih.goes_on hcheck hn

/-- A firing is queued one period after the moment of the transition that queues it: the one that
starts the client, or the one that takes the firing before. -/
theorem queued (h : Starting config memory early m n p name period body id)
    (hlife : Life m past y) (hn : Next y z) (he : e ∈ z.world.firings id)
    (hnew : e ∉ y.world.firings id) : e.time = y.moment + period := by
  cases past with
  | nil =>
    rw [hlife.eq_of_nil] at hn ⊢
    rcases h.beating.2.next with ⟨seq, hone⟩
    rw [hn.eq_of_step h.step, hone, List.mem_singleton] at he
    rw [he]
    rfl
  | cons first rest =>
    rcases hlife.first with ⟨rfl, y', hstart, hrest⟩
    rw [hstart.eq_of_step h.step] at hrest
    have hbeating := h.beating_later hrest
    -- Since the start there is just one firing to come, so a new one takes the place of one taken.
    rcases hbeating.next with ⟨seq, hone⟩
    rw [hone] at hnew
    cases hn.beats hbeating.record hone h.beating.1 with
    | rests _ _ _ hfirings =>
      rw [hfirings] at he
      exact absurd he hnew
    | counts _ _ _ hfirings =>
      rw [hfirings] at he
      exact absurd he hnew
    | fires hfired _ _ hnext =>
      rcases hnext with ⟨scope, later, -, hfirings⟩
      rw [hfirings, List.mem_singleton] at he
      have hmoment : y.moment = Time.tick first.moment period
          ((rest.filterMap (fired? id)).length + 1) := by
        rw [moment, (Option.filter_eq_some_iff.1 hfired).1]
        rfl
      rw [he, hmoment]

/-- How far a client's firings get that is started in any life:

* a firing is queued for a time after the clock by then exactly if the clock notices the period;
* two firings happen at the same time exactly if the clock does not notice the period at the first;
* if it notices the period at the start and at each firing up to a finite horizon, the firings up to
  the horizon are not more than the readings from the start to the horizon;
* if it does not, all firings come by the horizon, however many there are, and a run to the horizon
  only returns, without an error, when its budget is used up. -/
theorem fires_later_iff (h : Starting config memory early m n p name period body id) :
    (∀ (past : List (Machine σ)) (y z : Machine σ) (e : Event (Callback σ)),
      Life m past y → Next y z → e ∈ z.world.firings id → e ∉ y.world.firings id →
        Decimal.isFinite y.moment = true → (y.moment < e.time ↔ y.moment.Notices period)) ∧
    (∀ (past : List (Machine σ)) (x : Machine σ) (i j : Nat) (e f : Event (Callback σ)),
      Life n past x → i < j → (past.filterMap (fired? id))[i]? = some e →
        (past.filterMap (fired? id))[j]? = some f → Decimal.isFinite e.time = true →
          (e.time = f.time ↔ ¬ e.time.Notices period)) ∧
    ∀ horizon : Time, Decimal.isFinite horizon = true →
      ((∀ i, Time.tick m.moment period i ≤ horizon → (Time.tick m.moment period i).Notices period) →
        ∀ (past : List (Machine σ)) (x : Machine σ), Life n past x →
          (past.filterMap (fired? id)).countP (fun e => decide (e.time ≤ horizon)) ≤
            Time.place horizon - m.moment.place) ∧
      ((∃ i, Time.tick m.moment period i ≤ horizon ∧
          ¬ (Time.tick m.moment period i).Notices period) →
        ∀ (past : List (Machine σ)) (x : Machine σ), Life n past x →
          (∀ e ∈ past.filterMap (fired? id), e.time ≤ horizon) ∧
          ∀ count next stack, x.Returning horizon count next stack →
            ∃ limit, config.maxEvents = some limit ∧ limit ≤ count) := by
  have hstart := h.isReading_start
  have hperiod := h.isPeriod
  refine ⟨?_, ?_, fun horizon hfinite => ⟨?_, ?_⟩⟩
  · intro past y z e hlife hn he hnew hclock
    have hsound := (h.life.trans hlife).sound (sound_idle config memory)
    rw [h.queued hlife hn he hnew]
    exact (isReading_moment hsound).lt_add_iff hclock hperiod
  · intro past x i j e f hlater hij he hf hclock
    have hbeating := h.beating_later hlater
    rw [hbeating.time_eq he] at hclock ⊢
    rw [hbeating.time_eq hf]
    have hlt := Time.tick_lt_tick_iff hstart hperiod hclock (Nat.succ_lt_succ hij)
    constructor
    · intro hsame hnotices
      rw [← hsame] at hlt
      exact Time.lt_irrefl _ (hlt.2 hnotices)
    · intro hnot
      exact (Time.tick_eq_of_not_notices hstart hperiod hclock hnot (by omega)).symm
  · intro hall past x hlater
    refine countP_le_of_lt fun i e he hdue => ?_
    rw [decide_eq_true_eq, (h.beating_later hlater).time_eq he] at hdue
    have hbound := Time.tick_bound hstart hperiod hfinite hall hdue
    omega
  · rintro ⟨i, hdue, hnot⟩ past x hlater
    have hbeating := h.beating_later hlater
    have hall := Time.tick_le_of_not_notices hstart hperiod hfinite hdue hnot
    refine ⟨?_, ?_⟩
    · intro e he
      rcases List.mem_iff_getElem?.1 he with ⟨j, hj⟩
      rw [hbeating.time_eq hj]
      exact hall (j + 1)
    · intro count next stack hreturning
      have hlife := (h.life.next (.step h.step)).trans hlater
      have hbudget : x.world.budget = config.maxEvents := hlife.budget
      rcases hreturning.step with ⟨hspent, -⟩ | ⟨-, htake, -⟩
      · rw [← hbudget]
        exact spent_iff.1 hspent
      · -- The next firing is pending, and due.
        rcases hbeating.pending with ⟨e, hpending, htime⟩
        have hnot := (hlife.sound (sound_idle config memory)).agenda.not_due htake e hpending
        rw [htime] at hnot
        exact absurd (hall _) hnot

end Starting

/-- Host code that starts a client late, with a period of 1, and runs the agenda from then on. -/
def latecoming (start : Time) : Script Unit :=
  .run start fun _ => .evaluate (.defineClient "load" 1.0 .fail) .host (fun _ => .done) fun _ =>
    .run 9007199254740992.0 fun _ => .done

/-- The simulation after some transitions of it: two until the client is about to be started. -/
def latecomer (start : Time) (count : Nat) : Machine Unit :=
  run count ⟨World.start ⟨true, some 3⟩ (), [], .code (latecoming start)⟩

theorem life_latecomer (start : Time) :
    Life (idle (World.start ⟨true, some 3⟩ ()))
      (idle (World.start ⟨true, some 3⟩ ()) :: trail 2 (latecomer start 0)) (latecomer start 2) :=
  (Life.refl.next (.call (latecoming start) rfl)).trans (life_run 2 _)

/-- The firing of a client can be queued for the time that the clock shows already. -/
theorem late_firing_not_later :
    ¬ ∀ (config : SimulationConfig) (early : List (Machine Unit)) (m n : Machine Unit)
      (p : Part Unit) (name : String) (period : Time) (body : Activity) (id : ClientId)
      (past : List (Machine Unit)) (y z : Machine Unit) (e : Event (Callback Unit)),
      Starting config () early m n p name period body id → Life m past y → Next y z →
        e ∈ z.world.firings id → e ∉ y.world.firings id → Decimal.isFinite y.moment = true →
          y.moment < e.time := by
  intro hall
  have hstep : (latecomer 9007199254740992.0 2).step = some (latecomer 9007199254740992.0 3) := by
    with_unfolding_all rfl
  have hlater : (latecomer 9007199254740992.0 2).moment < 9007199254740992.0 :=
    hall _ _ _ _ ⟨(latecomer 9007199254740992.0 2).world, [], .defineClient "load" 1.0 .fail,
        .plain World.root .host, .host fun _ => .done⟩ "load" 1.0 .fail ⟨0⟩ [] _ _
      ⟨9007199254740992.0, 0, .clientFiring, .fire ⟨0⟩ World.root⟩
      ⟨life_latecomer 9007199254740992.0, hstep, by with_unfolding_all exact List.mem_cons_self,
        rfl, ⟨_, by with_unfolding_all rfl⟩⟩ .refl (.step hstep)
      (by with_unfolding_all exact List.mem_cons_self)
      (by with_unfolding_all exact List.not_mem_nil) (by decide +kernel)
  have hnot : ¬ (latecomer 9007199254740992.0 2).moment < 9007199254740992.0 := by decide +kernel
  exact hnot hlater

/-- The first two firings come at different times, the third one at the time of the second one. -/
theorem latecoming_fires_later :
    (∀ e ∈ (latecomer 9007199254740990.0 3).world.firings ⟨0⟩,
      (latecomer 9007199254740990.0 2).moment < e.time) ∧
    (∃ e f g, (trail 14 (latecomer 9007199254740990.0 3)).filterMap (fired? ⟨0⟩) = [e, f, g] ∧
      e.time ≠ f.time ∧ f.time = g.time) ∧
    (∀ past x, Life (latecomer 9007199254740990.0 3) past x →
      (past.filterMap (fired? ⟨0⟩)).countP (fun e => decide (e.time ≤ 9007199254740991.0)) ≤ 1) ∧
    ∀ past x, Life (latecomer 9007199254740990.0 3) past x →
      (∀ e ∈ past.filterMap (fired? ⟨0⟩), e.time ≤ 9007199254740992.0) ∧
      ∀ count next stack, x.Returning 9007199254740992.0 count next stack → 3 ≤ count := by
  have hstep : (latecomer 9007199254740990.0 2).step = some (latecomer 9007199254740990.0 3) := by
    with_unfolding_all rfl
  have hstarting : Starting ⟨true, some 3⟩ ()
      (idle (World.start ⟨true, some 3⟩ ()) :: trail 2 (latecomer 9007199254740990.0 0))
      (latecomer 9007199254740990.0 2) (latecomer 9007199254740990.0 3)
      ⟨(latecomer 9007199254740990.0 2).world, [], .defineClient "load" 1.0 .fail,
        .plain World.root .host, .host fun _ => .done⟩ "load" 1.0 .fail ⟨0⟩ :=
    ⟨life_latecomer 9007199254740990.0, hstep, by with_unfolding_all exact List.mem_cons_self, rfl,
      ⟨_, by with_unfolding_all rfl⟩⟩
  have hstart : (latecomer 9007199254740990.0 2).moment = 9007199254740990.0 := by
    with_unfolding_all rfl
  rcases hstarting.fires_later_iff with ⟨hqueued, hapart, hhorizon⟩
  rw [hstart] at hhorizon
  refine ⟨?_, ?_, ?_, ?_⟩
  · intro e he
    have hnone : e ∉ (latecomer 9007199254740990.0 2).world.firings ⟨0⟩ := by
      with_unfolding_all exact List.not_mem_nil
    refine (hqueued [] _ _ e .refl (.step hstep) he hnone (by decide +kernel)).2 ?_
    rw [hstart]
    decide +kernel
  · have hlife := life_run 14 (latecomer 9007199254740990.0 3)
    have hfired : (trail 14 (latecomer 9007199254740990.0 3)).filterMap (fired? ⟨0⟩) =
        [⟨9007199254740991.0, 0, .clientFiring, .fire ⟨0⟩ World.root⟩,
          ⟨9007199254740992.0, 1, .clientFiring, .fire ⟨0⟩ World.root⟩,
          ⟨9007199254740992.0, 2, .clientFiring, .fire ⟨0⟩ World.root⟩] := by
      with_unfolding_all rfl
    refine ⟨_, _, _, hfired, ?_, ?_⟩
    · have hiff := hapart _ _ 0 1 _ _ hlife Nat.zero_lt_one (by rw [hfired]; rfl)
        (by rw [hfired]; rfl) (by decide +kernel)
      exact fun hsame => hiff.1 hsame (by decide +kernel)
    · exact (hapart _ _ 1 2 _ _ hlife Nat.one_lt_two (by rw [hfired]; rfl) (by rw [hfired]; rfl)
        (by decide +kernel)).2 (by decide +kernel)
  · have hreading : Time.IsReading 9007199254740990.0 := hstart ▸ hstarting.isReading_start
    have hhere : Time.IsReading 9007199254740991.0 := by
      unfold Time.IsReading
      decide +kernel
    exact (hhorizon 9007199254740991.0 (by decide +kernel)).1 fun i hdue =>
      Time.notices_of_tick_le hreading hstarting.isPeriod hhere (by decide +kernel) hdue
  · intro past x hlife
    rcases (hhorizon 9007199254740992.0 (by decide +kernel)).2
      ⟨2, by decide +kernel, by decide +kernel⟩ past x hlife with ⟨hbefore, hreturns⟩
    refine ⟨hbefore, fun count next stack hreturning => ?_⟩
    rcases hreturns count next stack hreturning with ⟨limit, hlimit, hle⟩
    cases hlimit
    exact hle

end Machine
end Callflow
