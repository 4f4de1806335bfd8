import Callflow.Proofs.Machine.Errors
import Callflow.Proofs.Time.Size

/-!
# Times stay well-formed

Delays and horizons are any doubles, and sums may overflow. Still the clock and the events to come
only show numbers that are not negative and not the negative zero (`Agenda.WellTimed`). On these, the
total order in which events are kept and the numeric one that says what is due are the same. So
nothing is due behind an event that is not, and a zero delay of either sign leaves events in the order
in which they were scheduled (`Life.well_timed`).
-/

namespace Callflow

/-! ## Times -/

/-- What a clock may show: a number that is not negative and not the negative zero. -/
structure Time.WellFormed (t : Time) : Prop where
  number : t.isNaN = false
  notNegative : ¬ t < 0.0
  notNegativeZero : t.toBits ≠ (-0.0 : Time).toBits

/-- The readings of a clock are the doubles that are well-formed. -/
theorem Time.isReading_iff {t : Time} : t.IsReading ↔ t.WellFormed := by
  have hlast : lastPlace = 0x7FF0000000000000 := rfl
  have hzero : Time.place (-0.0) = 2 ^ 63 := by decide
  constructor
  · intro ht
    have hplace : t.place ≤ lastPlace := ht
    refine ⟨?_, ?_, ?_⟩
    · rw [← Bool.not_eq_true, isNaN_iff, size]
      omega
    · rw [lt_iff ht isReading_zero]
      exact Nat.not_lt_zero _
    · intro hbits
      have hsame : t.place = Time.place (-0.0) := congrArg UInt64.toNat hbits
      omega
  · rintro ⟨hnumber, hneg, hbits⟩
    rw [lt_zero_iff] at hneg
    rw [← Bool.not_eq_true, isNaN_iff] at hnumber
    have hsize := size_le t
    rcases Nat.lt_or_ge t.place (2 ^ 63) with hpositive | hminus
    · show t.place ≤ lastPlace
      unfold size at hnumber hsize
      omega
    · -- With a minus sign, only the negative zero and what is not a number are not negative.
      have hsign : signOf t.place = .negative := if_neg (by omega)
      have f := form t
      unfold size at hnumber hsize
      generalize t.toModel.unpack = x at f hneg
      cases f with
      | zero hz =>
        have hlt : t.place < 2 ^ 64 := t.toBits.toNat_lt
        have hsame : t.place = Time.place (-0.0) := by omega
        exact absurd (UInt64.toNat_inj.1 hsame) hbits
      | finite pos c hm => exact absurd (hsign ▸ Signed.finite pos c) hneg
      | infinity hi => exact absurd (hsign ▸ Signed.infinity) hneg
      | notANumber hn => omega

/-- The two orders of doubles agree on the readings of a clock. -/
theorem Time.rank_le_iff {t u : Time} (ht : t.IsReading) (hu : u.IsReading) :
    rank t ≤ rank u ↔ t ≤ u := by
  rw [le_iff ht hu, ← UInt64.not_lt, rank_lt_iff hu ht, Nat.not_lt]

theorem Time.IsReading.add_zeros {t delay : Time} (ht : t.IsReading)
    (h : delay = 0.0 ∨ delay = -0.0) : t + delay = t := by
  rcases h with rfl | rfl
  · exact ht.add_zero
  · exact ht.add_of_zero (s := .negative) rfl

/-! ## Agendas -/

/-- The clock and the events to come are well-formed, and no event lies before the clock. The events
are in order, and the order agrees with what is due. -/
structure Agenda.WellTimed {α : Type} (a : Agenda α) : Prop where
  clock : a.now.WellFormed
  times : ∀ e ∈ a.pending, e.time.WellFormed
  due : ∀ e ∈ a.pending, a.now ≤ e.time
  ordered : a.pending.Pairwise fun e o => e.before o = true
  agree : ∀ e ∈ a.pending, ∀ o ∈ a.pending,
    (Time.rank e.time ≤ Time.rank o.time ↔ e.time ≤ o.time)
  behind : ∀ horizon, ∀ e ∈ a.pending, ∀ o ∈ a.pending, Time.rank e.time ≤ Time.rank o.time →
    ¬ e.time ≤ horizon → ¬ o.time ≤ horizon
  stops : ∀ horizon, a.take? horizon = none → ∀ e ∈ a.pending, ¬ e.time ≤ horizon

theorem Agenda.Sound.wellTimed {α : Type} {a : Agenda α} (s : a.Sound) : a.WellTimed where
  clock := Time.isReading_iff.1 s.clock
  times e he := Time.isReading_iff.1 (s.reading e he)
  due e he := (Time.le_iff s.clock (s.reading e he)).2 (s.due e he)
  ordered := s.ordered.imp_of_mem fun he ho hprecedes =>
    (Event.before_iff (s.reading _ he) (s.reading _ ho)).2 hprecedes
  agree e he o ho := Time.rank_le_iff (s.reading e he) (s.reading o ho)
  behind horizon e he o ho hrank hnot hdue := by
    have hle := (Time.rank_le_iff (s.reading e he) (s.reading o ho)).1 hrank
    exact hnot ((s.reading e he).le_trans hle hdue)
  stops _ hnone := s.not_due hnone

/-! ## Lives -/

namespace Machine

variable {σ : Type} {a b c m y z : Machine σ} {past : List (Machine σ)}

/-- The transitions and the calls of a life, each with the machines before and after it. -/
def transitions (past : List (Machine σ)) (n : Machine σ) : List (Machine σ × Machine σ) :=
  past.zip (past.tail ++ [n])

/-- An event is scheduled after a delay in the move from one machine to the next. -/
structure Schedules (y z : Machine σ) (delay : Time) (e : Event (Callback σ)) : Prop where
  fresh : y.world.agenda.nextSeq ≤ e.seq
  pending : e ∈ z.world.agenda.pending
  time : e.time = y.moment + delay

theorem length_transitions (past : List (Machine σ)) (n : Machine σ) :
    (transitions past n).length = past.length := by
  cases past <;> simp [transitions]

theorem transitions_concat (past : List (Machine σ)) (b c : Machine σ) :
    transitions (past ++ [b]) c = transitions past b ++ [(b, c)] := zip_tail_concat past b c

/-- A move cuts a life and its moves in two. -/
theorem Life.cut_move (h : Life a past b) {i : Nat}
    (hmove : (transitions past b)[i]? = some (y, z)) :
    ∃ before after, before.length = i ∧ past = before ++ y :: after ∧
      transitions past b = transitions before y ++ (y, z) :: transitions after b ∧
      Life a before y ∧ Next y z ∧ Life z after b := by
  induction h with
  | refl => cases hmove
  | @next past b c hlife hn ih =>
    have hlength := length_transitions past b
    rw [transitions_concat] at hmove ⊢
    rcases Nat.lt_trichotomy i past.length with hless | rfl | hmore
    · rw [List.getElem?_append_left (by omega)] at hmove
      rcases ih hmove with ⟨before, after, hi, hsplit, hmoves, hbefore, hnext, hafter⟩
      refine ⟨before, after ++ [b], hi, ?_, ?_, hbefore, hnext, hafter.next hn⟩
      · rw [hsplit, List.append_assoc, List.cons_append]
      · rw [hmoves, transitions_concat, List.append_assoc, List.cons_append]
    · rw [List.getElem?_append_right (by omega), hlength, Nat.sub_self] at hmove
      cases hmove
      exact ⟨past, [], rfl, rfl, rfl, hlife, hn, .refl⟩
    · rw [List.getElem?_eq_none (by simp; omega)] at hmove
      cases hmove

theorem Life.nextSeq_le (h : Life a past b) :
    a.world.agenda.nextSeq ≤ b.world.agenda.nextSeq := by
  rcases h.sendings with ⟨deeds, hdeeds⟩
  exact hdeeds.path.agenda.planned.1

/-- What is scheduled in a move has a number that has been given out in the move. -/
theorem Schedules.seq_lt {delay : Time} {e : Event (Callback σ)} (h : Schedules y z delay e)
    (hz : z.world.Sound) : e.seq < z.world.agenda.nextSeq := hz.agenda.numbered e h.pending

/-- What is scheduled in a later move has a larger number. -/
theorem Life.number_lt (h : Life a past b) (ha : a.world.Sound) {i j : Nat} {y' z' : Machine σ}
    {delay delay' : Time} {e o : Event (Callback σ)} (hi : (transitions past b)[i]? = some (y, z))
    (hj : (transitions past b)[j]? = some (y', z')) (he : Schedules y z delay e)
    (ho : Schedules y' z' delay' o) (hij : i < j) : e.seq < o.seq := by
  rcases h.cut_move hi with ⟨before, after, rfl, -, hmoves, hbefore, hnext, hafter⟩
  rcases Nat.exists_eq_add_of_lt hij with ⟨k, rfl⟩
  have hlength := length_transitions before y
  have hlater : (transitions after b)[k]? = some (y', z') := by
    rw [hmoves, List.getElem?_append_right (by omega), hlength] at hj
    rw [← hj, show before.length + k + 1 - before.length = k + 1 from by omega]
    rfl
  rcases hafter.cut_move hlater with ⟨between, -, -, -, -, hbetween, -, -⟩
  calc e.seq < z.world.agenda.nextSeq := he.seq_lt ((hbefore.next hnext).sound ha)
    _ ≤ y'.world.agenda.nextSeq := hbetween.nextSeq_le
    _ ≤ o.seq := ho.fresh

/-- What is scheduled in a move has been taken since, or is pending. -/
theorem Life.taken_or_pending (h : Life a past b) {i : Nat} {delay : Time} {e : Event (Callback σ)}
    (hi : (transitions past b)[i]? = some (y, z)) (he : Schedules y z delay e) :
    e ∈ past.filterMap taken? ∨ e ∈ b.world.agenda.pending := by
  rcases h.cut_move hi with ⟨before, after, -, hsplit, -, -, -, hafter⟩
  rcases hafter.pending e he.pending with htaken | hpending
  · rcases List.mem_filterMap.1 htaken with ⟨x, hx, hevent⟩
    exact Or.inl (List.mem_filterMap.2 ⟨x, by simp [hsplit, hx], hevent⟩)
  · exact Or.inr hpending

/-- A call with a delay that is not finite or negative is refused, and leaves the world as it is. -/
theorem Next.schedules (h : Next y z) {delay : Time} {kind : EventKind} {callback : Script σ}
    {next : Except SchedulingError EventId → Script σ}
    (hfocus : y.focus = .code (.schedule delay kind callback next)) :
    (Time.checkDelay delay = .ok () ∧ Schedules y z delay
      ⟨y.world.now + delay, y.world.agenda.nextSeq, kind, .host callback⟩) ∨
    ((Decimal.isFinite delay = false ∨ delay < 0.0) ∧ z.world = y.world) := by
  rcases y with ⟨w, stack, focus⟩
  cases hfocus
  have hz := h.eq_of_step (n := execScript w stack (.schedule delay kind callback next)) rfl
  cases hs : w.schedule delay kind (.host callback) with
  | ok result =>
    rcases result with ⟨v, id⟩
    left
    rcases World.schedule_eq_ok hs with ⟨agenda, hagenda, rfl, -⟩
    rcases Agenda.schedule_eq_ok hagenda with ⟨hcheck, rfl⟩
    rw [execScript, hs] at hz
    rw [hz]
    exact ⟨hcheck, le_rfl, Agenda.mem_insert.2 (Or.inl rfl), rfl⟩
  | error cause =>
    right
    rw [execScript, hs] at hz
    refine ⟨?_, by rw [hz]⟩
    by_contra hnot
    rw [not_or, Bool.not_eq_false] at hnot
    rcases World.schedule_of_checkDelay w kind (.host callback) (Time.checkDelay_eq_ok.2 hnot) with
      ⟨v, id, hok⟩
    cases hs.symm.trans hok

/-! ## The order of a life -/

/-- Whatever is pending comes after what has been taken. -/
theorem Life.passed {config : SimulationConfig} {memory : σ}
    (h : Life (idle (World.start config memory)) past m) :
    ∀ e ∈ past.filterMap taken?, ∀ o ∈ m.world.agenda.pending, e.Precedes o := by
  rcases h.sendings with ⟨deeds, hdeeds⟩
  have hagenda : Agenda.Path .empty (deeds.filterMap World.Deed.agenda?) m.world.agenda :=
    hdeeds.path.agenda
  rw [← hdeeds.takes]
  exact hagenda.history.passed

/-- Of two events with the same time, the one with the smaller number is taken first. -/
theorem Life.taken_first {config : SimulationConfig} {memory : σ}
    (h : Life (idle (World.start config memory)) past m) {e o : Event (Callback σ)}
    (hthere : e ∈ past.filterMap taken? ∨ e ∈ m.world.agenda.pending) (htime : e.time = o.time)
    (hseq : e.seq < o.seq) (htaken : o ∈ past.filterMap taken?) :
    [e, o].Sublist (past.filterMap taken?) := by
  have hnot : ¬ o.Precedes e := by
    rintro (hlt | ⟨-, hless⟩)
    · rw [htime] at hlt
      exact Time.lt_irrefl _ hlt
    · omega
  rcases hthere with hthere | hpending
  · rcases List.append_of_mem hthere with ⟨front, back, hsplit⟩
    have hordered := h.taken_apart.1
    rw [hsplit] at htaken hordered ⊢
    have hback : o ∈ back := by
      rcases List.mem_append.1 htaken with hfront | hrest
      · exact absurd ((List.pairwise_append.1 hordered).2.2 o hfront e List.mem_cons_self) hnot
      · rcases List.mem_cons.1 hrest with rfl | hback
        · exact absurd hseq (lt_irrefl _)
        · exact hback
    exact ((List.singleton_sublist.2 hback).cons_cons e).trans (List.sublist_append_right front _)
  · exact absurd (h.passed o htaken e hpending) hnot

/-- At any point of any life, whatever delays and horizons the host and its callbacks use, in nested
runs and after errors and crashes:

* the clock and the events to come are well-formed, and the order of the events agrees with what is
  due;
* a call that schedules an event schedules it after the delay, or leaves everything as it is because
  the delay is not finite or negative;
* two events that are scheduled at the same moment without a delay, with a zero of either sign, are due
  at this moment, and the one that was scheduled first is taken first. -/
theorem Life.well_timed {config : SimulationConfig} {memory : σ}
    (h : Life (idle (World.start config memory)) past m) :
    m.world.agenda.WellTimed ∧
    (∀ (y z : Machine σ) (delay : Time) (kind : EventKind) (callback : Script σ)
      (next : Except SchedulingError EventId → Script σ), (y, z) ∈ transitions past m →
        y.focus = .code (.schedule delay kind callback next) →
          (Time.checkDelay delay = .ok () ∧ Schedules y z delay
            ⟨y.world.now + delay, y.world.agenda.nextSeq, kind, .host callback⟩) ∨
          ((Decimal.isFinite delay = false ∨ delay < 0.0) ∧ z.world = y.world)) ∧
    ∀ (i j : Nat) (y z y' z' : Machine σ) (delay delay' : Time) (e o : Event (Callback σ)),
      (transitions past m)[i]? = some (y, z) → (transitions past m)[j]? = some (y', z') →
        Schedules y z delay e → Schedules y' z' delay' o → i < j ∨ i = j ∧ e.seq < o.seq →
          (delay = 0.0 ∨ delay = -0.0) → (delay' = 0.0 ∨ delay' = -0.0) → y.moment = y'.moment →
            e.time = y.moment ∧ o.time = y.moment ∧ e.Precedes o ∧
            (o ∈ past.filterMap taken? → [e, o].Sublist (past.filterMap taken?)) := by
  have hstart := sound_idle config memory
  refine ⟨(h.sound hstart).agenda.wellTimed, ?_, ?_⟩
  · intro y z delay kind callback next hmove hfocus
    rcases List.mem_iff_getElem?.1 hmove with ⟨i, hi⟩
    rcases h.cut_move hi with ⟨-, -, -, -, -, -, hnext, -⟩
    exact hnext.schedules hfocus
  · intro i j y z y' z' delay delay' e o hi hj he ho hfirst hdelay hdelay' hmoment
    rcases h.cut_move hi with ⟨before, -, -, -, -, hbefore, -, -⟩
    have hread := isReading_moment (hbefore.sound hstart)
    have htime : e.time = y.moment := he.time.trans (hread.add_zeros hdelay)
    have htime' : o.time = y.moment := by
      rw [ho.time, ← hmoment]
      exact hread.add_zeros hdelay'
    have hseq : e.seq < o.seq := by
      rcases hfirst with hless | ⟨-, hseq⟩
      · exact h.number_lt hstart hi hj he ho hless
      · exact hseq
    have hthere := h.taken_or_pending hi he
    have hsame : e.time = o.time := htime.trans htime'.symm
    exact ⟨htime, htime', Or.inr ⟨hsame, hseq⟩, h.taken_first hthere hsame hseq⟩

/-- Host code that uses delays and horizons of all kinds. -/
def reckless : Script Unit :=
  .run (0.0 / 0.0) fun _ => .run (-1.0) fun _ =>
    .schedule (-0.0) .external .done fun _ => .schedule 0.0 .external .done fun _ =>
      .schedule (0.0 / 0.0) .external .done fun _ => .run (-0.0) fun _ => .run (1.0 / 0.0) fun _ =>
        .done

/-- The simulation after some transitions of this host code. -/
def recklessly (count : Nat) : Machine Unit :=
  run count ⟨World.start ⟨true, none⟩ (), [], .code reckless⟩

/-- The machines that move on in these transitions. -/
def recklessPast (count : Nat) : List (Machine Unit) :=
  idle (World.start ⟨true, none⟩ ()) :: trail count (recklessly 0)

theorem reckless_well_timed :
    (recklessly 15).world.agenda.WellTimed ∧
    (recklessly 7).world = (recklessly 6).world ∧
    [⟨0.0, 0, .external, .host .done⟩, ⟨0.0, 1, .external, .host .done⟩].Sublist
      ((recklessPast 15).filterMap taken?) := by
  have hlife : Life (idle (World.start ⟨true, none⟩ ())) (recklessPast 15) (recklessly 15) :=
    (Life.refl.next (.call reckless rfl)).trans (life_run 15 _)
  have hfirst : (transitions (recklessPast 15) (recklessly 15))[5]? =
      some (recklessly 4, recklessly 5) := by with_unfolding_all rfl
  have hsecond : (transitions (recklessPast 15) (recklessly 15))[6]? =
      some (recklessly 5, recklessly 6) := by with_unfolding_all rfl
  have hrefused : (transitions (recklessPast 15) (recklessly 15))[7]? =
      some (recklessly 6, recklessly 7) := by with_unfolding_all rfl
  rcases hlife.well_timed with ⟨hwell, hcalls, horder⟩
  refine ⟨hwell, ?_, ?_⟩
  · rcases hcalls (recklessly 6) (recklessly 7) (0.0 / 0.0) .external .done _
      (List.mem_iff_getElem?.2 ⟨7, hrefused⟩) (by with_unfolding_all rfl) with
      ⟨hcheck, -⟩ | ⟨-, hsame⟩
    · exact absurd (Time.checkDelay_eq_ok.1 hcheck).1 (by decide +kernel)
    · exact hsame
  · rcases hcalls (recklessly 4) (recklessly 5) (-0.0) .external .done _
      (List.mem_iff_getElem?.2 ⟨5, hfirst⟩) (by with_unfolding_all rfl) with ⟨-, he⟩ | ⟨hnot, -⟩
    · rcases hcalls (recklessly 5) (recklessly 6) 0.0 .external .done _
        (List.mem_iff_getElem?.2 ⟨6, hsecond⟩) (by with_unfolding_all rfl) with ⟨-, ho⟩ | ⟨hnot, -⟩
      · exact (horder 5 6 _ _ _ _ (-0.0) 0.0 _ _ hfirst hsecond he ho (Or.inl (by decide))
          (Or.inr rfl) (Or.inl rfl) (by with_unfolding_all rfl)).2.2.2 (by with_unfolding_all
            exact List.mem_cons_of_mem _ List.mem_cons_self)
      · exact absurd hnot (by decide +kernel)
    · exact absurd hnot (by decide +kernel)

end Machine
end Callflow
