import Callflow.Agenda.Basic
import Callflow.Proofs.Time.Sum
import Mathlib.Data.List.Pairwise

/-!
# The order of events

An agenda is sound (`Agenda.Sound`) when its clock and its events show readings, no event lies before
the clock, and the events are in order. Scheduling, taking and advancing keep it sound. An
`Agenda.Path` is any interleaving of the three, with a log of what was scheduled and taken, and
`History` is what such a log says about the agenda that it leads to: whatever has been taken precedes
whatever is pending. So events are taken in order (`Path.history`), and the clock is never turned
back (`Path.place_le`).
-/

namespace Callflow

variable {α : Type}

/-- The order in which events are taken: by time, and by number where the times are equal. -/
def Event.Precedes (a b : Event α) : Prop :=
  a.time < b.time ∨ a.time = b.time ∧ a.seq < b.seq

namespace Event

/-- The order of events, by the places of their times. -/
theorem precedes_iff {a b : Event α} (ha : a.time.IsReading) (hb : b.time.IsReading) :
    a.Precedes b ↔
      a.time.place < b.time.place ∨ a.time.place = b.time.place ∧ a.seq < b.seq := by
  have hplace : a.time = b.time ↔ a.time.place = b.time.place := by
    constructor
    · intro h
      rw [h]
    · exact Time.place_inj
  rw [Precedes, Time.lt_iff ha hb, hplace]

theorem before_iff {a b : Event α} (ha : a.time.IsReading) (hb : b.time.IsReading) :
    a.before b = true ↔ a.Precedes b := by
  -- On readings, the ranks that are compared are ordered as the times are.
  have hrank : Time.rank a.time = Time.rank b.time ↔ a.time = b.time := Time.rank_eq_iff ha hb
  rw [precedes_iff ha hb, before]
  simp only [Bool.or_eq_true, Bool.and_eq_true, decide_eq_true_eq, beq_iff_eq, hrank,
    Time.rank_lt_iff ha hb]
  constructor
  · rintro (h | ⟨h, hseq⟩)
    · exact Or.inl h
    · exact Or.inr ⟨by rw [h], hseq⟩
  · rintro (h | ⟨h, hseq⟩)
    · exact Or.inl h
    · exact Or.inr ⟨Time.place_inj h, hseq⟩

theorem Precedes.trans {a b c : Event α} (ha : a.time.IsReading) (hb : b.time.IsReading)
    (hc : c.time.IsReading) (hab : a.Precedes b) (hbc : b.Precedes c) : a.Precedes c := by
  rw [precedes_iff ha hb] at hab
  rw [precedes_iff hb hc] at hbc
  rw [precedes_iff ha hc]
  omega

end Event

namespace Agenda

/-! ## Insertion -/

theorem mem_insert {e x : Event α} {events : List (Event α)} :
    x ∈ insert e events ↔ x = e ∨ x ∈ events := by
  induction events with
  | nil => simp [insert]
  | cons other rest ih =>
    by_cases h : e.before other
    · simp [insert, h]
    · simp only [insert, h, Bool.false_eq_true, if_false, List.mem_cons, ih]
      exact or_left_comm

theorem insert_perm (e : Event α) (events : List (Event α)) :
    (insert e events).Perm (e :: events) := by
  induction events with
  | nil => exact .refl _
  | cons other rest ih =>
    unfold insert
    split
    · exact .refl _
    · exact (ih.cons other).trans (.swap e other rest)

/-- An event with the largest number goes behind all events that are not later. -/
theorem pairwise_insert {e : Event α} {events : List (Event α)} (he : e.time.IsReading)
    (hread : ∀ x ∈ events, x.time.IsReading) (hseq : ∀ x ∈ events, x.seq < e.seq)
    (hord : events.Pairwise Event.Precedes) : (insert e events).Pairwise Event.Precedes := by
  induction events with
  | nil => exact List.pairwise_singleton _ _
  | cons other rest ih =>
    rcases List.pairwise_cons.1 hord with ⟨hother, hrest⟩
    have ho : other.time.IsReading := hread other (by simp)
    have hreadRest : ∀ x ∈ rest, x.time.IsReading := fun x hx => hread x (by simp [hx])
    by_cases h : e.before other
    · -- The event goes first, and by transitivity it precedes the rest.
      have hfirst : e.Precedes other := (Event.before_iff he ho).1 h
      rw [insert, if_pos h]
      refine List.pairwise_cons.2 ⟨?_, hord⟩
      intro x hx
      rcases List.mem_cons.1 hx with rfl | hx
      · exact hfirst
      · exact hfirst.trans he ho (hreadRest x hx) (hother x hx)
    · -- The first event stays first: it is not later, and its number is smaller.
      have hfirst : other.Precedes e := by
        have hlow := hseq other (by simp)
        have hnot : ¬ e.Precedes other := fun hp => h ((Event.before_iff he ho).2 hp)
        rw [Event.precedes_iff he ho] at hnot
        rw [Event.precedes_iff ho he]
        omega
      rw [insert, if_neg h]
      refine List.pairwise_cons.2 ⟨?_, ih hreadRest (fun x hx => hseq x (by simp [hx])) hrest⟩
      intro x hx
      rcases mem_insert.1 hx with rfl | hx
      · exact hfirst
      · exact hother x hx

/-! ## What the operations do -/

theorem schedule_eq_ok {a b : Agenda α} {delay : Time} {kind : EventKind} {work : α}
    (h : a.schedule delay kind work = .ok b) :
    Time.checkDelay delay = .ok () ∧
      b = { a with
        pending := insert ⟨a.now + delay, a.nextSeq, kind, work⟩ a.pending
        nextSeq := a.nextSeq + 1 } := by
  unfold schedule at h
  split at h
  · cases h
  · rename_i hcheck
    exact ⟨hcheck, (Except.ok.inj h).symm⟩

theorem schedule_of_checkDelay (a : Agenda α) {delay : Time} (kind : EventKind) (work : α)
    (h : Time.checkDelay delay = .ok ()) : ∃ b, a.schedule delay kind work = .ok b := by
  unfold schedule
  rw [h]
  exact ⟨_, rfl⟩

theorem take?_eq_some {a b : Agenda α} {horizon : Time} {e : Event α}
    (h : a.take? horizon = some (e, b)) :
    ∃ rest, a.pending = e :: rest ∧ e.time ≤ horizon ∧
      b = { a with now := e.time, pending := rest, dispatched := a.dispatched + 1 } := by
  unfold take? at h
  split at h
  · cases h
  · rename_i first rest hpending
    split at h
    · rename_i hdue
      cases h
      exact ⟨rest, hpending, hdue, rfl⟩
    · cases h

/-! ## Soundness -/

/-- No event lies before the clock, and the events are in order. -/
structure Sound (a : Agenda α) : Prop where
  clock : a.now.IsReading
  reading : ∀ e ∈ a.pending, e.time.IsReading
  due : ∀ e ∈ a.pending, a.now.place ≤ e.time.place
  numbered : ∀ e ∈ a.pending, e.seq < a.nextSeq
  ordered : a.pending.Pairwise Event.Precedes

theorem sound_empty : (empty : Agenda α).Sound where
  clock := Time.isReading_zero
  reading := by simp [empty]
  due := by simp [empty]
  numbered := by simp [empty]
  ordered := List.Pairwise.nil

theorem Sound.schedule {a b : Agenda α} {delay : Time} {kind : EventKind} {work : α}
    (s : a.Sound) (h : a.schedule delay kind work = .ok b) : b.Sound := by
  rcases schedule_eq_ok h with ⟨hcheck, rfl⟩
  rcases Time.place_le_add s.clock hcheck with ⟨hlater, hread⟩
  -- Only the new event is to be checked: it is due after an accepted delay, and its number is new.
  refine ⟨s.clock, ?_, ?_, ?_, pairwise_insert hread s.reading s.numbered s.ordered⟩
  · intro e he
    rcases mem_insert.1 he with rfl | he
    · exact hread
    · exact s.reading e he
  · intro e he
    rcases mem_insert.1 he with rfl | he
    · exact hlater
    · exact s.due e he
  · intro e he
    rcases mem_insert.1 he with rfl | he
    · exact Nat.lt_succ_self _
    · exact Nat.lt_succ_of_lt (s.numbered e he)

theorem Sound.take? {a b : Agenda α} {horizon : Time} {e : Event α} (s : a.Sound)
    (h : a.take? horizon = some (e, b)) : b.Sound := by
  rcases take?_eq_some h with ⟨rest, hpending, -, rfl⟩
  have hmem : ∀ x ∈ rest, x ∈ a.pending := by
    intro x hx
    rw [hpending]
    exact List.mem_cons_of_mem _ hx
  have hfirst : e.time.IsReading := s.reading e (by simp [hpending])
  have hord := s.ordered
  rw [hpending] at hord
  rcases List.pairwise_cons.1 hord with ⟨hbefore, hrest⟩
  refine ⟨hfirst, fun x hx => s.reading x (hmem x hx), ?_, fun x hx => s.numbered x (hmem x hx),
    hrest⟩
  -- The clock now shows the time of the first event, and the others come after it.
  intro x hx
  have hp := (Event.precedes_iff hfirst (s.reading x (hmem x hx))).1 (hbefore x hx)
  show e.time.place ≤ x.time.place
  omega

/-- Where nothing is due any more, the clock may go to the horizon without passing an event. -/
theorem Sound.advance {a : Agenda α} {horizon : Time} (s : a.Sound)
    (h : a.take? horizon = none) : (a.advance horizon).Sound := by
  unfold Agenda.advance
  split
  · rename_i hlt
    have hread : horizon.IsReading := s.clock.of_lt hlt
    refine ⟨hread, s.reading, ?_, s.numbered, s.ordered⟩
    intro x hx
    -- The first event is past the horizon, and no other event precedes it.
    unfold Agenda.take? at h
    split at h
    · rename_i hpending
      rw [hpending] at hx
      cases hx
    · rename_i e rest hpending
      split at h
      · cases h
      · rename_i hpast
        have hfirst : e.time.IsReading := s.reading e (by simp [hpending])
        have hlate : horizon.place < e.time.place := by
          rw [Time.le_iff hfirst hread] at hpast
          omega
        have hord := s.ordered
        rw [hpending] at hx hord
        rcases List.mem_cons.1 hx with rfl | hmem
        · exact hlate.le
        · have hp := (List.pairwise_cons.1 hord).1 x hmem
          rw [Event.precedes_iff hfirst (s.reading x (by simp [hpending, hmem]))] at hp
          show horizon.place ≤ x.time.place
          omega
  · exact s

/-- The first event is past the horizon, and so are the others. -/
theorem Sound.not_due {a : Agenda α} {horizon : Time} (s : a.Sound)
    (h : a.take? horizon = none) : ∀ e ∈ a.pending, ¬ e.time ≤ horizon := by
  intro e he hdue
  unfold Agenda.take? at h
  split at h
  · rename_i hpending
    rw [hpending] at he
    cases he
  · rename_i first rest hpending
    split at h
    · cases h
    · rename_i hpast
      have hfirst : first.time.IsReading := s.reading first (by simp [hpending])
      have hread : e.time.IsReading := s.reading e he
      have hplace : first.time.place ≤ e.time.place := by
        have hordered := s.ordered
        rw [hpending] at he hordered
        rcases List.mem_cons.1 he with rfl | hlater
        · exact le_rfl
        · have hbefore := (List.pairwise_cons.1 hordered).1 e hlater
          rw [Event.precedes_iff hfirst hread] at hbefore
          omega
      exact hpast (hfirst.le_of_place_le hread hplace hdue)

theorem place_le_advance {a : Agenda α} {horizon : Time} (s : a.Sound) :
    a.now.place ≤ (a.advance horizon).now.place := by
  unfold advance
  split
  · rename_i hlt
    exact ((Time.lt_iff s.clock (s.clock.of_lt hlt)).1 hlt).le
  · exact le_rfl

theorem advance_pending (a : Agenda α) (horizon : Time) :
    (a.advance horizon).pending = a.pending ∧ (a.advance horizon).nextSeq = a.nextSeq := by
  unfold advance
  split <;> exact ⟨rfl, rfl⟩

/-! ## Paths -/

/-- What can happen to an agenda. -/
inductive Deed (α : Type) where
  -- An event was scheduled when the clock showed `clock`.
  | scheduled (clock delay : Time) (e : Event α)
  -- An event was taken.
  | taken (e : Event α)
  -- Nothing was due by the horizon.
  | advanced (horizon : Time)

/-- The event that was taken, if one was. -/
def Deed.taken? : Deed α → Option (Event α)
  | .taken e => some e
  | _ => none

/-- The events taken in a log. -/
def takes (log : List (Deed α)) : List (Event α) := log.filterMap Deed.taken?

/-- Any interleaving of scheduling, taking and advancing, with its log, the oldest deed first. -/
inductive Path (a : Agenda α) : List (Deed α) → Agenda α → Prop where
  | refl : Path a [] a
  | schedule {log : List (Deed α)} {b c : Agenda α} {delay : Time} {kind : EventKind} {work : α} :
      Path a log b → b.schedule delay kind work = .ok c →
        Path a (log ++ [.scheduled b.now delay ⟨b.now + delay, b.nextSeq, kind, work⟩]) c
  | take {log : List (Deed α)} {b c : Agenda α} {horizon : Time} {e : Event α} :
      Path a log b → b.take? horizon = some (e, c) → Path a (log ++ [.taken e]) c
  | advance {log : List (Deed α)} {b : Agenda α} {horizon : Time} :
      Path a log b → b.take? horizon = none →
        Path a (log ++ [.advanced horizon]) (b.advance horizon)

theorem Path.trans {a b c : Agenda α} {log more : List (Deed α)} (h : Path a log b)
    (k : Path b more c) : Path a (log ++ more) c := by
  induction k with
  | refl =>
    rw [List.append_nil]
    exact h
  | schedule _ hs ih =>
    rw [← List.append_assoc]
    exact ih.schedule hs
  | take _ ht ih =>
    rw [← List.append_assoc]
    exact ih.take ht
  | advance _ hn ih =>
    rw [← List.append_assoc]
    exact ih.advance hn

/-- What the log of a path from the empty agenda says about where it leads. -/
structure History (log : List (Deed α)) (a : Agenda α) : Prop where
  sound : a.Sound
  ordered : (takes log).Pairwise Event.Precedes
  -- What has been taken lies at or before the clock.
  past : ∀ e ∈ takes log, e.time.IsReading ∧ e.time.place ≤ a.now.place ∧ e.seq < a.nextSeq
  -- What has been taken precedes whatever is pending.
  passed : ∀ e ∈ takes log, ∀ x ∈ a.pending, e.Precedes x

theorem history_empty : History [] (empty : Agenda α) where
  sound := sound_empty
  ordered := List.Pairwise.nil
  past := by simp [takes]
  passed := by simp [takes]

theorem History.schedule {log : List (Deed α)} {a b : Agenda α} {delay : Time}
    {kind : EventKind} {work : α} (s : History log a)
    (h : a.schedule delay kind work = .ok b) :
    History (log ++ [.scheduled a.now delay ⟨a.now + delay, a.nextSeq, kind, work⟩]) b := by
  have hsound := s.sound.schedule h
  rcases schedule_eq_ok h with ⟨hcheck, rfl⟩
  rcases Time.place_le_add s.sound.clock hcheck with ⟨hlater, hread⟩
  have htakes : takes (log ++ [.scheduled a.now delay ⟨a.now + delay, a.nextSeq, kind, work⟩]) =
      takes log := by
    simp [takes, Deed.taken?]
  refine ⟨hsound, ?_, ?_, ?_⟩
  · rw [htakes]
    exact s.ordered
  · rw [htakes]
    intro e he
    rcases s.past e he with ⟨hr, hnow, hseq⟩
    exact ⟨hr, hnow, Nat.lt_succ_of_lt hseq⟩
  · -- A new event is not earlier than the clock, and its number is new.
    rw [htakes]
    intro e he x hx
    rcases mem_insert.1 hx with rfl | hx
    · rcases s.past e he with ⟨hr, hnow, hseq⟩
      rw [Event.precedes_iff hr hread]
      have hle : e.time.place ≤ (a.now + delay).place := calc
        e.time.place ≤ a.now.place := hnow
        _ ≤ (a.now + delay).place := hlater
      have hlt : e.seq < a.nextSeq := hseq
      show e.time.place < (a.now + delay).place ∨
        e.time.place = (a.now + delay).place ∧ e.seq < a.nextSeq
      omega
    · exact s.passed e he x hx

theorem History.take {log : List (Deed α)} {a b : Agenda α} {horizon : Time} {e : Event α}
    (s : History log a) (h : a.take? horizon = some (e, b)) :
    History (log ++ [.taken e]) b := by
  have hsound := s.sound.take? h
  rcases take?_eq_some h with ⟨rest, hpending, -, rfl⟩
  have hmem : e ∈ a.pending := by simp [hpending]
  have hsub : ∀ x ∈ rest, x ∈ a.pending := by
    intro x hx
    rw [hpending]
    exact List.mem_cons_of_mem _ hx
  have hread : e.time.IsReading := s.sound.reading e hmem
  have htakes : takes (log ++ [.taken e]) = takes log ++ [e] := by
    simp [takes, Deed.taken?]
  refine ⟨hsound, ?_, ?_, ?_⟩
  · -- Whatever was taken before precedes all that was pending, and so this event.
    rw [htakes, List.pairwise_append]
    refine ⟨s.ordered, List.pairwise_singleton _ _, ?_⟩
    intro x hx y hy
    rw [List.mem_singleton] at hy
    subst hy
    exact s.passed x hx y hmem
  · -- The clock moves on to this event.
    rw [htakes]
    intro x hx
    rcases List.mem_append.1 hx with hx | hx
    · rcases s.past x hx with ⟨hr, hnow, hseq⟩
      exact ⟨hr, le_trans hnow (s.sound.due e hmem), hseq⟩
    · rw [List.mem_singleton] at hx
      subst hx
      exact ⟨hread, le_rfl, s.sound.numbered x hmem⟩
  · -- What is left was behind this event.
    rw [htakes]
    intro x hx y hy
    rcases List.mem_append.1 hx with hx | hx
    · exact s.passed x hx y (hsub y hy)
    · rw [List.mem_singleton] at hx
      subst hx
      have hord := s.sound.ordered
      rw [hpending] at hord
      exact (List.pairwise_cons.1 hord).1 y hy

theorem History.advance {log : List (Deed α)} {a : Agenda α} {horizon : Time}
    (s : History log a) (h : a.take? horizon = none) :
    History (log ++ [.advanced horizon]) (a.advance horizon) := by
  rcases advance_pending a horizon with ⟨hpending, hseq⟩
  have htakes : takes (log ++ [.advanced horizon]) = takes log := by
    simp [takes, Deed.taken?]
  refine ⟨s.sound.advance h, ?_, ?_, ?_⟩
  · rw [htakes]
    exact s.ordered
  · rw [htakes]
    intro e he
    rcases s.past e he with ⟨hr, hnow, hlt⟩
    rw [hseq]
    exact ⟨hr, le_trans hnow (place_le_advance s.sound), hlt⟩
  · rw [htakes, hpending]
    exact s.passed

theorem Path.history {log : List (Deed α)} {a : Agenda α} (h : Path empty log a) :
    History log a := by
  induction h with
  | refl => exact history_empty
  | schedule _ hs ih => exact ih.schedule hs
  | take _ ht ih => exact ih.take ht
  | advance _ hn ih => exact ih.advance hn

/-- Whatever is pending was pending before, or has been scheduled with an accepted delay. -/
theorem Path.planned {log : List (Deed α)} {a b : Agenda α} (h : Path a log b) :
    a.nextSeq ≤ b.nextSeq ∧ ∀ e ∈ b.pending, e ∈ a.pending ∨ ∃ clock delay,
      .scheduled clock delay e ∈ log ∧ Time.checkDelay delay = .ok () ∧ e.time = clock + delay ∧
        a.nextSeq ≤ e.seq := by
  induction h with
  | refl => exact ⟨le_rfl, fun e he => Or.inl he⟩
  | @schedule log b c delay kind work _ hs ih =>
    rcases ih with ⟨hseq, hold⟩
    rcases schedule_eq_ok hs with ⟨hcheck, rfl⟩
    refine ⟨Nat.le_succ_of_le hseq, ?_⟩
    -- The last deed explains the new event; the log before it, all others.
    intro e he
    rcases mem_insert.1 he with rfl | he
    · exact Or.inr ⟨b.now, delay, by simp, hcheck, rfl, hseq⟩
    · rcases hold e he with he | ⟨clock, d, hmem, hrest⟩
      · exact Or.inl he
      · exact Or.inr ⟨clock, d, List.mem_append_left _ hmem, hrest⟩
  | @take log b c horizon first _ ht ih =>
    rcases ih with ⟨hseq, hold⟩
    rcases take?_eq_some ht with ⟨rest, hpending, -, rfl⟩
    refine ⟨hseq, ?_⟩
    intro e he
    have hmem : e ∈ b.pending := by
      rw [hpending]
      exact List.mem_cons_of_mem _ he
    rcases hold e hmem with he | ⟨clock, d, hmem, hrest⟩
    · exact Or.inl he
    · exact Or.inr ⟨clock, d, List.mem_append_left _ hmem, hrest⟩
  | advance _ _ ih =>
    rcases ih with ⟨hseq, hold⟩
    rw [(advance_pending _ _).1, (advance_pending _ _).2]
    refine ⟨hseq, ?_⟩
    intro e he
    rcases hold e he with he | ⟨clock, d, hmem, hrest⟩
    · exact Or.inl he
    · exact Or.inr ⟨clock, d, List.mem_append_left _ hmem, hrest⟩

/-- Every event taken is counted. -/
theorem Path.dispatched {log : List (Deed α)} {a b : Agenda α} (h : Path a log b) :
    b.dispatched = a.dispatched + (takes log).length := by
  unfold takes
  induction h with
  | refl => rfl
  | schedule _ hs ih =>
    rcases schedule_eq_ok hs with ⟨-, rfl⟩
    rw [List.filterMap_append, List.length_append]
    exact ih
  | take _ ht ih =>
    rcases take?_eq_some ht with ⟨rest, -, -, rfl⟩
    rw [List.filterMap_append, List.length_append, ← Nat.add_assoc, ← ih]
    rfl
  | @advance log b horizon _ _ ih =>
    have hsame : (b.advance horizon).dispatched = b.dispatched := by
      unfold Agenda.advance
      split <;> rfl
    rw [List.filterMap_append, List.length_append, hsame]
    exact ih

/-- A sound agenda never turns its clock back. -/
theorem Path.place_le {log : List (Deed α)} {a b : Agenda α} (ha : a.Sound) (h : Path a log b) :
    b.Sound ∧ a.now.place ≤ b.now.place := by
  induction h with
  | refl => exact ⟨ha, le_rfl⟩
  | schedule _ hs ih =>
    rcases ih with ⟨hb, hle⟩
    refine ⟨hb.schedule hs, ?_⟩
    rcases schedule_eq_ok hs with ⟨-, rfl⟩
    exact hle
  | take _ ht ih =>
    rcases ih with ⟨hb, hle⟩
    refine ⟨hb.take? ht, ?_⟩
    rcases take?_eq_some ht with ⟨rest, hpending, -, rfl⟩
    -- The clock goes to the first event, which is not before it.
    exact le_trans hle (hb.due _ (by simp [hpending]))
  | advance _ hn ih =>
    rcases ih with ⟨hb, hle⟩
    exact ⟨hb.advance hn, le_trans hle (place_le_advance hb)⟩

end Agenda
end Callflow
