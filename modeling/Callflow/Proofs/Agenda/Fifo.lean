import Callflow.Proofs.Agenda.Order
import Mathlib.Data.List.Nodup

/-!
# Events without a delay

Where all events of some class are scheduled without a delay, they form a queue in the agenda: they
are taken in the order in which they were scheduled, and the clock does not move on as long as one of
them is pending (`Path.queue`).
-/

namespace Callflow
namespace Agenda

variable {α : Type}

/-- The events scheduled in a log. -/
def Deed.scheduled? : Deed α → Option (Event α)
  | .scheduled _ _ e => some e
  | _ => none

/-- The events scheduled in a log, the oldest first. -/
def schedules (log : List (Deed α)) : List (Event α) := log.filterMap Deed.scheduled?

/-- An event is scheduled for the time that the clock shows by then, after a delay. -/
theorem Path.scheduled {log : List (Deed α)} {a b : Agenda α} (h : Path a log b) (ha : a.Sound) :
    ∀ clock delay e, .scheduled clock delay e ∈ log →
      clock.IsReading ∧ e.time = clock + delay := by
  induction h with
  | refl => simp
  | schedule hpath hs ih =>
    intro clock delay e hmem
    rcases List.mem_append.1 hmem with hmem | hmem
    · exact ih clock delay e hmem
    · rw [List.mem_singleton] at hmem
      cases hmem
      exact ⟨(hpath.place_le ha).1.clock, rfl⟩
  | take _ _ ih =>
    intro clock delay e hmem
    simp only [List.mem_append, List.mem_singleton, reduceCtorEq, or_false] at hmem
    exact ih clock delay e hmem
  | advance _ _ ih =>
    intro clock delay e hmem
    simp only [List.mem_append, List.mem_singleton, reduceCtorEq, or_false] at hmem
    exact ih clock delay e hmem

/-- Every event that was there or has been scheduled has been taken or is pending. -/
theorem Path.perm {log : List (Deed α)} {a b : Agenda α} (h : Path a log b) :
    (takes log ++ b.pending).Perm (a.pending ++ schedules log) := by
  induction h with
  | refl =>
    rw [takes, schedules, List.filterMap_nil, List.filterMap_nil, List.append_nil, List.nil_append]
  | @schedule log b c delay kind work _ hs ih =>
    rcases schedule_eq_ok hs with ⟨-, rfl⟩
    rw [takes, schedules, List.filterMap_append, List.filterMap_append, ← List.append_assoc]
    show ((takes log ++ []) ++ insert _ b.pending).Perm ((a.pending ++ schedules log) ++ [_])
    rw [List.append_nil]
    have hinsert := (insert_perm ⟨b.now + delay, b.nextSeq, kind, work⟩ b.pending).append_left
      (takes log)
    have hnew := ih.cons (⟨b.now + delay, b.nextSeq, kind, work⟩ : Event α)
    exact hinsert.trans (List.perm_middle.trans
      (hnew.trans (List.perm_append_singleton _ _).symm))
  | @take log b c horizon e _ ht ih =>
    rcases take?_eq_some ht with ⟨rest, hpending, -, rfl⟩
    rw [hpending] at ih
    rw [takes, schedules, List.filterMap_append, List.filterMap_append]
    show ((takes log ++ [e]) ++ rest).Perm (a.pending ++ (schedules log ++ []))
    rw [List.append_nil, List.append_assoc]
    exact ih
  | @advance log b horizon _ _ ih =>
    rw [takes, schedules, List.filterMap_append, List.filterMap_append, (advance_pending _ _).1]
    show ((takes log ++ []) ++ b.pending).Perm (a.pending ++ (schedules log ++ []))
    rw [List.append_nil, List.append_nil]
    exact ih

/-! ## Insertion -/

/-- A new event goes between those that are taken before it and those that are taken after it. -/
theorem insert_eq_append (e : Event α) (events : List (Event α)) :
    ∃ front back, events = front ++ back ∧ insert e events = front ++ e :: back := by
  induction events with
  | nil => exact ⟨[], [], rfl, rfl⟩
  | cons other rest ih =>
    by_cases h : e.before other
    · exact ⟨[], other :: rest, rfl, by rw [insert, if_pos h]; rfl⟩
    · rcases ih with ⟨front, back, hrest, hinsert⟩
      refine ⟨other :: front, back, by rw [hrest]; rfl, ?_⟩
      rw [insert, if_neg h, hinsert]
      rfl

theorem filter_insert_of_neg {p : Event α → Bool} {e : Event α} (events : List (Event α))
    (he : p e = false) : (insert e events).filter p = events.filter p := by
  rcases insert_eq_append e events with ⟨front, back, rfl, hinsert⟩
  rw [hinsert, List.filter_append, List.filter_append, List.filter_cons_of_neg (by simp [he])]

/-- A new event of the class goes behind the others when none of them is later. -/
theorem Sound.filter_insert {a b : Agenda α} {delay : Time} {kind : EventKind} {work : α}
    {p : Event α → Bool} (s : a.Sound) (h : a.schedule delay kind work = .ok b)
    (hnow : ∀ x ∈ a.pending, p x = true → x.time = a.now)
    (he : p ⟨a.now + delay, a.nextSeq, kind, work⟩ = true) :
    b.pending.filter p =
      a.pending.filter p ++ [⟨a.now + delay, a.nextSeq, kind, work⟩] := by
  have hsound := s.schedule h
  rcases schedule_eq_ok h with ⟨hcheck, rfl⟩
  rcases Time.place_le_add s.clock hcheck with ⟨hlater, hread⟩
  rcases insert_eq_append ⟨a.now + delay, a.nextSeq, kind, work⟩ a.pending with
    ⟨front, back, hold, hnew⟩
  have hordered := hsound.ordered
  show (insert _ a.pending).filter p = _
  -- An event of the class that is taken after the new one would have a smaller number.
  have hback : back.filter p = [] := by
    rw [List.filter_eq_nil_iff]
    intro x hx hp
    have hmem : x ∈ a.pending := by
      rw [hold]
      exact List.mem_append_right _ hx
    rw [show (insert (⟨a.now + delay, a.nextSeq, kind, work⟩ : Event α) a.pending) = _ from hnew]
      at hordered
    have hafter := (List.pairwise_cons.1 (List.pairwise_append.1 hordered).2.1).1 x hx
    have hxread := s.reading x hmem
    have hseq := s.numbered x hmem
    have htime : x.time.place = a.now.place := by rw [hnow x hmem hp]
    rw [Event.precedes_iff hread hxread] at hafter
    dsimp only at hafter
    omega
  rw [hnew, List.filter_append, List.filter_cons_of_pos he, hback]
  rw [hold, List.filter_append, hback, List.append_nil]

/-- Among events with smaller numbers, the time of an event tells its place. -/
theorem before_of_seq_lt {e x : Event α} (h : x.seq < e.seq) :
    e.before x = decide (Time.rank e.time < Time.rank x.time) := by
  simp [Event.before, h.not_gt]

theorem insert_of_forall {e : Event α} {events : List (Event α)}
    (h : ∀ x ∈ events, e.before x = true) : insert e events = e :: events := by
  cases events with
  | nil => rfl
  | cons other rest => rw [insert, if_pos (h other List.mem_cons_self)]

/-- A new event of a class has the same place among the events of the class as among all. -/
theorem filter_insert_of_pos {p : Event α → Bool} {e : Event α} {events : List (Event α)}
    (he : e.time.IsReading) (hread : ∀ x ∈ events, x.time.IsReading)
    (hordered : events.Pairwise Event.Precedes) (hp : p e = true) :
    (insert e events).filter p = insert e (events.filter p) := by
  induction events with
  | nil => simp [insert, hp]
  | cons other rest ih =>
    rcases List.pairwise_cons.1 hordered with ⟨hother, hrest⟩
    have hreadRest : ∀ x ∈ rest, x.time.IsReading := fun x hx => hread x (List.mem_cons_of_mem _ hx)
    have hreadOther := hread other List.mem_cons_self
    by_cases h : e.before other = true
    · -- The event comes first, among all and in the class.
      have hfirst : ∀ x ∈ (other :: rest).filter p, e.before x = true := by
        intro x hx
        rcases List.mem_cons.1 (List.mem_filter.1 hx).1 with rfl | hx
        · exact h
        · have hprecedes := (Event.before_iff he hreadOther).1 h
          exact (Event.before_iff he (hreadRest x hx)).2
            (hprecedes.trans he hreadOther (hreadRest x hx) (hother x hx))
      rw [insert, if_pos h, List.filter_cons_of_pos hp, insert_of_forall hfirst]
    · rw [insert, if_neg h]
      cases hpo : p other with
      | true =>
        rw [List.filter_cons_of_pos hpo, List.filter_cons_of_pos hpo, ih hreadRest hrest, insert,
          if_neg h]
      | false =>
        rw [List.filter_cons_of_neg (by simp [hpo]), List.filter_cons_of_neg (by simp [hpo]),
          ih hreadRest hrest]

/-- New events with the same time get the same place in lists with the same times. -/
theorem forall₂_insert {R : Event α → Event α → Prop} {events events' : List (Event α)}
    {e e' : Event α} (h : List.Forall₂ R events events') (hnew : R e e')
    (htime : ∀ x x', R x x' → x'.time = x.time) (hseq : ∀ x ∈ events, x.seq < e.seq)
    (hseq' : ∀ x ∈ events', x.seq < e'.seq) :
    List.Forall₂ R (insert e events) (insert e' events') := by
  induction h with
  | nil => exact .cons hnew .nil
  | @cons other other' rest rest' hother hrest ih =>
    have hsame : e'.before other' = e.before other := by
      rw [before_of_seq_lt (hseq other List.mem_cons_self),
        before_of_seq_lt (hseq' other' List.mem_cons_self), htime _ _ hnew, htime _ _ hother]
    rw [insert, insert, hsame]
    split
    · exact .cons hnew (.cons hother hrest)
    · exact .cons hother (ih (fun x hx => hseq x (List.mem_cons_of_mem _ hx))
        fun x hx => hseq' x (List.mem_cons_of_mem _ hx))

theorem takes_append (log more : List (Deed α)) : takes (log ++ more) = takes log ++ takes more :=
  List.filterMap_append

/-- The clock has got to the time of every event that has been taken. -/
theorem Path.taken_le {log : List (Deed α)} {a b : Agenda α} (h : Path a log b) (ha : a.Sound) :
    ∀ e ∈ takes log, e.time.place ≤ b.now.place := by
  induction h with
  | refl => simp [takes]
  | schedule hpath hs ih =>
    intro e he
    rw [takes_append] at he
    rcases List.mem_append.1 he with he | he
    · exact (ih e he).trans ((Path.refl.schedule hs).place_le (hpath.place_le ha).1).2
    · cases he
  | take hpath ht ih =>
    intro e he
    rw [takes_append] at he
    rcases List.mem_append.1 he with he | he
    · exact (ih e he).trans ((Path.refl.take ht).place_le (hpath.place_le ha).1).2
    · rcases take?_eq_some ht with ⟨rest, -, -, rfl⟩
      rw [List.mem_singleton.1 he]
  | advance hpath hn ih =>
    intro e he
    rw [takes_append] at he
    rcases List.mem_append.1 he with he | he
    · exact (ih e he).trans ((Path.refl.advance hn).place_le (hpath.place_le ha).1).2
    · cases he

/-- The events of a class stay as they are while none of them is taken and new ones do not belong to
it. -/
theorem Path.filter_pending {p : Event α → Bool} {log : List (Deed α)} {a b : Agenda α}
    (h : Path a log b) (hp : ∀ e, p e = true → e.seq < a.nextSeq)
    (htaken : ∀ e ∈ takes log, p e = false) : b.pending.filter p = a.pending.filter p := by
  induction h with
  | refl => rfl
  | @schedule log b c delay kind work hpath hs ih =>
    have hseq := hpath.planned.1
    have hbefore := ih fun e he => htaken e (by rw [takes_append]; exact List.mem_append_left _ he)
    rcases schedule_eq_ok hs with ⟨-, rfl⟩
    have hnew : p ⟨b.now + delay, b.nextSeq, kind, work⟩ = false := by
      cases hown : p ⟨b.now + delay, b.nextSeq, kind, work⟩ with
      | false => rfl
      | true => exact absurd (hp _ hown) hseq.not_gt
    rw [← hbefore]
    exact filter_insert_of_neg _ hnew
  | @take log b c horizon e _ ht ih =>
    have hbefore := ih fun e he => htaken e (by rw [takes_append]; exact List.mem_append_left _ he)
    have hmem : e ∈ takes (log ++ [.taken e]) := by simp [takes, Deed.taken?]
    have hother : p e = false := htaken e hmem
    rcases take?_eq_some ht with ⟨rest, hpending, -, rfl⟩
    rw [← hbefore, hpending, List.filter_cons_of_neg (by simp [hother])]
  | @advance log b horizon _ _ ih =>
    have hbefore := ih fun e he => htaken e (by rw [takes_append]; exact List.mem_append_left _ he)
    rw [(advance_pending _ _).1]
    exact hbefore

/-! ## The queue -/

/-- The events of a class are a queue: those scheduled are those taken and, after them, those that are
pending; and these are due now. -/
structure Queued (p : Event α → Bool) (log : List (Deed α)) (a : Agenda α) : Prop where
  order : (schedules log).filter p = (takes log).filter p ++ a.pending.filter p
  due : ∀ e ∈ a.pending, p e = true → e.time = a.now

theorem Queued.schedule {p : Event α → Bool} {log : List (Deed α)} {a b : Agenda α} {delay : Time}
    {kind : EventKind} {work : α} (q : Queued p log a) (s : a.Sound)
    (h : a.schedule delay kind work = .ok b)
    (hdelay : p ⟨a.now + delay, a.nextSeq, kind, work⟩ = true → a.now + delay = a.now) :
    Queued p (log ++ [.scheduled a.now delay ⟨a.now + delay, a.nextSeq, kind, work⟩]) b := by
  have hfilter := s.filter_insert h q.due
  rcases schedule_eq_ok h with ⟨-, rfl⟩
  constructor
  · rw [schedules, takes, List.filterMap_append, List.filterMap_append, List.filter_append,
      List.filter_append]
    show (schedules log).filter p ++ [_].filter p = (takes log).filter p ++ [] ++ _
    rw [q.order, List.append_nil, List.append_assoc]
    cases hp : p ⟨a.now + delay, a.nextSeq, kind, work⟩ with
    | true => rw [hfilter hp, List.filter_cons_of_pos hp, List.filter_nil]
    | false =>
      rw [filter_insert_of_neg _ hp, List.filter_cons_of_neg (by simp [hp]), List.filter_nil,
        List.append_nil]
  · intro e he hp
    rcases mem_insert.1 he with rfl | he
    · exact hdelay hp
    · exact q.due e he hp

theorem Queued.take {p : Event α → Bool} {log : List (Deed α)} {a b : Agenda α} {horizon : Time}
    {e : Event α} (q : Queued p log a) (s : a.Sound) (h : a.take? horizon = some (e, b)) :
    Queued p (log ++ [.taken e]) b := by
  rcases take?_eq_some h with ⟨rest, hpending, -, rfl⟩
  constructor
  · rw [schedules, takes, List.filterMap_append, List.filterMap_append, List.filter_append,
      List.filter_append]
    show (schedules log).filter p ++ [] = (takes log).filter p ++ [e].filter p ++ rest.filter p
    rw [q.order, hpending, List.append_nil, List.append_assoc, ← List.filter_append [e] rest]
    rfl
  · -- The event that is taken is not later than the others, and the clock shows its time.
    intro x hx hp
    have hmem : x ∈ a.pending := by
      rw [hpending]
      exact List.mem_cons_of_mem _ hx
    have hfirst : e ∈ a.pending := by simp [hpending]
    have hordered := s.ordered
    rw [hpending] at hordered
    have hbefore := (List.pairwise_cons.1 hordered).1 x hx
    rw [Event.precedes_iff (s.reading e hfirst) (s.reading x hmem)] at hbefore
    have hdue := s.due e hfirst
    have htime : x.time.place = a.now.place := by rw [q.due x hmem hp]
    apply Time.place_inj
    show x.time.place = e.time.place
    omega

theorem Queued.advance {p : Event α → Bool} {log : List (Deed α)} {a : Agenda α} {horizon : Time}
    (q : Queued p log a) (s : a.Sound) (h : a.take? horizon = none) :
    Queued p (log ++ [.advanced horizon]) (a.advance horizon) := by
  constructor
  · rw [schedules, takes, List.filterMap_append, List.filterMap_append, (advance_pending _ _).1]
    show (schedules log ++ []).filter p = (takes log ++ []).filter p ++ _
    rw [List.append_nil, List.append_nil]
    exact q.order
  · intro e he hp
    rw [(advance_pending a horizon).1] at he
    have htime := q.due e he hp
    -- An event of the class is due now, so the clock may only move if it is past the horizon.
    unfold Agenda.advance
    split
    · rename_i hlt
      have hread : horizon.IsReading := s.clock.of_lt hlt
      have hplace : a.now.place ≤ horizon.place := ((Time.lt_iff s.clock hread).1 hlt).le
      have hdue : e.time ≤ horizon := by
        rw [htime]
        exact (Time.le_iff s.clock hread).2 hplace
      exact absurd hdue (s.not_due h e he)
    · exact htime

/-- Events of a class that are scheduled without a delay are a queue. -/
theorem Path.queue {p : Event α → Bool} {log : List (Deed α)} {a : Agenda α}
    (h : Path empty log a)
    (hdelay : ∀ clock delay e, .scheduled clock delay e ∈ log → p e = true → e.time = clock) :
    Queued p log a := by
  induction h with
  | refl => exact ⟨rfl, by simp [empty]⟩
  | @schedule log b c delay kind work hpath hs ih =>
    exact (ih fun c d e he => hdelay c d e (List.mem_append_left _ he)).schedule
      hpath.history.sound hs (hdelay b.now delay _ (by simp))
  | take hpath ht ih =>
    exact (ih fun c d e he => hdelay c d e (List.mem_append_left _ he)).take hpath.history.sound ht
  | advance hpath hn ih =>
    exact (ih fun c d e he => hdelay c d e (List.mem_append_left _ he)).advance
      hpath.history.sound hn

/-! ## Numbers -/

theorem schedules_append (log more : List (Deed α)) :
    schedules (log ++ more) = schedules log ++ schedules more := List.filterMap_append

/-- Events are numbered in the order in which they are scheduled, without a gap. -/
theorem Path.numbers {log : List (Deed α)} {a b : Agenda α} (h : Path a log b) :
    (schedules log).map Event.seq = List.range' a.nextSeq (schedules log).length ∧
      b.nextSeq = a.nextSeq + (schedules log).length := by
  induction h with
  | refl => exact ⟨rfl, rfl⟩
  | @schedule log b c delay kind work _ hs ih =>
    rcases ih with ⟨hseqs, hnext⟩
    rcases schedule_eq_ok hs with ⟨-, rfl⟩
    have hnew : schedules [.scheduled b.now delay ⟨b.now + delay, b.nextSeq, kind, work⟩] =
        [⟨b.now + delay, b.nextSeq, kind, work⟩] := rfl
    rw [schedules_append, hnew, List.map_append, List.length_append, hseqs, List.length_singleton,
      ← List.range'_append_1, hnext]
    exact ⟨rfl, rfl⟩
  | @take log b c horizon e _ ht ih =>
    rcases take?_eq_some ht with ⟨rest, -, -, rfl⟩
    have hnone : schedules [.taken e] = [] := rfl
    rw [schedules_append, hnone, List.append_nil]
    exact ih
  | @advance log b horizon _ _ ih =>
    have hnone : schedules [(.advanced horizon : Deed α)] = [] := rfl
    rw [(advance_pending _ _).2, schedules_append, hnone, List.append_nil]
    exact ih

/-- No two events have the same number. -/
def Distinct (a : Agenda α) : Prop := (a.pending.map Event.seq).Nodup

theorem Distinct.eq {a : Agenda α} (h : a.Distinct) {x y : Event α} (hx : x ∈ a.pending)
    (hy : y ∈ a.pending) (hseq : x.seq = y.seq) : x = y :=
  List.inj_on_of_nodup_map h hx hy hseq

/-- All that has been taken and all that is pending have different numbers. -/
theorem Path.nodup {log : List (Deed α)} {a b : Agenda α} (h : Path a log b) (ha : a.Sound)
    (hdistinct : a.Distinct) : ((takes log ++ b.pending).map Event.seq).Nodup := by
  rw [(h.perm.map Event.seq).nodup_iff, List.map_append, h.numbers.1]
  refine List.nodup_append.2 ⟨hdistinct, List.nodup_range', ?_⟩
  -- A new event has a number that none of the others has.
  rintro _ hold _ hnew rfl
  rcases List.mem_map.1 hold with ⟨e, he, rfl⟩
  exact absurd (ha.numbered e he) (Nat.not_lt.2 (List.mem_range'_1.1 hnew).1)

theorem Path.distinct {log : List (Deed α)} {a b : Agenda α} (h : Path a log b) (ha : a.Sound)
    (hdistinct : a.Distinct) : b.Distinct := by
  have hnodup := h.nodup ha hdistinct
  rw [List.map_append] at hnodup
  exact (List.nodup_append.1 hnodup).2.1

/-- What has been taken is not pending any more. -/
theorem Path.gone {log : List (Deed α)} {a b : Agenda α} (h : Path a log b) (ha : a.Sound)
    (hdistinct : a.Distinct) {e o : Event α} (he : e ∈ takes log) (ho : o ∈ b.pending) :
    o.seq ≠ e.seq := by
  have hnodup := h.nodup ha hdistinct
  rw [List.map_append] at hnodup
  exact ((List.nodup_append.1 hnodup).2.2 _ (List.mem_map_of_mem he) _
    (List.mem_map_of_mem ho)).symm

end Agenda
end Callflow
