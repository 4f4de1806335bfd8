import Callflow.Journal.Basic

/-!
# The agenda

The agenda holds the simulated clock and the events that are still to come. Events are taken in the
order of their times, and at equal times in the order in which they were scheduled; taking one sets
the clock. What an event does is no concern of the agenda.
-/

namespace Callflow

/-- Something that will happen. -/
structure Event (α : Type) where
  time : Time
  seq : Nat
  kind : EventKind
  work : α

/-- Whether one event is taken before another. -/
def Event.before {α : Type} (a b : Event α) : Bool :=
  Time.rank a.time < Time.rank b.time ||
    (Time.rank a.time == Time.rank b.time && decide (a.seq < b.seq))

/-- The clock and the events to come. -/
structure Agenda (α : Type) where
  now : Time
  -- The events to come, the next one first.
  pending : List (Event α)
  -- The number of the next event that is scheduled.
  nextSeq : Nat
  -- How many events have been taken.
  dispatched : Nat

namespace Agenda

variable {α : Type}

/-- Nothing to come, at time zero. -/
def empty : Agenda α := ⟨0.0, [], 0, 0⟩

/-- Puts an event in its place. -/
def insert (e : Event α) : List (Event α) → List (Event α)
  | [] => [e]
  | other :: rest => if e.before other then e :: other :: rest else other :: insert e rest

/-- Schedules an event after a delay, if the delay is valid. -/
def schedule (a : Agenda α) (delay : Time) (kind : EventKind) (work : α) :
    Except SchedulingError (Agenda α) :=
  match Time.checkDelay delay with
  | .error e => .error e
  | .ok () => .ok { a with
      pending := insert ⟨a.now + delay, a.nextSeq, kind, work⟩ a.pending
      nextSeq := a.nextSeq + 1 }

def next? (a : Agenda α) : Option Time := a.pending.head?.map Event.time

/-- Takes the next event if it is due by the horizon. -/
def take? (a : Agenda α) (horizon : Time) : Option (Event α × Agenda α) :=
  match a.pending with
  | [] => none
  | e :: rest =>
    if e.time ≤ horizon then
      some (e, { a with now := e.time, pending := rest, dispatched := a.dispatched + 1 })
    else none

/-- Moves the clock forward to the horizon. -/
def advance (a : Agenda α) (horizon : Time) : Agenda α :=
  if a.now < horizon then { a with now := horizon } else a

end Agenda
end Callflow
