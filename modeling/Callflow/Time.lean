import Callflow.Decimal.Literal
import Callflow.Decimal.Layout

/-!
# Simulated time

Time is a double in abstract units. A delay is valid when it is finite and not negative, where `-0`
counts as zero. Points in time are ordered by `Time.rank`, a total order on doubles that agrees with
the numeric one on the numbers the clock takes.
-/

namespace Callflow

/-- A point in simulated time, or a span of it. -/
abbrev Time := Float

/-- Why a delay is refused. -/
inductive SchedulingError where
  | negativeDelay (delay : Time)
  | nonFiniteDelay (delay : Time)

def SchedulingError.message : SchedulingError → String
  | .negativeDelay d =>
    "cannot schedule an event " ++ Decimal.Layout.plain.render d ++ " time units in the past"
  | .nonFiniteDelay d => "delay must be finite, found " ++ Decimal.Layout.plain.render d

namespace Time

/-- Accepts a delay that is finite and not negative. -/
def checkDelay (delay : Time) : Except SchedulingError Unit :=
  if !Decimal.isFinite delay then .error (.nonFiniteDelay delay)
  else if delay < 0.0 then .error (.negativeDelay delay)
  else .ok ()

/-- Accepts a period that is finite and greater than zero. -/
def isPeriod (period : Time) : Bool := Decimal.isFinite period && !decide (period ≤ 0.0)

/-- The place of a double in the total order of doubles: negative numbers by falling magnitude, then
zero and the positive numbers by rising magnitude. -/
def rank (t : Time) : UInt64 :=
  let bits := t.toBits
  if bits < 0x8000000000000000 then bits ^^^ 0x8000000000000000 else ~~~bits

/-- The smaller of a time and a bound; one that is not a number gives way to the other. -/
def capped (t bound : Time) : Time :=
  if t.isNaN then bound
  else if bound.isNaN then t
  else if bound < t then bound else t

end Time
end Callflow
