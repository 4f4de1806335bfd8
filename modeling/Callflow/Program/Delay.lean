import Callflow.Error

/-!
# Waiting between attempts

A `Delay` says how long a retry waits after each failed attempt: always the same time, or a time
that grows by a factor with every attempt, up to a cap. `RetryState` counts the attempts of one
retry against its limit.
-/

namespace Callflow

/-- How a wait changes from one attempt to the next. -/
inductive Growth where
  | constant
  | exponential (factor : Float) (cap : Option Time)

/-- How long a retry waits. -/
structure Delay where
  base : Time
  growth : Growth

/-- `a ^ n` by repeated squaring, with the products taken in that order. -/
def power (a : Float) (n : Nat) : Float :=
  go 1.0 a n
where
  -- `product * a ^ n`.
  go (product a : Float) (n : Nat) : Float :=
    let product := if n % 2 = 1 then product * a else product
    if h : n / 2 = 0 then product else go product (a * a) (n / 2)
  termination_by n
  decreasing_by omega

namespace Delay

/-- The greatest exponent used. -/
def maxExponent : Nat := 0x7FFFFFFF

/-- The same wait after every attempt. -/
def constant (base : Time) : Delay := ⟨base, .constant⟩

/-- A wait that grows by `factor`, without a cap. -/
def exponential (base : Time) (factor : Float) : Delay := ⟨base, .exponential factor none⟩

/-- Caps a growing wait; a constant one stays as it is. -/
def capped (d : Delay) (limit : Time) : Delay :=
  match d.growth with
  | .constant => d
  | .exponential factor _ => { d with growth := .exponential factor (some limit) }

/-- The wait after attempt number `attempt`, counted from one. -/
def waitAfter (d : Delay) (attempt : Nat) : Time :=
  match d.growth with
  | .constant => d.base
  | .exponential factor cap =>
    let wait := d.base * power factor (min (attempt - 1) maxExponent)
    match cap with
    | none => wait
    | some cap => Time.capped wait cap

end Delay

/-- The attempts of one retry. -/
structure RetryState where
  attempts : Nat
  limit : Nat
  delay : Delay

namespace RetryState

/-- No attempt yet; at least one must be allowed. -/
def start (limit : Nat) (delay : Delay) : Except ProgramError RetryState :=
  if limit = 0 then .error (.invalidRetryLimit limit) else .ok ⟨0, limit, delay⟩

/-- One more attempt. -/
def begin (s : RetryState) : RetryState := { s with attempts := s.attempts + 1 }

/-- Whether no further attempt is allowed. -/
def exhausted (s : RetryState) : Bool := s.limit ≤ s.attempts

/-- The wait before the next attempt. -/
def nextWait (s : RetryState) : Time := s.delay.waitAfter s.attempts

end RetryState
end Callflow
