import Callflow.Decimal.Binary

/-!
# The fewest digits that read back

The reals that round to a double `m * 2 ^ q` form an interval around it, closed when `m` is even and
open when it is odd. `shortest` finds the decimal with the fewest digits in that interval, and of
two such decimals the one closer to the double; only an exact tie is left to the caller.

All comparisons are between natural numbers: the double, the two ends of its interval and the grid
`10 ^ k` are multiplied by the same factor first (`Scale`).
-/

namespace Callflow
namespace Decimal

/-- Which of two equally close decimals is taken. -/
inductive Tie where
  | toEven
  | up
  deriving DecidableEq, Repr

/-- The decimal `digits * 10 ^ exponent`. -/
structure Scientific where
  digits : Nat
  exponent : Int
  deriving DecidableEq, Repr

/-- A double, the ends of its interval and one step of the decimal grid in a common unit. -/
structure Scale where
  value : Nat
  lower : Nat
  upper : Nat
  step : Nat
  closed : Bool
  deriving DecidableEq, Repr

/-- The common unit is `2 ^ (q - 2)`, or its decimal or binary fraction that makes all four whole.
Below a power of two the neighbour is only half as far. -/
def Scale.of (b : Binary) (grid : Int) : Scale :=
  let unit := b.exponent - 2
  let factor := Nat.pow 2 unit.toNat * Nat.pow 10 (-grid).toNat
  let below := if b.mantissa = hiddenBit ∧ minExponent < b.exponent then 1 else 2
  { value := 4 * b.mantissa * factor
    lower := (4 * b.mantissa - below) * factor
    upper := (4 * b.mantissa + 2) * factor
    step := Nat.pow 2 (-unit).toNat * Nat.pow 10 grid.toNat
    closed := b.mantissa % 2 = 0 }

/-- Whether the grid point reads back as the double. -/
def Scale.holds (s : Scale) (point : Nat) : Bool :=
  let x := point * s.step
  if s.closed then s.lower ≤ x && x ≤ s.upper else s.lower < x && x < s.upper

/-- The grid point next to the double that reads back, the closer one if both do. -/
def Scale.pick? (s : Scale) (tie : Tie) : Option Nat :=
  let down := s.value / s.step
  let up := down + 1
  match s.holds down, s.holds up with
  | true, false => some down
  | false, true => some up
  | false, false => none
  | true, true =>
    let twice := 2 * s.value
    let middle := (down + up) * s.step
    if twice < middle then some down
    else if middle < twice then some up
    else match tie with
      | .up => some up
      | .toEven => some (if down % 2 = 0 then down else up)

/-- The exponent of the leading decimal digit, or one less. `30103 / 100000` is the decimal
logarithm of two to five places. -/
def leadingExponent (b : Binary) : Int :=
  ((Nat.log2 b.mantissa : Int) + b.exponent) * 30103 / 100000

/-- Seventeen digits identify every double; one more grid makes up for the estimate of the leading
digit. -/
def maxDigits : Nat := 18

/-- Trailing zeros go into the exponent. -/
def Scientific.trim : Nat → Scientific → Scientific
  | 0, s => s
  | fuel + 1, s =>
    if s.digits % 10 = 0 ∧ s.digits ≠ 0 then trim fuel ⟨s.digits / 10, s.exponent + 1⟩ else s

/-- The first grid, from the coarsest on, that holds a decimal which reads back. -/
def shortest (tie : Tie) (b : Binary) : Scientific :=
  let leading := leadingExponent b + 1
  let found := (List.range maxDigits).findSome? fun (n : Nat) =>
    let grid := leading - (n : Int)
    ((Scale.of b grid).pick? tie).map fun digits => (⟨digits, grid⟩ : Scientific)
  match found with
  | some s => s.trim maxDigits
  | none => ⟨b.mantissa, 0⟩

end Decimal
end Callflow
