/-!
# Reading a decimal as a double

A decimal literal is the nearest double to it. Literals far beyond the range of doubles are settled
by their order of magnitude alone, so that no power of ten larger than needed is ever formed.
-/

namespace Callflow
namespace Decimal

/-- Whether `x` is neither infinite nor not a number. -/
def isFinite (x : Float) : Bool := !x.isNaN && !x.isInf

/-- The double nearest to `± digits * 10 ^ exponent`, or `none` when it would be infinite. Too small
a decimal becomes zero; zero keeps its sign. -/
def nearest? (negative : Bool) (digits : Nat) (exponent : Int) : Option Float :=
  let signed (x : Float) : Float := if negative then -x else x
  let magnitude : Int := (Nat.toDigits 10 digits).length + exponent
  if digits = 0 ∨ magnitude < -400 then some (signed 0.0)
  else if 400 < magnitude then none
  else
    let x := if exponent < 0 then Float.ofScientific digits true exponent.natAbs
      else Float.ofScientific digits false exponent.natAbs
    if isFinite x then some (signed x) else none

end Decimal
end Callflow
