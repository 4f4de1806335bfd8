/-!
# Doubles as exact binary fractions

A double is read off its 64 bits: it is not a number, or infinite, or the exact value
`mantissa * 2 ^ exponent` with a sign. Everything that prints a double starts from this reading, so
that the printed digits are chosen in exact integer arithmetic.
-/

namespace Callflow
namespace Decimal

/-- The magnitude `mantissa * 2 ^ exponent` of a finite double. -/
structure Binary where
  mantissa : Nat
  exponent : Int
  deriving DecidableEq, Repr

/-- What the bits of a double stand for. -/
inductive Reading where
  | notANumber
  | infinite (negative : Bool)
  | finite (negative : Bool) (magnitude : Binary)
  deriving DecidableEq, Repr

/-- The exponent of the least significant bit of the smallest doubles. -/
def minExponent : Int := -1074

/-- The hidden leading bit of a normal double's mantissa. -/
def hiddenBit : Nat := 0x10000000000000

def signBit : Nat := 0x8000000000000000

/-- The exponent field of infinities and of what is not a number: eleven bits, all set. -/
def fullField : Nat := 0x7FF

/-- Sign bit, eleven exponent bits, fifty-two fraction bits. -/
def Reading.ofBits (bits : UInt64) : Reading :=
  let word : Nat := bits.toNat
  let negative : Bool := signBit ≤ word
  let field : Nat := word / hiddenBit % (fullField + 1)
  let fraction : Nat := word % hiddenBit
  if field = fullField then
    if fraction = 0 then .infinite negative else .notANumber
  else if field = 0 then .finite negative ⟨fraction, minExponent⟩
  else .finite negative ⟨hiddenBit + fraction, minExponent + (field : Int) - 1⟩

/-- The exact meaning of a double. -/
def Reading.ofFloat (x : Float) : Reading := .ofBits x.toBits

end Decimal
end Callflow
