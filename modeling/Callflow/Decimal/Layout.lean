import Callflow.Decimal.Shortest

/-!
# How a double is laid out as text

The digits are always the shortest that read back; a `Layout` holds what is left to decide: which
exponents are written positionally, whether a whole number keeps `.0`, the sign of a positive
exponent, and where a tie goes. Three layouts are used: `exchange` inside documents, `plain` inside
messages, and `diagnostic` inside descriptions of internal state.
-/

namespace Callflow
namespace Decimal

/-- The decisions of one number format. -/
structure Layout where
  -- The decimal exponents that are written without an exponent part.
  positional : Int → Bool
  -- Whole numbers in positional form end in `.0`.
  keepPoint : Bool
  -- A positive exponent is written with `+`.
  signedExponent : Bool
  tie : Tie

/-- Documents: positional from `0.00001` to below `1e+16`. -/
def Layout.exchange : Layout where
  positional e := -5 ≤ e && e < 16
  keepPoint := true
  signedExponent := true
  tie := .toEven

/-- Messages: never an exponent, no `.0`. -/
def Layout.plain : Layout where
  positional _ := true
  keepPoint := false
  signedExponent := false
  tie := .up

/-- Descriptions: positional from `0.0001` to below `1e16`. -/
def Layout.diagnostic : Layout where
  positional e := -4 ≤ e && e < 16
  keepPoint := true
  signedExponent := false
  tie := .up

def digitChars (n : Nat) : List Char := Nat.toDigits 10 n

def intChars (n : Int) : List Char :=
  if n < 0 then '-' :: digitChars n.natAbs else digitChars n.natAbs

/-- `ds` are the digits of a decimal whose first digit stands at `10 ^ e`. -/
def Layout.place (l : Layout) (ds : List Char) (e : Int) : List Char :=
  let size : Int := ds.length
  if l.positional e then
    if e < 0 then '0' :: '.' :: (List.replicate ((-e).toNat - 1) '0' ++ ds)
    else if size ≤ e + 1 then
      ds ++ List.replicate (e + 1 - size).toNat '0' ++ (if l.keepPoint then ['.', '0'] else [])
    else ds.take (e.toNat + 1) ++ '.' :: ds.drop (e.toNat + 1)
  else
    let mantissa := match ds with
      | d :: d' :: rest => d :: '.' :: d' :: rest
      | short => short
    let sign := if l.signedExponent && 0 ≤ e then ['+'] else []
    mantissa ++ 'e' :: (sign ++ intChars e)

def Layout.magnitude (l : Layout) (b : Binary) : List Char :=
  if b.mantissa = 0 then l.place ['0'] 0
  else
    let s := shortest l.tie b
    let ds := digitChars s.digits
    l.place ds (s.exponent + (ds.length : Int) - 1)

def Layout.chars (l : Layout) (x : Float) : List Char :=
  match Reading.ofFloat x with
  | .notANumber => ['N', 'a', 'N']
  | .infinite negative => if negative then ['-', 'i', 'n', 'f'] else ['i', 'n', 'f']
  | .finite negative b => if negative then '-' :: l.magnitude b else l.magnitude b

def Layout.render (l : Layout) (x : Float) : String := String.ofList (l.chars x)

end Decimal
end Callflow
