import Callflow.Json.Token

/-!
# Points in calendar time

A timestamp counts seconds and nanoseconds from the beginning of 1970 in universal time. It is
written as a date and a time of day that end in `Z`, with as many digits of a fraction as it needs
in groups of three, and may be read with an offset. A leap second is the last second of its minute with
a further thousand million nanoseconds.
-/

namespace Callflow

structure Timestamp where
  seconds : Int
  nanoseconds : Nat
  deriving DecidableEq

namespace Timestamp

/-! ## The calendar -/

/-- The days before a date, counted from the first of March of the year zero. -/
def daysBefore (year : Int) (month day : Nat) : Int :=
  let y := if month ≤ 2 then year - 1 else year
  let m : Int := if month ≤ 2 then month + 9 else month - 3
  365 * y + y / 4 - y / 100 + y / 400 + (153 * m + 2) / 5 + (day - 1)

/-- The days before the beginning of 1970. -/
def epoch : Int := daysBefore 1970 1 1

/-- Whether a year has a 29th of February. -/
def isLeap (year : Int) : Bool := year % 4 = 0 && (year % 100 ≠ 0 || year % 400 = 0)

/-- The days of a month. -/
def daysIn (year : Int) (month : Nat) : Nat :=
  if month = 2 then if isLeap year then 29 else 28
  else if month = 4 ∨ month = 6 ∨ month = 9 ∨ month = 11 then 30
  else 31

/-- The year, month and day of a day counted from the first of March of the year zero. -/
def dateOf (days : Int) : Int × Nat × Nat :=
  let era := days / 146097
  let dayOfEra := days % 146097
  let yearOfEra := (dayOfEra - dayOfEra / 1460 + dayOfEra / 36524 - dayOfEra / 146096) / 365
  let dayOfYear := dayOfEra - (365 * yearOfEra + yearOfEra / 4 - yearOfEra / 100)
  let m := (5 * dayOfYear + 2) / 153
  let day := dayOfYear - (153 * m + 2) / 5 + 1
  let month := if m < 10 then m + 3 else m - 9
  let year := era * 400 + yearOfEra + (if month ≤ 2 then 1 else 0)
  (year, month.toNat, day.toNat)

/-! ## Writing -/

/-- A number with leading zeros. -/
def padded (width n : Nat) : List Char :=
  let ds := Nat.toDigits 10 n
  List.replicate (width - ds.length) '0' ++ ds

/-- The fraction of a second. -/
def fraction (n : Nat) : List Char :=
  if n = 0 then []
  else if n % 1000000 = 0 then '.' :: padded 3 (n / 1000000)
  else if n % 1000 = 0 then '.' :: padded 6 (n / 1000)
  else '.' :: padded 9 n

def render (t : Timestamp) : String :=
  let (year, month, day) := dateOf (t.seconds / 86400 + epoch)
  let second := (t.seconds % 86400).toNat
  let leap := t.nanoseconds / 1000000000
  String.ofList <| padded 4 year.toNat ++ '-' :: padded 2 month ++ '-' :: padded 2 day ++
    'T' :: padded 2 (second / 3600) ++ ':' :: padded 2 (second / 60 % 60) ++
    ':' :: padded 2 (second % 60 + leap) ++ fraction (t.nanoseconds % 1000000000) ++ ['Z']

/-! ## Reading -/

/-- A number of exactly `width` digits, and the text after it. -/
def number? (width : Nat) (cs : List Char) : Option (Nat × List Char) :=
  let ds := cs.take width
  if ds.length = width ∧ ds.all Char.isDigit then some (Json.natOfDigits ds, cs.drop width)
  else none

/-- One of some characters, and the text after it. -/
def mark? (allowed : List Char) : List Char → Option (List Char)
  | c :: rest => if allowed.contains c then some rest else none
  | [] => none

/-- The nanoseconds of a fraction; digits beyond the ninth do not count. -/
def nanosecondsOf (ds : List Char) : Nat :=
  Json.natOfDigits (ds.take 9) * Nat.pow 10 (9 - ds.length)

/-- The seconds by which the local time is ahead. -/
def offset? (cs : List Char) : Option Int :=
  let ahead (rest : List Char) : Option Int := do
    let (hours, rest) ← number? 2 rest
    let rest ← mark? [':'] rest
    let (minutes, rest) ← number? 2 rest
    if rest = [] ∧ hours < 24 ∧ minutes < 60 then return (hours * 3600 + minutes * 60 : Nat)
    else none
  match cs with
  | ['Z'] | ['z'] => some 0
  | '+' :: rest => ahead rest
  | '-' :: rest => (ahead rest).map fun s => -s
  | _ => none

def parse? (s : String) : Option Timestamp := do
  let (year, cs) ← number? 4 s.toList
  let cs ← mark? ['-'] cs
  let (month, cs) ← number? 2 cs
  let cs ← mark? ['-'] cs
  let (day, cs) ← number? 2 cs
  let cs ← mark? ['T', 't', ' '] cs
  let (hour, cs) ← number? 2 cs
  let cs ← mark? [':'] cs
  let (minute, cs) ← number? 2 cs
  let cs ← mark? [':'] cs
  let (second, cs) ← number? 2 cs
  let (nanos, cs) ← match cs with
    | '.' :: rest =>
      let ds := rest.takeWhile Char.isDigit
      if ds.isEmpty then none else some (nanosecondsOf ds, rest.dropWhile Char.isDigit)
    | cs => some (0, cs)
  let ahead ← offset? cs
  if 1 ≤ month ∧ month ≤ 12 ∧ 1 ≤ day ∧ day ≤ daysIn year month ∧ hour < 24 ∧ minute < 60 ∧
      second ≤ 60 then
    let days := daysBefore year month day - epoch
    let leap := second / 60
    return {
      seconds := days * 86400 + (hour * 3600 + minute * 60 + (second - leap) : Nat) - ahead
      nanoseconds := nanos + leap * 1000000000 }
  else none

end Timestamp
end Callflow
