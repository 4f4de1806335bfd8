import Callflow.Decimal.Literal
import Callflow.Json.Basic

/-!
# The words of a document

`Token.scan` splits a text into brackets, commas, colons, strings and other values. A string that
holds half of a surrogate pair is a token without a text, so that whoever skips the value need not
refuse the document.
-/

namespace Callflow
namespace Json

/-- A word of a document. -/
inductive Token where
  | openArray
  | closeArray
  | openObject
  | closeObject
  | comma
  | colon
  | string (text : Option String)
  | leaf (value : Json)

/-! ## Strings -/

/-- A character of a string as written: itself, or a unit of UTF-16. -/
inductive Piece where
  | char (c : Char)
  | unit (n : Nat)
  deriving DecidableEq

/-- The value of a hexadecimal digit. -/
def hexValue? (c : Char) : Option Nat :=
  if '0' ≤ c ∧ c ≤ '9' then some (c.toNat - '0'.toNat)
  else if 'a' ≤ c ∧ c ≤ 'f' then some (c.toNat - 'a'.toNat + 10)
  else if 'A' ≤ c ∧ c ≤ 'F' then some (c.toNat - 'A'.toNat + 10)
  else none

/-- The value of four hexadecimal digits. -/
def hexUnit? (a b c d : Char) : Option Nat := do
  let a ← hexValue? a
  let b ← hexValue? b
  let c ← hexValue? c
  let d ← hexValue? d
  return ((a * 16 + b) * 16 + c) * 16 + d

/-- The character that a backslash and `c` stand for. -/
def escaped? : Char → Option Char
  | '"' => some '"'
  | '\\' => some '\\'
  | '/' => some '/'
  | 'b' => some '\x08'
  | 'f' => some '\x0c'
  | 'n' => some '\n'
  | 'r' => some '\r'
  | 't' => some '\t'
  | _ => none

/-- The pieces of a string up to its closing quote, and the text after it. -/
def stringBody : List Char → Option (List Piece × List Char)
  | '"' :: rest => some ([], rest)
  | '\\' :: 'u' :: a :: b :: c :: d :: rest => do
    let n ← hexUnit? a b c d
    let (pieces, rest) ← stringBody rest
    return (.unit n :: pieces, rest)
  | '\\' :: c :: rest => do
    let c ← escaped? c
    let (pieces, rest) ← stringBody rest
    return (.char c :: pieces, rest)
  | c :: rest =>
    if c.toNat < 0x20 then none
    else do
      let (pieces, rest) ← stringBody rest
      return (.char c :: pieces, rest)
  | [] => none

/-- Joins surrogate pairs; a surrogate on its own stands for no character. -/
def joinPieces? : List Piece → Option (List Char)
  | [] => some []
  | .char c :: rest => (joinPieces? rest).map (c :: ·)
  | .unit n :: .unit m :: rest =>
    if 0xD800 ≤ n ∧ n < 0xDC00 then
      if 0xDC00 ≤ m ∧ m < 0xE000 then
        (joinPieces? rest).map (Char.ofNat (0x10000 + (n - 0xD800) * 0x400 + (m - 0xDC00)) :: ·)
      else none
    else if 0xDC00 ≤ n ∧ n < 0xE000 then none
    else (joinPieces? (.unit m :: rest)).map (Char.ofNat n :: ·)
  | .unit n :: rest =>
    if 0xD800 ≤ n ∧ n < 0xE000 then none else (joinPieces? rest).map (Char.ofNat n :: ·)

theorem length_lt_of_stringBody {cs : List Char} {pieces : List Piece} {rest : List Char}
    (h : stringBody cs = some (pieces, rest)) : rest.length < cs.length := by
  fun_induction stringBody cs generalizing pieces rest with
  | case1 r => simp_all
  | case2 a b c d r ih =>
    simp only [Option.bind_eq_bind, Option.bind_eq_some_iff, Prod.exists, Option.pure_def,
      Option.some.injEq, Prod.mk.injEq] at h
    obtain ⟨n, -, p, s, hs, -, rfl⟩ := h
    have := ih hs
    simp only [List.length_cons]
    omega
  | case3 c r hc ih =>
    simp only [Option.bind_eq_bind, Option.bind_eq_some_iff, Prod.exists, Option.pure_def,
      Option.some.injEq, Prod.mk.injEq] at h
    obtain ⟨n, -, p, s, hs, -, rfl⟩ := h
    have := ih hs
    simp only [List.length_cons]
    omega
  | case4 => simp at h
  | case5 c r _ _ _ _ ih =>
    simp only [Option.bind_eq_bind, Option.bind_eq_some_iff, Prod.exists, Option.pure_def,
      Option.some.injEq, Prod.mk.injEq] at h
    obtain ⟨p, s, hs, -, rfl⟩ := h
    have := ih hs
    simp only [List.length_cons]
    omega
  | case6 => simp at h

/-! ## Numbers -/

/-- The characters of which numbers are made. -/
def isNumeric (c : Char) : Bool :=
  c.isDigit || c == '-' || c == '+' || c == '.' || c == 'e' || c == 'E'

/-- The value of a run of decimal digits. -/
def natOfDigits (ds : List Char) : Nat := ds.foldl (fun n c => 10 * n + (c.toNat - '0'.toNat)) 0

/-- A decimal exponent: an optional sign and at least one digit. -/
def exponentOf? (cs : List Char) : Option Int :=
  let digits (ds : List Char) : Option Nat :=
    if ds ≠ [] ∧ ds.all Char.isDigit then some (natOfDigits ds) else none
  match cs with
  | '+' :: ds => (digits ds).map Int.ofNat
  | '-' :: ds => (digits ds).map fun n => -Int.ofNat n
  | ds => (digits ds).map Int.ofNat

/-- The number with the given sign, whole part, fraction and exponent. -/
def numberOf (negative : Bool) (whole fraction : List Char) (exponent : Int) : Json :=
  let digits := natOfDigits (whole ++ fraction)
  match Decimal.nearest? negative digits (exponent - fraction.length) with
  | some x => .float x
  | none => .unreadable

/-- An integer literal: a word where it fits one, otherwise the nearest double. -/
def integerOf (negative : Bool) (whole : List Char) : Json :=
  let n := natOfDigits whole
  if negative then
    if n ≠ 0 ∧ n ≤ 0x8000000000000000 then .int (-n) else numberOf true whole [] 0
  else if n < 0x10000000000000000 then .int n
  else numberOf false whole [] 0

/-- A number: digits without a leading zero, then an optional fraction and an optional exponent. -/
def number? (text : List Char) : Option Json :=
  let (negative, unsigned) := match text with
    | '-' :: rest => (true, rest)
    | rest => (false, rest)
  let whole := unsigned.takeWhile Char.isDigit
  let wholeOk := match whole with
    | [] => false
    | '0' :: _ :: _ => false
    | _ => true
  if !wholeOk then none
  else match unsigned.dropWhile Char.isDigit with
    | [] => some (integerOf negative whole)
    | '.' :: rest =>
      let fraction := rest.takeWhile Char.isDigit
      if fraction.isEmpty then none
      else match rest.dropWhile Char.isDigit with
        | [] => some (numberOf negative whole fraction 0)
        | e :: rest =>
          if e = 'e' ∨ e = 'E' then (exponentOf? rest).map (numberOf negative whole fraction)
          else none
    | e :: rest =>
      if e = 'e' ∨ e = 'E' then (exponentOf? rest).map (numberOf negative whole []) else none

/-! ## Texts -/

/-- The blanks that may stand between words. -/
def isBlank (c : Char) : Bool := c == ' ' || c == '\t' || c == '\n' || c == '\r'

/-- A text as words, or `none` where no word begins. -/
def Token.scan (cs : List Char) : Option (List Token) :=
  match cs with
  | [] => some []
  | '[' :: rest => (scan rest).map (.openArray :: ·)
  | ']' :: rest => (scan rest).map (.closeArray :: ·)
  | '\x7b' :: rest => (scan rest).map (.openObject :: ·)
  | '\x7d' :: rest => (scan rest).map (.closeObject :: ·)
  | ',' :: rest => (scan rest).map (.comma :: ·)
  | ':' :: rest => (scan rest).map (.colon :: ·)
  | 't' :: 'r' :: 'u' :: 'e' :: rest => (scan rest).map (.leaf (.bool true) :: ·)
  | 'f' :: 'a' :: 'l' :: 's' :: 'e' :: rest => (scan rest).map (.leaf (.bool false) :: ·)
  | 'n' :: 'u' :: 'l' :: 'l' :: rest => (scan rest).map (.leaf .null :: ·)
  | '"' :: rest =>
    match h : stringBody rest with
    | none => none
    | some (pieces, after) =>
      have := length_lt_of_stringBody h
      (scan after).map (.string ((joinPieces? pieces).map String.ofList) :: ·)
  | c :: rest =>
    if isBlank c then scan rest
    else if isNumeric c then
      have : (rest.dropWhile isNumeric).length ≤ rest.length :=
        (List.dropWhile_suffix isNumeric).length_le
      match number? (c :: rest.takeWhile isNumeric) with
      | none => none
      | some v => (scan (rest.dropWhile isNumeric)).map (.leaf v :: ·)
    else none
termination_by cs.length
decreasing_by all_goals simp only [List.length_cons]; omega

end Json
end Callflow
