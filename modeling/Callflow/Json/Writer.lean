import Callflow.Decimal.Layout
import Callflow.Decimal.Literal
import Callflow.Json.Basic

/-!
# Writing a document

Two forms: `compact`, without any blank, and `pretty`, indented by two spaces. In strings only the
quote, the backslash and control characters are escaped. A number that is infinite or not a number
has no written form and becomes `null`.
-/

namespace Callflow
namespace Json

/-- A lower-case hexadecimal digit. -/
def hexDigit (n : Nat) : Char :=
  if n < 10 then Char.ofNat ('0'.toNat + n) else Char.ofNat ('a'.toNat + (n - 10))

/-- A character of a string as written. -/
def escapeChar (c : Char) : List Char :=
  if c = '"' then ['\\', '"']
  else if c = '\\' then ['\\', '\\']
  else if c = '\x08' then ['\\', 'b']
  else if c = '\t' then ['\\', 't']
  else if c = '\n' then ['\\', 'n']
  else if c = '\x0c' then ['\\', 'f']
  else if c = '\r' then ['\\', 'r']
  else if c.toNat < 0x20 then
    ['\\', 'u', '0', '0', hexDigit (c.toNat / 16), hexDigit (c.toNat % 16)]
  else [c]

/-- A string between its quotes. -/
def stringChars (s : String) : List Char := '"' :: (s.toList.flatMap escapeChar ++ ['"'])

/-- A double, or `null` when it is not finite. -/
def floatChars (x : Float) : List Char :=
  if Decimal.isFinite x then Decimal.Layout.exchange.chars x else ['n', 'u', 'l', 'l']

/-- A value without parts. -/
def leafChars : Json → List Char
  | .bool true => ['t', 'r', 'u', 'e']
  | .bool false => ['f', 'a', 'l', 's', 'e']
  | .int n => Decimal.intChars n
  | .float x => floatChars x
  | .str s => stringChars s
  | _ => ['n', 'u', 'l', 'l']

/-- A document without blanks. -/
def chars : Json → List Char
  | .arr [] => ['[', ']']
  | .arr (v :: rest) => '[' :: (chars v ++ (charsItems rest ++ [']']))
  | .obj [] => ['\x7b', '\x7d']
  | .obj ((name, v) :: rest) =>
    '\x7b' :: (stringChars name ++ ':' :: (chars v ++ (charsFields rest ++ ['\x7d'])))
  | leaf => leafChars leaf
where
  -- Further items, each after a comma.
  charsItems : List Json → List Char
    | [] => []
    | v :: rest => ',' :: (chars v ++ charsItems rest)
  -- Further fields, each after a comma.
  charsFields : List (String × Json) → List Char
    | [] => []
    | (name, v) :: rest => ',' :: (stringChars name ++ ':' :: (chars v ++ charsFields rest))

def compact (v : Json) : String := String.ofList v.chars

/-- A new line at some depth. -/
def newLine (depth : Nat) : List Char := '\n' :: List.replicate (2 * depth) ' '

/-- A document with each item and each field on a line of its own. -/
def prettyChars (depth : Nat) : Json → List Char
  | .arr [] => ['[', ']']
  | .arr (v :: rest) =>
    '[' :: (newLine (depth + 1) ++ prettyChars (depth + 1) v ++ prettyItems (depth + 1) rest ++
      newLine depth ++ [']'])
  | .obj [] => ['\x7b', '\x7d']
  | .obj ((name, v) :: rest) =>
    '\x7b' :: (newLine (depth + 1) ++ stringChars name ++ [':', ' '] ++ prettyChars (depth + 1) v ++
      prettyFields (depth + 1) rest ++ newLine depth ++ ['\x7d'])
  | leaf => leafChars leaf
where
  -- Further items, each on a new line.
  prettyItems (depth : Nat) : List Json → List Char
    | [] => []
    | v :: rest => ',' :: (newLine depth ++ prettyChars depth v ++ prettyItems depth rest)
  -- Further fields, each on a new line.
  prettyFields (depth : Nat) : List (String × Json) → List Char
    | [] => []
    | (name, v) :: rest =>
      ',' :: (newLine depth ++ stringChars name ++ [':', ' '] ++ prettyChars depth v ++
        prettyFields depth rest)

/-- The indented text of a document. -/
def pretty (v : Json) : String := String.ofList (prettyChars 0 v)

end Json
end Callflow
