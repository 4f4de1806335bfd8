import Callflow.Json.Token

/-!
# Identifiers of simulations

A run identifier is a number of 128 bits, written as 32 hexadecimal digits in five groups. It may
also be read without the hyphens, in braces, or after `urn:uuid:`.
-/

namespace Callflow

structure RunId where
  bits : BitVec 128
  deriving DecidableEq

namespace RunId

def groups : List Nat := [8, 4, 4, 4, 12]

def digits (id : RunId) : List Char :=
  (List.range 32).map fun i => Nat.digitChar (id.bits.toNat / Nat.pow 16 (31 - i) % 16)

/-- Cuts digits into groups. -/
def hyphenate : List Nat → List Char → List Char
  | [], ds => ds
  | [_], ds => ds
  | n :: rest, ds => ds.take n ++ '-' :: hyphenate rest (ds.drop n)

def chars (id : RunId) : List Char := hyphenate groups id.digits

/-- The digits of hyphenated groups. -/
def ungroup? : List Nat → List Char → Option (List Char)
  | [], _ => none
  | [n], cs => if cs.length = n then some cs else none
  | n :: rest, cs =>
    match cs.drop n with
    | '-' :: after => (ungroup? rest after).map (cs.take n ++ ·)
    | _ => none

/-- An identifier from its digits. -/
def ofDigits? (ds : List Char) : Option RunId := do
  let values ← ds.mapM Json.hexValue?
  if values.length = 32 then
    return ⟨BitVec.ofNat 128 (values.foldl (fun n d => 16 * n + d) 0)⟩
  else none

def ofPlain? (cs : List Char) : Option RunId :=
  if cs.contains '-' then (ungroup? groups cs).bind ofDigits? else ofDigits? cs

/-- What introduces the long form. -/
def scheme : List Char := "urn:uuid:".toList

def ofChars? (cs : List Char) : Option RunId :=
  match cs with
  | '\x7b' :: rest =>
    if rest.getLast? = some '\x7d' then (ungroup? groups rest.dropLast).bind ofDigits? else none
  | cs =>
    if scheme.isPrefixOf cs then (ungroup? groups (cs.drop scheme.length)).bind ofDigits?
    else ofPlain? cs

def render (id : RunId) : String := String.ofList id.chars

def parse? (s : String) : Option RunId := ofChars? s.toList

end RunId
end Callflow
