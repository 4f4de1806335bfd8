import Callflow.Text.Visible

/-!
# Quoted names

In descriptions of internal state a name stands between quotes. The quote, the backslash and the
usual control characters have short escapes; any other character that cannot be shown on its own is
given by its number.
-/

namespace Callflow
namespace Text

/-- A character of a quoted name. -/
def quoteChar (c : Char) : List Char :=
  if c = '"' then ['\\', '"']
  else if c = '\\' then ['\\', '\\']
  else if c = '\n' then ['\\', 'n']
  else if c = '\r' then ['\\', 'r']
  else if c = '\t' then ['\\', 't']
  else if c.toNat = 0 then ['\\', '0']
  else if isVisible c then [c]
  else ['\\', 'u', '\x7b'] ++ Nat.toDigits 16 c.toNat ++ ['\x7d']

/-- A name between quotes. -/
def quoted (s : String) : String :=
  String.ofList ('"' :: (s.toList.flatMap quoteChar ++ ['"']))

/-- Names between quotes in brackets. -/
def quotedList (names : List String) : String :=
  "[" ++ ", ".intercalate (names.map quoted) ++ "]"

/-- A description: a heading, and fields in braces. `partly` tells that fields have been left
out. -/
def described (heading : String) (fields : List (String × String)) (partly : Bool) : String :=
  let parts := fields.map (fun f => f.1 ++ ": " ++ f.2) ++ (if partly then [".."] else [])
  heading ++ " \x7b " ++ ", ".intercalate parts ++ " \x7d"

end Text
end Callflow
