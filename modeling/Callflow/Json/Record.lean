import Callflow.Decimal.Literal
import Callflow.Json.Basic

/-!
# Reading records out of a document

A record may be written by name, as an object, or by position, as an array. By name, fields that the
record does not know are skipped and a repeated field is refused; by position every field must be
there and no other. A tagged record carries its variant in a field of its own, or comes first in the
array.

Once a value has been read ahead while looking for a tag, variants in it may also be written as
their position in the list of variants, and an empty object does for the missing content of a
variant: the flag `ahead` says so.
-/

namespace Callflow
namespace Json

/-- Objects and arrays may stand at most this deep inside one another. -/
def depthLimit : Nat := 127

/-- Whether the document is shallow enough to be read ahead, and readable throughout. -/
def Bounded (v : Json) : Bool := v.readable && v.height ≤ depthLimit

/-! ## Values -/

/-- A string. -/
def string? : Json → Option String
  | .str s => some s
  | _ => none

/-- A truth value. -/
def bool? : Json → Option Bool
  | .bool b => some b
  | _ => none

/-- A number; an integer is the nearest double. -/
def float? : Json → Option Float
  | .int n => Decimal.nearest? (n < 0) n.natAbs 0
  | .float x => some x
  | _ => none

/-- An integer below a bound. -/
def nat? (bound : Nat) : Json → Option Nat
  | .int n => if 0 ≤ n ∧ n < bound then some n.toNat else none
  | _ => none

/-- The number of values of a 32-bit word. -/
def word32 : Nat := 0x100000000

/-- The number of values of a 64-bit word. -/
def word64 : Nat := 0x10000000000000000

/-- A field that may be missing or `null`. -/
def optional? {α : Type} (read : Json → Option α) : Option Json → Option (Option α)
  | none | some .null => some none
  | some v => (read v).map some

/-- A finite double, or `null`. -/
def ofFloat (x : Float) : Json := if Decimal.isFinite x then .float x else .null

/-- A value that may be missing. -/
def ofOption {α : Type} (write : α → Json) : Option α → Json
  | some a => write a
  | none => .null

/-- A natural number. -/
def ofNat (n : Nat) : Json := .int n

/-! ## Variants -/

/-- The variant that a value names, among `all` variants with their words. -/
def variant? {α : Type} (ahead : Bool) (all : List α) (word : α → String) : Json → Option α
  | .str s => all.find? fun a => word a == s
  | .int n => if ahead && decide (0 ≤ n) then all[n.toNat]? else none
  | _ => none

/-- Whether a value does for the content of a variant that has none. -/
def isNothing (ahead : Bool) : Json → Bool
  | .null => true
  | .obj [] => ahead
  | _ => false

/-- A variant without content: its word, or an object with its word and nothing. -/
def bareVariant? {α : Type} (ahead : Bool) (all : List α) (word : α → String) : Json → Option α
  | .str s => variant? false all word (.str s)
  | .obj [(name, v)] => if isNothing ahead v then variant? false all word (.str name) else none
  | _ => none

/-! ## Fields -/

/-- The fields of a record, by name or by position. -/
inductive Fields (α : Type) where
  | named (fields : List (String × α))
  | listed (items : List α)

/-- The field of a name, if it is there; refused when repeated. -/
def once? {α : Type} (fields : List (String × α)) (name : String) : Option (Option α) :=
  match fields.filter fun f => f.1 == name with
  | [] => some none
  | [(_, v)] => some (some v)
  | _ => none

/-- The fields of an object or an array. -/
def fields? : Json → Option (Fields Json)
  | .obj fields => some (.named fields)
  | .arr items => some (.listed items)
  | _ => none

namespace Fields

/-- The values of the fields with these names, in this order. -/
def select? {α : Type} (names : List String) : Fields α → Option (List (Option α))
  | .named fields => names.mapM (once? fields)
  | .listed items => if items.length = names.length then some (items.map some) else none

/-- The tag of a tagged record, and its other fields. -/
def tagged? {α : Type} (tag : String) : Fields α → Option (α × Fields α)
  | .named fields =>
    match once? fields tag with
    | some (some v) => some (v, .named (fields.filter fun f => f.1 != tag))
    | _ => none
  | .listed (v :: rest) => some (v, .listed rest)
  | .listed [] => none

/-- The variant of a tagged record, and the values of the fields that it has. -/
def content? {α V : Type} (tag : String) (variant? : α → Option V) (names : V → List String)
    (fields : Fields α) : Option (V × List (Option α)) := do
  let (tagged, fields) ← fields.tagged? tag
  let variant ← variant? tagged
  return (variant, ← fields.select? (names variant))

end Fields
end Json
end Callflow
