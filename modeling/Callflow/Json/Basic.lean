/-!
# Documents

A document is a tree of values. Objects keep their fields in the order written and may repeat a
name: what a repeated name means is for the reader of a record to decide. Integers that fit a
64-bit word are told apart from all other numbers.
-/

namespace Callflow

/-- A document. -/
inductive Json where
  | null
  | bool (b : Bool)
  -- An integer literal from `-2^63` to `2^64 - 1`; `-0` is not one.
  | int (n : Int)
  -- Any other number.
  | float (x : Float)
  | str (s : String)
  | arr (items : List Json)
  | obj (fields : List (String × Json))
  -- A value whose text is well formed but stands for nothing: a number beyond the largest double,
  -- a string with half of a surrogate pair, an object with such a name.
  | unreadable

namespace Json

/-- How many arrays and objects stand inside one another. -/
def height : Json → Nat
  | .arr items => heightItems items + 1
  | .obj fields => heightFields fields + 1
  | _ => 0
where
  -- The greatest height among some items.
  heightItems : List Json → Nat
    | [] => 0
    | v :: rest => max (height v) (heightItems rest)
  -- The greatest height among some fields.
  heightFields : List (String × Json) → Nat
    | [] => 0
    | (_, v) :: rest => max (height v) (heightFields rest)

/-- Whether every value in the document stands for something. -/
def readable : Json → Bool
  | .arr items => readableItems items
  | .obj fields => readableFields fields
  | .unreadable => false
  | _ => true
where
  -- Whether every item is readable.
  readableItems : List Json → Bool
    | [] => true
    | v :: rest => readable v && readableItems rest
  -- Whether every field is readable.
  readableFields : List (String × Json) → Bool
    | [] => true
    | (_, v) :: rest => readable v && readableFields rest

end Json
end Callflow
