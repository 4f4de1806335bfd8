import Callflow.Json.Token

/-!
# Reading a document

`Reader` assembles a document word by word. Its state is the stack of containers that are still
open, and the place reached in the innermost one; each word moves the state or is refused.
-/

namespace Callflow
namespace Json

/-- A container that is still open, with the values before the current one, latest first. -/
inductive Container where
  | arr (before : List Json)
  | obj (before : List (Option String × Json)) (name : Option String)

/-- What has just been read, and so what may follow. -/
inductive Place where
  -- A value must follow.
  | value
  -- An array was opened: a value or its end.
  | firstItem
  -- An object was opened: a name or its end.
  | firstName
  -- A comma in an object: a name.
  | name (before : List (Option String × Json))
  -- A name: its colon.
  | colon (before : List (Option String × Json)) (name : Option String)
  -- A value is complete.
  | complete (v : Json)

/-- A document that is being read. -/
structure Reader where
  stack : List Container
  place : Place

namespace Reader

/-- Nothing read yet. -/
def start : Reader := ⟨[], .value⟩

/-- The object with these fields; it stands for nothing if one of its names does not. -/
def objectOf (fields : List (Option String × Json)) : Json :=
  match fields.mapM fun (name, v) => name.map fun name => (name, v) with
  | some fields => .obj fields
  | none => .unreadable

/-- The string with this text. -/
def stringOf : Option String → Json
  | some s => .str s
  | none => .unreadable

/-- A word where a value may begin. -/
def begin? (r : Reader) : Token → Option Reader
  | .openArray => some ⟨.arr [] :: r.stack, .firstItem⟩
  | .openObject => some ⟨r.stack, .firstName⟩
  | .string text => some ⟨r.stack, .complete (stringOf text)⟩
  | .leaf v => some ⟨r.stack, .complete v⟩
  | _ => none

/-- A word after a complete value. -/
def follow? (v : Json) : List Container → Token → Option Reader
  | .arr before :: stack, .comma => some ⟨.arr (v :: before) :: stack, .value⟩
  | .arr before :: stack, .closeArray => some ⟨stack, .complete (.arr (v :: before).reverse)⟩
  | .obj before name :: stack, .comma => some ⟨stack, .name ((name, v) :: before)⟩
  | .obj before name :: stack, .closeObject =>
    some ⟨stack, .complete (objectOf ((name, v) :: before).reverse)⟩
  | _, _ => none

/-- One word. -/
def step? (r : Reader) (t : Token) : Option Reader :=
  match r.place, t with
  | .value, t => r.begin? t
  | .firstItem, .closeArray => some ⟨r.stack.tail, .complete (.arr [])⟩
  | .firstItem, t => r.begin? t
  | .firstName, .closeObject => some ⟨r.stack, .complete (.obj [])⟩
  | .firstName, .string name => some ⟨r.stack, .colon [] name⟩
  | .name before, .string name => some ⟨r.stack, .colon before name⟩
  | .colon before name, .colon => some ⟨.obj before name :: r.stack, .value⟩
  | .complete v, t => follow? v r.stack t
  | _, _ => none

/-- Some words in a row. -/
def run? (r : Reader) (ts : List Token) : Option Reader := ts.foldlM step? r

/-- The document read, if it is complete. -/
def finish? (r : Reader) : Option Json :=
  match r.stack, r.place with
  | [], .complete v => some v
  | _, _ => none

end Reader

/-- The document that a text holds. -/
def ofChars? (cs : List Char) : Option Json := do
  let ts ← Token.scan cs
  let r ← Reader.start.run? ts
  r.finish?

/-- The document that a text holds. -/
def parse? (text : String) : Option Json := ofChars? text.toList

end Json
end Callflow
