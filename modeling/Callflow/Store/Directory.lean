/-!
# Directories

A directory maps names to values and lists them in the order of their characters. A name that is
inserted again takes its new value; `find?_insert` is the law of the two operations.
-/

namespace Callflow

/-- Values by name, in ascending order of the names. -/
structure Directory (α : Type) where
  entries : List (String × α)

namespace Directory

variable {α : Type}

def empty : Directory α := ⟨[]⟩

/-- The first value of a name in a list of entries. -/
def findIn (name : String) : List (String × α) → Option α
  | [] => none
  | (other, value) :: rest => if other = name then some value else findIn name rest

/-- Entries with a new value for a name. -/
def insertIn (name : String) (value : α) : List (String × α) → List (String × α)
  | [] => [(name, value)]
  | (other, old) :: rest =>
    if other = name then (name, value) :: rest
    else if name < other then (name, value) :: (other, old) :: rest
    else (other, old) :: insertIn name value rest

def find? (d : Directory α) (name : String) : Option α := findIn name d.entries

/-- The directory with a new value for a name. -/
def insert (d : Directory α) (name : String) (value : α) : Directory α :=
  ⟨insertIn name value d.entries⟩

def erase (d : Directory α) (name : String) : Directory α :=
  ⟨d.entries.filter fun e => e.1 ≠ name⟩

def names (d : Directory α) : List String := d.entries.map Prod.fst

/-- The values in order of their names. -/
def values (d : Directory α) : List α := d.entries.map Prod.snd

theorem findIn_insertIn (name other : String) (value : α) (entries : List (String × α)) :
    findIn other (insertIn name value entries) =
      if name = other then some value else findIn other entries := by
  induction entries with
  | nil => simp [insertIn, findIn]
  | cons e rest ih =>
    obtain ⟨key, old⟩ := e
    by_cases same : key = name
    · subst same
      by_cases asked : key = other <;> simp [insertIn, findIn, asked]
    · by_cases before : name < key
      · simp [insertIn, findIn, same, before]
      · by_cases asked : key = other
        · subst asked
          have : name ≠ key := fun h => same h.symm
          simp [insertIn, findIn, same, before, this]
        · simp [insertIn, findIn, same, before, asked, ih]

/-- A look-up after an insertion finds the new value under its name and the old one elsewhere. -/
theorem find?_insert (d : Directory α) (name other : String) (value : α) :
    (d.insert name value).find? other = if name = other then some value else d.find? other :=
  findIn_insertIn name other value d.entries

end Directory
end Callflow
