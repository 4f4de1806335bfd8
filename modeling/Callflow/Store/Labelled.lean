import Callflow.Store.Description
import Callflow.Store.Scope

/-!
# Labelled scopes

A table of scopes under labels. The labels are all that holds a scope: a scope that loses its label
is gone for the scopes inside it, and a look-up from them ends there.
-/

namespace Callflow

/-- Scopes under labels. -/
structure LabelledScopes where
  store : Store
  labels : Directory ScopeId

namespace LabelledScopes

def empty : LabelledScopes := ⟨.empty, .empty⟩

/-- Whether some label stands for what is asked for. -/
def holds (t : LabelledScopes) : Ref → Bool
  | .scope id => t.labels.values.any fun other => other = id
  | _ => false

/-- Whether a scope has not been lost. -/
def alive (t : LabelledScopes) (id : ScopeId) : Bool := t.store.alive t.holds id

def scope? (t : LabelledScopes) (label : String) : Option ScopeId := t.labels.find? label

/-- A new scope under a label, inside another scope or on its own. A scope that had the label loses
it. -/
def add (t : LabelledScopes) (label : String) (parent : Option ScopeId) : LabelledScopes :=
  let (store, id) := t.store.newScope parent none
  ⟨store, t.labels.insert label id⟩

def drop (t : LabelledScopes) (label : String) : LabelledScopes :=
  { t with labels := t.labels.erase label }

def define (t : LabelledScopes) (id : ScopeId) (symbol : String) (draft : Draft) :
    LabelledScopes × Value :=
  let (store, value) := t.store.make id draft
  ({ t with store := store.bind id symbol value }, value)

/-- The value of a symbol, seen from a scope. -/
def lookUp (t : LabelledScopes) (id : ScopeId) (symbol : String) : Except ProgramError Value :=
  match t.store.lookUp? t.alive id symbol with
  | some value => .ok value
  | none => .error (.undefinedSymbol symbol)

end LabelledScopes
end Callflow
