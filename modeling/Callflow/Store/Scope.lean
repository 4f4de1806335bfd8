import Callflow.Store.Basic

/-!
# Looking symbols up

A symbol is looked up in a scope, then in the scope around it, and so on. A scope does not keep the
scope around it alive: the search ends where that one is gone.

A scope lives as long as something outside the store holds it or its service, or as its service is
still bound where it was defined, in a scope that lives itself (`Store.alive`).
-/

namespace Callflow

/-- What can be held from outside the store. -/
inductive Ref where
  | scope (id : ScopeId)
  | service (id : ServiceId)
  | request (id : RequestId)
  deriving DecidableEq, Repr

def Value.refs : Value → List Ref
  | .service id => [.service id]
  | _ => []

def Target.refs : Target → List Ref
  | .service id => [.service id]
  | .endpoint _ => []

namespace Store

/-- Whether a scope binds a service. -/
def binds (s : Store) (id : ScopeId) (service : ServiceId) : Bool :=
  match s.scope? id with
  | some scope => scope.bindings.values.any fun
    | .service other => other = service
    | _ => false
  | none => false

/-- Whether a scope lives when `held` tells what is held from outside. -/
def alive (s : Store) (held : Ref → Bool) (id : ScopeId) : Bool :=
  match s.scope? id with
  | none => false
  | some scope =>
    (match scope.owner, scope.parent with
      | some service, some parent =>
        if parent.index < id.index then s.binds parent service && alive s held parent else false
      | _, _ => false) ||
    (match scope.owner with
      | some service => held (.service service)
      | none => false) ||
    held (.scope id)
termination_by id.index

/-- The value of a symbol in a scope or, while the scopes around it live, in the nearest of them. -/
def lookUp? (s : Store) (live : ScopeId → Bool) (id : ScopeId) (symbol : String) : Option Value :=
  match s.scope? id with
  | none => none
  | some scope =>
    match scope.bindings.find? symbol with
    | some value => some value
    | none =>
      match scope.parent with
      | some parent =>
        if parent.index < id.index then
          if live parent then lookUp? s live parent symbol else none
        else none
      | none => none
termination_by id.index

end Store
end Callflow
