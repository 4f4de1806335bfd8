import Callflow.Store.Scope

/-!
# Stores grow

A `Store.Move` is one definition. Definitions never take anything back (`Store.Grows`): a scope keeps
its place among the others and its owner, a symbol that it binds stays bound, though perhaps to
another value, a service keeps its name and scope and the names of its operations, and an endpoint
stays as it is.
-/

namespace Callflow
namespace Store

/-- One definition. -/
inductive Move (s : Store) : Store → Prop where
  | scope (parent : Option ScopeId) (owner : Option ServiceId) : Move s (s.newScope parent owner).1
  | service (name : String) (parent : Option ScopeId) : Move s (s.newService name parent).1
  | client (name : String) (period : Time) (body : Activity) :
      Move s (s.newClient name period body).1
  | endpoint (name : String) (transit : Time) : Move s (s.newEndpoint name transit).1
  | bind (id : ScopeId) (symbol : String) (value : Value) : Move s (s.bind id symbol value)
  | register (id : ServiceId) (op : Operation) : Move s (s.register id op)
  | count (id : ClientId) (change : Client → Client) : Move s (s.modifyClient id change)

/-- A scope after some definitions. -/
structure Extends (a b : Scope) : Prop where
  parent : b.parent = a.parent
  owner : b.owner = a.owner
  bound : ∀ symbol, (a.bindings.find? symbol).isSome → (b.bindings.find? symbol).isSome

theorem Extends.refl (a : Scope) : Extends a a := ⟨rfl, rfl, fun _ h => h⟩

theorem Extends.trans {a b c : Scope} (h : Extends a b) (k : Extends b c) : Extends a c :=
  ⟨k.parent.trans h.parent, k.owner.trans h.owner, fun symbol ha => k.bound symbol (h.bound symbol ha)⟩

/-- A service after some definitions. -/
structure Retains (a b : Service) : Prop where
  name : b.name = a.name
  scope : b.scope = a.scope
  offered : ∀ op, (a.operations.find? op).isSome → (b.operations.find? op).isSome

theorem Retains.refl (a : Service) : Retains a a := ⟨rfl, rfl, fun _ h => h⟩

theorem Retains.trans {a b c : Service} (h : Retains a b) (k : Retains b c) : Retains a c :=
  ⟨k.name.trans h.name, k.scope.trans h.scope, fun op ha => k.offered op (h.offered op ha)⟩

/-- What is still there after some definitions. -/
structure Grows (s t : Store) : Prop where
  scope : ∀ id a, s.scope? id = some a → ∃ b, t.scope? id = some b ∧ Extends a b
  service : ∀ id a, s.service? id = some a → ∃ b, t.service? id = some b ∧ Retains a b
  endpoint : ∀ id a, s.endpoint? id = some a → t.endpoint? id = some a

theorem Grows.refl (s : Store) : Grows s s where
  scope := fun _ a h => ⟨a, h, .refl a⟩
  service := fun _ a h => ⟨a, h, .refl a⟩
  endpoint := fun _ _ h => h

theorem Grows.trans {s t u : Store} (h : Grows s t) (k : Grows t u) : Grows s u where
  scope := by
    intro id a ha
    rcases h.scope id a ha with ⟨b, hb, hab⟩
    rcases k.scope id b hb with ⟨c, hc, hbc⟩
    exact ⟨c, hc, hab.trans hbc⟩
  service := by
    intro id a ha
    rcases h.service id a ha with ⟨b, hb, hab⟩
    rcases k.service id b hb with ⟨c, hc, hbc⟩
    exact ⟨c, hc, hab.trans hbc⟩
  endpoint := fun id a ha => k.endpoint id a (h.endpoint id a ha)

theorem extends_insert (a : Scope) (symbol : String) (value : Value) :
    Extends a { a with bindings := a.bindings.insert symbol value } := by
  refine ⟨rfl, rfl, ?_⟩
  intro other h
  rw [Directory.find?_insert]
  split
  · rfl
  · exact h

theorem retains_insert (a : Service) (op : Operation) :
    Retains a { a with operations := a.operations.insert op.name op } := by
  refine ⟨rfl, rfl, ?_⟩
  intro other h
  rw [Directory.find?_insert]
  split
  · rfl
  · exact h

theorem getElem?_push_of_some {β : Type} {xs : Array β} {i : Nat} {x y : β}
    (h : xs[i]? = some x) : (xs.push y)[i]? = some x := by
  have hlt : i < xs.size := (Array.getElem?_eq_some_iff.1 h).1
  rw [Array.getElem?_push, if_neg (by omega)]
  exact h

/-- A definition changes what one scope binds. -/
theorem scope?_bind (s : Store) (id other : ScopeId) (symbol : String) (value : Value) :
    (s.bind id symbol value).scope? other =
      (s.scope? other).map fun scope =>
        if id = other then { scope with bindings := scope.bindings.insert symbol value }
        else scope := by
  unfold scope? bind
  rw [Array.getElem?_modify]
  by_cases hsame : id = other
  · subst hsame
    simp
  · have hindex : id.index ≠ other.index := by
      intro hequal
      rcases id with ⟨i⟩
      rcases other with ⟨j⟩
      exact hsame (congrArg ScopeId.mk hequal)
    simp [hindex, hsame]

theorem Move.grows {s t : Store} (h : Move s t) : Grows s t := by
  cases h with
  | scope parent owner =>
    exact ⟨fun id a ha => ⟨a, getElem?_push_of_some ha, .refl a⟩, (Grows.refl s).service,
      (Grows.refl s).endpoint⟩
  | service name parent =>
    exact ⟨fun id a ha => ⟨a, getElem?_push_of_some ha, .refl a⟩,
      fun id a ha => ⟨a, getElem?_push_of_some ha, .refl a⟩, (Grows.refl s).endpoint⟩
  | client name period body =>
    exact ⟨(Grows.refl s).scope, (Grows.refl s).service, (Grows.refl s).endpoint⟩
  | endpoint name transit =>
    exact ⟨(Grows.refl s).scope, (Grows.refl s).service, fun id a ha => getElem?_push_of_some ha⟩
  | bind id symbol value =>
    refine ⟨?_, (Grows.refl s).service, (Grows.refl s).endpoint⟩
    intro other a ha
    by_cases same : id.index = other.index
    · refine ⟨_, ?_, extends_insert a symbol value⟩
      show (s.scopes.modify id.index _)[other.index]? = _
      rw [Array.getElem?_modify, if_pos same]
      exact congrArg (Option.map _) ha
    · refine ⟨a, ?_, .refl a⟩
      show (s.scopes.modify id.index _)[other.index]? = _
      rw [Array.getElem?_modify, if_neg same]
      exact ha
  | register id op =>
    refine ⟨(Grows.refl s).scope, ?_, (Grows.refl s).endpoint⟩
    intro other a ha
    by_cases same : id.index = other.index
    · refine ⟨_, ?_, retains_insert a op⟩
      show (s.services.modify id.index _)[other.index]? = _
      rw [Array.getElem?_modify, if_pos same]
      exact congrArg (Option.map _) ha
    · refine ⟨a, ?_, .refl a⟩
      show (s.services.modify id.index _)[other.index]? = _
      rw [Array.getElem?_modify, if_neg same]
      exact ha
  | count id change =>
    exact ⟨(Grows.refl s).scope, (Grows.refl s).service, (Grows.refl s).endpoint⟩

/-! ## Transit times -/

/-- No target needs time to be reached. -/
def Direct (s : Store) : Prop := ∀ id endpoint, s.endpoint? id = some endpoint → endpoint.transit = 0.0

theorem direct_iff {s : Store} :
    s.Direct ↔ ∀ endpoint ∈ s.endpoints.toList, endpoint.transit = 0.0 := by
  constructor
  · intro h endpoint hmem
    rcases Array.getElem?_of_mem (Array.mem_toList_iff.1 hmem) with ⟨i, hi⟩
    exact h ⟨i⟩ endpoint hi
  · intro h id endpoint hid
    exact h endpoint (Array.mem_toList_iff.2 (Array.mem_of_getElem? hid))

instance (s : Store) : Decidable s.Direct := decidable_of_iff' _ direct_iff

theorem Direct.transit {s : Store} (h : s.Direct) (target : Target) : s.transit target = 0.0 := by
  cases target with
  | service id => rfl
  | endpoint id =>
    cases hid : s.endpoint? id with
    | none => simp [Store.transit, hid]
    | some endpoint => simpa [Store.transit, hid] using h id endpoint hid

theorem Grows.direct {s t : Store} (h : Grows s t) (ht : t.Direct) : s.Direct :=
  fun id endpoint hid => ht id endpoint (h.endpoint id endpoint hid)

end Store
end Callflow
