import Callflow.Proofs.Store.Growth
import Mathlib.Data.List.TakeWhile

/-!
# When a symbol is lost

A look-up goes from a scope outwards, through the scopes around it as far as they live
(`lookUp?_eq`). Definitions do not change which scopes are around a scope, and they leave bound what is
bound. So a symbol that could be resolved once can be lost in one way only: some scope around has been
abandoned (`Abandoned`), and no scope inside of it binds the symbol (`Grows.lookUp?_eq_none_iff`).
-/

namespace Callflow
namespace Store

/-- The scopes around a scope, from the inside to the outside. -/
def around (s : Store) (id : ScopeId) : List ScopeId :=
  match s.scope? id with
  | none => []
  | some scope =>
    match scope.parent with
    | some parent => if parent.index < id.index then parent :: around s parent else []
    | none => []
termination_by id.index

/-! ## Look-ups -/

theorem local?_eq {s : Store} {id : ScopeId} {scope : Scope} (h : s.scope? id = some scope)
    (symbol : String) : s.local? id symbol = scope.bindings.find? symbol := by
  rw [local?, h]
  rfl

/-- A look-up asks the scope itself, and then the scopes around it as far as they live. -/
theorem lookUp?_eq (s : Store) (live : ScopeId → Bool) (id : ScopeId) (symbol : String) :
    s.lookUp? live id symbol =
      (id :: (s.around id).takeWhile live).findSome? fun d => s.local? d symbol := by
  induction hn : id.index using Nat.strong_induction_on generalizing id with
  | _ n ih =>
    subst hn
    rw [lookUp?, around, List.findSome?_cons]
    cases hs : s.scope? id with
    | none => simp [local?, hs]
    | some scope =>
      rw [local?_eq hs]
      dsimp only
      cases hfound : scope.bindings.find? symbol with
      | some value => rfl
      | none =>
        cases hparent : scope.parent with
        | none => rfl
        | some parent =>
          dsimp only
          by_cases hbelow : parent.index < id.index
          · rw [if_pos hbelow, if_pos hbelow, List.takeWhile_cons]
            cases hlive : live parent with
            | true =>
              rw [if_pos rfl, if_pos rfl]
              exact ih parent.index hbelow parent rfl
            | false => rfl
          · rw [if_neg hbelow, if_neg hbelow]
            rfl

/-- Where a symbol is resolved, one of the scopes asked binds it. -/
theorem exists_of_lookUp? {s : Store} {live : ScopeId → Bool} {id : ScopeId} {symbol : String}
    (h : (s.lookUp? live id symbol).isSome) :
    ∃ d ∈ id :: s.around id, (s.local? d symbol).isSome := by
  rcases Option.isSome_iff_exists.1 h with ⟨value, hvalue⟩
  rw [lookUp?_eq] at hvalue
  rcases List.exists_of_findSome?_eq_some hvalue with ⟨d, hd, hfound⟩
  refine ⟨d, ?_, by rw [hfound]; rfl⟩
  rcases List.mem_cons.1 hd with rfl | hd
  · exact List.mem_cons_self
  · exact List.mem_cons_of_mem _ ((List.takeWhile_sublist _).subset hd)

/-! ## After some definitions -/

theorem scope?_isSome_of_lt {s : Store} {id : ScopeId} (h : id.index < s.scopes.size) :
    ∃ scope, s.scope? id = some scope :=
  ⟨_, Array.getElem?_eq_getElem h⟩

/-- Definitions never change which scopes are around a scope. -/
theorem Grows.around {s t : Store} (h : Grows s t) {id : ScopeId} {scope : Scope}
    (hid : s.scope? id = some scope) : t.around id = s.around id := by
  induction hn : id.index using Nat.strong_induction_on generalizing id scope with
  | _ n ih =>
    subst hn
    rcases h.scope id scope hid with ⟨later, hlater, hextends⟩
    rw [Store.around, Store.around.eq_def s, hid, hlater]
    dsimp only
    rw [hextends.parent]
    cases hparent : scope.parent with
    | none => rfl
    | some parent =>
      dsimp only
      by_cases hbelow : parent.index < id.index
      · have hlt : id.index < s.scopes.size := (Array.getElem?_eq_some_iff.1 hid).1
        rcases scope?_isSome_of_lt (lt_trans hbelow hlt) with ⟨outer, houter⟩
        rw [if_pos hbelow, if_pos hbelow, ih parent.index hbelow houter rfl]
      · rw [if_neg hbelow, if_neg hbelow]

theorem Grows.local? {s t : Store} (h : Grows s t) {id : ScopeId} {symbol : String}
    (hbound : (s.local? id symbol).isSome) : (t.local? id symbol).isSome := by
  cases hs : s.scope? id with
  | none =>
    rw [Store.local?, hs] at hbound
    cases hbound
  | some scope =>
    rcases h.scope id scope hs with ⟨later, hlater, hextends⟩
    rw [local?_eq hs] at hbound
    rw [local?_eq hlater]
    exact hextends.bound symbol hbound

theorem scope?_of_mem_around {s : Store} {id p : ScopeId} {scope : Scope}
    (hid : s.scope? id = some scope) (hp : p ∈ s.around id) : ∃ outer, s.scope? p = some outer := by
  induction hn : id.index using Nat.strong_induction_on generalizing id scope with
  | _ n ih =>
    subst hn
    rw [Store.around, hid] at hp
    dsimp only at hp
    split at hp
    · rename_i parent _
      split at hp
      · rename_i hbelow
        have hlt : id.index < s.scopes.size := (Array.getElem?_eq_some_iff.1 hid).1
        rcases scope?_isSome_of_lt (lt_trans hbelow hlt) with ⟨outer, houter⟩
        rcases List.mem_cons.1 hp with rfl | hp
        · exact ⟨outer, houter⟩
        · exact ih parent.index hbelow houter hp rfl
      · cases hp
    · cases hp

/-! ## Dead scopes -/

/-- Nobody holds a scope or its service, and the service is not bound in a living scope around. -/
def Abandoned (s : Store) (held : Ref → Bool) (id : ScopeId) : Prop :=
  held (.scope id) = false ∧
    ∀ service, (s.scope? id).bind Scope.owner = some service →
      held (.service service) = false ∧
        ∀ parent rest, s.around id = parent :: rest → s.binds parent service = true →
          s.alive held parent = false

theorem alive_eq_false_iff {s : Store} {held : Ref → Bool} {id : ScopeId} {scope : Scope}
    (hid : s.scope? id = some scope) : s.alive held id = false ↔ s.Abandoned held id := by
  rw [alive, Abandoned, Store.around, hid, Option.bind_some]
  dsimp only
  cases howner : scope.owner with
  | none => simp
  | some service =>
    cases hparent : scope.parent with
    | none => simp [and_comm]
    | some parent =>
      by_cases hbelow : parent.index < id.index
      · cases hbinds : s.binds parent service <;> cases halive : s.alive held parent <;>
          simp [hbelow, hbinds, halive, and_comm]
      · simp [hbelow, and_comm]

/-! ## Losing a symbol -/

theorem mem_of_mem_takeWhile {live : ScopeId → Bool} {inner outer : List ScopeId} {p d : ScopeId}
    (hdead : live p = false) (h : d ∈ (inner ++ p :: outer).takeWhile live) : d ∈ inner := by
  induction inner with
  | nil => simp [hdead] at h
  | cons first rest ih =>
    rw [List.cons_append, List.takeWhile_cons] at h
    split at h
    · rcases List.mem_cons.1 h with rfl | h
      · exact List.mem_cons_self
      · exact List.mem_cons_of_mem _ (ih h)
    · cases h

/-- A symbol that was bound in a scope or around it is lost exactly when some scope around has been
abandoned, and neither the scope itself nor any scope inside of the abandoned one binds the symbol. -/
theorem Grows.lookUp?_eq_none_iff {s t : Store} (h : Grows s t) {held : Ref → Bool} {id : ScopeId}
    {symbol : String} (hbound : ∃ d ∈ id :: s.around id, (s.local? d symbol).isSome) :
    t.lookUp? (t.alive held) id symbol = none ↔
      ∃ inner p outer, s.around id = inner ++ p :: outer ∧ t.Abandoned held p ∧
        ∀ d ∈ id :: inner, t.local? d symbol = none := by
  rcases hbound with ⟨binder, hbinder, hbound⟩
  have hid : ∃ scope, s.scope? id = some scope := by
    cases hs : s.scope? id with
    | some scope => exact ⟨scope, rfl⟩
    | none =>
      rw [Store.around, hs, List.mem_singleton] at hbinder
      rw [hbinder, Store.local?, hs] at hbound
      cases hbound
  rcases hid with ⟨scope, hid⟩
  rcases h.scope id scope hid with ⟨later, hlater, -⟩
  have hdead {p : ScopeId} (hp : p ∈ s.around id) :
      t.alive held p = false ↔ t.Abandoned held p := by
    rw [← h.around hid] at hp
    rcases scope?_of_mem_around hlater hp with ⟨outer, houter⟩
    exact alive_eq_false_iff houter
  rw [lookUp?_eq, h.around hid, List.findSome?_eq_none_iff]
  constructor
  · intro hnone
    -- One of the scopes binds the symbol, so not all of them are asked.
    cases hrest : (s.around id).dropWhile (t.alive held) with
    | nil =>
      have hall : (s.around id).takeWhile (t.alive held) = s.around id := by
        have hwhole := List.takeWhile_append_dropWhile (p := t.alive held) (l := s.around id)
        rw [hrest, List.append_nil] at hwhole
        exact hwhole
      rw [hall] at hnone
      have hlater := h.local? hbound
      rw [hnone binder hbinder] at hlater
      cases hlater
    | cons p outer =>
      have hsplit : s.around id = (s.around id).takeWhile (t.alive held) ++ p :: outer := by
        rw [← hrest, List.takeWhile_append_dropWhile]
      have hmem : p ∈ s.around id := by
        rw [hsplit]
        simp
      refine ⟨_, p, outer, hsplit, (hdead hmem).1 ?_, hnone⟩
      -- Scopes are dropped while they live, so the first one that is left does not.
      have hne : (s.around id).dropWhile (t.alive held) ≠ [] := by simp [hrest]
      have hfirst := List.head_dropWhile_not (t.alive held) hne
      simpa [hrest] using hfirst
  · rintro ⟨inner, p, outer, haround, habandoned, hunbound⟩ d hd
    have hp := (hdead (by simp [haround])).2 habandoned
    rw [haround] at hd
    rcases List.mem_cons.1 hd with rfl | hd
    · exact hunbound d List.mem_cons_self
    · exact hunbound d (List.mem_cons_of_mem _ (mem_of_mem_takeWhile hp hd))

end Store
end Callflow
