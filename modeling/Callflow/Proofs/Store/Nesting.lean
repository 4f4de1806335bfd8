import Callflow.Proofs.Store.Resolution

/-!
# Definitions inside of a scope

The scope of a service is nested in the scope in which the service is defined, and so on outwards up
to a scope of no service (`Store.Nested`). Where only nested scopes and the services made with them
are changed (`Store.Confines`), no look-up from anywhere else finds anything different.
-/

namespace Callflow
namespace Store

/-! ## Around a scope -/

/-- Either nothing is around a scope, or its parent is, and what is around this one. -/
theorem around_cases (s : Store) (id : ScopeId) :
    s.around id = [] ∨ ∃ scope parent, s.scope? id = some scope ∧ scope.parent = some parent ∧
      parent.index < id.index ∧ s.around id = parent :: s.around parent := by
  rw [around]
  cases hscope : s.scope? id with
  | none => exact Or.inl rfl
  | some scope =>
    dsimp only
    cases hparent : scope.parent with
    | none => exact Or.inl rfl
    | some parent =>
      dsimp only
      by_cases hbelow : parent.index < id.index
      · rw [if_pos hbelow]
        exact Or.inr ⟨scope, parent, rfl, hparent, hbelow, rfl⟩
      · rw [if_neg hbelow]
        exact Or.inl rfl

theorem around_parent {s : Store} {id parent : ScopeId} {scope : Scope}
    (hscope : s.scope? id = some scope) (hparent : scope.parent = some parent)
    (hbelow : parent.index < id.index) : s.around id = parent :: s.around parent := by
  rw [around, hscope]
  dsimp only
  rw [hparent]
  dsimp only
  rw [if_pos hbelow]

/-! ## Nested scopes -/

/-- A scope is another one, or has been made inside of it by definitions of services alone. -/
inductive Nested (s : Store) (outer : ScopeId) : ScopeId → Prop where
  | here : Nested s outer outer
  | service {id parent : ScopeId} {scope : Scope} {owner : ServiceId} :
      s.scope? id = some scope → scope.owner = some owner → scope.parent = some parent →
        parent.index < id.index → Nested s outer parent → Nested s outer id

namespace Nested

variable {s t : Store} {outer id : ScopeId}

theorem grows (h : s.Nested outer id) (hgrows : s.Grows t) : t.Nested outer id := by
  induction h with
  | here => exact .here
  | service hscope howner hparent hbelow _ ih =>
    rcases hgrows.scope _ _ hscope with ⟨later, hlater, hextends⟩
    exact .service hlater (hextends.owner.trans howner) (hextends.parent.trans hparent) hbelow ih

theorem le (h : s.Nested outer id) : outer.index ≤ id.index := by
  induction h with
  | here => exact le_rfl
  | service _ _ _ hbelow _ ih => exact ih.trans hbelow.le

/-- A scope of no service is nested in itself only. -/
theorem eq_of_unowned (h : s.Nested outer id) {scope : Scope} (hscope : s.scope? id = some scope)
    (howner : scope.owner = none) : id = outer := by
  cases h with
  | here => rfl
  | service hfound hservice _ _ _ =>
    cases hscope.symm.trans hfound
    cases howner.symm.trans hservice

/-- A nested scope has the other one around it. -/
theorem mem (h : s.Nested outer id) : outer ∈ id :: s.around id := by
  induction h with
  | here => exact List.mem_cons_self
  | service hscope _ hparent hbelow _ ih =>
    rw [around_parent hscope hparent hbelow]
    exact List.mem_cons_of_mem _ ih

end Nested

/-! ## Look-ups -/

/-- What is around a scope that is around another one is around this one, too. -/
theorem mem_around_trans {s : Store} {a b c : ScopeId} (hab : a ∈ b :: s.around b)
    (hbc : b ∈ c :: s.around c) : a ∈ c :: s.around c := by
  induction hn : c.index using Nat.strong_induction_on generalizing c with
  | _ n ih =>
    subst hn
    rcases List.mem_cons.1 hbc with rfl | hmem
    · exact hab
    · rcases s.around_cases c with hnone | ⟨scope, parent, -, -, hbelow, haround⟩
      · rw [hnone] at hmem
        cases hmem
      · rw [haround] at hmem ⊢
        exact List.mem_cons_of_mem _ (ih parent.index hbelow hmem rfl)

section

variable {s t : Store} {id : ScopeId}

/-- Whether a scope lives is told by the scope itself and by those around it. -/
theorem alive_congr (held : Ref → Bool) (h : ∀ d ∈ id :: s.around id, t.scope? d = s.scope? d) :
    t.alive held id = s.alive held id := by
  induction hn : id.index using Nat.strong_induction_on generalizing id with
  | _ n ih =>
    subst hn
    have hhere := h id List.mem_cons_self
    rw [alive, alive.eq_def s, hhere]
    cases hscope : s.scope? id with
    | none => rfl
    | some scope =>
      dsimp only
      cases scope.owner with
      | none => rfl
      | some service =>
        cases hparent : scope.parent with
        | none => rfl
        | some parent =>
          dsimp only
          by_cases hbelow : parent.index < id.index
          · rw [around_parent hscope hparent hbelow] at h
            have houter : ∀ d ∈ parent :: s.around parent, t.scope? d = s.scope? d :=
              fun d hd => h d (List.mem_cons_of_mem _ hd)
            rw [if_pos hbelow, if_pos hbelow, binds, binds, houter parent List.mem_cons_self,
              ih parent.index hbelow houter rfl]
          · rw [if_neg hbelow, if_neg hbelow]

/-- A look-up is told by the scope that asks and by those around it. -/
theorem lookUp?_congr (held : Ref → Bool) (symbol : String)
    (h : ∀ d ∈ id :: s.around id, t.scope? d = s.scope? d) :
    t.lookUp? (t.alive held) id symbol = s.lookUp? (s.alive held) id symbol := by
  induction hn : id.index using Nat.strong_induction_on generalizing id with
  | _ n ih =>
    subst hn
    have hhere := h id List.mem_cons_self
    rw [lookUp?, lookUp?.eq_def s, hhere]
    cases hscope : s.scope? id with
    | none => rfl
    | some scope =>
      dsimp only
      cases scope.bindings.find? symbol with
      | some value => rfl
      | none =>
        cases hparent : scope.parent with
        | none => rfl
        | some parent =>
          dsimp only
          by_cases hbelow : parent.index < id.index
          · rw [around_parent hscope hparent hbelow] at h
            have houter : ∀ d ∈ parent :: s.around parent, t.scope? d = s.scope? d :=
              fun d hd => h d (List.mem_cons_of_mem _ hd)
            rw [if_pos hbelow, if_pos hbelow, alive_congr held houter,
              ih parent.index hbelow houter rfl]
          · rw [if_neg hbelow, if_neg hbelow]

end

theorem lt_of_mem_around {s : Store} {id d : ScopeId} (h : d ∈ s.around id) :
    d.index < id.index := by
  induction hn : id.index using Nat.strong_induction_on generalizing id with
  | _ n ih =>
    subst hn
    rcases s.around_cases id with hnone | ⟨scope, parent, -, -, hbelow, haround⟩
    · rw [hnone] at h
      cases h
    · rw [haround] at h
      rcases List.mem_cons.1 h with rfl | h
      · exact hbelow
      · exact (ih parent.index hbelow h rfl).trans hbelow

/-! ## Scopes of services -/

/-- The scope of every service is there. -/
def Sited (s : Store) : Prop :=
  ∀ id service, s.service? id = some service → service.scope.index < s.scopes.size

theorem Move.sited {s t : Store} (h : Move s t) (hs : s.Sited) : t.Sited := by
  intro id service hservice
  cases h with
  | scope parent owner =>
    have hlt := hs id service hservice
    simp only [newScope, Array.size_push]
    omega
  | service name parent =>
    have hsize : (s.newService name parent).1.scopes.size = s.scopes.size + 1 := Array.size_push _
    have hpush : (s.services.push ⟨name, ⟨s.scopes.size⟩, .empty⟩)[id.index]? = some service :=
      hservice
    rw [hsize]
    rw [Array.getElem?_push] at hpush
    split at hpush
    · cases hpush
      exact Nat.lt_succ_self _
    · exact (hs id service hpush).trans (Nat.lt_succ_self _)
  | bind other symbol value =>
    have hsize : (s.bind other symbol value).scopes.size = s.scopes.size := Array.size_modify
    rw [hsize]
    exact hs id service hservice
  | register other op =>
    have hmodify : (s.services.modify other.index fun service =>
        { service with operations := service.operations.insert op.name op })[id.index]? =
          some service := hservice
    rw [Array.getElem?_modify] at hmodify
    split at hmodify
    · rcases Option.map_eq_some_iff.1 hmodify with ⟨old, hold, rfl⟩
      exact hs id old hold
    · exact hs id service hmodify
  | client name period body => exact hs id service hservice
  | endpoint name transit => exact hs id service hservice
  | count other change => exact hs id service hservice

/-! ## Changes inside of a scope -/

/-- From one store to another, only a scope and what is nested in it have changed, and services that
come after the first ones. -/
structure Confines (outer : ScopeId) (services : Nat) (s t : Store) : Prop where
  grows : s.Grows t
  scopes : ∀ id, t.scope? id = s.scope? id ∨ t.Nested outer id
  services : ∀ id : ServiceId, id.index < services → t.service? id = s.service? id

namespace Confines

variable {outer : ScopeId} {services : Nat} {s t u : Store}

theorem refl (outer : ScopeId) (services : Nat) (s : Store) : Confines outer services s s where
  grows := .refl s
  scopes := fun _ => Or.inl rfl
  services := fun _ _ => rfl

theorem trans (h : Confines outer services s t) (k : Confines outer services t u) :
    Confines outer services s u where
  grows := h.grows.trans k.grows
  scopes := by
    intro id
    rcases k.scopes id with hsame | hnested
    · rcases h.scopes id with hold | hnested
      · exact Or.inl (hsame.trans hold)
      · exact Or.inr (hnested.grows k.grows)
    · exact Or.inr hnested
  services := fun id hid => (k.services id hid).trans (h.services id hid)

/-- Scopes that were there before are as they were. -/
theorem before (h : Confines outer services s t) {id : ScopeId} (hid : id.index < outer.index) :
    t.scope? id = s.scope? id := by
  rcases h.scopes id with hsame | hnested
  · exact hsame
  · exact absurd hnested.le hid.not_ge

/-- Any other scope of no service is as it was. -/
theorem unowned (h : Confines outer services s t) {id : ScopeId} (hid : id ≠ outer) {scope : Scope}
    (hscope : t.scope? id = some scope) (howner : scope.owner = none) :
    t.scope? id = s.scope? id := by
  rcases h.scopes id with hsame | hnested
  · exact hsame
  · exact absurd (hnested.eq_of_unowned hscope howner) hid

/-- Look-ups from anywhere else find what they found. -/
theorem lookUp? (h : Confines outer services s t) {id : ScopeId} (hid : outer ∉ id :: t.around id)
    (held : Ref → Bool) (symbol : String) :
    t.lookUp? (t.alive held) id symbol = s.lookUp? (s.alive held) id symbol := by
  refine (lookUp?_congr held symbol ?_).symm
  intro d hd
  rcases h.scopes d with hsame | hnested
  · exact hsame.symm
  · exact absurd (mem_around_trans hnested.mem hd) hid

end Confines
end Store
end Callflow
