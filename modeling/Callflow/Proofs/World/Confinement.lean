import Callflow.Proofs.Store.Nesting
import Callflow.Proofs.World.Placement

/-!
# Definitions stay inside of their evaluation

Whatever is evaluated in its place defines symbols only in the scope of its evaluation, or in scopes
nested in this one, and operations only on services that have been made there
(`Part.Placed.confines`). So does a chain of such definitions (`Chain.confines`).
-/

namespace Callflow

namespace Store

theorem Grows.services_le {s t : Store} (h : s.Grows t) : s.services.size ≤ t.services.size := by
  by_contra hless
  have hlast : t.services.size < s.services.size := by omega
  rcases h.service ⟨t.services.size⟩ _ (Array.getElem?_eq_getElem hlast) with ⟨service, hservice, -⟩
  rw [service?, Array.getElem?_eq_none le_rfl] at hservice
  cases hservice

namespace Confines

variable {outer : ScopeId} {services : Nat} {s : Store}

theorem newScope (s : Store) (parent : Option ScopeId) (owner : Option ServiceId) :
    Confines ⟨s.scopes.size⟩ services s (s.newScope parent owner).1 where
  grows := (Move.scope parent owner).grows
  scopes := by
    rintro ⟨id⟩
    by_cases hnew : id = s.scopes.size
    · subst hnew
      exact Or.inr .here
    · refine Or.inl ?_
      show (s.scopes.push _)[id]? = s.scopes[id]?
      rw [Array.getElem?_push, if_neg hnew]
  services := fun _ _ => rfl

theorem newService {parent : ScopeId} (hnested : s.Nested outer parent)
    (hthere : parent.index < s.scopes.size) (hservices : services ≤ s.services.size)
    (name : String) : Confines outer services s (s.newService name (some parent)).1 where
  grows := (Move.service name (some parent)).grows
  scopes := by
    rintro ⟨id⟩
    by_cases hnew : id = s.scopes.size
    · subst hnew
      exact Or.inr (.service Array.getElem?_push_size rfl rfl hthere
        (hnested.grows (Move.service name (some parent)).grows))
    · refine Or.inl ?_
      show (s.scopes.push _)[id]? = s.scopes[id]?
      rw [Array.getElem?_push, if_neg hnew]
  services := by
    intro id hid
    show (s.services.push _)[id.index]? = s.services[id.index]?
    rw [Array.getElem?_push, if_neg (by omega)]

theorem newClient (name : String) (period : Time) (body : Activity) :
    Confines outer services s (s.newClient name period body).1 where
  grows := (Move.client name period body).grows
  scopes := fun _ => Or.inl rfl
  services := fun _ _ => rfl

theorem bind {id : ScopeId} (hnested : s.Nested outer id) (symbol : String) (value : Value) :
    Confines outer services s (s.bind id symbol value) where
  grows := (Move.bind id symbol value).grows
  scopes := by
    rintro ⟨other⟩
    by_cases hsame : id.index = other
    · subst hsame
      exact Or.inr (hnested.grows (Move.bind id symbol value).grows)
    · refine Or.inl ?_
      show (s.scopes.modify id.index _)[other]? = s.scopes[other]?
      rw [Array.getElem?_modify, if_neg hsame]
  services := fun _ _ => rfl

theorem register {id : ServiceId} (hid : services ≤ id.index) (op : Operation) :
    Confines outer services s (s.register id op) where
  grows := (Move.register id op).grows
  scopes := fun _ => Or.inl rfl
  services := by
    intro other hother
    show (s.services.modify id.index _)[other.index]? = s.services[other.index]?
    rw [Array.getElem?_modify, if_neg (by omega)]

end Confines
end Store

open Store (Confines)

variable {σ : Type}

/-- The frame of what stands in an evaluation has a scope that is nested in the one of this. -/
theorem Opening.Stands.nested {o : Opening σ} {log : Part σ → Prop} {around : List (Part σ)}
    {k : Continuation σ} (h : o.Stands log around k) {s : Store} (hbuilt : o.Built s around) :
    s.Nested o.scope (o.frame around).scope := by
  induction h with
  | base _ _ => exact .here
  | steps _ _ _ ih => exact ih hbuilt
  | @service around p name body id next _ _ _ _ hframe _ _ ih =>
    have hfounded := hbuilt.founded p List.mem_cons_self
    rcases hfounded.scope with ⟨scope, hscope, howner, hparent⟩
    have houter : s.Nested o.scope p.frame.scope := by
      rw [hframe]
      exact ih hbuilt.tail
    exact .service hscope howner hparent hfounded.below houter
  | ignore _ ih => exact ih hbuilt
  | retry _ _ _ ih => exact ih hbuilt

variable {o : Opening σ} {log : Part σ → Prop} {services : Nat}

/-- What a part defines by itself stays inside of the scope of its evaluation. -/
theorem Part.Placed.confines {p : Part σ} {around : List (Part σ)} (h : p.Placed o log around)
    (hlog : ∀ q, log q → services ≤ q.service.index)
    (hservices : services ≤ p.world.store.services.size) :
    Confines o.scope services p.world.store p.effect := by
  have hnested : p.world.store.Nested o.scope p.frame.scope := by
    rw [h.frame]
    exact h.next.nested h.built
  have hthere : p.frame.scope.index < p.world.store.scopes.size := by
    rcases h.built.frame with ⟨scope, hscope⟩
    rw [h.frame]
    exact (Array.getElem?_eq_some_iff.1 hscope).1
  have hframe := h.frame
  have hnext := h.next
  rcases p with ⟨w, inUse, activity, frame, next⟩
  cases activity with
  | defineService name body =>
    exact (Confines.newService hnested hthere hservices name).trans
      (.bind (hnested.grows (Store.Move.service name _).grows) name _)
  | defineOperation name body =>
    cases around with
    | nil =>
      have heffect : Part.effect ⟨w, inUse, .defineOperation name body, frame, next⟩ = w.store := by
        simp only [Part.effect]
        rw [show frame = _ from hframe]
        rfl
      rw [heffect]
      exact .refl _ _ _
    | cons q outer =>
      have heffect : Part.effect ⟨w, inUse, .defineOperation name body, frame, next⟩ =
          w.store.register q.service ⟨name, w.store.targetName (.service q.service), body⟩ := by
        simp only [Part.effect]
        rw [show frame = _ from hframe]
        rfl
      rw [heffect]
      exact .register (hlog q hnext.innermost.1) _
  | defineClient name period body =>
    simp only [Part.effect]
    split
    · exact (Confines.newClient name period body).trans
        (.bind (hnested.grows (Store.Move.client name period body).grows) name _)
    · exact .refl _ _ _
  | _ => exact .refl _ _ _

/-- So does what some parts define one after another. -/
theorem Chain.confines {s t : Store} {ps : List (Part σ)} (h : Chain s ps t)
    (hplaced : ∀ p ∈ ps, ∃ around, p.Placed o log around)
    (hlog : ∀ q, log q → services ≤ q.service.index) (hservices : services ≤ s.services.size) :
    Confines o.scope services s t := by
  induction h with
  | nil => exact .refl _ _ _
  | @cons p rest t _ ih =>
    rcases hplaced p List.mem_cons_self with ⟨around, hp⟩
    have hfirst := hp.confines hlog hservices
    exact hfirst.trans (ih (fun q hq => hplaced q (List.mem_cons_of_mem _ hq))
      (hservices.trans hfirst.grows.services_le))

end Callflow
