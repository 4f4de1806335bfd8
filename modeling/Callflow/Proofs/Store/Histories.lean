import Callflow.Proofs.Store.Directory
import Callflow.Proofs.Store.Resolution
import Callflow.Store.Labelled

/-!
# Histories of scopes

What is done to a table of labelled scopes is a list of changes: scopes are made, on their own or
inside of others, symbols are bound in them, and scopes are lost with their labels (`Step`,
`History`). The list alone tells what the table is (`Records`): which scope is around which, what
each of them binds, and which of them are lost.
-/

namespace Callflow

namespace Store

theorem scope?_newScope (s : Store) (parent : Option ScopeId) (owner : Option ServiceId)
    (id : ScopeId) :
    (s.newScope parent owner).1.scope? id =
      if id.index = s.scopes.size then some ⟨parent, owner, .empty⟩ else s.scope? id :=
  Array.getElem?_push

end Store

namespace LabelledScopes

/-! ## What is done -/

/-- One thing that happens to a scope. -/
inductive Change where
  | made (id : ScopeId) (parent : Option ScopeId)
  | bound (id : ScopeId) (symbol : String) (value : Value)
  | lost (id : ScopeId)

/-- The scope that is made next. -/
def next (t : LabelledScopes) : ScopeId := ⟨t.store.scopes.size⟩

/-- The scope that a label stands for is lost with it. -/
def loses (t : LabelledScopes) (label : String) : List Change := (t.scope? label).toList.map .lost

/-- A service is made with a scope of its own. -/
def makes (t : LabelledScopes) (inside : ScopeId) : Draft → List Change
  | .service _ => [.made t.next (some inside)]
  | _ => []

/-- A symbol is bound to a value that is there already. -/
def share (t : LabelledScopes) (id : ScopeId) (symbol : String) (value : Value) : LabelledScopes :=
  { t with store := t.store.bind id symbol value }

/-- What can be done to a table of scopes, with the changes that it makes, the latest first. -/
inductive Step (t : LabelledScopes) : List Change → LabelledScopes → Prop where
  | root (label : String) : Step t (.made t.next none :: t.loses label) (t.add label none)
  | child (label : String) {outer : String} {parent : ScopeId} :
      t.scope? outer = some parent →
        Step t (.made t.next (some parent) :: t.loses label) (t.add label (some parent))
  | define {label : String} {id : ScopeId} (symbol : String) (draft : Draft) :
      t.scope? label = some id →
        Step t (.bound id symbol (t.define id symbol draft).2 :: t.makes id draft)
          (t.define id symbol draft).1
  | share {label : String} {id : ScopeId} (symbol : String) (value : Value) :
      t.scope? label = some id → Step t [.bound id symbol value] (t.share id symbol value)
  | drop (label : String) : Step t (t.loses label) (t.drop label)

/-- What has been done since there was no scope, the latest first, and the table it has led to. -/
inductive History : List Change → LabelledScopes → Prop where
  | empty : History [] .empty
  | step {past changes : List Change} {t u : LabelledScopes} :
      History past t → Step t changes u → History (changes ++ past) u

/-! ## What it tells -/

/-- The scope inside of which a scope has been made. -/
def parent? (past : List Change) (id : ScopeId) : Option ScopeId :=
  past.findSome? fun
    | .made other parent => if other = id then parent else none
    | _ => none

/-- The value to which a symbol was bound last in a scope. -/
def bound? (past : List Change) (id : ScopeId) (symbol : String) : Option Value :=
  past.findSome? fun
    | .bound other name value => if other = id ∧ name = symbol then some value else none
    | _ => none

variable {past changes : List Change} {t u : LabelledScopes}

theorem parent?_append (past changes : List Change) (id : ScopeId) :
    parent? (changes ++ past) id = (parent? changes id).or (parent? past id) :=
  List.findSome?_append

theorem bound?_append (past changes : List Change) (id : ScopeId) (symbol : String) :
    bound? (changes ++ past) id symbol = (bound? changes id symbol).or (bound? past id symbol) :=
  List.findSome?_append

theorem bound?_bound (past : List Change) (id other : ScopeId) (symbol name : String)
    (value : Value) : bound? (.bound id symbol value :: past) other name =
      if id = other ∧ symbol = name then some value else bound? past other name := by
  by_cases h : id = other ∧ symbol = name <;> simp [bound?, h]

theorem parent?_loses (t : LabelledScopes) (label : String) (id : ScopeId) :
    parent? (t.loses label) id = none := by
  unfold loses
  cases t.scope? label <;> rfl

theorem bound?_loses (t : LabelledScopes) (label : String) (id : ScopeId) (symbol : String) :
    bound? (t.loses label) id symbol = none := by
  unfold loses
  cases t.scope? label <;> rfl

theorem lost_mem_loses {t : LabelledScopes} {label : String} {id : ScopeId} :
    .lost id ∈ t.loses label ↔ t.scope? label = some id := by
  unfold loses
  cases t.scope? label with
  | none => simp
  | some other => simp [eq_comm]

/-! ## Labels -/

theorem scope?_add (t : LabelledScopes) (label other : String) (parent : Option ScopeId) :
    (t.add label parent).scope? other = if label = other then some t.next else t.scope? other :=
  Directory.find?_insert _ _ _ _

theorem scope?_drop (t : LabelledScopes) (label other : String) :
    (t.drop label).scope? other = if label = other then none else t.scope? other :=
  Directory.find?_erase _ _ _

theorem holds_scope_iff (hsorted : t.labels.Sorted) {id : ScopeId} :
    t.holds (.scope id) = true ↔ ∃ label, t.scope? label = some id := by
  rw [holds, List.any_eq_true]
  constructor
  · rintro ⟨other, hmem, hsame⟩
    rw [← of_decide_eq_true hsame]
    exact hsorted.mem_values_iff.1 hmem
  · intro h
    exact ⟨id, hsorted.mem_values_iff.2 h, decide_eq_true rfl⟩

/-! ## Stores and their pasts -/

/-- A store is what its past says. Every scope is made after the one around it, which is the scope of
no service. -/
structure Tells (past : List Change) (s : Store) : Prop where
  parent : ∀ id, (s.scope? id).bind Scope.parent = parent? past id
  found : ∀ id symbol, s.local? id symbol = bound? past id symbol
  outer : ∀ id outer, parent? past id = some outer →
    outer.index < id.index ∧ (s.scope? outer).bind Scope.owner = none

namespace Tells

variable {s : Store}

theorem lt_of_parent? (h : Tells past s) {id outer : ScopeId} (hparent : parent? past id = some outer) :
    id.index < s.scopes.size := by
  rw [← h.parent] at hparent
  rcases Option.bind_eq_some_iff.1 hparent with ⟨scope, hscope, -⟩
  exact (Array.getElem?_eq_some_iff.1 hscope).1

/-- Of a store, only the scopes matter. -/
theorem of_scopes (h : Tells past s) {s' : Store} (hscopes : s'.scopes = s.scopes) :
    Tells past s' := by
  have hscope (id : ScopeId) : s'.scope? id = s.scope? id := congrArg (·[id.index]?) hscopes
  refine ⟨fun id => ?_, fun id symbol => ?_, fun id outer hid => ?_⟩
  · rw [hscope]
    exact h.parent id
  · rw [Store.local?, hscope]
    exact h.found id symbol
  · rw [hscope]
    exact h.outer id outer hid

/-- Losing a scope leaves the store alone. -/
theorem loses (h : Tells past s) (t : LabelledScopes) (label : String) :
    Tells (t.loses label ++ past) s := by
  have hparent (id : ScopeId) : parent? (t.loses label ++ past) id = parent? past id := by
    rw [parent?_append, parent?_loses, Option.none_or]
  refine ⟨fun id => ?_, fun id symbol => ?_, fun id outer => ?_⟩
  · rw [hparent]
    exact h.parent id
  · rw [bound?_append, bound?_loses, Option.none_or]
    exact h.found id symbol
  · rw [hparent]
    exact h.outer id outer

theorem newScope (h : Tells past s) {parent : Option ScopeId} (owner : Option ServiceId)
    (houter : ∀ outer, parent = some outer →
      outer.index < s.scopes.size ∧ (s.scope? outer).bind Scope.owner = none) :
    Tells (.made ⟨s.scopes.size⟩ parent :: past) (s.newScope parent owner).1 := by
  have hnew : s.scope? ⟨s.scopes.size⟩ = none := Array.getElem?_eq_none le_rfl
  have hfresh : parent? past ⟨s.scopes.size⟩ = none := by
    rw [← h.parent, hnew]
    rfl
  have hmade (id : ScopeId) : parent? (.made ⟨s.scopes.size⟩ parent :: past) id =
      if id.index = s.scopes.size then parent else parent? past id := by
    rcases id with ⟨index⟩
    by_cases hsame : index = s.scopes.size
    · subst hsame
      cases parent <;> simp [parent?] at hfresh ⊢
      exact hfresh
    · simp [parent?, hsame, Ne.symm hsame]
  refine ⟨fun id => ?_, fun id symbol => ?_, fun id outer hid => ?_⟩
  · rw [hmade, Store.scope?_newScope]
    split
    · rfl
    · exact h.parent id
  · have hbound : bound? (.made ⟨s.scopes.size⟩ parent :: past) id symbol = s.local? id symbol :=
      (h.found id symbol).symm
    rw [hbound, Store.local?, Store.local?, Store.scope?_newScope]
    rcases id with ⟨index⟩
    split
    · rename_i hsame
      subst hsame
      rw [hnew]
      rfl
    · rfl
  · have hbelow : outer.index < id.index ∧ outer.index < s.scopes.size ∧
        (s.scope? outer).bind Scope.owner = none := by
      rw [hmade] at hid
      split at hid
      · rename_i hsame
        rw [hsame]
        exact ⟨(houter outer hid).1, houter outer hid⟩
      · have hlt := h.outer id outer hid
        exact ⟨hlt.1, hlt.1.trans (h.lt_of_parent? hid), hlt.2⟩
    rw [Store.scope?_newScope, if_neg hbelow.2.1.ne]
    exact ⟨hbelow.1, hbelow.2.2⟩

theorem bind (h : Tells past s) {id : ScopeId} (hid : id.index < s.scopes.size) (symbol : String)
    (value : Value) : Tells (.bound id symbol value :: past) (s.bind id symbol value) := by
  have hsame {β : Type} (part : Scope → Option β)
      (hpart : ∀ scope bindings, part { scope with bindings := bindings } = part scope)
      (other : ScopeId) :
      ((s.bind id symbol value).scope? other).bind part = (s.scope? other).bind part := by
    rw [Store.scope?_bind]
    cases s.scope? other with
    | none => rfl
    | some scope =>
      show part (if id = other then _ else scope) = part scope
      split
      · exact hpart scope _
      · rfl
  refine ⟨fun other => ?_, fun other name => ?_, fun other outer hother => ?_⟩
  · rw [hsame Scope.parent fun _ _ => rfl]
    exact h.parent other
  · rw [bound?_bound, ← h.found, Store.local?, Store.local?, Store.scope?_bind]
    by_cases hasked : id = other
    · subst hasked
      rcases Store.scope?_isSome_of_lt hid with ⟨scope, hscope⟩
      rw [hscope]
      simp only [Option.map_some, Option.bind_some, if_true, true_and, Directory.find?_insert]
    · simp [hasked]
  · rw [hsame Scope.owner fun _ _ => rfl]
    exact h.outer other outer hother

end Tells

/-! ## Tables and their pasts -/

/-- A table of scopes is what its past says: its labels stand for different scopes, for all that are
not lost, apart from those of services. -/
structure Records (past : List Change) (t : LabelledScopes) : Prop where
  store : Tells past t.store
  sorted : t.labels.Sorted
  labelled : ∀ label id, t.scope? label = some id → id.index < t.store.scopes.size ∧
    (t.store.scope? id).bind Scope.owner = none ∧ .lost id ∉ past
  single : ∀ label other id, t.scope? label = some id → t.scope? other = some id → label = other
  kept : ∀ id scope, t.store.scope? id = some scope → scope.owner = none → .lost id ∉ past →
    ∃ label, t.scope? label = some id
  lost : ∀ id, .lost id ∈ past → id.index < t.store.scopes.size

theorem records_empty : Records [] .empty where
  store := ⟨fun _ => rfl, fun _ _ => rfl, fun _ _ h => nomatch h⟩
  sorted := List.Pairwise.nil
  labelled := fun _ _ h => nomatch h
  single := fun _ _ _ h => nomatch h
  kept := fun _ _ h => nomatch h
  lost := fun _ h => nomatch h

namespace Records

/-- A new scope under a label. -/
theorem add (h : Records past t) (label : String) {parent : Option ScopeId}
    (houter : ∀ outer, parent = some outer → ∃ other, t.scope? other = some outer) :
    Records (.made t.next parent :: t.loses label ++ past) (t.add label parent) := by
  have hsize : (t.add label parent).store.scopes.size = t.store.scopes.size + 1 :=
    Array.size_push _
  have hscope (id : ScopeId) : (t.add label parent).store.scope? id = _ :=
    t.store.scope?_newScope parent none id
  have hlost (id : ScopeId) : .lost id ∈ (.made t.next parent :: t.loses label ++ past : List Change) ↔
      t.scope? label = some id ∨ .lost id ∈ past := by
    simp [lost_mem_loses]
  have hnext : ¬ (.lost t.next ∈ (.made t.next parent :: t.loses label ++ past : List Change)) := by
    rw [hlost]
    rintro (hlabel | hgone)
    · exact lt_irrefl _ (h.labelled _ _ hlabel).1
    · exact lt_irrefl _ (h.lost _ hgone)
  have hhere : (t.add label parent).store.scope? t.next = some ⟨parent, none, .empty⟩ :=
    (hscope t.next).trans (if_pos rfl)
  refine ⟨(h.store.loses t label).newScope none ?_, h.sorted.insert label _, ?_, ?_, ?_, ?_⟩
  · intro outer hparent
    rcases houter outer hparent with ⟨other, hother⟩
    exact ⟨(h.labelled other outer hother).1, (h.labelled other outer hother).2.1⟩
  · intro other id hother
    rw [scope?_add] at hother
    rw [hsize]
    split at hother
    · cases hother
      rw [hhere]
      exact ⟨Nat.lt_succ_self _, rfl, hnext⟩
    · rename_i hdiffers
      rcases h.labelled other id hother with ⟨hlt, howner, hheld⟩
      rw [hscope, if_neg hlt.ne, hlost, not_or]
      exact ⟨hlt.trans (Nat.lt_succ_self _), howner,
        fun hlabel => hdiffers (h.single _ _ _ hlabel hother), hheld⟩
  · intro first second id hfirst hsecond
    rw [scope?_add] at hfirst hsecond
    split at hfirst <;> split at hsecond <;> rename_i hf hs
    · rw [← hf, hs]
    · cases hfirst
      exact absurd (h.labelled _ _ hsecond).1 (lt_irrefl _)
    · cases hsecond
      exact absurd (h.labelled _ _ hfirst).1 (lt_irrefl _)
    · exact h.single _ _ _ hfirst hsecond
  · intro id scope hid howner hkept
    rw [hscope] at hid
    rw [hlost, not_or] at hkept
    split at hid
    · rename_i hsame
      refine ⟨label, ?_⟩
      rw [scope?_add, if_pos rfl, next, ← hsame]
    · rcases h.kept id scope hid howner hkept.2 with ⟨other, hother⟩
      refine ⟨other, ?_⟩
      rw [scope?_add, if_neg, hother]
      rintro rfl
      exact hkept.1 hother
  · intro id hgone
    rw [hsize]
    rcases (hlost id).1 hgone with hlabel | hgone
    · exact (h.labelled _ _ hlabel).1.trans (Nat.lt_succ_self _)
    · exact (h.lost _ hgone).trans (Nat.lt_succ_self _)

theorem drop (h : Records past t) (label : String) :
    Records (t.loses label ++ past) (t.drop label) := by
  have hlost (id : ScopeId) : .lost id ∈ t.loses label ++ past ↔
      t.scope? label = some id ∨ .lost id ∈ past := by
    rw [List.mem_append, lost_mem_loses]
  refine ⟨h.store.loses t label, h.sorted.erase label, ?_, ?_, ?_, ?_⟩
  · intro other id hother
    rw [scope?_drop] at hother
    split at hother
    · cases hother
    · rename_i hdiffers
      rcases h.labelled other id hother with ⟨hlt, howner, hheld⟩
      refine ⟨hlt, howner, ?_⟩
      rw [hlost, not_or]
      exact ⟨fun hlabel => hdiffers (h.single _ _ _ hlabel hother), hheld⟩
  · intro first second id hfirst hsecond
    rw [scope?_drop] at hfirst hsecond
    split at hfirst <;> split at hsecond
    · cases hfirst
    · cases hfirst
    · cases hsecond
    · exact h.single _ _ _ hfirst hsecond
  · intro id scope hid howner hkept
    rw [hlost, not_or] at hkept
    rcases h.kept id scope hid howner hkept.2 with ⟨other, hother⟩
    refine ⟨other, ?_⟩
    rw [scope?_drop, if_neg, hother]
    rintro rfl
    exact hkept.1 hother
  · intro id hgone
    rcases (hlost id).1 hgone with hlabel | hgone
    · exact (h.labelled _ _ hlabel).1
    · exact h.lost _ hgone

/-- Making a value gives no scope a label, and takes none away. -/
theorem make (h : Records past t) {label : String} {inside : ScopeId}
    (hinside : t.scope? label = some inside) (draft : Draft) :
    Records (t.makes inside draft ++ past) { t with store := (t.store.make inside draft).1 } := by
  cases draft with
  | service name =>
    have hscope (id : ScopeId) : (t.store.make inside (.service name)).1.scope? id = _ :=
      t.store.scope?_newScope (some inside) (some ⟨t.store.services.size⟩) id
    have hsize : (t.store.make inside (.service name)).1.scopes.size = t.store.scopes.size + 1 :=
      Array.size_push _
    have hlost (id : ScopeId) :
        .lost id ∈ t.makes inside (.service name) ++ past ↔ .lost id ∈ past := by
      simp [makes]
    have hstore : Tells (.made t.next (some inside) :: past)
        (t.store.newScope (some inside) (some ⟨t.store.services.size⟩)).1 := by
      refine h.store.newScope _ ?_
      intro outer houter
      cases houter
      exact ⟨(h.labelled _ _ hinside).1, (h.labelled _ _ hinside).2.1⟩
    refine ⟨hstore.of_scopes rfl, h.sorted, ?_, h.single, ?_, ?_⟩
    · intro other id hother
      rcases h.labelled other id hother with ⟨hlt, howner, hheld⟩
      rw [hlost, hsize, hscope, if_neg hlt.ne]
      exact ⟨hlt.trans (Nat.lt_succ_self _), howner, hheld⟩
    · intro id scope hid howner hkept
      rw [hlost] at hkept
      rw [hscope] at hid
      split at hid
      · cases hid
        cases howner
      · exact h.kept id scope hid howner hkept
    · intro id hgone
      rw [hlost] at hgone
      rw [hsize]
      exact (h.lost id hgone).trans (Nat.lt_succ_self _)
  | _ => exact ⟨h.store.of_scopes rfl, h.sorted, h.labelled, h.single, h.kept, h.lost⟩

theorem share (h : Records past t) {label : String} {id : ScopeId}
    (hid : t.scope? label = some id) (symbol : String) (value : Value) :
    Records (.bound id symbol value :: past) (t.share id symbol value) := by
  have hsize : (t.share id symbol value).store.scopes.size = t.store.scopes.size :=
    Array.size_modify
  have howner (other : ScopeId) : ((t.share id symbol value).store.scope? other).bind Scope.owner =
      (t.store.scope? other).bind Scope.owner := by
    show ((t.store.bind id symbol value).scope? other).bind _ = _
    rw [Store.scope?_bind]
    cases t.store.scope? other with
    | none => rfl
    | some scope =>
      show Scope.owner (if id = other then _ else scope) = scope.owner
      split <;> rfl
  have hlost (other : ScopeId) :
      .lost other ∈ (.bound id symbol value :: past : List Change) ↔ .lost other ∈ past := by
    simp
  refine ⟨h.store.bind (h.labelled _ _ hid).1 symbol value, h.sorted, ?_, h.single, ?_, ?_⟩
  · intro other target hother
    rw [hsize, howner, hlost]
    exact h.labelled other target hother
  · intro other scope hother hfree hkept
    rw [hlost] at hkept
    have hbefore : ∃ before, t.store.scope? other = some before :=
      Store.scope?_isSome_of_lt (hsize ▸ (Array.getElem?_eq_some_iff.1 hother).1)
    rcases hbefore with ⟨before, hbefore⟩
    refine h.kept other before hbefore ?_ hkept
    have hsame := howner other
    rw [hother, hbefore] at hsame
    exact hsame.symm.trans hfree
  · intro other hgone
    rw [hsize]
    exact h.lost other ((hlost other).1 hgone)

theorem step (h : Records past t) (hstep : Step t changes u) : Records (changes ++ past) u := by
  cases hstep with
  | root label => exact h.add label fun _ hnone => nomatch hnone
  | @child label outer parent hparent =>
    refine h.add label ?_
    rintro _ ⟨⟩
    exact ⟨outer, hparent⟩
  | @define label id symbol draft hid =>
    have hmade := h.make hid draft
    have hstill : LabelledScopes.scope? ⟨(t.store.make id draft).1, t.labels⟩ label = some id := hid
    exact hmade.share hstill symbol (t.store.make id draft).2
  | share symbol value hid => exact h.share hid symbol value
  | drop label => exact h.drop label

end Records

theorem History.records (h : History past t) : Records past t := by
  induction h with
  | empty => exact records_empty
  | step _ hstep ih => exact ih.step hstep

end LabelledScopes
end Callflow
