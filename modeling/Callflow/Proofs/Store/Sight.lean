import Callflow.Proofs.Store.Histories
import Callflow.Proofs.Store.Nesting
import Mathlib.Logic.Relation

/-!
# What is in sight of a scope

What has been done to scopes alone tells what every look-up finds: the value bound last in the first
scope that binds the symbol, among those that the look-up asks (`Asks`), which are the scope itself
and the scopes around it out to the first one that has been lost. So a definition is found from just
the scopes that have it in sight (`InSight`), and changes no other look-up: `History.lookUp_law`.
-/

namespace Callflow
namespace LabelledScopes

variable {past changes : List Change} {t u : LabelledScopes}

/-! ## Look-ups -/

/-- The scopes that a look-up asks, from the inside to the outside: the scope itself, and those
around it out to one on its own or to the first that is lost. -/
inductive Asks (past : List Change) : ScopeId → List ScopeId → Prop where
  | last {id : ScopeId} :
      (∀ outer, parent? past id = some outer → .lost outer ∈ past) → Asks past id [id]
  | outwards {id outer : ScopeId} {rest : List ScopeId} :
      parent? past id = some outer → .lost outer ∉ past → Asks past outer rest →
        Asks past id (id :: rest)

/-- A scope is asked for a symbol from another one, and none of those asked before binds it. -/
def InSight (past : List Change) (id : ScopeId) (symbol : String) (target : ScopeId) : Prop :=
  ∃ inner outer, Asks past id (inner ++ target :: outer) ∧ ∀ d ∈ inner, bound? past d symbol = none

namespace Asks

variable {id : ScopeId} {chain : List ScopeId}

theorem unique (h : Asks past id chain) {other : List ScopeId} (k : Asks past id other) :
    other = chain := by
  induction h generalizing other with
  | last hlast =>
    cases k with
    | last _ => rfl
    | outwards hparent hkept _ => exact absurd (hlast _ hparent) hkept
  | outwards hparent hkept _ ih =>
    cases k with
    | last hlast => exact absurd (hlast _ hparent) hkept
    | outwards hother _ hrest =>
      cases hparent.symm.trans hother
      rw [ih hrest]

theorem exists_cons (h : Asks past id chain) : ∃ rest, chain = id :: rest := by
  cases h with
  | last _ => exact ⟨[], rfl⟩
  | outwards _ _ _ => exact ⟨_, rfl⟩

end Asks

namespace Records

/-- A scope of no service lives until it is lost. -/
theorem alive_iff (h : Records past t) {id : ScopeId} {scope : Scope}
    (hid : t.store.scope? id = some scope) (howner : scope.owner = none) :
    t.alive id = true ↔ .lost id ∉ past := by
  have halive : t.alive id = t.holds (.scope id) := by
    rw [alive, Store.alive, hid]
    simp [howner]
  rw [halive, holds_scope_iff h.sorted]
  constructor
  · rintro ⟨label, hlabel⟩
    exact (h.labelled label id hlabel).2.2
  · exact h.kept id scope hid howner

/-- What a look-up goes through is what the past says. -/
theorem asks (h : Records past t) (id : ScopeId) :
    Asks past id (id :: (t.store.around id).takeWhile t.alive) := by
  induction hn : id.index using Nat.strong_induction_on generalizing id with
  | _ n ih =>
    subst hn
    cases hparent : parent? past id with
    | none =>
      have haround : t.store.around id = [] := by
        rcases t.store.around_cases id with hnone | ⟨scope, outer, hscope, houter, -, -⟩
        · exact hnone
        · rw [← h.store.parent, hscope] at hparent
          cases houter.symm.trans hparent
      rw [haround]
      refine .last fun outer houter => ?_
      cases hparent.symm.trans houter
    | some outer =>
      rcases h.store.outer id outer hparent with ⟨hbelow, hfree⟩
      have hlt := h.store.lt_of_parent? hparent
      rcases Store.scope?_isSome_of_lt hlt with ⟨scope, hscope⟩
      rcases Store.scope?_isSome_of_lt (hbelow.trans hlt) with ⟨around, haround⟩
      have hfound : scope.parent = some outer := by
        rw [← h.store.parent, hscope] at hparent
        exact hparent
      have howner : around.owner = none := by
        rw [haround] at hfree
        exact hfree
      have halive := h.alive_iff haround howner
      rw [Store.around_parent hscope hfound hbelow, List.takeWhile_cons]
      by_cases hkept : .lost outer ∈ past
      · have hdead : t.alive outer ≠ true := fun hlives => halive.1 hlives hkept
        rw [if_neg hdead]
        refine .last fun other hother => ?_
        cases hparent.symm.trans hother
        exact hkept
      · rw [if_pos (halive.2 hkept)]
        exact .outwards hparent hkept (ih outer.index hbelow outer rfl)

/-- A look-up finds what was bound last in the first scope asked that binds the symbol. -/
theorem lookUp_eq (h : Records past t) {id : ScopeId} {chain : List ScopeId}
    (hchain : Asks past id chain) (symbol : String) :
    t.lookUp id symbol =
      match chain.findSome? fun d => bound? past d symbol with
      | some value => .ok value
      | none => .error (.undefinedSymbol symbol) := by
  have hfound : (fun d => t.store.local? d symbol) = fun d => bound? past d symbol :=
    funext fun d => h.store.found d symbol
  have hfirst : t.store.lookUp? t.alive id symbol =
      chain.findSome? fun d => bound? past d symbol := by
    rw [Store.lookUp?_eq, (h.asks id).unique hchain, hfound]
  calc t.lookUp id symbol
    _ = match t.store.lookUp? t.alive id symbol with
        | some value => .ok value
        | none => .error (.undefinedSymbol symbol) := rfl
    _ = _ := by rw [hfirst]

/-- The scopes asked are made one inside of the other. -/
theorem descending (h : Records past t) {id : ScopeId} {chain : List ScopeId}
    (hchain : Asks past id chain) : chain.Pairwise fun inner outer => outer.index < inner.index := by
  induction hchain with
  | last _ => exact List.pairwise_singleton _ _
  | @outwards id outer rest hparent _ hrest ih =>
    have hbelow := (h.store.outer _ _ hparent).1
    refine List.pairwise_cons.2 ⟨fun d hd => ?_, ih⟩
    rcases hrest.exists_cons with ⟨others, rfl⟩
    rcases List.mem_cons.1 hd with rfl | hd
    · exact hbelow
    · exact ((List.pairwise_cons.1 ih).1 d hd).trans hbelow

theorem le_of_mem (h : Records past t) {id d : ScopeId} {chain : List ScopeId}
    (hchain : Asks past id chain) (hd : d ∈ chain) : d.index ≤ id.index := by
  have hdescending := h.descending hchain
  rcases hchain.exists_cons with ⟨rest, rfl⟩
  rcases List.mem_cons.1 hd with rfl | hd
  · exact le_rfl
  · exact ((List.pairwise_cons.1 hdescending).1 d hd).le

/-- What is around a scope has been made before it. -/
theorem lt_of_transGen (h : Records past t) {id d : ScopeId}
    (haround : Relation.TransGen (fun inner outer => parent? past inner = some outer) d id) :
    id.index < d.index := by
  induction haround with
  | single hparent => exact (h.store.outer _ _ hparent).1
  | tail _ hparent ih => exact (h.store.outer _ _ hparent).1.trans ih

/-- No look-up from around a scope gets to see it. -/
theorem not_inSight_of_lt (h : Records past t) {id d : ScopeId} (hlt : id.index < d.index)
    (symbol : String) : ¬ InSight past id symbol d := by
  rintro ⟨inner, outer, hchain, -⟩
  have hle := h.le_of_mem hchain (List.mem_append_right inner List.mem_cons_self)
  exact absurd hlt hle.not_gt

/-- No look-up from beside a scope gets to see it. -/
theorem not_inSight_of_sibling (h : Records past t) {id d : ScopeId} (hne : id ≠ d)
    (hparent : parent? past id = parent? past d) (symbol : String) : ¬ InSight past id symbol d := by
  rintro ⟨inner, outer, hchain, -⟩
  have hmem : d ∈ inner ++ d :: outer := List.mem_append_right inner List.mem_cons_self
  generalize inner ++ d :: outer = chain at hchain hmem
  cases hchain with
  | last _ => exact hne (List.mem_singleton.1 hmem).symm
  | @outwards _ around rest haround _ hrest =>
    rcases List.mem_cons.1 hmem with hself | hmem
    · exact hne hself.symm
    · have hle := h.le_of_mem hrest hmem
      have hlt := (h.store.outer d around (hparent.symm.trans haround)).1
      exact absurd hlt hle.not_gt

end Records

/-! ## What a definition changes -/

/-- A definition binds one symbol, and may make the scope of a service before. -/
def Binds (t : LabelledScopes) (changes : List Change) (d : ScopeId) (symbol : String)
    (value : Value) : Prop :=
  ∃ made, changes = .bound d symbol value :: made ∧ ∀ c ∈ made, ∃ parent, c = .made t.next parent

theorem Step.binds (h : Step t changes u) {d : ScopeId} {symbol : String} {value : Value}
    (hbound : .bound d symbol value ∈ changes) : Binds t changes d symbol value := by
  cases h with
  | root label => simp [loses] at hbound
  | child label _ => simp [loses] at hbound
  | drop label => simp [loses] at hbound
  | define name draft hid =>
    cases draft with
    | service owner =>
      simp only [makes, List.mem_cons, reduceCtorEq, List.not_mem_nil, or_false] at hbound
      cases hbound
      exact ⟨_, rfl, fun c hc => ⟨_, List.mem_singleton.1 hc⟩⟩
    | _ =>
      cases List.mem_singleton.1 hbound
      exact ⟨_, rfl, fun c hc => absurd hc List.not_mem_nil⟩
  | share name other hid =>
    cases List.mem_singleton.1 hbound
    exact ⟨_, rfl, fun c hc => absurd hc List.not_mem_nil⟩

namespace Binds

variable {d : ScopeId} {symbol : String} {value : Value}

theorem bound? (h : Binds t changes d symbol value) (id : ScopeId) (name : String) :
    LabelledScopes.bound? (changes ++ past) id name =
      if d = id ∧ symbol = name then some value else LabelledScopes.bound? past id name := by
  rcases h with ⟨made, rfl, hmade⟩
  have hnone : LabelledScopes.bound? made id name = none := by
    refine List.findSome?_eq_none_iff.2 fun c hc => ?_
    rcases hmade c hc with ⟨parent, rfl⟩
    rfl
  rw [List.cons_append, bound?_bound, bound?_append, hnone, Option.none_or]

/-- The chains of the scopes that are there stay as they are. -/
theorem asks (h : Binds t changes d symbol value) (hrecords : Records past t) {id : ScopeId}
    {chain : List ScopeId} (hid : id.index < t.store.scopes.size) (hchain : Asks past id chain) :
    Asks (changes ++ past) id chain := by
  rcases h with ⟨made, rfl, hmade⟩
  have hparent {id : ScopeId} (hid : id.index < t.store.scopes.size) :
      parent? (.bound d symbol value :: made ++ past) id = parent? past id := by
    have hnone : parent? (.bound d symbol value :: made) id = none := by
      refine List.findSome?_eq_none_iff.2 fun c hc => ?_
      rcases List.mem_cons.1 hc with rfl | hc
      · rfl
      · rcases hmade c hc with ⟨parent, rfl⟩
        refine if_neg fun hsame => ?_
        rw [← hsame] at hid
        exact lt_irrefl _ hid
    rw [parent?_append, hnone, Option.none_or]
  have hlost (id : ScopeId) :
      .lost id ∈ .bound d symbol value :: made ++ past ↔ .lost id ∈ past := by
    have hother : .lost id ∉ made := by
      intro hmem
      rcases hmade _ hmem with ⟨parent, hc⟩
      cases hc
    simp [hother]
  induction hchain with
  | last hlast =>
    refine .last fun outer houter => ?_
    rw [hparent hid] at houter
    exact (hlost outer).2 (hlast outer houter)
  | @outwards id outer rest houter hkept hrest ih =>
    have hbelow := (hrecords.store.outer _ _ houter).1
    refine .outwards ((hparent hid).trans houter) ?_ (ih (hbelow.trans hid))
    rw [hlost]
    exact hkept

end Binds

/-- Where only the value for one scope changes, the first value found is another one only if this
scope comes before all that have one. -/
theorem findSome?_change {f g : ScopeId → Option Value} {d : ScopeId} (hsame : ∀ e, e ≠ d → g e = f e)
    (chain : List ScopeId) : chain.findSome? g = chain.findSome? f ∨
      ∃ inner outer, chain = inner ++ d :: outer ∧ ∀ e ∈ inner, f e = none := by
  induction chain with
  | nil => exact Or.inl rfl
  | cons first rest ih =>
    by_cases hfirst : first = d
    · subst hfirst
      exact Or.inr ⟨[], rest, rfl, fun _ he => absurd he List.not_mem_nil⟩
    · rw [List.findSome?_cons, List.findSome?_cons, hsame first hfirst]
      cases hvalue : f first with
      | some value => exact Or.inl rfl
      | none =>
        refine ih.imp id ?_
        rintro ⟨inner, outer, rfl, hinner⟩
        refine ⟨first :: inner, outer, rfl, fun e he => ?_⟩
        rcases List.mem_cons.1 he with rfl | he
        · exact hvalue
        · exact hinner e he

namespace Binds

variable {d : ScopeId} {symbol : String} {value : Value}

/-- Where the definition is in sight, it is found. -/
theorem lookUp_of_inSight (h : Binds t changes d symbol value) (hrecords : Records past t)
    (hlater : Records (changes ++ past) u) {id : ScopeId} (hid : id.index < t.store.scopes.size)
    (hsight : InSight past id symbol d) : u.lookUp id symbol = .ok value := by
  rcases hsight with ⟨inner, outer, hchain, hinner⟩
  have hdescending := hrecords.descending hchain
  have hnone : inner.findSome? (fun e => LabelledScopes.bound? (changes ++ past) e symbol) = none := by
    refine List.findSome?_eq_none_iff.2 fun e he => ?_
    have hlt := (List.pairwise_append.1 hdescending).2.2 e he d List.mem_cons_self
    rw [h.bound?, if_neg, hinner e he]
    rintro ⟨rfl, -⟩
    exact lt_irrefl _ hlt
  rw [hlater.lookUp_eq (h.asks hrecords hid hchain), List.findSome?_append, hnone, Option.none_or,
    List.findSome?_cons, h.bound?, if_pos ⟨rfl, rfl⟩]

/-- Where it is not, nothing else is found than before. -/
theorem lookUp_of_not_inSight (h : Binds t changes d symbol value) (hrecords : Records past t)
    (hlater : Records (changes ++ past) u) {id : ScopeId} (hid : id.index < t.store.scopes.size)
    {name : String} (hsight : ¬ (name = symbol ∧ InSight past id symbol d)) :
    u.lookUp id name = t.lookUp id name := by
  have hchain := hrecords.asks id
  generalize id :: (t.store.around id).takeWhile t.alive = chain at hchain
  rw [hlater.lookUp_eq (h.asks hrecords hid hchain), hrecords.lookUp_eq hchain]
  have hsame : ∀ e, e ≠ d → LabelledScopes.bound? (changes ++ past) e name =
      LabelledScopes.bound? past e name := by
    intro e he
    rw [h.bound?, if_neg]
    rintro ⟨rfl, -⟩
    exact he rfl
  rcases findSome?_change hsame chain with hequal | ⟨inner, outer, rfl, hinner⟩
  · rw [hequal]
  · by_cases hname : name = symbol
    · subst hname
      exact absurd ⟨rfl, inner, outer, hchain, hinner⟩ hsight
    · have heverywhere : (fun e => LabelledScopes.bound? (changes ++ past) e name) =
          fun e => LabelledScopes.bound? past e name := by
        funext e
        rw [h.bound?, if_neg]
        rintro ⟨-, rfl⟩
        exact hname rfl
      rw [heverywhere]

end Binds

/-- Whatever has been done to the scopes, a look-up goes through an only chain of scopes, each made
before the last, and finds the value that was bound last in the first of them that binds the symbol,
or that none does. A definition is found from just where it is in sight, and changes nothing else: no
look-up of another symbol, and none from a scope around it or beside it. -/
theorem History.lookUp_law (h : History past t) :
    (∀ id, ∃ chain, Asks past id chain ∧ (∀ other, Asks past id other → other = chain) ∧
      (chain.Pairwise fun inner outer => outer.index < inner.index) ∧
      ∀ symbol, t.lookUp id symbol =
        match chain.findSome? fun d => bound? past d symbol with
        | some value => .ok value
        | none => .error (.undefinedSymbol symbol)) ∧
    ∀ changes u d symbol value, Step t changes u → .bound d symbol value ∈ changes →
      ∀ id, id.index < t.store.scopes.size →
        (InSight past id symbol d → u.lookUp id symbol = .ok value) ∧
        (∀ name, u.lookUp id name ≠ t.lookUp id name → name = symbol ∧ InSight past id symbol d) ∧
        (Relation.TransGen (fun inner outer => parent? past inner = some outer) d id →
          ∀ name, u.lookUp id name = t.lookUp id name) ∧
        (id ≠ d → parent? past id = parent? past d →
          ∀ name, u.lookUp id name = t.lookUp id name) := by
  have hrecords := h.records
  refine ⟨fun id => ?_, ?_⟩
  · have hchain := hrecords.asks id
    exact ⟨_, hchain, fun other hother => hchain.unique hother, hrecords.descending hchain,
      hrecords.lookUp_eq hchain⟩
  · intro changes u d symbol value hstep hbound id hid
    have hbinds := hstep.binds hbound
    have hlater := hrecords.step hstep
    have hunseen (hsight : ¬ InSight past id symbol d) (name : String) :
        u.lookUp id name = t.lookUp id name :=
      hbinds.lookUp_of_not_inSight hrecords hlater hid fun hboth => hsight hboth.2
    refine ⟨hbinds.lookUp_of_inSight hrecords hlater hid, ?_, ?_, ?_⟩
    · intro name hchanged
      by_contra hsight
      exact hchanged (hbinds.lookUp_of_not_inSight hrecords hlater hid hsight)
    · intro haround
      exact hunseen (hrecords.not_inSight_of_lt (hrecords.lt_of_transGen haround) symbol)
    · intro hne hparent
      exact hunseen (hrecords.not_inSight_of_sibling hne hparent symbol)

/-- Three scopes inside of each other. The one in the middle hides a symbol of the outer one. -/
def eclipse : LabelledScopes :=
  let scopes := LabelledScopes.empty.add "outer" none
  let scopes := (scopes.add "middle" (some ⟨0⟩)).add "inner" (some ⟨1⟩)
  (scopes.share ⟨0⟩ "moon" (.number 1.0)).share ⟨1⟩ "moon" (.number 2.0)

def eclipsePast : List Change :=
  [.bound ⟨1⟩ "moon" (.number 2.0), .bound ⟨0⟩ "moon" (.number 1.0), .made ⟨2⟩ (some ⟨1⟩),
    .made ⟨1⟩ (some ⟨0⟩), .made ⟨0⟩ none]

theorem history_eclipse : History eclipsePast eclipse := by
  have houter := History.empty.step (.root "outer")
  have hmiddle := houter.step (@Step.child _ "middle" "outer" ⟨0⟩ (by decide))
  have hinner := hmiddle.step (@Step.child _ "inner" "middle" ⟨1⟩ (by decide))
  have hbound := hinner.step (@Step.share _ "outer" ⟨0⟩ "moon" (.number 1.0) (by decide))
  exact hbound.step (@Step.share _ "middle" ⟨1⟩ "moon" (.number 2.0) (by decide))

theorem asks_eclipse : Asks eclipsePast ⟨2⟩ [⟨2⟩, ⟨1⟩, ⟨0⟩] := by
  have houter : Asks eclipsePast ⟨0⟩ [⟨0⟩] := .last fun _ h => nomatch h
  have hmiddle : Asks eclipsePast ⟨1⟩ [⟨1⟩, ⟨0⟩] := .outwards rfl (by simp [eclipsePast]) houter
  exact .outwards rfl (by simp [eclipsePast]) hmiddle

/-- The inner scope sees the symbol of the middle one, and another symbol of the outer one as soon as
it is defined. What it defines itself is not seen from the outer one, and it sees nothing any more
when the middle one is lost. -/
theorem eclipse_lookUp_law :
    History eclipsePast eclipse ∧ eclipse.lookUp ⟨2⟩ "moon" = .ok (.number 2.0) ∧
      (eclipse.share ⟨0⟩ "sun" (.number 3.0)).lookUp ⟨2⟩ "sun" = .ok (.number 3.0) ∧
      (eclipse.share ⟨0⟩ "sun" (.number 3.0)).lookUp ⟨2⟩ "moon" = eclipse.lookUp ⟨2⟩ "moon" ∧
      (eclipse.share ⟨2⟩ "moon" (.number 4.0)).lookUp ⟨0⟩ "moon" = eclipse.lookUp ⟨0⟩ "moon" ∧
      (eclipse.drop "middle").lookUp ⟨2⟩ "moon" = .error (.undefinedSymbol "moon") := by
  have hlaw := history_eclipse.lookUp_law
  have hsun := hlaw.2 _ _ ⟨0⟩ "sun" (.number 3.0)
    (@Step.share _ "outer" ⟨0⟩ "sun" (.number 3.0) (by decide)) List.mem_cons_self ⟨2⟩ (by decide)
  have hmoon := hlaw.2 _ _ ⟨2⟩ "moon" (.number 4.0)
    (@Step.share _ "inner" ⟨2⟩ "moon" (.number 4.0) (by decide)) List.mem_cons_self ⟨0⟩ (by decide)
  refine ⟨history_eclipse, ?_, ?_, ?_, ?_, ?_⟩
  · rcases hlaw.1 ⟨2⟩ with ⟨chain, -, hunique, -, hfound⟩
    rw [hfound, ← hunique _ asks_eclipse]
    rfl
  · refine hsun.1 ⟨[⟨2⟩, ⟨1⟩], [], asks_eclipse, ?_⟩
    intro d hd
    rcases List.mem_pair.1 hd with rfl | rfl <;> rfl
  · by_contra hchanged
    exact absurd (hsun.2.1 "moon" hchanged).1 (by decide)
  · have hmiddle : parent? eclipsePast ⟨2⟩ = some ⟨1⟩ := rfl
    exact hmoon.2.2.1 (.tail (.single hmiddle) rfl) "moon"
  · have hlost := (history_eclipse.step (.drop "middle")).lookUp_law
    have hchain : Asks (.lost ⟨1⟩ :: eclipsePast) ⟨2⟩ [⟨2⟩] := by
      refine .last fun outer houter => ?_
      cases houter
      exact List.mem_cons_self
    rcases hlost.1 ⟨2⟩ with ⟨chain, -, hunique, -, hfound⟩
    rw [hfound, ← hunique _ hchain]
    rfl

end LabelledScopes
end Callflow
