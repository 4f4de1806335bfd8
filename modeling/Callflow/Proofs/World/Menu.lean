import Callflow.Proofs.Store.Resolution
import Callflow.Proofs.World.Parts

/-!
# What the root scope offers

Where only the root scope binds targets, and no endpoint of the host, a symbol that can be resolved
is one of a service that the root scope binds (`resolve_plain`), from whatever frame. So what the
programs can call is told by the `Menu` of the store, and worlds that offer the same menu resolve a
symbol to the same service, if they resolve it at all (`Offers.resolve_eq`).

An evaluation keeps the menu if none of its parts defines something that can be called, or takes the
name of it (`evaluate_offers`).
-/

namespace Callflow

variable {σ : Type}

/-- The services that the root scope binds, and the operations of all services. -/
structure Menu where
  symbols : List (String × ServiceId)
  operations : List (Directory Operation)

/-- An entry of a directory of values, if it is one for a service. -/
def Store.serviceEntry? (entry : String × Value) : Option (String × ServiceId) :=
  match entry.2 with
  | .service id => some (entry.1, id)
  | _ => none

namespace Store

/-- What the root scope binds, the first one for each symbol first. -/
def rootEntries (s : Store) : List (String × Value) :=
  ((s.scope? World.root).map fun scope => scope.bindings.entries).getD []

/-- What programs can call. -/
def menu (s : Store) : Menu where
  symbols := s.rootEntries.filterMap Store.serviceEntry?
  operations := s.services.toList.map Service.operations

/-- Only the root scope binds targets, and none of them is an endpoint. -/
structure Plain (s : Store) : Prop where
  rooted : (s.scope? World.root).isSome
  inner : ∀ id symbol value, s.local? id symbol = some value → id ≠ World.root →
    value.target? = none
  outer : ∀ symbol id, s.local? World.root symbol ≠ some (.endpoint id)

theorem local?_root (s : Store) (symbol : String) :
    s.local? World.root symbol = Directory.findIn symbol s.rootEntries := by
  unfold local? rootEntries
  cases s.scope? World.root with
  | none => rfl
  | some scope => rfl

/-- In a plain store, a look-up that finds a target finds one that the root scope binds. -/
theorem Plain.lookUp? {s : Store} (h : s.Plain) {live : ScopeId → Bool} {id : ScopeId}
    {symbol : String} {value : Value} (hvalue : s.lookUp? live id symbol = some value)
    (htarget : value.target?.isSome) : s.local? World.root symbol = some value := by
  rw [lookUp?_eq] at hvalue
  rcases List.exists_of_findSome?_eq_some hvalue with ⟨d, -, hfound⟩
  by_cases hroot : d = World.root
  · rw [← hroot]
    exact hfound
  · rw [h.inner d symbol value hfound hroot] at htarget
    cases htarget

theorem findIn_services {entries : List (String × Value)} {symbol : String} {id : ServiceId}
    (h : Directory.findIn symbol entries = some (.service id)) :
    Directory.findIn symbol (entries.filterMap Store.serviceEntry?) = some id := by
  induction entries with
  | nil => cases h
  | cons entry rest ih =>
    rcases entry with ⟨other, value⟩
    rw [Directory.findIn] at h
    by_cases hsame : other = symbol
    · rw [if_pos hsame] at h
      cases h
      simp [Store.serviceEntry?, Directory.findIn, hsame]
    · rw [if_neg hsame] at h
      cases value with
      | service other => simpa [Store.serviceEntry?, Directory.findIn, hsame] using ih h
      | _ =>
        rw [List.filterMap_cons_none rfl]
        exact ih h

theorem mem_values_of_findIn {entries : List (String × Value)} {symbol : String} {value : Value}
    (h : Directory.findIn symbol entries = some value) : value ∈ entries.map Prod.snd := by
  induction entries with
  | nil => cases h
  | cons entry rest ih =>
    rcases entry with ⟨other, first⟩
    rw [Directory.findIn] at h
    by_cases hsame : other = symbol
    · rw [if_pos hsame] at h
      cases h
      exact List.mem_cons_self
    · rw [if_neg hsame] at h
      exact List.mem_cons_of_mem _ (ih h)

/-- What scopes bind can be listed. -/
theorem plain_of_values {s : Store} {outer : Scope} {inner : List Scope}
    (hscopes : s.scopes.toList = outer :: inner)
    (houter : ∀ value ∈ outer.bindings.values, ∀ id, value ≠ .endpoint id)
    (hinner : ∀ scope ∈ inner, ∀ value ∈ scope.bindings.values, value.target? = none) :
    s.Plain := by
  have hscope (id : ScopeId) : s.scope? id = (outer :: inner)[id.index]? := by
    rw [← hscopes, Array.getElem?_toList]
    rfl
  refine ⟨by rw [hscope]; rfl, ?_, ?_⟩
  · intro id symbol value hvalue hne
    rcases Option.bind_eq_some_iff.1 hvalue with ⟨scope, hid, hfound⟩
    rw [hscope] at hid
    rcases id with ⟨_ | i⟩
    · exact absurd rfl hne
    · exact hinner scope (List.mem_of_getElem? hid) value (mem_values_of_findIn hfound)
  · intro symbol id hvalue
    rcases Option.bind_eq_some_iff.1 hvalue with ⟨scope, hroot, hfound⟩
    rw [hscope] at hroot
    cases hroot
    exact houter _ (mem_values_of_findIn hfound) id rfl

theorem Plain.symbol {s : Store} {symbol : String} {id : ServiceId}
    (h : s.local? World.root symbol = some (.service id)) :
    Directory.findIn symbol s.menu.symbols = some id := by
  rw [local?_root] at h
  exact findIn_services h

theorem menu_operations (s : Store) (id : ServiceId) :
    s.menu.operations[id.index]? = (s.service? id).map Service.operations := by
  rw [menu, List.getElem?_map, Array.getElem?_toList]
  rfl

/-! ### Definitions that keep the menu -/

theorem filterMap_insertIn {symbol : String} {value : Value} (hvalue : value.target? = none)
    {entries : List (String × Value)}
    (hfree : (Directory.findIn symbol entries).bind Value.target? = none) :
    (Directory.insertIn symbol value entries).filterMap Store.serviceEntry? =
      entries.filterMap Store.serviceEntry? := by
  have hnone (name : String) {v : Value} (h : v.target? = none) :
      Store.serviceEntry? (name, v) = none := by
    cases v with
    | service id => cases h
    | _ => rfl
  induction entries with
  | nil => exact List.filterMap_cons_none (hnone symbol hvalue)
  | cons entry rest ih =>
    rcases entry with ⟨other, old⟩
    rw [Directory.findIn] at hfree
    rw [Directory.insertIn]
    by_cases hsame : other = symbol
    · rw [if_pos hsame] at hfree ⊢
      rw [List.filterMap_cons_none (hnone symbol hvalue),
        List.filterMap_cons_none (hnone other hfree)]
    · rw [if_neg hsame] at hfree ⊢
      split
      · rw [List.filterMap_cons_none (hnone symbol hvalue)]
      · rw [List.filterMap_cons, List.filterMap_cons, ih hfree]

theorem local?_bind {s : Store} {id other : ScopeId} {symbol name : String} {value found : Value}
    (h : (s.bind id symbol value).local? other name = some found) :
    found = value ∨ s.local? other name = some found := by
  rw [local?, scope?_bind] at h
  unfold local?
  cases hs : s.scope? other with
  | none => simp [hs] at h
  | some scope =>
    rw [hs, Option.map_some, Option.bind_some] at h
    rw [Option.bind_some]
    split at h
    · rw [Directory.find?_insert] at h
      split at h
      · cases h
        exact Or.inl rfl
      · exact Or.inr h
    · exact Or.inr h

theorem bind_plain {s : Store} (h : s.Plain) (id : ScopeId) (symbol : String) {value : Value}
    (hvalue : value.target? = none) : (s.bind id symbol value).Plain where
  rooted := by
    rw [scope?_bind, Option.isSome_map]
    exact h.rooted
  inner := by
    intro other name found hfound hne
    rcases local?_bind hfound with rfl | hold
    · exact hvalue
    · exact h.inner other name found hold hne
  outer := by
    intro name endpoint hfound
    rcases local?_bind hfound with rfl | hold
    · cases hvalue
    · exact h.outer name endpoint hold

/-- What can be called stays the same where a name gets a value that cannot be called, and could not
be called before. -/
theorem bind_menu (s : Store) {id : ScopeId} {symbol : String} {value : Value}
    (hvalue : value.target? = none) (hfree : (s.local? id symbol).bind Value.target? = none) :
    (s.bind id symbol value).menu = s.menu := by
  have hentries : (s.bind id symbol value).rootEntries.filterMap Store.serviceEntry? =
      s.rootEntries.filterMap Store.serviceEntry? := by
    rw [rootEntries, scope?_bind, Option.map_map]
    by_cases hroot : id = World.root
    · rw [hroot, local?_root] at hfree
      unfold rootEntries at hfree ⊢
      cases hs : s.scope? World.root with
      | none => rfl
      | some scope =>
        rw [hs] at hfree
        simp only [Option.map_some, Option.getD_some, Function.comp_apply, if_pos hroot]
        exact filterMap_insertIn hvalue hfree
    · simp only [if_neg hroot]
      rfl
  unfold menu
  rw [hentries]
  rfl

/-- A new scope binds nothing yet. -/
theorem newScope_menu {s : Store} (h : s.Plain) (parent : Option ScopeId)
    (owner : Option ServiceId) : (s.newScope parent owner).1.menu = s.menu := by
  rcases Option.isSome_iff_exists.1 h.rooted with ⟨scope, hscope⟩
  have hlater : (s.newScope parent owner).1.scope? World.root = some scope :=
    getElem?_push_of_some hscope
  unfold menu rootEntries
  rw [hlater, hscope]
  rfl

theorem newScope_plain {s : Store} (h : s.Plain) (parent : Option ScopeId)
    (owner : Option ServiceId) : (s.newScope parent owner).1.Plain := by
  rcases Option.isSome_iff_exists.1 h.rooted with ⟨scope, hscope⟩
  refine ⟨?_, ?_, ?_⟩
  · rw [show (s.newScope parent owner).1.scope? World.root = some scope from
      getElem?_push_of_some hscope]
    rfl
  · intro id symbol value hvalue hne
    rcases Option.bind_eq_some_iff.1 hvalue with ⟨inner, hinner, hfound⟩
    have hpush : (s.scopes.push ⟨parent, owner, .empty⟩)[id.index]? = some inner := hinner
    rw [Array.getElem?_push] at hpush
    split at hpush
    · cases hpush
      cases hfound
    · exact h.inner id symbol value (by rw [local?_eq hpush]; exact hfound) hne
  · intro symbol id
    have hlater : (s.newScope parent owner).1.scope? World.root = some scope :=
      getElem?_push_of_some hscope
    have hsame : (s.newScope parent owner).1.local? World.root symbol =
        s.local? World.root symbol := by
      rw [local?_eq hlater, local?_eq hscope]
    rw [hsame]
    exact h.outer symbol id

end Store

namespace World

/-- What a symbol is resolved to in a plain store is a service that the root scope binds. -/
theorem resolve_plain {w : World σ} (h : w.store.Plain) {inUse : List Ref} {frame : Frame}
    {next : Continuation σ} {name : String} {target : Target}
    (hresolve : w.resolve inUse frame next name = .ok target) :
    ∃ id, target = .service id ∧ Directory.findIn name w.store.menu.symbols = some id := by
  unfold resolve at hresolve
  split at hresolve
  · cases hresolve
  · rename_i value hvalue
    cases value with
    | service id =>
      cases hresolve
      exact ⟨id, rfl, Store.Plain.symbol (h.lookUp? hvalue rfl)⟩
    | endpoint id => exact absurd (h.lookUp? hvalue rfl) (h.outer name id)
    | _ => cases hresolve

end World

/-- The programs can call what is on a menu. -/
structure World.Offers (menu : Menu) (w : World σ) : Prop where
  plain : w.store.Plain
  menu : w.store.menu = menu

/-- Worlds that offer the same resolve a symbol to the same service, if they both resolve it. -/
theorem World.Offers.resolve_eq {menu : Menu} {w v : World σ} (hw : w.Offers menu)
    (hv : v.Offers menu) {inUse inUse' : List Ref} {frame frame' : Frame}
    {next next' : Continuation σ} {name : String} {target target' : Target}
    (h : w.resolve inUse frame next name = .ok target)
    (h' : v.resolve inUse' frame' next' name = .ok target') :
    target' = target ∧ ∃ id, target = .service id := by
  rcases World.resolve_plain hw.plain h with ⟨id, rfl, hid⟩
  rcases World.resolve_plain hv.plain h' with ⟨id', rfl, hid'⟩
  rw [hw.menu] at hid
  rw [hv.menu, hid] at hid'
  cases hid'
  exact ⟨rfl, id, rfl⟩

/-! ## Evaluations that keep the menu -/

/-- Whether a part defines something that can be called, or takes the name of it. -/
def Part.defines (p : Part σ) : Bool :=
  match p.activity with
  | .defineService _ _ => true
  | .defineOperation _ _ => true
  | .defineClient name _ _ => ((p.world.store.local? p.frame.scope name).bind Value.target?).isSome
  | _ => false

namespace World

variable {menu : Menu} {w v : World σ}

/-- Clients and endpoints are not on the menu. -/
theorem Offers.of_same (h : w.Offers menu) (hscopes : v.store.scopes = w.store.scopes)
    (hservices : v.store.services = w.store.services) : v.Offers menu := by
  have hlocal (id : ScopeId) (symbol : String) :
      v.store.local? id symbol = w.store.local? id symbol := by
    rw [Store.local?, Store.scope?, hscopes]
    rfl
  refine ⟨⟨?_, ?_, ?_⟩, ?_⟩
  · rw [Store.scope?, hscopes]
    exact h.plain.rooted
  · intro id symbol value hvalue
    rw [hlocal] at hvalue
    exact h.plain.inner id symbol value hvalue
  · intro symbol id
    rw [hlocal]
    exact h.plain.outer symbol id
  · rw [← h.menu, Store.menu, Store.rootEntries, Store.scope?, hscopes, hservices]
    rfl

theorem Offers.of_store (h : w.Offers menu) (hstore : v.store = w.store) : v.Offers menu :=
  h.of_same (by rw [hstore]) (by rw [hstore])

theorem Offers.newScope (h : w.Offers menu) (parent : Option ScopeId) (owner : Option ServiceId) :
    World.Offers menu { w with store := (w.store.newScope parent owner).1 } :=
  ⟨Store.newScope_plain h.plain parent owner,
    (Store.newScope_menu h.plain parent owner).trans h.menu⟩

theorem Offers.bind (h : w.Offers menu) {id : ScopeId} {symbol : String} {value : Value}
    (hvalue : value.target? = none)
    (hfree : (w.store.local? id symbol).bind Value.target? = none) :
    World.Offers menu { w with store := w.store.bind id symbol value } :=
  ⟨Store.bind_plain h.plain id symbol hvalue, (Store.bind_menu w.store hvalue hfree).trans h.menu⟩

theorem schedule_store {delay : Time} {kind : EventKind} {work : Callback σ} {event : EventId}
    (h : w.schedule delay kind work = .ok (v, event)) : v.store = w.store := by
  rcases schedule_eq_ok h with ⟨agenda, -, rfl, -⟩
  rfl

theorem suspend_store (w : World σ) (delay : Time) (kind : EventKind) (work : Callback σ) :
    (w.suspend delay kind work).1.store = w.store := by
  unfold suspend
  split
  · rename_i hs
    exact schedule_store hs
  · rfl

theorem trigger_store (w : World σ) (inUse : List Ref) (name operation : String) (frame : Frame)
    (next : Continuation σ) : (w.trigger inUse name operation frame next).1.store = w.store := by
  have hsent (target : Target) :=
    send_store (w.issue frame.caller operation none .nobody).1 ⟨w.requests.size⟩ target
  have hid : (w.issue frame.caller operation none .nobody).2 = ⟨w.requests.size⟩ := rfl
  unfold trigger
  split
  · rfl
  · rename_i target _
    simp only [hid]
    split
    · rename_i v cause hs
      have hv := hsent target
      rw [hs] at hv
      exact hv
    · rename_i v hs
      have hv := hsent target
      rw [hs] at hv
      exact hv

theorem query_store (w : World σ) (inUse : List Ref) (name operation : String)
    (timeout : Option Time) (frame : Frame) (next : Continuation σ) :
    (w.query inUse name operation timeout frame next).1.store = w.store := by
  generalize hquery : w.query inUse name operation timeout frame next = e
  rcases e with ⟨u, result⟩
  have hsent (deadline : Option Time) (target : Target) :=
    send_store (w.issue frame.caller operation deadline (.continuation next)).1
      ⟨w.requests.size⟩ target
  rcases query_cases hquery with
    ⟨_, _, rfl, _⟩ | ⟨target, _, _, _, _, hsend⟩ | ⟨target, _, _, _, hsend⟩ |
    ⟨target, delay, v, event, _, _, _, _, hsend, hwatch⟩
  · rfl
  · have hu := hsent none target
    rw [hsend] at hu
    exact hu
  · have hu := hsent none target
    rw [hsend] at hu
    exact hu
  · have hv := hsent (some (w.now + delay)) target
    rw [hsend] at hv
    exact (schedule_store hwatch).trans hv

theorem afterAttempt_store (w : World σ) (state : RetryState) (body : Activity) (frame : Frame)
    (next : Continuation σ) (held : List Ref) (outcome : Outcome) :
    (w.afterAttempt state body frame next held outcome).1.store = w.store := by
  cases outcome with
  | success value => rfl
  | failure cause =>
    unfold afterAttempt
    split
    · rfl
    · split
      · rfl
      · exact suspend_store ..

theorem Offers.attempt {inUse : List Ref} {state : RetryState} {body : Activity} {frame : Frame}
    {next : Continuation σ}
    (h : (evaluate inUse body frame (.retry state.begin body frame next) w).1.Offers menu) :
    (World.attempt inUse state body frame next w).1.Offers menu := by
  unfold World.attempt
  dsimp only
  split
  · rename_i v outcome held hv
    rw [hv] at h
    exact h.of_store (afterAttempt_store ..)
  · exact h

/-- A new client takes a name that has not been one of a service. -/
theorem defineClient_offers (h : w.Offers menu) (name : String) (period : Time) (body : Activity)
    (frame : Frame)
    (hfree : (w.store.local? frame.scope name).bind Value.target? = none) :
    (w.defineClient name period body frame).1.Offers menu := by
  have hclient : World.Offers menu { w with store := (w.store.newClient name period body).1 } :=
    h.of_same rfl rfl
  have hvalue : (Value.client (w.store.newClient name period body).2).target? = none := rfl
  have hbound := hclient.bind hvalue hfree
  unfold defineClient
  split
  · exact h
  · dsimp only
    split
    · rename_i hs
      exact hbound.of_store (schedule_store hs)
    · exact hbound

/-- The activity that is evaluated is the first of its parts. -/
theorem mem_parts (inUse : List Ref) (activity : Activity) (frame : Frame) (next : Continuation σ)
    (w : World σ) : ⟨w, inUse, activity, frame, next⟩ ∈ parts inUse activity frame next w := by
  cases activity <;> simp [parts]

-- Both proofs follow the recursion of the evaluation, which the lists of parts share.
mutual

theorem evaluate_offers (inUse : List Ref) (activity : Activity) (frame : Frame)
    (next : Continuation σ) {w : World σ} (h : w.Offers menu)
    (hparts : ∀ p ∈ parts inUse activity frame next w, p.defines = false) :
    (evaluate inUse activity frame next w).1.Offers menu := by
  cases activity with
  | defineService name body => cases hparts _ (mem_parts ..)
  | defineOperation name body => cases hparts _ (mem_parts ..)
  | defineClient name period body =>
    have hfree := hparts _ (mem_parts ..)
    exact defineClient_offers h name period body frame
      (Option.isNone_iff_eq_none.1 (Option.isSome_eq_false_iff.1 hfree))
  | trigger name operation =>
    exact h.of_store (trigger_store ..)
  | query name operation timeout =>
    exact h.of_store (query_store ..)
  | sequence steps =>
    refine evaluateSteps_offers inUse steps frame .unit next h fun p hp => hparts p ?_
    rw [parts]
    exact List.mem_cons_of_mem _ hp
  | think duration =>
    exact h.of_store (suspend_store ..)
  | retry body limit delay =>
    rw [parts] at hparts
    rw [evaluate]
    cases hcheck : Time.checkDelay delay.base with
    | error e => exact h
    | ok _ =>
      cases hstart : RetryState.start limit delay with
      | error e => exact h
      | ok state =>
        rw [hcheck, hstart] at hparts
        exact .attempt (evaluate_offers inUse body frame _ h fun p hp =>
          hparts p (List.mem_cons_of_mem _ hp))
  | ignoreError body =>
    have hbody := evaluate_offers inUse body frame (.ignore next) h fun p hp => hparts p (by
      rw [parts]
      exact List.mem_cons_of_mem _ hp)
    rw [evaluate]
    split
    · rename_i v cause held hv
      rw [hv] at hbody
      exact hbody
    · exact hbody
  | fail => exact h

theorem evaluateSteps_offers (inUse : List Ref) (steps : List Activity) (frame : Frame)
    (last : Value) (next : Continuation σ) {w : World σ} (h : w.Offers menu)
    (hparts : ∀ p ∈ parts.ofSteps inUse steps frame last next w, p.defines = false) :
    (evaluate.evaluateSteps inUse steps frame last next w).1.Offers menu := by
  cases steps with
  | nil => exact h
  | cons step rest =>
    rw [parts.ofSteps] at hparts
    have hstep := evaluate_offers inUse step frame (.steps rest frame next) h fun p hp =>
      hparts p (List.mem_append_left _ hp)
    rw [evaluate.evaluateSteps]
    split
    · rename_i v value held hv
      rw [hv] at hstep hparts
      exact evaluateSteps_offers inUse rest frame value next hstep fun p hp =>
        hparts p (List.mem_append_right _ hp)
    · rename_i v cause held hv
      rw [hv] at hstep
      exact hstep
    · exact hstep

end

end World
end Callflow
