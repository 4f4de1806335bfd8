import Callflow.Proofs.Machine.Dispatch
import Callflow.Proofs.World.Parts

/-!
# The activities that a transition evaluates

A machine tells by its focus and its stack which activities its next transition evaluates
(`Machine.parts`), as it tells which calls the transition comes upon. Every one of them is evaluated
at the transition's moment, and one that does not resolve is how the transition ends (`step_parts`).
-/

namespace Callflow
namespace Machine

open World (Harmless Path Quiet Still Resolved)

variable {σ : Type}

/-! ## Listing the parts -/

/-- The parts of the body of an operation. -/
def executeParts (w : World σ) (stack : List (Activation σ)) (scope : ScopeId) (op : Operation)
    (next : Continuation σ) : List (Part σ) :=
  let (store, fresh) := w.store.newScope (some scope) none
  World.parts (inUse (.hold [.scope fresh] :: stack)) op.body
    (.plain fresh (.operation op.owner op.name)) next { w with store }

/-- The parts of a target that processes a request. -/
def processParts (w : World σ) (stack : List (Activation σ)) (request : RequestId) :
    Target → List (Part σ)
  | .endpoint _ => []
  | .service id =>
    match w.store.service? id, w.request? request with
    | some service, some r =>
      match service.operations.find? r.operation with
      | none => []
      | some op => executeParts w (.hold [.service id] :: stack) service.scope op (.reply request)
    | _, _ => []

/-- The parts of a client that fires. -/
def fireParts (w : World σ) (stack : List (Activation σ)) (id : ClientId) (scope : ScopeId) :
    List (Part σ) :=
  match w.store.client? id with
  | none => []
  | some client =>
    let store := w.store.modifyClient id fun c => { c with firings := c.firings + 1 }
    let w := { w with store }
    match w.schedule client.period .clientFiring (.fire id scope) with
    | .error _ => []
    | .ok (w, _) =>
      World.parts (inUse (.hold [.scope scope] :: stack)) client.body
        (.plain scope (.client client.name)) (.complete id) w

/-- The parts of an event. -/
def Turn.parts (t : Turn σ) : List (Part σ) :=
  match t.event.work with
  | .deliver request target => processParts t.world t.stack request target
  | .attempt state body frame next =>
    World.parts (inUse (.hold frame.refs :: t.stack)) body frame
      (.retry state.begin body frame next) t.world
  | .fire client scope => fireParts t.world t.stack client scope
  | _ => []

/-- The activities that the next transition evaluates, one inside or after the other. -/
def parts (m : Machine σ) : List (Part σ) :=
  match m.focus with
  | .code (.evaluate activity caller resume next) =>
    World.parts (inUse (.await next :: m.stack)) activity (.plain World.root caller) (.host resume)
      m.world
  | .code (.execute id op resume next) =>
    match m.world.store.service? id with
    | none => []
    | some service =>
      executeParts m.world (.hold [.service id] :: .await next :: m.stack) service.scope op
        (.host resume)
  | .code (.process request target next) =>
    processParts m.world (.await next :: m.stack) request target
  | .resume (.steps rest frame next) (.success value) =>
    World.parts.ofSteps (inUse m.stack) rest frame value next m.world
  | _ => (m.turn?.map Turn.parts).getD []

/-! ## Coming upon a part -/

/-- A transition that comes upon a part, from a world on: it does so without time passing, and if the
part does not resolve, the transition ends like it; otherwise what follows is harmless. -/
structure ComesUpon (w : World σ) (p : Part σ) (n : Machine σ) : Prop where
  quiet : Quiet w p.world
  tended : w.Tended → p.world.Tended
  unresolved : ¬ Resolved p.result.2 → ∃ stack next, n = proceed stack next p.result
  after : Harmless p.result.1 n.world

namespace ComesUpon

variable {w v : World σ} {p : Part σ} {n : Machine σ}

theorem before (h : ComesUpon v p n) (k : Quiet w v) (htended : w.Tended → v.Tended) :
    ComesUpon w p n :=
  ⟨k.trans h.quiet, fun hw => h.tended (htended hw), h.unresolved, h.after⟩

theorem of_reaches {e : Evaluation σ} (h : World.Reaches w p e) (stack : List (Activation σ))
    (next : Continuation σ) : ComesUpon w p (proceed stack next e) where
  quiet := h.quiet
  tended := h.tended
  unresolved := by
    intro hunresolved
    rw [h.unresolved hunresolved]
    exact ⟨stack, next, rfl⟩
  after := by
    rw [proceed_world]
    exact h.after

theorem evaluate {stack : List (Activation σ)} {activity : Activity} {frame : Frame}
    {next : Continuation σ} (hp : p ∈ World.parts (inUse stack) activity frame next w) :
    ComesUpon w p (Machine.evaluate w stack activity frame next) :=
  .of_reaches (World.evaluate_parts _ _ _ _ _ p hp) stack next

theorem execute {stack : List (Activation σ)} {scope : ScopeId} {op : Operation}
    {next : Continuation σ} (hp : p ∈ executeParts w stack scope op next) :
    ComesUpon w p (Machine.execute w stack scope op next) := by
  have hscope : Still w { w with store := (w.store.newScope (some scope) none).1 } :=
    .define (.scope (some scope) none) rfl
  exact (evaluate hp).before hscope.quiet (Harmless.of_same rfl rfl).tended

theorem process {stack : List (Activation σ)} {request : RequestId} {target : Target}
    (hp : p ∈ processParts w stack request target) :
    ComesUpon w p (Machine.process w stack request target) := by
  cases target with
  | endpoint id => cases hp
  | service id =>
    simp only [processParts] at hp
    simp only [Machine.process]
    cases hservice : w.store.service? id with
    | none => simp [hservice] at hp
    | some service =>
      cases hrequest : w.request? request with
      | none => simp [hservice, hrequest] at hp
      | some r =>
        rw [hservice, hrequest] at hp
        dsimp only at hp ⊢
        cases hop : service.operations.find? r.operation with
        | none => simp [hop] at hp
        | some op =>
          rw [hop] at hp
          exact execute hp

theorem fire {stack : List (Activation σ)} {id : ClientId} {scope : ScopeId}
    (hp : p ∈ fireParts w stack id scope) : ComesUpon w p (Machine.fire w stack id scope) := by
  unfold fireParts at hp
  unfold Machine.fire
  cases hclient : w.store.client? id with
  | none => simp [hclient] at hp
  | some client =>
    have hcounted : Still w { w with store := w.store.modifyClient id fun c =>
        { c with firings := c.firings + 1 } } := .define (.count id _) rfl
    have htended {v : World σ} {event : EventId} (hw : w.Tended)
      (hs : ({ w with store := w.store.modifyClient id fun c =>
        { c with firings := c.firings + 1 } } : World σ).schedule client.period .clientFiring
          (.fire id scope) = .ok (v, event)) : v.Tended := hw.rearmed hclient hs
    rw [hclient] at hp
    dsimp only at hp ⊢
    generalize ({ w with store := w.store.modifyClient id fun c =>
      { c with firings := c.firings + 1 } } : World σ) = counted at hcounted htended hp ⊢
    cases hs : counted.schedule client.period .clientFiring (.fire id scope) with
    | error cause => simp [hs] at hp
    | ok scheduled =>
      rw [hs] at hp
      exact (evaluate hp).before (hcounted.trans (.schedule hs rfl)).quiet fun hw => htended hw hs

theorem attempt {stack : List (Activation σ)} {state : RetryState} {body : Activity}
    {frame : Frame} {next : Continuation σ}
    (hp : p ∈ World.parts (inUse stack) body frame (.retry state.begin body frame next) w) :
    ComesUpon w p
      (proceed stack next (World.attempt (inUse stack) state body frame next w)) :=
  .of_reaches (World.Reaches.attempt (World.evaluate_parts _ _ _ _ _ p hp)) stack next

end ComesUpon

theorem Turn.comesUpon {m : Machine σ} {t : Turn σ} (h : Taking m t) {p : Part σ}
    (hp : p ∈ t.parts) :
    (∃ deeds, Path m.world deeds t.world) ∧
      ComesUpon t.world p (dispatch t.world t.stack t.event.work) := by
  have hpath (hnot : ∀ id deadline, t.event.work ≠ .expire id deadline) :
      ∃ deeds, Path m.world deeds t.world :=
    ⟨_, h.path fun id deadline _ hwork _ => absurd hwork (hnot id deadline)⟩
  unfold Turn.parts at hp
  cases hwork : t.event.work with
  | deliver request target =>
    rw [hwork] at hp
    exact ⟨hpath (by simp [hwork]), .process hp⟩
  | attempt state body frame next =>
    rw [hwork] at hp
    exact ⟨hpath (by simp [hwork]), .attempt hp⟩
  | fire client scope =>
    rw [hwork] at hp
    exact ⟨hpath (by simp [hwork]), .fire hp⟩
  | _ => simp [hwork] at hp

/-- Every part of a transition is evaluated at its moment, after some moves; and the transition ends
like a part that does not resolve. -/
theorem step_parts {m n : Machine σ} (h : m.step = some n) {p : Part σ} (hp : p ∈ m.parts) :
    ∃ w, (∃ deeds, Path m.world deeds w) ∧ w.now = m.moment ∧ (m.world.Tended → w.Tended) ∧
      ComesUpon w p n := by
  have hhere (htaken : m.taken? = none) (hcomes : ComesUpon m.world p n) :
      ∃ w, (∃ deeds, Path m.world deeds w) ∧ w.now = m.moment ∧ (m.world.Tended → w.Tended) ∧
        ComesUpon w p n :=
    ⟨m.world, ⟨[], .refl⟩, (moment_of_not_taken htaken).symm, id, hcomes⟩
  have hturn (hp : p ∈ (m.turn?.map Turn.parts).getD []) :
      ∃ w, (∃ deeds, Path m.world deeds w) ∧ w.now = m.moment ∧ (m.world.Tended → w.Tended) ∧
        ComesUpon w p n := by
    cases ht : m.turn? with
    | none => simp [ht] at hp
    | some t =>
      rw [ht] at hp
      rcases turn?_spec ht with ⟨htaking, hstep⟩
      rw [hstep] at h
      cases h
      rcases Turn.comesUpon htaking hp with ⟨hpath, hcomes⟩
      rcases htaking.take with ⟨horizon, agenda, htake, hworld⟩
      have htended (hm : m.world.Tended) : t.world.Tended := by
        rw [hworld]
        exact hm.enter htake
      exact ⟨t.world, hpath, htaking.moment, htended, hcomes⟩
  rcases m with ⟨w, stack, focus⟩
  unfold parts at hp
  split at hp
  · rename_i activity caller resume next hfocus
    cases hfocus
    cases h
    exact hhere rfl (.evaluate hp)
  · rename_i id op resume next hfocus
    cases hfocus
    cases h
    refine hhere rfl ?_
    simp only [execScript]
    dsimp only at hp
    cases hservice : w.store.service? id with
    | none => simp [hservice] at hp
    | some service =>
      rw [hservice] at hp
      exact .execute hp
  · rename_i request target next hfocus
    cases hfocus
    cases h
    exact hhere rfl (.process hp)
  · rename_i rest frame next value hfocus
    cases hfocus
    cases h
    exact hhere rfl (.of_reaches (World.evaluateSteps_parts _ _ _ _ _ _ p hp) stack next)
  · exact hturn hp

/-! ## Nothing after a part that does not resolve -/

/-- Some parts of which one that does not resolve is followed only by those inside of it. -/
def Sealed (parts : List (Part σ)) : Prop :=
  ∀ p ∈ parts, ¬ Resolved p.result.2 → World.own p <:+ parts

theorem sealed_nil : Sealed ([] : List (Part σ)) := by simp [Sealed]

theorem sealed_executeParts (w : World σ) (stack : List (Activation σ)) (scope : ScopeId)
    (op : Operation) (next : Continuation σ) : Sealed (executeParts w stack scope op next) :=
  World.parts_own _ _ _ _ _

theorem sealed_processParts (w : World σ) (stack : List (Activation σ)) (request : RequestId)
    (target : Target) : Sealed (processParts w stack request target) := by
  cases target with
  | endpoint id => exact sealed_nil
  | service id =>
    unfold processParts
    dsimp only
    split
    · split
      · exact sealed_nil
      · exact sealed_executeParts _ _ _ _ _
    · exact sealed_nil

theorem sealed_fireParts (w : World σ) (stack : List (Activation σ)) (id : ClientId)
    (scope : ScopeId) : Sealed (fireParts w stack id scope) := by
  unfold fireParts
  split
  · exact sealed_nil
  · dsimp only
    split
    · exact sealed_nil
    · exact World.parts_own _ _ _ _ _

theorem Turn.sealed_parts (t : Turn σ) : Sealed t.parts := by
  unfold Turn.parts
  split
  · exact sealed_processParts _ _ _ _
  · exact World.parts_own _ _ _ _ _
  · exact sealed_fireParts _ _ _ _
  · exact sealed_nil

/-- After a part that does not resolve, a transition only evaluates what is inside of it. -/
theorem sealed_parts (m : Machine σ) : Sealed m.parts := by
  unfold parts
  split
  · exact World.parts_own _ _ _ _ _
  · split
    · exact sealed_nil
    · exact sealed_executeParts _ _ _ _ _
  · exact sealed_processParts _ _ _ _
  · exact World.ofSteps_own _ _ _ _ _ _
  · cases m.turn? with
    | none => exact sealed_nil
    | some t => exact t.sealed_parts

end Machine
end Callflow
