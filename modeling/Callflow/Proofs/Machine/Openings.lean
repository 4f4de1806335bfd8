import Callflow.Proofs.Machine.Parts
import Callflow.Proofs.Machine.Settlement
import Callflow.Proofs.World.Placement

/-!
# Evaluations that begin

A machine tells by its focus and its stack which evaluation its next transition begins, if it begins
one (`Machine.opening?`): an activity that the host evaluates, the body of an operation that is
invoked (`Invocation`), or the body of a client that fires. All that is evaluated later goes on with
what has begun before. So at every moment of a life, whatever waits or is handed an outcome stands
in its place in one of the evaluations that have begun, and every activity is evaluated in its place
there (`Life.placed`).

A transition changes what services offer only by the definitions among its parts (`Stays.defines`).
-/

namespace Callflow

open World (Rests Settled)

variable {σ : Type}

/-- The operation that a service offers under a name. -/
def Store.offered? (s : Store) (id : ServiceId) (name : String) : Option Operation :=
  (s.service? id).bind fun service => service.operations.find? name

/-- All services offer the same. -/
def Store.OffersAs (s t : Store) : Prop := ∀ id name, t.offered? id name = s.offered? id name

/-- A new service offers nothing yet. -/
theorem Store.offersAs_newService (s : Store) (name : String) (parent : Option ScopeId) :
    s.OffersAs (s.newService name parent).1 := by
  intro id symbol
  have hpush : (s.newService name parent).1.service? id =
      (s.services.push ⟨name, ⟨s.scopes.size⟩, .empty⟩)[id.index]? := rfl
  have hold : s.service? id = s.services[id.index]? := rfl
  rw [offered?, offered?, hpush, hold, Array.getElem?_push]
  split
  · rename_i hnew
    rw [hnew, Array.getElem?_eq_none le_rfl]
    rfl
  · rfl

/-- Values that the host asks for offer nothing. -/
theorem Store.make_defines (s : Store) (scope : ScopeId) (draft : Draft) :
    s.Grows (s.make scope draft).1 ∧ s.OffersAs (s.make scope draft).1 := by
  cases draft with
  | service name => exact ⟨(Move.service _ _).grows, s.offersAs_newService name (some scope)⟩
  | endpoint name => exact ⟨(Move.endpoint _ _).grows, fun _ _ => rfl⟩
  | client name period => exact ⟨(Move.client _ _ _).grows, fun _ _ => rfl⟩
  | _ => exact ⟨.refl s, fun _ _ => rfl⟩

/-- An operation whose body is about to be evaluated, as execution goes: in which world and for
which callers, inside of which scope, and for whom. -/
structure Invocation (σ : Type) where
  world : World σ
  stack : List (Activation σ)
  scope : ScopeId
  op : Operation
  next : Continuation σ

namespace Invocation

/-- The scope that is made for the invocation. -/
def fresh (v : Invocation σ) : ScopeId := ⟨v.world.store.scopes.size⟩

/-- The evaluation that begins. -/
def opening (v : Invocation σ) : Opening σ :=
  ⟨v.op.body, v.fresh, .operation v.op.owner v.op.name, v.next⟩

/-- The world in which the body is evaluated. -/
def entered (v : Invocation σ) : World σ :=
  { v.world with store := (v.world.store.newScope (some v.scope) none).1 }

def result (v : Invocation σ) : Machine σ := Machine.execute v.world v.stack v.scope v.op v.next

def parts (v : Invocation σ) : List (Part σ) :=
  Machine.executeParts v.world v.stack v.scope v.op v.next

end Invocation

namespace Machine

/-! ## What begins -/

/-- The invocation by which a target processes a request. -/
def processed? (w : World σ) (stack : List (Activation σ)) (request : RequestId) :
    Target → Option (Invocation σ)
  | .endpoint _ => none
  | .service id =>
    match w.store.service? id, w.request? request with
    | some service, some r =>
      (service.operations.find? r.operation).map fun op =>
        ⟨w, .hold [.service id] :: stack, service.scope, op, .reply request⟩
    | _, _ => none

/-- The invocation with which the next transition begins. -/
def invokes? (m : Machine σ) : Option (Invocation σ) :=
  match m.focus with
  | .code (.execute id op resume next) =>
    (m.world.store.service? id).map fun service =>
      ⟨m.world, .hold [.service id] :: .await next :: m.stack, service.scope, op, .host resume⟩
  | .code (.process request target next) => processed? m.world (.await next :: m.stack) request target
  | _ =>
    m.turn?.bind fun t =>
      match t.event.work with
      | .deliver request target => processed? t.world t.stack request target
      | _ => none

/-- The evaluation of a client's body with which the next transition begins. -/
def fires? (m : Machine σ) : Option (Opening σ) :=
  m.turn?.bind fun t =>
    match t.event.work with
    | .fire id scope =>
      (t.world.store.client? id).map fun client =>
        ⟨client.body, scope, .client client.name, .complete id⟩
    | _ => none

/-- The evaluation with which the next transition begins. -/
def opening? (m : Machine σ) : Option (Opening σ) :=
  match m.focus with
  | .code (.evaluate activity caller resume _) =>
    some ⟨activity, World.root, caller, .host resume⟩
  | _ => (m.invokes?.map Invocation.opening).or m.fires?

/-! ## Staying in place -/

/-- A continuation stands in its place in one of some evaluations. -/
def Seats (O : Opening σ → Prop) (log : Part σ → Prop) (s : Store) (k : Continuation σ) : Prop :=
  ∃ o, O o ∧ o.Stood log s k

theorem lasting_seats (O : Opening σ → Prop) (log : Part σ → Prop) : Lasting (Seats O log) := by
  rintro s t k hgrows ⟨o, ho, hstood⟩
  exact ⟨o, ho, o.lasting_stood log _ _ _ hgrows hstood⟩

/-- Between a world and a machine, nothing has begun to wait or is handed an outcome but what stands
in its place in one of some evaluations; some parts have been evaluated in their places there; and
what services offer has changed only by what these define. -/
structure Stays (O : Opening σ → Prop) (log : Part σ → Prop) (w : World σ) (ps : List (Part σ))
    (n : Machine σ) : Prop where
  rests : Rests (Seats O log) w n.world
  focus : ∀ k outcome, n.focus = .resume k outcome → Seats O log n.world.store k
  placed : ∀ p ∈ ps, ∃ o around, O o ∧ p.Placed o log around
  defines : ∃ s, w.store.OffersAs s ∧ Chain s ps n.world.store

namespace Stays

variable {O : Opening σ → Prop} {log : Part σ → Prop} {w v : World σ} {n : Machine σ}
  {ps : List (Part σ)} {stack : List (Activation σ)}

/-- Nothing is evaluated, and no outcome is handed on. -/
theorem of_rests (h : Rests (Seats O log) w n.world) (hoffers : w.store.OffersAs n.world.store)
    (hfocus : ∀ k outcome, n.focus ≠ .resume k outcome) : Stays O log w [] n where
  rests := h
  focus := fun k outcome hk => absurd hk (hfocus k outcome)
  placed := by simp
  defines := ⟨n.world.store, hoffers, .nil⟩

/-- The world does not change. -/
theorem of_same {focus : Focus σ} (hfocus : ∀ k outcome, focus ≠ .resume k outcome) :
    Stays O log w [] ⟨w, stack, focus⟩ :=
  of_rests (.refl _ w) (fun _ _ => rfl) hfocus

/-- An outcome is handed on. -/
theorem of_resume {k : Continuation σ} {outcome : Outcome} (h : Seats O log w.store k) :
    Stays O log w [] ⟨w, stack, .resume k outcome⟩ where
  rests := .refl _ w
  focus := by
    rintro _ _ ⟨⟩
    exact h
  placed := by simp
  defines := ⟨w.store, fun _ _ => rfl, .nil⟩

theorem before (h : Stays O log v ps n) (hrests : Rests (Seats O log) w v)
    (hoffers : w.store.OffersAs v.store) : Stays O log w ps n where
  rests := hrests.trans (lasting_seats O log) h.rests
  focus := h.focus
  placed := h.placed
  defines := by
    rcases h.defines with ⟨s, hs, hchain⟩
    exact ⟨s, fun id name => (hs id name).trans (hoffers id name), hchain⟩

/-- An evaluation that stays in its place, for a continuation that stands there as well. -/
theorem proceed {o : Opening σ} (ho : O o) {e : Evaluation σ} (h : Settled o log w ps e.1)
    {next : Continuation σ} (hnext : o.Stood log w.store next)
    (hchain : Chain w.store ps e.1.store) :
    Stays O log w ps (Machine.proceed stack next e) where
  rests := by
    rw [proceed_world]
    exact ⟨h.rests.grows, fun e he => (h.rests.events e he).imp_right fun hsits =>
      ⟨fun k hk => ⟨o, ho, hsits.pursues k hk⟩, hsits.fires⟩, fun id k hk =>
      (h.rests.waiters id k hk).imp_right fun hstood => ⟨o, ho, hstood⟩⟩
  focus := by
    intro k outcome hfocus
    have hlater := o.lasting_stood log _ _ _ h.rests.grows hnext
    rw [proceed_world]
    unfold Machine.proceed at hfocus
    split at hfocus <;> cases hfocus
    exact ⟨o, ho, hlater⟩
  placed := by
    intro p hp
    rcases h.placed p hp with ⟨around, hplaced⟩
    exact ⟨o, around, ho, hplaced⟩
  defines := by
    rw [proceed_world]
    exact ⟨w.store, fun _ _ => rfl, hchain⟩

/-- An evaluation begins. -/
theorem evaluate {o : Opening σ} (ho : O o) (hdepth : o.next.depth = 0)
    (hscope : ∃ scope, w.store.scope? o.scope = some scope)
    (hlog : ∀ p ∈ World.parts (inUse stack) o.root (.plain o.scope o.caller) o.next w, log p) :
    Stays O log w (World.parts (inUse stack) o.root (.plain o.scope o.caller) o.next w)
      (Machine.evaluate w stack o.root (.plain o.scope o.caller) o.next) := by
  have hbuilt : o.Built w.store [] := ⟨hscope, by simp⟩
  have hnext : o.Stands log [] o.next := .base rfl hdepth
  exact proceed ho (World.evaluate_placed (inUse stack) o.root o.next w []
    ⟨.root, rfl, hnext, hbuilt⟩ hlog) ⟨[], hnext, hbuilt⟩ (World.evaluate_chain ..)

theorem invoke {v : Invocation σ} (ho : O v.opening) (hdepth : v.next.depth = 0)
    (hlog : ∀ p ∈ v.parts, log p) : Stays O log v.world v.parts v.result := by
  have hfresh : ∃ scope, v.entered.store.scope? v.fresh = some scope :=
    ⟨_, Array.getElem?_push_size⟩
  exact (evaluate (w := v.entered) ho hdepth hfresh hlog).before
    (.define (Store.Move.scope (some v.scope) none).grows) fun _ _ => rfl

end Stays

/-- What is evaluated when a continuation is handed an outcome. -/
def resumeParts (w : World σ) (stack : List (Activation σ)) :
    Continuation σ → Outcome → List (Part σ)
  | .steps rest frame next, .success value =>
    World.parts.ofSteps (inUse stack) rest frame value next w
  | _, _ => []

theorem parts_resume (w : World σ) (stack : List (Activation σ)) (k : Continuation σ)
    (outcome : Outcome) : parts ⟨w, stack, .resume k outcome⟩ = resumeParts w stack k outcome := by
  cases k <;> cases outcome <;> rfl

theorem processParts_eq (w : World σ) (stack : List (Activation σ)) (request : RequestId)
    (target : Target) : processParts w stack request target =
      ((processed? w stack request target).map Invocation.parts).getD [] := by
  cases target with
  | endpoint id => rfl
  | service id =>
    cases hservice : w.store.service? id with
    | none => simp [processParts, processed?, hservice]
    | some service =>
      cases hrequest : w.request? request with
      | none => simp [processParts, processed?, hservice, hrequest]
      | some r =>
        cases hop : service.operations.find? r.operation with
        | none => simp [processParts, processed?, hservice, hrequest, hop]
        | some op =>
          simp only [processParts, processed?, hservice, hrequest, hop]
          rfl

theorem process_of_processed {w : World σ} {stack : List (Activation σ)} {request : RequestId}
    {target : Target} {v : Invocation σ} (h : processed? w stack request target = some v) :
    process w stack request target = v.result ∧ v.world = w ∧ v.next = .reply request := by
  cases target with
  | endpoint id => cases h
  | service id =>
    simp only [processed?] at h
    split at h
    · rename_i service r hservice hrequest
      rcases Option.map_eq_some_iff.1 h with ⟨op, hop, rfl⟩
      refine ⟨?_, rfl, rfl⟩
      simp only [process, hservice, hrequest, hop]
      rfl
    · cases h

namespace Stays

variable {O : Opening σ → Prop} {log : Part σ → Prop} {w v : World σ} {n : Machine σ}
  {ps : List (Part σ)} {stack : List (Activation σ)}

theorem process {request : RequestId} {target : Target}
    (hO : ∀ v, processed? w stack request target = some v → O v.opening)
    (hlog : ∀ p ∈ processParts w stack request target, log p) :
    Stays O log w (processParts w stack request target)
      (Machine.process w stack request target) := by
  rw [processParts_eq] at hlog ⊢
  cases hprocessed : processed? w stack request target with
  | some v =>
    rcases process_of_processed hprocessed with ⟨hresult, hworld, hnext⟩
    rw [hprocessed] at hlog
    rw [hresult, ← hworld]
    exact invoke (hO v hprocessed) (by rw [hnext]; rfl) hlog
  | none =>
    cases target with
    | endpoint id => exact of_same (by rintro _ _ ⟨⟩)
    | service id =>
      simp only [Machine.process]
      simp only [processed?] at hprocessed
      split
      · rename_i service r hservice hrequest
        simp only [hservice, hrequest, Option.map_eq_none_iff] at hprocessed
        rw [hprocessed]
        exact of_same (by rintro _ _ ⟨⟩)
      · exact of_same (by rintro _ _ ⟨⟩)

theorem fire {id : ClientId} {scope : ScopeId} (hscope : ∃ found, w.store.scope? scope = some found)
    (hO : ∀ client, w.store.client? id = some client →
      O ⟨client.body, scope, .client client.name, .complete id⟩)
    (hlog : ∀ p ∈ fireParts w stack id scope, log p) :
    Stays O log w (fireParts w stack id scope) (Machine.fire w stack id scope) := by
  unfold fireParts at hlog ⊢
  unfold Machine.fire
  cases hclient : w.store.client? id with
  | none => exact of_same (by rintro _ _ ⟨⟩)
  | some client =>
    have hcounted : Rests (Seats O log) w { w with store := w.store.modifyClient id fun c =>
        { c with firings := c.firings + 1 } } := .define (Store.Move.count _ _).grows
    have hthere : ∃ found, (w.store.modifyClient id fun c =>
        { c with firings := c.firings + 1 }).scope? scope = some found := hscope
    have hoffers : w.store.OffersAs (w.store.modifyClient id fun c =>
        { c with firings := c.firings + 1 }) := fun _ _ => rfl
    rw [hclient] at hlog
    dsimp only at hlog ⊢
    generalize hw : ({ w with store := w.store.modifyClient id fun c =>
      { c with firings := c.firings + 1 } } : World σ) = counted at hcounted hlog ⊢
    have hstore : counted.store = w.store.modifyClient id fun c =>
        { c with firings := c.firings + 1 } := by rw [← hw]
    rw [← hstore] at hthere hoffers
    cases hs : counted.schedule client.period .clientFiring (.fire id scope) with
    | error cause => exact of_rests hcounted hoffers (by rintro _ _ ⟨⟩)
    | ok scheduled =>
      rcases scheduled with ⟨v, event⟩
      have hsame := World.schedule_store hs
      rw [hs] at hlog
      have hfired : Rests (Seats O log) counted v := by
        refine .schedule hs ⟨by simp [Callback.pursued?], ?_⟩
        rintro _ _ ⟨⟩
        exact hthere
      have hbody : Stays O log v _ (Machine.evaluate v (.hold [.scope scope] :: stack) client.body
          (.plain scope (.client client.name)) (.complete id)) :=
        evaluate (hO client hclient) rfl (by rw [hsame]; exact hthere) hlog
      refine hbody.before (hcounted.trans (lasting_seats O log) hfired) ?_
      rw [hsame]
      exact hoffers

theorem complete (id : ClientId) (outcome : Outcome) :
    Stays O log w [] (Machine.complete w stack id outcome) := by
  cases outcome with
  | success value =>
    unfold Machine.complete
    dsimp only
    split <;> exact of_rests (.of_same (Store.Move.count _ _).grows rfl fun _ _ hk => hk)
      (fun _ _ => rfl) (by rintro _ _ ⟨⟩)
  | failure cause =>
    unfold Machine.complete
    dsimp only
    split <;> exact of_rests (.of_same (Store.Move.count _ _).grows rfl fun _ _ hk => hk)
      (fun _ _ => rfl) (by rintro _ _ ⟨⟩)

/-- A reply hands an outcome to whoever has waited. -/
theorem reply {request : RequestId}
    (hwaiter : ∀ k, w.waiting? request = some k → Seats O log w.store k)
    (failure : Option Failure) :
    Stays O log w [] (Machine.reply w stack request failure) := by
  have hstore := World.settle_store w request failure
  refine ⟨?_, ?_, by simp, ?_⟩
  · rw [reply_world]
    exact .settle w request failure
  · intro k outcome hfocus
    rw [reply_world, hstore]
    cases hr : w.request? request with
    | none =>
      unfold Machine.reply at hfocus
      rw [World.settle_absent failure hr] at hfocus
      cases failure <;> cases hfocus
    | some r =>
      cases hp : r.isPending with
      | false =>
        rw [reply_stale stack failure hr hp] at hfocus
        cases hfocus
      | true =>
        rw [reply_pending stack failure hr hp] at hfocus
        refine hwaiter k ?_
        dsimp only at hfocus
        unfold Waiter.focus at hfocus
        split at hfocus <;> cases hfocus
        rename_i hwaiter
        rw [World.waiting?, hwaiter]
        rfl
  · rw [reply_world, hstore]
    exact ⟨w.store, fun _ _ => rfl, .nil⟩

/-! ## Going on -/

/-- An outcome is handed to what stands inside of an evaluation. -/
theorem inner {k : Continuation σ} {outcome : Outcome} (h : Seats O log w.store k)
    (hdepth : k.depth ≠ 0) (hlog : ∀ p ∈ resumeParts w stack k outcome, log p) :
    Stays O log w (resumeParts w stack k outcome) (Machine.resume w stack k outcome) := by
  rcases h with ⟨o, ho, around, hstands, hbuilt⟩
  cases hstands with
  | base _ hbase => exact absurd hbase hdepth
  | steps hnext hframe hlies =>
    subst hframe
    cases outcome with
    | success value =>
      exact proceed ho (World.evaluateSteps_placed _ _ value _ w around hlies hnext hbuilt hlog)
        ⟨around, hnext, hbuilt⟩ (World.evaluateSteps_chain ..)
    | failure cause => exact of_resume ⟨o, ho, around, hnext, hbuilt⟩
  | service hnext _ _ _ _ _ _ =>
    cases outcome <;> exact of_resume ⟨o, ho, _, hnext, hbuilt.tail⟩
  | ignore hnext => cases outcome <;> exact of_resume ⟨o, ho, around, hnext, hbuilt⟩
  | @retry _ state body frame next hnext hframe hlies =>
    have hstore := World.afterAttempt_store w state body frame next [] outcome
    have hsettled : Settled o log w [] (w.afterAttempt state body frame next [] outcome).1 :=
      ⟨.afterAttempt ⟨around, .retry hnext hframe hlies, hbuilt⟩ [] outcome, nofun⟩
    refine proceed ho hsettled ⟨around, hnext, hbuilt⟩ ?_
    rw [hstore]
    exact .nil

/-- A retry makes its next attempt. -/
theorem attempt {state : RetryState} {body : Activity} {frame : Frame} {next : Continuation σ}
    (h : Seats O log w.store (.retry state body frame next))
    (hlog : ∀ p ∈ World.parts (inUse stack) body frame (.retry state.begin body frame next) w,
      log p) :
    Stays O log w (World.parts (inUse stack) body frame (.retry state.begin body frame next) w)
      (Machine.proceed stack next (World.attempt (inUse stack) state body frame next w)) := by
  rcases h with ⟨o, ho, around, hstands, hbuilt⟩
  cases hstands with
  | base _ hbase => cases hbase
  | retry hnext hframe hlies =>
    subst hframe
    have hretry : o.Stands log around (.retry state.begin body (o.frame around) next) :=
      .retry hnext rfl hlies
    have hchain := World.evaluate_chain (inUse stack) body (o.frame around)
      (.retry state.begin body (o.frame around) next) w
    rw [← World.attempt_store] at hchain
    exact proceed ho (World.attempt_placed hretry hbuilt
      (World.evaluate_placed _ _ _ w around ⟨hlies, rfl, hretry, hbuilt⟩ hlog))
      ⟨around, hnext, hbuilt⟩ hchain

theorem resume {k : Continuation σ} {outcome : Outcome}
    (hanswer : ∀ a next, answer? ⟨w, stack, .resume k outcome⟩ = some a →
      w.waiting? a.request = some next → Seats O log w.store next)
    (h : k.depth ≠ 0 → Seats O log w.store k) (hlog : ∀ p ∈ resumeParts w stack k outcome, log p) :
    Stays O log w (resumeParts w stack k outcome) (Machine.resume w stack k outcome) := by
  cases k with
  | host code => exact of_same (by rintro _ _ ⟨⟩)
  | reply request => cases outcome <;> exact reply (fun next => hanswer _ next rfl) _
  | complete client => exact complete client outcome
  | _ => exact inner (h (Nat.succ_ne_zero _)) (Nat.succ_ne_zero _) hlog

theorem dispatch {t : Turn σ} (hanswer : ∀ a k, t.answer? = some a →
      t.world.waiting? a.request = some k → Seats O log t.world.store k)
    (hsits : t.event.work.Sits (Seats O log) t.world.store)
    (hserves : ∀ request target v, t.event.work = .deliver request target →
      processed? t.world t.stack request target = some v → O v.opening)
    (hfires : ∀ id scope client, t.event.work = .fire id scope →
      t.world.store.client? id = some client →
        O ⟨client.body, scope, .client client.name, .complete id⟩)
    (hlog : ∀ p ∈ t.parts, log p) :
    Stays O log t.world t.parts (Machine.dispatch t.world t.stack t.event.work) := by
  unfold Turn.parts at hlog ⊢
  cases hwork : t.event.work with
  | host code => exact of_same (by rintro _ _ ⟨⟩)
  | deliver request target =>
    rw [hwork] at hlog
    exact process (fun v hv => hserves request target v hwork hv) hlog
  | expire request deadline =>
    simp only [Machine.dispatch]
    split
    · rename_i r hr
      split
      · rename_i hpending
        have hreplies : t.answer? =
            some ⟨t.world, t.stack, request, some (.timedOut deadline)⟩ := by
          simp only [Turn.answer?, hwork, hr, Option.any_some, hpending, if_true]
        exact reply (fun k => hanswer _ k hreplies) _
      · exact of_same (by rintro _ _ ⟨⟩)
    · exact of_same (by rintro _ _ ⟨⟩)
  | wake next => exact of_resume (hsits.pursues next (by rw [hwork]; rfl))
  | attempt state body frame next =>
    rw [hwork] at hlog
    exact attempt (hsits.pursues _ (by rw [hwork]; rfl)) hlog
  | fire client scope =>
    rw [hwork] at hlog
    exact fire (hsits.fires client scope hwork) (fun c hc => hfires client scope c hwork hc) hlog
  | reply request failure =>
    have hreplies : t.answer? = some ⟨t.world, t.stack, request, failure⟩ := by
      simp only [Turn.answer?, hwork]
    exact reply (fun k => hanswer _ k hreplies) failure

theorem execScript {script : Script σ} (hroot : ∃ scope, w.store.scope? World.root = some scope)
    (hanswer : ∀ a k, answer? ⟨w, stack, .code script⟩ = some a →
      w.waiting? a.request = some k → Seats O log w.store k)
    (hO : ∀ o, opening? ⟨w, stack, .code script⟩ = some o → O o)
    (hlog : ∀ p ∈ parts ⟨w, stack, .code script⟩, log p) :
    Stays O log w (parts ⟨w, stack, .code script⟩) (Machine.execScript w stack script) := by
  have hplan {delay : Time} {kind : EventKind} {work : Callback σ} {v : World σ} {event : EventId}
      (h : w.schedule delay kind work = .ok (v, event)) (hwork : work.pursued? = none)
      (hfire : ∀ id scope, work ≠ .fire id scope) (code : Script σ) :
      Stays O log w [] ⟨v, stack, .code code⟩ := by
    refine of_rests (.schedule h (Callback.sits_of_none hwork hfire)) ?_ (by rintro _ _ ⟨⟩)
    rw [World.schedule_store h]
    exact fun _ _ => rfl
  cases script with
  | schedule delay kind callback next =>
    simp only [Machine.execScript]
    split
    · rename_i hs
      exact hplan hs rfl (by simp) _
    · exact of_same (by rintro _ _ ⟨⟩)
  | replyAfter delay request failure next =>
    simp only [Machine.execScript]
    split
    · rename_i hs
      exact hplan hs rfl (by simp) _
    · exact of_same (by rintro _ _ ⟨⟩)
  | evaluate activity caller resume next => exact evaluate (hO _ rfl) rfl hroot hlog
  | execute id op resume next =>
    simp only [Machine.execScript, parts] at hlog ⊢
    cases hservice : w.store.service? id with
    | none => exact of_same (by rintro _ _ ⟨⟩)
    | some service =>
      rw [hservice] at hlog
      let v : Invocation σ :=
        ⟨w, .hold [.service id] :: .await next :: stack, service.scope, op, .host resume⟩
      exact invoke (v := v) (hO _ (by simp [opening?, invokes?, hservice, v])) rfl hlog
  | define symbol draft next =>
    have hmade := Store.make_defines w.store World.root draft
    exact of_rests (.of_same (hmade.1.trans (Store.Move.bind _ _ _).grows) rfl fun _ _ hk => hk)
      hmade.2 (by rintro _ _ ⟨⟩)
  | bind symbol name transit handler next =>
    exact of_rests (.of_same ((Store.Move.endpoint name transit).grows.trans
      (Store.Move.bind _ _ _).grows) rfl fun _ _ hk => hk) (fun _ _ => rfl) (by rintro _ _ ⟨⟩)
  | allocate next =>
    refine of_rests (.of_same (.refl _) rfl ?_) (fun _ _ => rfl) (by rintro _ _ ⟨⟩)
    intro id k hk
    have hpush : w.allocate.1.waiters = w.waiters.push .nobody := rfl
    change w.allocate.1.waiting? id = some k at hk
    rw [World.waiting?, World.waiter_of_push hpush] at hk
    split at hk
    · cases hk
    · exact hk
  | request caller operation deadline succeeded failed next =>
    exact of_rests (.issue w caller operation deadline (by rintro _ ⟨⟩)) (fun _ _ => rfl)
      (by rintro _ _ ⟨⟩)
  | send request target next =>
    have hsent := Rests.send (lasting_seats O log) w request target
    have hstore := World.send_store w request target
    simp only [Machine.execScript]
    split
    · rename_i hs
      rw [hs] at hsent hstore
      exact of_rests hsent (by rw [hstore]; exact fun _ _ => rfl) (by rintro _ _ ⟨⟩)
    · rename_i hs
      rw [hs] at hsent hstore
      exact of_rests hsent (by rw [hstore]; exact fun _ _ => rfl) (by rintro _ _ ⟨⟩)
  | process request target next =>
    refine process (fun v hv => hO _ ?_) hlog
    simp [opening?, invokes?, hv]
  | reply request failure next => exact reply (fun k => hanswer _ k rfl) failure
  | _ =>
    exact of_rests (.of_same (.refl _) rfl fun _ _ hk => hk) (fun _ _ => rfl) (by rintro _ _ ⟨⟩)

theorem back {result : Except SimulationError Unit} {caller : Activation σ}
    (hturn : turn? ⟨w, caller :: stack, .back result⟩ = none) :
    Stays O log w [] (Machine.back w stack result caller) := by
  cases caller with
  | run horizon count next =>
    cases result with
    | error e => exact of_same (by rintro _ _ ⟨⟩)
    | ok _ =>
      unfold Machine.back continueRun
      dsimp only
      split
      · exact of_same (by rintro _ _ ⟨⟩)
      · rename_i hspent
        cases htake : w.agenda.take? horizon with
        | none =>
          exact of_rests (.of_same (.refl _) (Agenda.advance_pending w.agenda horizon).1
            fun _ _ hk => hk) (fun _ _ => rfl) (by rintro _ _ ⟨⟩)
        | some taken => simp [turn?, hspent, htake] at hturn
  | successHook client hook =>
    simp only [Machine.back, restoreSuccess]
    split <;>
      exact of_rests (.of_same (.refl _) rfl fun _ _ hk => hk) (fun _ _ => rfl) (by rintro _ _ ⟨⟩)
  | failureHook client hook =>
    simp only [Machine.back, restoreFailure]
    split <;>
      exact of_rests (.of_same (.refl _) rfl fun _ _ hk => hk) (fun _ _ => rfl) (by rintro _ _ ⟨⟩)
  | _ => exact of_same (by rintro _ _ ⟨⟩)

end Stays

/-! ## Transitions -/

/-- Whatever waits in a machine, or is handed an outcome by it, stands in its place in one of some
evaluations, and clients fire in scopes that there are. -/
structure Seated (O : Opening σ → Prop) (log : Part σ → Prop) (m : Machine σ) : Prop where
  root : ∃ scope, m.world.store.scope? World.root = some scope
  focus : ∀ k outcome, m.focus = .resume k outcome → Seats O log m.world.store k
  events : ∀ e ∈ m.world.agenda.pending, e.work.Sits (Seats O log) m.world.store
  waiters : ∀ id k, m.world.waiting? id = some k → Seats O log m.world.store k

section

variable {O P : Opening σ → Prop} {log more : Part σ → Prop} {m b c : Machine σ}

theorem Seats.mono (hO : ∀ o, O o → P o) (hlog : ∀ p, log p → more p) {s : Store}
    {k : Continuation σ} (h : Seats O log s k) : Seats P more s k := by
  rcases h with ⟨o, ho, around, hstands, hbuilt⟩
  exact ⟨o, hO o ho, around, hstands.mono hlog, hbuilt⟩

theorem Seated.mono (hO : ∀ o, O o → P o) (hlog : ∀ p, log p → more p) (h : Seated O log m) :
    Seated P more m where
  root := h.root
  focus := fun k outcome hfocus => (h.focus k outcome hfocus).mono hO hlog
  events := fun e he =>
    ⟨fun k hk => ((h.events e he).pursues k hk).mono hO hlog, (h.events e he).fires⟩
  waiters := fun id k hk => (h.waiters id k hk).mono hO hlog

theorem Seated.extend {past : List (Machine σ)}
    (h : Seated (· ∈ past.filterMap opening?) (· ∈ past.flatMap parts) m) (b : Machine σ) :
    Seated (· ∈ (past ++ [b]).filterMap opening?) (· ∈ (past ++ [b]).flatMap parts) m := by
  refine h.mono ?_ ?_
  · intro o ho
    rw [List.filterMap_append]
    exact List.mem_append_left _ ho
  · intro p hp
    rw [List.flatMap_append]
    exact List.mem_append_left _ hp

/-- Where what there is stands in its place, it still does so after a transition that stays. -/
theorem Seated.after {ps : List (Part σ)} (h : Seated O log b) (hstays : Stays O log b.world ps c) :
    Seated O log c where
  root := by
    rcases h.root with ⟨scope, hscope⟩
    rcases hstays.rests.grows.scope _ _ hscope with ⟨later, hlater, -⟩
    exact ⟨later, hlater⟩
  focus := hstays.focus
  events := by
    intro e he
    rcases hstays.rests.events e he with hold | hnew
    · exact (h.events e hold).grows (lasting_seats O log) hstays.rests.grows
    · exact hnew
  waiters := by
    intro id k hk
    rcases hstays.rests.waiters id k hk with hold | hnew
    · exact lasting_seats O log _ _ _ hstays.rests.grows (h.waiters id k hold)
    · exact hnew

/-- What the next transition of a machine begins, or goes on with, stands in its place in one of some
evaluations. -/
structure Involves (O : Opening σ → Prop) (log : Part σ → Prop) (m : Machine σ) : Prop where
  root : ∃ scope, m.world.store.scope? World.root = some scope
  opening : ∀ o, m.opening? = some o → O o
  -- An outcome is handed to what stands inside of an evaluation.
  focus : ∀ k outcome, m.focus = .resume k outcome → k.depth ≠ 0 → Seats O log m.world.store k
  event : ∀ e, m.taken? = some e → e.work.Sits (Seats O log) m.world.store
  answer : ∀ a k, m.answer? = some a → m.world.waiting? a.request = some k →
    Seats O log m.world.store k

/-- Where all that there is stands in its place, so does what a transition goes on with. -/
theorem Seated.involves (h : Seated O log m) (hO : ∀ o, m.opening? = some o → O o) :
    Involves O log m where
  root := h.root
  opening := hO
  focus := fun k outcome hfocus _ => h.focus k outcome hfocus
  event := fun e he => h.events e (taken?_spec he).1
  answer := fun a k _ hk => h.waiters a.request k hk

/-- An event is carried out where what it goes on with stands in its place. -/
theorem Taking.stays {t : Turn σ} (htaking : Taking b t) (h : Involves O log b)
    (hlog : ∀ p ∈ t.parts, log p) :
    Stays O log b.world t.parts (dispatch t.world t.stack t.event.work) := by
  have hstore := htaking.store
  rcases htaking.take with ⟨horizon, agenda, htake, hworld⟩
  rcases Agenda.take?_eq_some htake with ⟨rest, hpending, -, rfl⟩
  have hopening {o : Opening σ} (ho : b.invokes?.map Invocation.opening = some o ∨
      b.invokes? = none ∧ b.fires? = some o) : O o := by
    refine h.opening o ?_
    simp only [opening?, htaking.focus, Option.or_eq_some_iff, Option.map_eq_none_iff]
    exact ho
  have hanswer : ∀ a k, t.answer? = some a → t.world.waiting? a.request = some k →
      Seats O log t.world.store k := by
    intro a k ha hk
    rw [← htaking.answer] at ha
    rw [hworld] at hk ⊢
    exact h.answer a k ha hk
  have hentered : Rests (Seats O log) b.world t.world := by
    refine ⟨by rw [hstore]; exact .refl _, ?_, by rw [hworld]; exact fun _ _ hk => Or.inl hk⟩
    intro e he
    rw [hworld] at he
    rw [hpending]
    exact Or.inl (List.mem_cons_of_mem _ he)
  refine Stays.before (.dispatch hanswer ?_ ?_ ?_ hlog) hentered ?_
  · rw [hstore]
    exact h.event t.event (by rw [taken?, htaking.turn]; rfl)
  · intro request target v hwork hv
    refine hopening (.inl ?_)
    simp [invokes?, htaking.focus, htaking.turn, hwork, hv]
  · intro id scope client hwork hclient
    refine hopening (.inr ⟨?_, ?_⟩)
    · simp [invokes?, htaking.focus, htaking.turn, hwork]
    · simp [fires?, htaking.turn, hwork, hclient]
  · rw [hstore]
    exact fun _ _ => rfl

/-- A machine that has returned from everything evaluates nothing. -/
theorem parts_of_step_none (h : m.step = none) : m.parts = [] := by
  rcases m with ⟨w, stack, focus⟩
  cases focus with
  | code script => cases h
  | resume next outcome => cases h
  | crash cause => rfl
  | back result =>
    cases stack with
    | nil => cases result <;> rfl
    | cons caller stack => cases h

/-- A transition, or a call of the host. -/
theorem Next.stays (hn : Next b c) (h : Involves O log b) (hlog : ∀ p ∈ b.parts, log p) :
    Stays O log b.world b.parts c := by
  cases hn with
  | call script hnone =>
    rw [parts_of_step_none hnone]
    exact .of_same (by rintro _ _ ⟨⟩)
  | step hs =>
    cases hturn : b.turn? with
    | some t =>
      rcases turn?_spec hturn with ⟨htaking, hstep⟩
      rw [hstep] at hs
      cases hs
      have hparts : b.parts = t.parts := by
        simp only [parts, htaking.focus, hturn, Option.map_some, Option.getD_some]
      rw [hparts] at hlog ⊢
      exact htaking.stays h hlog
    | none =>
      rcases b with ⟨w, stack, focus⟩
      cases focus with
      | code script =>
        cases hs
        exact .execScript h.root h.answer h.opening hlog
      | resume next outcome =>
        cases hs
        rw [parts_resume] at hlog ⊢
        exact .resume h.answer (h.focus next outcome rfl) hlog
      | back result =>
        have hparts : parts ⟨w, stack, .back result⟩ = [] := by
          simp only [parts, hturn, Option.map_none, Option.getD_none]
        rw [hparts]
        cases stack with
        | nil => cases hs
        | cons caller stack =>
          cases hs
          exact .back hturn
      | crash cause =>
        cases stack with
        | nil => cases hs
        | cons caller stack =>
          cases hs
          cases caller <;> exact .of_same (by rintro _ _ ⟨⟩)

/-- The same with what has begun and been evaluated in the past. -/
theorem Next.stays_on {past : List (Machine σ)} (hn : Next b c)
    (h : Seated (· ∈ past.filterMap opening?) (· ∈ past.flatMap parts) b) :
    Stays (· ∈ (past ++ [b]).filterMap opening?) (· ∈ (past ++ [b]).flatMap parts) b.world
      b.parts c := by
  refine hn.stays ((h.extend b).involves ?_) ?_
  · intro o ho
    rw [List.filterMap_append, List.mem_append]
    exact Or.inr (by simp [ho])
  · intro p hp
    rw [List.flatMap_append, List.mem_append, List.flatMap_singleton]
    exact Or.inr hp

end

/-! ## Lives -/

/-- At every moment of a life, whatever waits or is handed an outcome stands in its place in one of
the evaluations that have begun. -/
theorem Life.seated {config : SimulationConfig} {memory : σ} {past : List (Machine σ)}
    {m : Machine σ} (h : Life (idle (World.start config memory)) past m) :
    Seated (· ∈ past.filterMap opening?) (· ∈ past.flatMap parts) m := by
  induction h with
  | refl =>
    refine ⟨⟨_, rfl⟩, nofun, nofun, ?_⟩
    intro id k hk
    cases World.waiting?_lt hk
  | @next past b c _ hn ih => exact (ih.extend b).after (hn.stays_on ih)

/-- Every activity of a life is evaluated in its place, in one of the evaluations that have begun,
the last one perhaps in the same transition. -/
theorem Life.placed {config : SimulationConfig} {memory : σ} {past : List (Machine σ)}
    {b c : Machine σ} (h : Life (idle (World.start config memory)) past b) (hn : Next b c) :
    Stays (· ∈ (past ++ [b]).filterMap opening?) (· ∈ (past ++ [b]).flatMap parts) b.world
      b.parts c :=
  hn.stays_on h.seated

end Machine
end Callflow
