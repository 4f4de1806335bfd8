import Callflow.Proofs.Machine.Openings
import Callflow.Proofs.Machine.Rejection

/-!
# Where operations are registered

The definition of an operation registers it on the service that the innermost definition of a
service around it has made, as long as the body of this one is being evaluated, and on no other one.
What a service offers under a name is always what was registered last on it under this name
(`Life.offered`), and a request that is delivered runs the body of this. All of it is
`Life.operations_land`.
-/

namespace Callflow

variable {σ : Type}

/-- What a part registers, and on which service. -/
def Part.registers? (p : Part σ) : Option (ServiceId × Operation) :=
  match p.activity, p.frame.service with
  | .defineOperation name body, some id =>
    some (id, ⟨name, p.world.store.targetName (.service id), body⟩)
  | _, _ => none

/-- The last operation that was registered on a service under a name. -/
def latest? (id : ServiceId) (name : String) (registered : List (ServiceId × Operation)) :
    Option Operation :=
  (registered.reverse.find? fun r => r.1 = id ∧ r.2.name = name).map Prod.snd

theorem latest?_append (id : ServiceId) (name : String)
    (earlier later : List (ServiceId × Operation)) :
    latest? id name (earlier ++ later) = (latest? id name later).or (latest? id name earlier) := by
  rw [latest?, List.reverse_append, List.find?_append]
  exact Option.map_or

theorem latest?_single (id other : ServiceId) (name : String) (op : Operation) :
    latest? id name [(other, op)] = if other = id ∧ op.name = name then some op else none := by
  by_cases h : other = id ∧ op.name = name <;> simp [latest?, h]

namespace Store

/-- Registering an operation changes no other service. -/
theorem service?_register {s : Store} {id other : ServiceId} (op : Operation) (h : id ≠ other) :
    (s.register id op).service? other = s.service? other := by
  have hindex : id.index ≠ other.index := by
    intro hsame
    cases id
    cases other
    exact h (congrArg ServiceId.mk hsame)
  show (s.services.modify id.index _)[other.index]? = s.services[other.index]?
  rw [Array.getElem?_modify, if_neg hindex]

/-- Registering an operation changes what one service offers under one name. -/
theorem offered?_register {s : Store} {id : ServiceId} {service : Service}
    (hservice : s.service? id = some service) (op : Operation) (other : ServiceId) (name : String) :
    (s.register id op).offered? other name =
      if id = other ∧ op.name = name then some op else s.offered? other name := by
  by_cases hsame : id = other
  · subst hsame
    have hold : s.services[id.index]? = some service := hservice
    have hregistered : (s.register id op).service? id =
        some { service with operations := service.operations.insert op.name op } := by
      show (s.services.modify id.index _)[id.index]? = _
      rw [Array.getElem?_modify, if_pos rfl, hold]
      rfl
    rw [offered?, offered?, hregistered, hservice]
    simp only [Option.bind_some, Directory.find?_insert, true_and]
  · rw [offered?, service?_register op hsame, if_neg fun h => hsame h.1]
    rfl

end Store

/-- What services offer after a part has made its definition. -/
theorem Part.effect_offered {p : Part σ}
    (hthere : ∀ id, p.frame.service = some id → ∃ service, p.world.store.service? id = some service)
    (id : ServiceId) (name : String) :
    p.effect.offered? id name =
      (latest? id name p.registers?.toList).or (p.world.store.offered? id name) := by
  rcases p with ⟨w, inUse, activity, frame, next⟩
  cases activity with
  | defineService symbol body => exact w.store.offersAs_newService symbol (some frame.scope) id name
  | defineOperation symbol body =>
    cases hservice : frame.service with
    | none => simp [Part.effect, Part.registers?, hservice, latest?]
    | some other =>
      rcases hthere other hservice with ⟨service, hfound⟩
      simp only [Part.effect, Part.registers?, hservice, Option.toList_some,
        Store.offered?_register hfound, latest?_single]
      split <;> rfl
  | defineClient symbol period body =>
    simp only [Part.effect, Part.registers?]
    split <;> rfl
  | _ => rfl

/-- What services offer after some parts is what was registered last. -/
theorem Chain.offered {s t : Store} {ps : List (Part σ)} (h : Chain s ps t)
    (hthere : ∀ p ∈ ps, ∀ id, p.frame.service = some id →
      ∃ service, p.world.store.service? id = some service) (id : ServiceId) (name : String) :
    t.offered? id name =
      (latest? id name (ps.filterMap Part.registers?)).or (s.offered? id name) := by
  induction h with
  | nil => rfl
  | @cons p rest t _ ih =>
    rw [ih fun q hq => hthere q (List.mem_cons_of_mem _ hq),
      Part.effect_offered (hthere p List.mem_cons_self)]
    have hlist : (p :: rest).filterMap Part.registers? =
        p.registers?.toList ++ rest.filterMap Part.registers? := by
      cases hp : p.registers? <;> simp [hp]
    rw [hlist, latest?_append, Option.or_assoc]

/-- The service of a placed activity is there. -/
theorem Part.Placed.there {o : Opening σ} {log : Part σ → Prop} {around : List (Part σ)}
    {p : Part σ} (h : p.Placed o log around) {id : ServiceId} (hid : p.frame.service = some id) :
    ∃ service, p.world.store.service? id = some service := by
  cases around with
  | nil =>
    rw [h.frame] at hid
    cases hid
  | cons q around =>
    rw [h.frame] at hid
    cases hid
    rcases (h.built.founded q List.mem_cons_self).service with ⟨service, hservice, -⟩
    exact ⟨service, hservice⟩

/-- An operation that is defined outside of any service body is rejected; any other one is
registered on the service that the innermost definition of a service around it has made, with its
name as the owner. -/
theorem Part.Placed.lands {o : Opening σ} {log : Part σ → Prop} {around : List (Part σ)}
    {p : Part σ} (h : p.Placed o log around) {name : String} {body : Activity}
    (hactivity : p.activity = .defineOperation name body) :
    (around = [] ∧ p.Rejected (.program (.noEnclosingService name))) ∨
    ∃ q outer owner steps service, around = q :: outer ∧ log q ∧
      q.activity = .defineService owner steps ∧ p.world.store.service? q.service = some service ∧
      p.result = ({ p.world with store := p.world.store.register q.service ⟨name, owner, body⟩ },
        .ok (.resolved (.success (.operation ⟨name, owner, body⟩)) [])) := by
  have hframe := h.frame
  cases around with
  | nil => exact Or.inl ⟨rfl, .outside hactivity (by rw [hframe]; rfl)⟩
  | cons q outer =>
    rcases h.next.innermost with ⟨hq, owner, steps, hdefinition⟩
    rcases (h.built.founded q List.mem_cons_self).service with ⟨service, hservice, -, hname⟩
    have hservice? : p.frame.service = some q.service := by
      rw [hframe]
      rfl
    have howner : p.world.store.targetName (.service q.service) = owner := by
      rw [Store.targetName, hservice, ← hname owner steps hdefinition]
      rfl
    refine Or.inr ⟨q, outer, owner, steps, service, rfl, hq, hdefinition, hservice, ?_⟩
    rw [Part.result, hactivity, World.evaluate, World.defineOperation, hservice?]
    simp only [howner]

/-- The service that is defined is a new one. -/
theorem Part.service_new (p : Part σ) : p.world.store.service? p.service = none :=
  Array.getElem?_eq_none le_rfl

namespace Machine

/-- What has been registered in some transitions. -/
def registered (past : List (Machine σ)) : List (ServiceId × Operation) :=
  (past.flatMap parts).filterMap Part.registers?

theorem registered_concat (past : List (Machine σ)) (b : Machine σ) :
    registered (past ++ [b]) = registered past ++ b.parts.filterMap Part.registers? := by
  rw [registered, registered, List.flatMap_append, List.filterMap_append, List.flatMap_singleton]

/-- A service offers what was registered last on it. -/
theorem Life.offered {config : SimulationConfig} {memory : σ} {past : List (Machine σ)}
    {m : Machine σ} (h : Life (idle (World.start config memory)) past m) (id : ServiceId)
    (name : String) : m.world.store.offered? id name = latest? id name (registered past) := by
  induction h with
  | refl => rfl
  | @next past b c hlife hn ih =>
    have hstays := hlife.placed hn
    rcases hstays.defines with ⟨s, hs, hchain⟩
    rw [hchain.offered ?_ id name, hs id name, ih, registered_concat, latest?_append]
    intro p hp other hother
    rcases hstays.placed p hp with ⟨o, around, -, hplaced⟩
    exact hplaced.there hother

/-- A request that is delivered to a service runs what the service offers, or is a mistake. -/
theorem step_of_delivery {b c : Machine σ} (hs : b.step = some c) {t : Turn σ}
    {request : RequestId} {id : ServiceId} {service : Service} {r : Request}
    (hturn : b.turn? = some t) (hwork : t.event.work = .deliver request (.service id))
    (hservice : b.world.store.service? id = some service)
    (hrequest : b.world.request? request = some r) :
    (∀ op, b.world.store.offered? id r.operation = some op →
      c = execute t.world (.hold [.service id] :: t.stack) service.scope op (.reply request)) ∧
    (b.world.store.offered? id r.operation = none →
      c = ⟨t.world, t.stack,
        .back (.error (.program (.undefinedOperation service.name r.operation)))⟩) := by
  rcases turn?_spec hturn with ⟨htaking, hstep⟩
  cases hs.symm.trans hstep
  have hoffered : b.world.store.offered? id r.operation = service.operations.find? r.operation := by
    rw [Store.offered?, hservice]
    rfl
  rw [← htaking.store] at hservice
  rw [World.request?, ← htaking.requests, ← World.request?] at hrequest
  constructor
  · intro op hop
    rw [hoffered] at hop
    simp only [hwork, dispatch, process, hservice, hrequest, hop]
  · intro hnone
    rw [hoffered] at hnone
    simp only [hwork, dispatch, process, hservice, hrequest, hnone]

/-- Operations land on the innermost service. In a transition of a life:

* every activity is evaluated in its place, in an evaluation that has begun: in its text, with some
  definitions of services around it that have been evaluated in this life and are not finished. Each
  of these makes a new service under its name. An operation that is defined there is registered on
  the service that the innermost of them has made, with its name as the owner; no other service
  changes, and this one only under the name of the operation. Where there is none of them, the
  definition is rejected;
* afterwards, every service offers under every name what was registered last on it in this life;
* a request that is delivered to a service runs the body that was registered last for it, and is a
  mistake if there is none. -/
theorem Life.operations_land {config : SimulationConfig} {memory : σ} {past : List (Machine σ)}
    {b c : Machine σ} (h : Life (idle (World.start config memory)) past b) (hs : b.step = some c) :
    (∀ p ∈ b.parts, ∃ o around, o ∈ (past ++ [b]).filterMap opening? ∧
      p.Placed o (· ∈ (past ++ [b]).flatMap parts) around ∧
      (∀ name steps, p.activity = .defineService name steps →
        p.world.store.service? p.service = none ∧ p.Founded p.effect) ∧
      ∀ name body, p.activity = .defineOperation name body →
        (around = [] ∧
          p.result = (p.world, .error (.error (.program (.noEnclosingService name)))) ∧
          c.world = p.world ∧ c.focus = .back (.error (.program (.noEnclosingService name)))) ∨
        ∃ q outer owner steps, around = q :: outer ∧ q ∈ (past ++ [b]).flatMap parts ∧
          q.activity = .defineService owner steps ∧
          p.result = ({ p.world with
              store := p.world.store.register q.service ⟨name, owner, body⟩ },
            .ok (.resolved (.success (.operation ⟨name, owner, body⟩)) [])) ∧
          (∀ id, q.service ≠ id →
            (p.world.store.register q.service ⟨name, owner, body⟩).service? id =
              p.world.store.service? id) ∧
          ∀ id other, (p.world.store.register q.service ⟨name, owner, body⟩).offered? id other =
            if q.service = id ∧ name = other then some ⟨name, owner, body⟩
            else p.world.store.offered? id other) ∧
    (∀ id name, c.world.store.offered? id name = latest? id name (registered (past ++ [b]))) ∧
    ∀ t request id service r, b.turn? = some t → t.event.work = .deliver request (.service id) →
      b.world.store.service? id = some service → b.world.request? request = some r →
      match latest? id r.operation (registered past) with
      | some op =>
        c = execute t.world (.hold [.service id] :: t.stack) service.scope op (.reply request)
      | none =>
        c = ⟨t.world, t.stack,
          .back (.error (.program (.undefinedOperation service.name r.operation)))⟩ := by
  have hn : Next b c := .step hs
  refine ⟨?_, (h.next hn).offered, ?_⟩
  · intro p hp
    rcases (h.placed hn).placed p hp with ⟨o, around, ho, hplaced⟩
    refine ⟨o, around, ho, hplaced, ?_, ?_⟩
    · intro name steps hactivity
      have hframe := hplaced.built.frame
      rw [← hplaced.frame] at hframe
      exact ⟨p.service_new, Part.founded_effect hactivity hframe⟩
    · intro name body hactivity
      rcases hplaced.lands hactivity with ⟨hnone, hrejected⟩ |
        ⟨q, outer, owner, steps, service, haround, hq, hdefinition, hservice, hresult⟩
      · rcases step_of_rejected hs hp hrejected with ⟨hworld, hfocus, -⟩
        exact Or.inl ⟨hnone, hrejected.result, hworld, hfocus⟩
      · exact Or.inr ⟨q, outer, owner, steps, haround, hq, hdefinition, hresult,
          fun id hother => Store.service?_register _ hother,
          fun id other => Store.offered?_register hservice _ id other⟩
  · intro t request id service r hturn hwork hservice hrequest
    rcases step_of_delivery hs hturn hwork hservice hrequest with ⟨hsome, hnone⟩
    rw [h.offered] at hsome hnone
    split
    · rename_i op hop
      exact hsome op hop
    · rename_i hop
      exact hnone hop

/-- A service inside of another one, with time passing between the definitions. -/
def estate : Activity :=
  .defineService "outer"
    [.retry (.sequence
        [.defineService "inner" [.think 1.0, .defineOperation "a" .fail],
          .think 1.0, .defineOperation "a" (.think 2.0)]) 2 (.constant 1.0),
      .ignoreError (.defineOperation "a" (.defineOperation "lost" .fail))]

/-- Host code that evaluates it, and then calls the outer service. -/
def founding : Script Unit :=
  .evaluate (.sequence [estate, .trigger "outer" "a"]) .host (fun _ => .done) fun _ =>
    .run 5.0 fun _ => .done

/-- The simulation after some transitions. -/
def settling (fuel : Nat) : Machine Unit :=
  run fuel ⟨World.start ⟨true, none⟩ (), [], .code founding⟩

theorem founding_lands :
    (settling 13).world.store.offered? ⟨1⟩ "a" = some ⟨"a", "inner", .fail⟩ ∧
    (settling 13).world.store.offered? ⟨0⟩ "a" =
      some ⟨"a", "outer", .defineOperation "lost" .fail⟩ ∧
    (∃ p ∈ (settling 12).parts, ∃ (q : Part Unit) (steps : List Activity),
      q.activity = .defineService "outer" steps ∧ p.result.1.store =
        p.world.store.register q.service ⟨"a", "outer", .defineOperation "lost" .fail⟩) ∧
    (∃ (t : Turn Unit) (service : Service), settling 23 =
      execute t.world (.hold [.service ⟨0⟩] :: t.stack) service.scope
        ⟨"a", "outer", .defineOperation "lost" .fail⟩ (.reply ⟨0⟩)) ∧
    (settling 23).focus = .back (.error (.program (.noEnclosingService "lost"))) := by
  have hlife (fuel : Nat) : Life (idle (World.start ⟨true, none⟩ ())) _ (settling fuel) :=
    (Life.refl.next (.call founding rfl)).trans (life_run fuel _)
  have hdefined : (settling 12).step = some (settling 13) := by with_unfolding_all rfl
  have hdelivered : (settling 22).step = some (settling 23) := by with_unfolding_all rfl
  have hoffers := ((hlife 12).operations_land hdefined).2.1
  refine ⟨?_, ?_, ?_, ?_, ?_⟩
  · rw [hoffers]
    with_unfolding_all rfl
  · rw [hoffers]
    with_unfolding_all rfl
  · obtain ⟨p, hp, hactivity, hended⟩ : ∃ p ∈ (settling 12).parts,
        p.activity = .defineOperation "a" (.defineOperation "lost" .fail) ∧
        p.result.2 = .ok (.resolved (.success
          (.operation ⟨"a", "outer", .defineOperation "lost" .fail⟩)) []) :=
      ⟨_, List.mem_cons_of_mem _ List.mem_cons_self, by with_unfolding_all rfl,
        by with_unfolding_all rfl⟩
    rcases ((hlife 12).operations_land hdefined).1 p hp with ⟨o, around, -, -, -, hlands⟩
    rcases hlands _ _ hactivity with
      ⟨-, hrejected, -⟩ | ⟨q, outer, owner, steps, -, -, hdefinition, hresult, -⟩
    · rw [hrejected] at hended
      cases hended
    · rw [hresult] at hended
      cases hended
      exact ⟨p, hp, q, steps, hdefinition, by rw [hresult]⟩
  · have hdelivers := ((hlife 22).operations_land hdelivered).2.2
    obtain ⟨t, hturn, hwork⟩ : ∃ t, (settling 22).turn? = some t ∧
        t.event.work = .deliver ⟨0⟩ (.service ⟨0⟩) :=
      ⟨_, by with_unfolding_all rfl, by with_unfolding_all rfl⟩
    obtain ⟨service, hservice⟩ : ∃ service, (settling 22).world.store.service? ⟨0⟩ = some service :=
      ⟨_, by with_unfolding_all rfl⟩
    obtain ⟨r, hrequest, hop⟩ :
        ∃ r, (settling 22).world.request? ⟨0⟩ = some r ∧ r.operation = "a" :=
      ⟨_, by with_unfolding_all rfl, rfl⟩
    have hrun := hdelivers t ⟨0⟩ ⟨0⟩ service r hturn hwork hservice hrequest
    have hlatest : latest? ⟨0⟩ "a" (registered ([] ++ [idle (World.start ⟨true, none⟩ ())] ++
        trail 22 ⟨(idle (World.start ⟨true, none⟩ ())).world, [], .code founding⟩)) =
          some ⟨"a", "outer", .defineOperation "lost" .fail⟩ := by with_unfolding_all rfl
    rw [hop, hlatest] at hrun
    exact ⟨t, service, hrun⟩
  · with_unfolding_all rfl

end Machine
end Callflow
