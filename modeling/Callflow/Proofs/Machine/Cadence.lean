import Callflow.Proofs.Machine.Clients
import Callflow.Proofs.Machine.Clock
import Callflow.Proofs.Machine.Stock

/-!
# Clients keep their cadence

A client that an activity starts fires one period later, and again one period after each firing,
whatever becomes of its body: in every machine of the life there is just one firing to come, the next
one (`Starting.keeps_cadence`). Its record counts the firings, and how the evaluations of its body have
ended; those that have not ended are in progress, or have been given up with an error.
-/

namespace Callflow

variable {σ : Type}

/-- The points in time that are some periods after a start. -/
def Time.tick (start period : Time) : Nat → Time
  | 0 => start
  | count + 1 => Time.tick start period count + period

/-- Whether an activity has ended well. -/
def Outcome.isSuccess : Outcome → Bool
  | .success _ => true
  | .failure _ => false

/-- Whether an outcome is counted for a client in the end. -/
def Continuation.completes (id : ClientId) : Continuation σ → Bool
  | .complete client => client = id
  | _ => false

namespace Machine

open Continuation (completes)

/-! ## Evaluations of the body -/

theorem ended_completes (id : ClientId) (m : Machine σ) :
    m.ended (completes id) = (m.counts? id).toList.length := by
  rcases m with ⟨w, stack, focus⟩
  cases focus with
  | resume next outcome =>
    cases next with
    | complete client =>
      by_cases hsame : client = id <;>
        simp [ended, Focus.ended, counts?, completes, hsame]
    | _ => rfl
  | _ => rfl

theorem begun_completes (id : ClientId) (m : Machine σ) :
    m.begun (completes id) = (m.fired? id).toList.length := by
  have hturn (t : Turn σ) : t.begun (completes id) =
      ((some t.event).filter (Event.fires id)).toList.length := by
    unfold Turn.begun Event.fires
    rw [Option.filter_some]
    cases t.event.work with
    | fire client scope => by_cases hsame : client = id <;> simp [completes, hsame]
    | _ => rfl
  have hevent : (m.turn?.map (Turn.begun (completes id))).getD 0 =
      (m.fired? id).toList.length := by
    unfold fired? taken?
    cases m.turn? with
    | none => rfl
    | some t => exact hturn t
  have hcode (script : Script σ) (hfocus : m.focus = .code script) :
      (m.fired? id).toList.length = 0 := by
    simp [fired?, taken?, turn?, hfocus]
  unfold begun
  split
  · rename_i hfocus
    exact (hcode _ hfocus).symm
  · rename_i hfocus
    exact (hcode _ hfocus).symm
  · rename_i hfocus
    exact (hcode _ hfocus).symm
  · exact hevent

/-- A transition goes on with one continuation at most. -/
theorem gone_on_le (p : Continuation σ → Bool) (m : Machine σ) :
    m.focus.stock p + m.carried p ≤ 1 := by
  have hcarried : m.carried p ≤ 1 := by
    unfold carried
    cases m.taken? with
    | none => exact Nat.zero_le _
    | some e =>
      rw [Option.map_some, Option.getD_some]
      unfold Callback.stock
      split
      · exact Bool.toNat_le _
      · exact Bool.toNat_le _
      · exact Nat.zero_le _
  rcases m with ⟨w, stack, focus⟩
  cases focus with
  | resume next outcome => exact Bool.toNat_le _
  | _ => exact (Nat.zero_add _).trans_le hcarried

/-- A firing begins an evaluation of the body, which is kept unless the transition stops. -/
theorem fired?_stock {m n : Machine σ} {id : ClientId} {e : Event (Callback σ)} {client : Client}
    (hfired : m.fired? id = some e) (hs : m.step = some n)
    (hclient : m.world.store.client? id = some client) :
    n.stock (completes id) = m.stock (completes id) + 1 ∨
      (n.focus.Stops ∧ n.stock (completes id) = m.stock (completes id)) := by
  rcases fired?_eq_some hfired with ⟨t, scope, hturn, rfl, hwork⟩
  rcases turn?_spec hturn with ⟨htaking, hstep⟩
  have hentered : t.world.stock (completes id) = m.stock (completes id) := by
    have hstock := htaking.stock (completes id)
    rw [hwork] at hstock
    rw [Machine.stock, htaking.focus]
    exact hstock
  have hspends := Spends.fire (p := completes id) (by rw [htaking.store]; exact hclient) t.stack scope
  have hone : (completes id (.complete id : Continuation σ)).toNat = 1 := by simp [completes]
  rw [hwork] at hstep
  cases hstep.symm.trans hs
  rw [hone] at hspends
  rw [← hentered]
  cases hspends with
  | kept hstock _ => exact Or.inl hstock
  | dropped hstock hstops => exact Or.inr ⟨hstops, hstock⟩

/-- The evaluations of a client's body that are in progress: one begins when the client fires, one ends
when its outcome is counted, and one is given up when a transition stops with it. -/
theorem Next.balance {m n : Machine σ} (h : Next m n) {id : ClientId} {client : Client}
    (hclient : m.world.store.client? id = some client) :
    n.stock (completes id) + (m.counts? id).toList.length =
        m.stock (completes id) + (m.fired? id).toList.length ∨
      (n.focus.Stops ∧ n.stock (completes id) + (m.counts? id).toList.length + 1 =
        m.stock (completes id) + (m.fired? id).toList.length) := by
  rw [← ended_completes, ← begun_completes]
  have hbegun := begun_completes id m
  have hm : m.stock (completes id) = m.world.stock (completes id) + m.focus.stock (completes id) :=
    rfl
  cases h with
  | call script hnone =>
    left
    have hquiet : m.focus.stock (completes id) = 0 ∧ m.ended (completes id) = 0 := by
      rcases m with ⟨w, stack, focus⟩
      cases focus with
      | resume next outcome => cases hnone
      | _ => exact ⟨rfl, rfl⟩
    have hnot : m.begun (completes id) = 0 := by
      cases hturn : m.turn? with
      | none =>
        rw [hbegun, fired?, taken?, hturn]
        rfl
      | some t => cases (turn?_spec hturn).2.symm.trans hnone
    rw [hm, hquiet.1, hquiet.2, hnot]
    rfl
  | step hs =>
    cases hfired : m.fired? id with
    | none =>
      rw [hfired] at hbegun
      rcases step_tally (completes id) hs with ⟨w, k, hspends, htaken, hleast, hmost⟩
      have hle := gone_on_le (completes id) m
      simp only [Option.toList_none, List.length_nil] at hbegun
      cases hspends with
      | kept hstock _ => exact Or.inl (by omega)
      | dropped hstock hstops =>
        rcases Nat.eq_zero_or_pos k with hk | hk
        · exact Or.inl (by omega)
        · exact Or.inr ⟨hstops, by omega⟩
    | some e =>
      rcases fired?_eq_some hfired with ⟨t, scope, hturn, -, -⟩
      have hended : m.ended (completes id) = 0 := by
        rw [ended, (turn?_spec hturn).1.focus]
        rfl
      rw [hfired] at hbegun
      rw [hended, hbegun]
      rcases fired?_stock hfired hs hclient with hstock | ⟨hstops, hstock⟩
      · exact Or.inl hstock
      · exact Or.inr ⟨hstops, by rw [hstock]; rfl⟩

/-! ## Along a life -/

/-- An evaluation of a client's body is given up in a move: fewer are in progress afterwards than
before, although one may have begun, and not because one has ended. -/
def abandons (id : ClientId) (move : Machine σ × Machine σ) : Bool :=
  decide (move.2.stock (completes id) + (move.1.counts? id).toList.length <
    move.1.stock (completes id) + (move.1.fired? id).toList.length)

/-- The moves of a life in which an evaluation of a client's body is given up. -/
def abandonments (id : ClientId) (past : List (Machine σ)) (n : Machine σ) :
    List (Machine σ × Machine σ) :=
  (past.zip (past.tail ++ [n])).filter (abandons id)

theorem abandonments_concat (id : ClientId) (past : List (Machine σ)) (b c : Machine σ) :
    abandonments id (past ++ [b]) c =
      abandonments id past b ++ if abandons id (b, c) then [(b, c)] else [] := by
  unfold abandonments
  rw [zip_tail_concat, List.filter_append, List.filter_cons, List.filter_nil]

/-- A client that was started has kept its cadence in a life since then. -/
structure Beating (name : String) (period : Time) (body : Activity) (start : Time) (id : ClientId)
    (scope : ScopeId) (past : List (Machine σ)) (n : Machine σ) : Prop where
  times : (past.filterMap (fired? id)).map Event.time =
    (List.range (past.filterMap (fired? id)).length).map fun i => Time.tick start period (i + 1)
  works : ∀ e ∈ past.filterMap (fired? id), e.work = .fire id scope
  next : ∃ seq, n.world.firings id =
    [⟨Time.tick start period ((past.filterMap (fired? id)).length + 1), seq, .clientFiring,
      .fire id scope⟩]
  record : n.world.store.client? id =
    some ⟨name, period, body, (past.filterMap (fired? id)).length,
      (past.filterMap (counts? id)).countP Outcome.isSuccess,
      (past.filterMap (counts? id)).countP fun outcome => !outcome.isSuccess⟩
  balance : n.stock (completes id) + (past.filterMap (counts? id)).length +
    (abandonments id past n).length = (past.filterMap (fired? id)).length
  stops : ∀ move ∈ abandonments id past n, move.2.focus.Stops

theorem Next.abandons {m n : Machine σ} (h : Next m n) {id : ClientId} {client : Client}
    (hclient : m.world.store.client? id = some client) :
    n.stock (completes id) + (m.counts? id).toList.length +
        (if Machine.abandons id (m, n) then [(m, n)] else []).length =
      m.stock (completes id) + (m.fired? id).toList.length ∧
    ∀ move ∈ (if Machine.abandons id (m, n) then [(m, n)] else []), move.2.focus.Stops := by
  unfold Machine.abandons
  rcases h.balance hclient with heq | ⟨hstops, heq⟩
  · rw [if_neg (by simp [heq])]
    exact ⟨heq, by simp⟩
  · rw [if_pos (by simp; omega)]
    refine ⟨heq, ?_⟩
    intro move hmove
    rw [List.mem_singleton.1 hmove]
    exact hstops

theorem Beating.goes_on {name : String} {period : Time} {body : Activity} {start : Time}
    {id : ClientId} {scope : ScopeId} {past : List (Machine σ)} {b c : Machine σ}
    (h : Beating name period body start id scope past b)
    (hperiod : Time.checkDelay period = .ok ()) (hn : Next b c) :
    Beating name period body start id scope (past ++ [b]) c := by
  rcases h.next with ⟨seq, hone⟩
  rcases hn.abandons h.record with ⟨hbalance, hstops⟩
  have hold := h.balance
  have hbalance' : c.stock (completes id) + ((past ++ [b]).filterMap (counts? id)).length +
      (abandonments id (past ++ [b]) c).length = ((past ++ [b]).filterMap (fired? id)).length := by
    rw [abandonments_concat, filterMap_concat, filterMap_concat]
    simp only [List.length_append]
    omega
  have hstops' : ∀ move ∈ abandonments id (past ++ [b]) c, move.2.focus.Stops := by
    rw [abandonments_concat]
    intro move hmove
    rcases List.mem_append.1 hmove with hmove | hmove
    · exact h.stops move hmove
    · exact hstops move hmove
  cases hn.beats h.record hone hperiod with
  | rests hfired hcounts hclient hfirings =>
    have hsame : (past ++ [b]).filterMap (fired? id) = past.filterMap (fired? id) := by
      rw [filterMap_concat, hfired, Option.toList_none, List.append_nil]
    refine ⟨?_, ?_, ?_, ?_, hbalance', hstops'⟩
    · rw [hsame]
      exact h.times
    · rw [hsame]
      exact h.works
    · rw [hsame]
      exact ⟨seq, hfirings⟩
    · rw [hsame, filterMap_concat, hcounts, Option.toList_none, List.append_nil]
      exact hclient
  | @counts outcome hfired hcounts hclient hfirings =>
    have hsame : (past ++ [b]).filterMap (fired? id) = past.filterMap (fired? id) := by
      rw [filterMap_concat, hfired, Option.toList_none, List.append_nil]
    refine ⟨?_, ?_, ?_, ?_, hbalance', hstops'⟩
    · rw [hsame]
      exact h.times
    · rw [hsame]
      exact h.works
    · rw [hsame]
      exact ⟨seq, hfirings⟩
    · rw [hsame, filterMap_concat, hcounts, hclient]
      cases outcome <;> simp [Client.count, Outcome.isSuccess]
  | fires hfired hcounts hclient hnext =>
    have hmore : (past ++ [b]).filterMap (fired? id) = past.filterMap (fired? id) ++
        [⟨Time.tick start period ((past.filterMap (fired? id)).length + 1), seq, .clientFiring,
          .fire id scope⟩] := by
      rw [filterMap_concat, hfired, Option.toList_some]
    rcases hnext with ⟨other, later, hwork, hfirings⟩
    cases hwork
    refine ⟨?_, ?_, ?_, ?_, hbalance', hstops'⟩
    · rw [hmore, List.map_append, h.times, List.length_append, List.length_singleton,
        List.range_succ, List.map_append]
      rfl
    · rw [hmore]
      intro e he
      rcases List.mem_append.1 he with he | he
      · exact h.works e he
      · rw [List.mem_singleton.1 he]
    · rw [hmore, List.length_append, List.length_singleton]
      exact ⟨later, hfirings⟩
    · rw [hmore, filterMap_concat, hcounts, Option.toList_none, List.append_nil,
        List.length_append, List.length_singleton]
      exact hclient

/-! ## Starting a client -/

theorem tended_start {config : SimulationConfig} {memory : σ} :
    (idle (World.start config memory)).world.Tended := fun _ _ => rfl

/-- In a transition of a life, an activity is evaluated that starts a client. -/
structure Starting (config : SimulationConfig) (memory : σ) (early : List (Machine σ))
    (m n : Machine σ) (p : Part σ) (name : String) (period : Time) (body : Activity)
    (id : ClientId) : Prop where
  life : Life (idle (World.start config memory)) early m
  step : m.step = some n
  part : p ∈ m.parts
  defines : p.activity = .defineClient name period body
  accepted : ∃ held, p.result.2 = .ok (.resolved (.success (.client id)) held)

namespace Starting

variable {config : SimulationConfig} {memory : σ} {early : List (Machine σ)} {m n : Machine σ}
  {p : Part σ} {name : String} {period : Time} {body : Activity} {id : ClientId}

theorem result (h : Starting config memory early m n p name period body id) :
    ∃ held, p.world.defineClient name period body p.frame =
      (p.result.1, .ok (.resolved (.success (.client id)) held)) := by
  rcases h.accepted with ⟨held, hresult⟩
  have hdefine : p.result = p.world.defineClient name period body p.frame := by
    rw [Part.result, h.defines]
    rfl
  exact ⟨held, by rw [← hdefine, ← hresult]⟩

/-- No client has had the number before. -/
theorem unknown (h : Starting config memory early m n p name period body id) {before : List (Machine σ)}
    {x : Machine σ} (hlife : Life x before m) : x.world.store.client? id = none := by
  rcases h.result with ⟨held, hdefine⟩
  rcases step_parts h.step h.part with ⟨w, ⟨deeds, hpath⟩, -, -, hcomes⟩
  rcases hcomes.quiet with ⟨more, hmore, -⟩
  have hnone := (World.defineClient_started hdefine).1
  by_contra hsome
  have hknown := hlife.client?_isSome (Option.isSome_iff_ne_none.2 hsome)
  have hlater := hmore.client?_isSome (hpath.client?_isSome hknown)
  rw [hnone] at hlater
  cases hlater

/-- Nothing has been evaluated for the client before. -/
theorem stock (h : Starting config memory early m n p name period body id) :
    n.stock (completes id) = 0 := by
  have hstock := (h.life.next (.step h.step)).stock (completes id)
  have hbegun : ((early ++ [m]).map (begun (completes id))).sum = 0 := by
    rw [List.sum_eq_zero_iff]
    intro number hnumber
    rcases List.mem_map.1 hnumber with ⟨x, hx, rfl⟩
    rcases h.life.through hx with ⟨before, after, hbefore, hafter⟩
    rw [begun_completes]
    cases hfired : x.fired? id with
    | none => rfl
    | some e =>
      -- Only a client that there is has firings to come.
      have hnone := hbefore.tended tended_start id (h.unknown hafter)
      rcases Option.filter_eq_some_iff.1 hfired with ⟨htaken, hfires⟩
      rw [World.firings, List.filter_eq_nil_iff] at hnone
      exact absurd hfires (hnone e (taken?_spec htaken).1)
  have hstart : (idle (World.start config memory)).stock (completes id) = 0 := rfl
  omega

/-- The client has not fired yet. -/
theorem beating (h : Starting config memory early m n p name period body id) :
    Time.checkDelay period = .ok () ∧
      Beating name period body m.moment id p.frame.scope [] n := by
  rcases h.result with ⟨held, hdefine⟩
  rcases step_parts h.step h.part with ⟨w, -, hnow, htended, hcomes⟩
  rcases World.defineClient_started hdefine with ⟨-, hcheck, hsome, hfirings⟩
  have hrest := hcomes.after.untouched id (Or.inl (by rw [hsome]; rfl))
  rcases hfirings (hcomes.tended (htended (h.life.tended tended_start))) with ⟨seq, hseq⟩
  have hstart : p.world.now = m.moment := hcomes.quiet.now.trans hnow
  refine ⟨hcheck, rfl, by simp, ⟨seq, ?_⟩, hrest.client.trans hsome, ?_, by simp [abandonments]⟩
  · rw [hrest.firings, hseq, hstart]
    rfl
  · rw [h.stock]
    rfl

/-- Whatever happens after a client was started with a period, and whatever its body does:

* its firings are taken one period after its start and then one period after another, each at its time,
  and each evaluates the body;
* there is just one firing to come, one period after the last one;
* its record counts the firings and the outcomes of the evaluations, good and bad ones. All others are in
  progress, or have been given up in a transition that has ended with an error or a crash. -/
theorem keeps_cadence (h : Starting config memory early m n p name period body id)
    {past : List (Machine σ)} {x : Machine σ} (hlater : Life n past x) :
    (past.filterMap (fired? id)).map Event.time =
      (List.range (past.filterMap (fired? id)).length).map
        (fun i => Time.tick m.moment period (i + 1)) ∧
    (∀ y ∈ past, ∀ e, y.fired? id = some e → ∃ w callers,
      y.step = some (fire w callers id p.frame.scope) ∧ w.now = e.time) ∧
    (∃ seq, x.world.firings id =
      [⟨Time.tick m.moment period ((past.filterMap (fired? id)).length + 1), seq, .clientFiring,
        .fire id p.frame.scope⟩]) ∧
    ∃ client, x.world.store.client? id = some client ∧ client.name = name ∧
      client.period = period ∧ client.body = body ∧
      client.firings = (past.filterMap (fired? id)).length ∧
      client.successes = (past.filterMap (counts? id)).countP Outcome.isSuccess ∧
      client.errors = (past.filterMap (counts? id)).countP (fun outcome => !outcome.isSuccess) ∧
      client.successes + client.errors ≤ client.firings ∧
      client.firings - (client.successes + client.errors) =
        x.stock (completes id) + (abandonments id past x).length ∧
      ∀ move ∈ abandonments id past x, move.2.focus.Stops := by
  rcases h.beating with ⟨hcheck, hstart⟩
  have hbeating : Beating name period body m.moment id p.frame.scope past x := by
    induction hlater with
    | refl => exact hstart
    | next _ hn ih => exact ih.goes_on hcheck hn
  have hcounts := List.length_eq_countP_add_countP Outcome.isSuccess
    (l := past.filterMap (counts? id))
  have hbalance := hbeating.balance
  simp only [Bool.not_eq_true, Bool.decide_eq_false] at hcounts
  refine ⟨hbeating.times, ?_, hbeating.next, _, hbeating.record, rfl, rfl, rfl, rfl, rfl, rfl, ?_, ?_,
    hbeating.stops⟩
  · intro y hy e hfired
    have hwork := hbeating.works e (List.mem_filterMap.2 ⟨y, hy, hfired⟩)
    rcases taken?_spec (Option.filter_eq_some_iff.1 hfired).1 with ⟨-, w, callers, hstep, hnow⟩
    rw [hwork] at hstep
    exact ⟨w, callers, hstep, hnow⟩
  · dsimp only
    omega
  · dsimp only
    omega

end Starting

/-- A client whose body takes its name for another one, and then raises an error. -/
def restless : Activity :=
  .defineClient "load" 1.0 (.sequence [.defineClient "load" 4.0 .fail, .trigger "missing" "op"])

/-- Host code that starts it and runs the agenda three times. -/
def restlessness : Script Unit :=
  .evaluate restless .host (fun _ => .done) fun _ =>
    .run 2.5 fun _ => .run 2.5 fun _ => .run 2.5 fun _ => .done

def unrested : Machine Unit := ⟨World.start ⟨true, none⟩ (), [], .code restlessness⟩

/-- The simulation when the client has just been started. -/
def rested : Machine Unit := run 1 unrested

theorem restless_keeps_cadence :
    ((trail 14 rested).filterMap (fired? ⟨0⟩)).map Event.time = [0.0 + 1.0, 0.0 + 1.0 + 1.0] ∧
    ((run 14 rested).world.firings ⟨0⟩).map Event.time = [0.0 + 1.0 + 1.0 + 1.0] ∧
    ∃ client, (run 14 rested).world.store.client? ⟨0⟩ = some client ∧ client.firings = 2 ∧
      client.successes + client.errors = 0 ∧
      (abandonments ⟨0⟩ (trail 14 rested) (run 14 rested)).length = 2 := by
  have hstarting : Starting ⟨true, none⟩ () [idle (World.start ⟨true, none⟩ ())] unrested rested
      ⟨unrested.world, [], restless, .plain World.root .host, .host fun _ => .done⟩
      "load" 1.0 (.sequence [.defineClient "load" 4.0 .fail, .trigger "missing" "op"]) ⟨0⟩ :=
    ⟨Life.refl.next (.call restlessness rfl), by with_unfolding_all rfl, List.mem_cons_self, rfl,
      ⟨_, by with_unfolding_all rfl⟩⟩
  have hfired : ((trail 14 rested).filterMap (fired? ⟨0⟩)).length = 2 := by decide +kernel
  have hcounted : (trail 14 rested).filterMap (counts? ⟨0⟩) = [] := by with_unfolding_all rfl
  have hsuspended : (run 14 rested).stock (Continuation.completes ⟨0⟩) = 0 := by decide +kernel
  rcases hstarting.keeps_cadence (life_run 14 rested) with
    ⟨htimes, -, ⟨seq, hnext⟩, client, hclient, -, -, -, hfirings, hgood, hbad, -, hrest, -⟩
  rw [hcounted] at hgood hbad
  rw [hfired] at hfirings htimes hnext
  refine ⟨htimes, by rw [hnext]; rfl, client, hclient, hfirings, ?_, ?_⟩
  · rw [hgood, hbad]
    rfl
  · rw [hfirings, hgood, hbad, hsuspended] at hrest
    exact (hrest.trans (Nat.zero_add _)).symm

end Machine
end Callflow
