import Callflow.Proofs.Machine.Openings
import Callflow.Proofs.Machine.Places
import Callflow.Proofs.World.Confinement

/-!
# The thread of an evaluation

An evaluation that begins in a transition may be suspended, and then goes on in other transitions,
in between those of other evaluations. A `Thread` tells where it is: it follows the continuation
that the evaluation has left behind, from the transition in which it begins until the outcome is
handed to whoever waits for it. So one can tell of each transition whether it is one of the thread
(`Thread.acts`).

What goes on in these transitions is what stands in its place in the evaluation (`Bears.follow`),
and it stays inside of the scope of the evaluation (`Advances`).
-/

namespace Callflow

open Continuation (Through)
open Store (Confines)

variable {σ : Type}

/-! ## Where an evaluation is -/

/-- Where an evaluation is. -/
inductive Thread (σ : Type) where
  -- The next transition begins it.
  | entering
  -- It goes on from a spot.
  | within (spot : Spot σ)
  -- Its outcome has been handed on.
  | returned
  -- It has stopped for good.
  | stopped

namespace Thread

/-- Whether an outcome is handed to whoever waits for an evaluation as a whole. -/
def returns (b : Machine σ) : Spot σ → Bool
  | .focus =>
    match b.focus with
    | .resume k _ => decide (k.depth = 0)
    | _ => false
  | _ => false

/-- Whether a transition is one of an evaluation. -/
def acts (b : Machine σ) : Thread σ → Bool
  | .entering => true
  | .within .focus => !returns b .focus
  | .within (.event e) => b.taken?.any fun taken => taken.seq = e.seq
  | _ => false

def ofPlace : Option (Spot σ) → Thread σ
  | some spot => .within spot
  | none => .stopped

/-- Where an evaluation is after a transition. -/
def follow (b c : Machine σ) : Thread σ → Thread σ
  | .entering => .ofPlace (Machine.landed b c)
  | .within spot => if returns b spot then .returned else .ofPlace (spot.follow b c)
  | thread => thread

/-- An evaluation that goes nowhere has gone on. -/
theorem acts_of_follow {b c : Machine σ} {spot : Spot σ} (hreturns : returns b spot = false)
    (hnowhere : spot.follow b c = none) : acts b (.within spot) = true := by
  cases hacts : spot.acts b with
  | false =>
    rw [Machine.follow_of_rests hacts] at hnowhere
    cases hnowhere
  | true =>
    cases spot with
    | focus => simp [acts, hreturns]
    | event e => exact hacts
    | request id =>
      have hfocus : (Spot.request id).follow b c = some .focus := if_pos hacts
      rw [hfocus] at hnowhere
      cases hnowhere

end Thread

/-- Where an evaluation is that the first of some machines has begun. -/
def Machine.thread (past : List (Machine σ)) (n : Machine σ) : Thread σ :=
  (past.zip (past.tail ++ [n])).foldl (fun thread move => thread.follow move.1 move.2) .entering

theorem Machine.thread_concat (past : List (Machine σ)) (b c : Machine σ) :
    thread (past ++ [b]) c = (thread past b).follow b c := by
  rw [thread, zip_tail_concat, List.foldl_append]
  rfl

namespace Machine

/-! ## What is there -/

/-- What is at a spot is good. -/
inductive Bears (good : Store → Continuation σ → Prop) (m : Machine σ) : Spot σ → Prop where
  | focus {k : Continuation σ} {outcome : Outcome} : m.focus = .resume k outcome →
      good m.world.store k → Bears good m .focus
  | event {e : Event (Callback σ)} {k : Continuation σ} : e ∈ m.world.agenda.pending →
      e.work.continuation? = some k → e.work.Sits good m.world.store → Bears good m (.event e)
  | request {id : RequestId} {k : Continuation σ} : m.world.waiting? id = some k →
      good m.world.store k → Bears good m (.request id)

/-- An evaluation goes on in a transition: what it defines stays inside, and what it leaves behind
stands in its place, unless it stops for good. -/
structure Advances (o : Opening σ) (log : Part σ → Prop) (services : Nat) (b c : Machine σ) :
    Prop where
  confines : Confines o.scope services b.world.store c.world.store
  lands : ∀ spot, landed b c = some spot → c.Bears (Seats (· = o) log) spot

/-- What has begun to wait, or is handed an outcome, stands in its place. -/
theorem Stays.bears {O : Opening σ → Prop} {log : Part σ → Prop} {w : World σ}
    {ps : List (Part σ)} {b c : Machine σ} (h : Stays O log w ps c) (hw : w.agenda.Sound)
    (hsame : b.world.parked? c.world = w.parked? c.world) {spot : Spot σ}
    (hspot : landed b c = some spot) : c.Bears (Seats O log) spot := by
  unfold landed at hspot
  split at hspot
  · rename_i hhanded
    cases hspot
    rcases c with ⟨u, stack, focus⟩
    cases focus with
    | resume k outcome => exact .focus rfl (h.focus k outcome rfl)
    | _ => cases hhanded
  · rw [hsame] at hspot
    rcases World.parked?_keeps hspot with ⟨k, hkeeps, hlacks⟩
    cases hkeeps with
    | @event e _ hmem hk =>
      rcases h.rests.events e hmem with hold | hnew
      · exact absurd (hw.numbered e hold) (Nat.not_lt.2 hlacks)
      · exact .event hmem hk hnew
    | @request id _ hk =>
      rcases h.rests.waiters id k hk with hold | hnew
      · exact absurd (World.waiting?_lt hold) (Nat.not_lt.2 hlacks)
      · exact .request hk hnew

/-- A transition that evaluates what stands in its place. -/
theorem Stays.advances {o : Opening σ} {log : Part σ → Prop} {services : Nat} {w : World σ}
    {ps : List (Part σ)} {b c : Machine σ} (h : Stays (· = o) log w ps c) (hw : w.agenda.Sound)
    (hsame : b.world.parked? c.world = w.parked? c.world) (hstore : w.store = b.world.store)
    (hchain : Chain w.store ps c.world.store) (hlog : ∀ q, log q → services ≤ q.service.index)
    (hservices : services ≤ w.store.services.size) : Advances o log services b c where
  confines := by
    rw [← hstore]
    refine hchain.confines ?_ hlog hservices
    intro p hp
    rcases h.placed p hp with ⟨_, around, rfl, hplaced⟩
    exact ⟨around, hplaced⟩
  lands := fun spot hspot => h.bears hw hsame hspot

/-- What is evaluated when an outcome is handed to what stands inside of an evaluation. -/
theorem chain_resume {k : Continuation σ} (hdepth : k.depth ≠ 0) (w : World σ)
    (stack : List (Activation σ)) (outcome : Outcome) :
    Chain w.store (resumeParts w stack k outcome) (resume w stack k outcome).world.store := by
  cases k with
  | steps rest frame next =>
    cases outcome with
    | success value =>
      rw [resume, proceed_world]
      exact World.evaluateSteps_chain ..
    | failure cause => exact .nil
  | service id next => cases outcome <;> exact .nil
  | ignore next => cases outcome <;> exact .nil
  | retry state body frame next =>
    rw [resume, proceed_world, World.afterAttempt_store]
    exact .nil
  | _ => exact absurd rfl hdepth

theorem chain_attempt (w : World σ) (stack : List (Activation σ)) (state : RetryState)
    (body : Activity) (frame : Frame) (next : Continuation σ) :
    Chain w.store (World.parts (inUse stack) body frame (.retry state.begin body frame next) w)
      (proceed stack next (World.attempt (inUse stack) state body frame next w)).world.store := by
  rw [proceed_world, World.attempt_store]
  exact World.evaluate_chain ..

section

variable {o : Opening σ} {log : Part σ → Prop} {services : Nat} {b c : Machine σ}

/-- An evaluation goes on where an outcome is handed to what stands inside of it. -/
theorem advances_of_focus {k : Continuation σ} {outcome : Outcome} (hn : Next b c)
    (hb : b.world.Sound) (hfocus : b.focus = .resume k outcome) (hdepth : k.depth ≠ 0)
    (hseats : Seats (· = o) log b.world.store k) (hparts : ∀ p ∈ b.parts, log p)
    (hlog : ∀ q, log q → services ≤ q.service.index)
    (hservices : services ≤ b.world.store.services.size) : Advances o log services b c := by
  cases hn.step_of_focus hfocus
  rcases b with ⟨w, stack, focus⟩
  cases hfocus
  rw [parts_resume] at hparts
  exact (Stays.inner hseats hdepth hparts).advances hb.agenda rfl rfl
    (chain_resume hdepth w stack outcome) hlog hservices

/-- An evaluation goes on where an event for it is taken. -/
theorem advances_of_event {e : Event (Callback σ)} {k : Continuation σ} {t : Turn σ}
    (hn : Next b c) (hb : b.world.Sound) (hturn : b.turn? = some t) (he : t.event = e)
    (hwork : e.work.continuation? = some k) (hsits : e.work.Sits (Seats (· = o) log) b.world.store)
    (hparts : ∀ p ∈ b.parts, log p) (hlog : ∀ q, log q → services ≤ q.service.index)
    (hservices : services ≤ b.world.store.services.size) : Advances o log services b c := by
  rcases turn?_spec hturn with ⟨htaking, hstep⟩
  have hc := hn.eq_of_step hstep
  have hsound : t.world.agenda.Sound := by
    rcases htaking.take with ⟨horizon, agenda, htake, hworld⟩
    rw [hworld]
    exact hb.agenda.take? htake
  have hall : b.parts = t.parts := by
    simp only [parts, htaking.focus, hturn, Option.map_some, Option.getD_some]
  subst he
  rw [hall] at hparts
  rw [← htaking.store] at hsits hservices
  unfold Turn.parts at hparts
  cases hcase : t.event.work with
  | wake next =>
    rw [hcase] at hc
    subst hc
    exact (Stays.of_resume (hsits.pursues next (by rw [hcase]; rfl))).advances hsound
      (htaking.parked? _) htaking.store .nil hlog hservices
  | attempt state body frame next =>
    rw [hcase] at hc hparts
    subst hc
    exact (Stays.attempt (hsits.pursues _ (by rw [hcase]; rfl)) hparts).advances hsound
      (htaking.parked? _) htaking.store (chain_attempt ..) hlog hservices
  | _ =>
    rw [hcase] at hwork
    cases hwork

theorem Seats.through {s : Store} {k : Continuation σ} (h : Seats (· = o) log s k) :
    Through o.next k := by
  rcases h with ⟨_, rfl, around, hstands, -⟩
  exact hstands.through

/-- What is at a spot goes on to whoever waits for the evaluation. -/
theorem Bears.holds {spot : Spot σ} (h : b.Bears (Seats (· = o) log) spot)
    (hdepth : o.next.depth = 0) : ∃ k, b.Holds spot k ∧ Through o.next k := by
  cases h with
  | focus hfocus hseats => exact ⟨_, .focus hfocus, hseats.through⟩
  | @event e k hmem hk hsits =>
    refine ⟨k, .kept (.event hmem hk), ?_⟩
    have hpursues := hsits.pursues
    generalize e.work = work at hk hpursues
    cases work with
    | wake next =>
      cases hk
      exact (hpursues _ rfl).through
    | attempt state body frame next =>
      cases hk
      have hthrough := (hpursues _ rfl).through
      generalize o.next = target at hthrough hdepth
      cases hthrough with
      | here => cases hdepth
      | retry hnext => exact hnext
    | _ => cases hk
  | request hk hseats => exact ⟨_, .kept (.request hk), hseats.through⟩

/-- An evaluation goes on in its transitions. -/
theorem Bears.advances {spot : Spot σ} (h : b.Bears (Seats (· = o) log) spot) (hn : Next b c)
    (hb : b.world.Sound) (hdistinct : b.world.agenda.Distinct)
    (hacts : Thread.acts b (.within spot) = true) (hparts : ∀ p ∈ b.parts, log p)
    (hlog : ∀ q, log q → services ≤ q.service.index)
    (hservices : services ≤ b.world.store.services.size) : Advances o log services b c := by
  cases h with
  | focus hfocus hseats =>
    refine advances_of_focus hn hb hfocus ?_ hseats hparts hlog hservices
    intro hdepth
    simp [Thread.acts, Thread.returns, hfocus, hdepth] at hacts
  | @event e k hmem hk hsits =>
    rcases turn_of_acts hdistinct hmem hacts with ⟨t, hturn, he⟩
    exact advances_of_event hn hb hturn he hk hsits hparts hlog hservices
  | request _ _ => cases hacts

/-- An evaluation is somewhere after a transition of its own, or after one in which it stays where
it is, unless it stops for good. -/
theorem Bears.follow {spot : Spot σ} (h : b.Bears (Seats (· = o) log) spot) (hn : Next b c)
    (hb : b.world.Sound) (hdistinct : b.world.agenda.Distinct) (hdepth : o.next.depth = 0)
    (hbefore : Thread.returns b spot = false)
    (hlands : Thread.acts b (.within spot) = true →
      ∀ next, landed b c = some next → c.Bears (Seats (· = o) log) next) :
    (∃ next, spot.follow b c = some next ∧ c.Bears (Seats (· = o) log) next) ∨
      (spot.follow b c = none ∧ c.focus.Stops) := by
  have hlasts : Lasting (Seats (· = o) log) := lasting_seats _ log
  have hgrows : b.world.store.Grows c.world.store := (Life.refl.next hn).grows
  rcases h.holds hdepth with ⟨k, hholds, hthrough⟩
  have hdeep : spot = .focus → k.depth ≠ o.next.depth := by
    rintro rfl hsame
    cases hholds with
    | focus hfocus => simp [Thread.returns, hfocus, hsame, hdepth] at hbefore
    | kept hkeeps => cases hkeeps
  rcases hholds.follow hn hb hdistinct hthrough hdeep with ⟨next, -, hnext, -⟩ | hstops
  · refine Or.inl ⟨next, hnext, ?_⟩
    cases h with
    | focus hfocus _ => exact hlands (by simp [Thread.acts, hbefore]) next hnext
    | @event e k hmem hk hsits =>
      simp only [Spot.follow] at hnext
      split at hnext
      · rename_i htaken
        exact hlands htaken next hnext
      · rename_i htaken
        cases hnext
        rcases hn.pending hmem with hgone | hstays
        · simp [hgone] at htaken
        · exact .event hstays hk (hsits.grows hlasts hgrows)
    | @request id k hk hseats =>
      simp only [Spot.follow] at hnext
      rcases hn.waiting hb hk with ⟨hsome, -, outcome, hfocus⟩ | ⟨hnone, hstays⟩
      · rw [if_pos hsome] at hnext
        cases hnext
        exact .focus hfocus (hlasts _ _ _ hgrows hseats)
      · rw [hnone] at hnext
        cases hnext
        exact .request hstays (hlasts _ _ _ hgrows hseats)
  · exact Or.inr hstops

end

end Machine
end Callflow
