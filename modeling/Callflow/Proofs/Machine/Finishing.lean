import Callflow.Proofs.Machine.Budget
import Callflow.Proofs.Machine.Descent
import Callflow.Proofs.Machine.Reachable

/-!
# Each event finishes

In a direct world, whatever is done above a caller returns to it before another event is taken,
since less and less is left to do (`DirectAbove.returns`). So evaluations return, and so do events,
however the operations call each other, and a run with a budget ends. As all worlds that a
simulation gets into are direct, this goes for all of them.
-/

namespace Callflow
namespace Machine

variable {σ : Type}

/-- A machine that returns to certain callers next, in a direct world. -/
structure Returned (callers : List (Activation σ)) (x : Machine σ) : Prop where
  stack : x.stack = callers
  focus : x.focus.returns = true
  world : x.world.Direct

variable {stack : List (Activation σ)} {m : Machine σ}

theorem exists_step (h : m.stack ≠ []) : ∃ n, m.step = some n := by
  rcases m with ⟨w, _ | ⟨caller, stack⟩, focus⟩
  · exact absurd rfl h
  · cases focus <;> exact ⟨_, rfl⟩

namespace DirectAbove

theorem lt_length {caller : Activation σ} (h : DirectAbove (caller :: stack) m) :
    stack.length < m.stack.length := by
  rcases h.stack with ⟨inner, hstack, -⟩
  rw [hstack, List.length_append, List.length_cons]
  omega

/-- Whoever is returned to above the callers is no run. -/
theorem top {callers : List (Activation σ)} (h : DirectAbove callers m)
    (habove : m.stack ≠ callers) : ∃ top rest, m.stack = top :: rest ∧ top.isRun = false := by
  rcases h.stack with ⟨inner, hstack, hinner⟩
  cases inner with
  | nil => exact absurd hstack habove
  | cons top inner =>
    exact ⟨top, inner ++ callers, hstack, (hinner top List.mem_cons_self).not_isRun⟩

theorem not_taken {callers : List (Activation σ)} (h : DirectAbove callers m)
    (habove : m.focus.returns = true → m.stack ≠ callers) : m.taken? = none := by
  rcases m with ⟨w, all, focus⟩
  cases hreturns : focus.returns with
  | false => cases focus <;> first | rfl | cases hreturns
  | true =>
    rcases h.top (habove hreturns) with ⟨top, rest, hstack, hrun⟩
    cases hstack
    exact taken?_of_not_isRun w rest focus hrun

theorem less {callers : List (Activation σ)} {n : Machine σ} (h : DirectAbove callers m)
    (habove : m.focus.returns = true → m.stack ≠ callers) (hs : m.step = some n) : Less n m := by
  refine step_less hs ?_ ?_
  · intro script hscript
    have hfocus := h.focus
    rw [hscript] at hfocus
    exact hfocus.first
  · intro hreturns other hother
    rcases h.top (habove hreturns) with ⟨top, rest, hstack, hrun⟩
    rw [hstack] at hother
    cases hother
    exact hrun

/-- Whatever is done above a caller, the caller is returned to before another event is taken. -/
theorem returns {caller : Activation σ} (h : DirectAbove (caller :: stack) m) :
    ∃ past x, Inside stack m past x ∧ past.filterMap taken? = [] ∧
      Returned (caller :: stack) x := by
  induction m using wellFounded_less.induction with
  | h m ih =>
    by_cases hend : m.focus.returns = true ∧ m.stack = caller :: stack
    · exact ⟨[], m, .refl m, rfl, hend.2, hend.1, h.world⟩
    · have habove : m.focus.returns = true → m.stack ≠ caller :: stack :=
        fun hreturns hstack => hend ⟨hreturns, hstack⟩
      have hcallers : m.stack ≠ [] := List.length_pos_iff.1 (Nat.zero_lt_of_lt h.lt_length)
      rcases exists_step hcallers with ⟨n, hs⟩
      have hnext := h.step hs habove
      rcases ih n (h.less habove hs) hnext with ⟨past, x, hinside, hnone, hreturned⟩
      refine ⟨m :: past, x, .step hs hnext.lt_length hinside, ?_, hreturned⟩
      rw [List.filterMap_cons_none (h.not_taken habove), hnone]

/-- Any event that is queued is direct, and so is what it does. -/
theorem queued {w : World σ} (hw : w.Direct) {e : Event (Callback σ)}
    (he : e ∈ w.agenda.pending) {callers : List (Activation σ)} :
    DirectAbove callers (Machine.dispatch w callers e.work) := by
  refine .dispatch hw (hw.events e he) ?_
  intro resume hresume
  refine hw.ends resume (List.mem_append_left _ ?_)
  exact List.mem_flatMap.2 ⟨e, he, hresume⟩

/-- A run that goes on takes an event, which is direct like all others. -/
theorem turn {w : World σ} (hw : w.Direct) {horizon : Time} {count : Nat}
    {next : Except SimulationError Nat → Script σ} {t : Turn σ}
    (hturn : turn? ⟨w, .run horizon count next :: stack, .back (.ok ())⟩ = some t) :
    DirectAbove (.run horizon (count + 1) next :: stack)
      (Machine.dispatch t.world (.run horizon (count + 1) next :: stack) t.event.work) := by
  rcases (turn?_spec hturn).1.take with ⟨_, agenda, htake, hworld⟩
  rcases hw.enter htake with ⟨hentered, hcode, hends⟩
  rw [← hworld] at hentered
  exact .dispatch hentered hcode hends

end DirectAbove

section

variable {w : World σ}

/-- The evaluation of an activity returns to the host code that has asked for it. -/
theorem evaluation_returns (hw : w.Direct) (stack : List (Activation σ)) (activity : Activity)
    (caller : Caller) {resume : Outcome → Script σ}
    (hresume : ∀ outcome, (Piece.code (resume outcome)).Direct)
    (next : Except SimulationError Unit → Script σ) :
    ∃ past x, Inside stack ⟨w, stack, .code (.evaluate activity caller resume next)⟩ past x ∧
      past.filterMap taken? = [] ∧ Returned (.await next :: stack) x := by
  have hend : (Continuation.host resume).Direct := by
    rintro _ ⟨⟩
    exact .branch hresume
  have habove : DirectAbove (.await next :: stack)
      (execScript w stack (.evaluate activity caller resume next)) :=
    .proceed hend (hw.evaluate hend ..)
  rcases habove.returns with ⟨past, x, hinside, hnone, hreturned⟩
  refine ⟨_ :: past, x, .step rfl habove.lt_length hinside, ?_, hreturned⟩
  rw [List.filterMap_cons_none rfl, hnone]

/-- An event that is taken is carried out, and the run that has taken it is returned to. -/
theorem event_returns (hw : w.Direct) {stack : List (Activation σ)} {horizon : Time} {count : Nat}
    {next : Except SimulationError Nat → Script σ} {t : Turn σ}
    (hturn : turn? ⟨w, .run horizon count next :: stack, .back (.ok ())⟩ = some t) :
    ∃ past x, Inside stack ⟨w, .run horizon count next :: stack, .back (.ok ())⟩
        (⟨w, .run horizon count next :: stack, .back (.ok ())⟩ :: past) x ∧
      past.filterMap taken? = [] ∧ Returned (.run horizon (count + 1) next :: stack) x := by
  have hs := (turn?_spec hturn).2
  have hstack : t.stack = .run horizon (count + 1) next :: stack := by
    rcases turn?_stack hturn with ⟨_, _, _, _, hcallers, htop⟩
    cases hcallers
    exact htop
  rw [hstack] at hs
  have habove := DirectAbove.turn hw hturn
  rcases habove.returns with ⟨past, x, hinside, hnone, hreturned⟩
  exact ⟨past, x, .step hs habove.lt_length hinside, hnone, hreturned⟩

/-- A run with a budget ends, after no more events than are left of the budget. -/
theorem run_ends (hw : w.Direct) (stack : List (Activation σ)) (horizon : Time) {count limit : Nat}
    (next : Except SimulationError Nat → Script σ) (hbudget : w.budget = some limit) :
    ∃ events verdict v,
      Finishes stack horizon next ⟨w, .run horizon count next :: stack, .back (.ok ())⟩
        events verdict v ∧ events.length ≤ limit - count := by
  induction hleft : limit - count using Nat.strong_induction_on generalizing w count with
  | h left ih =>
    cases hturn : turn? ⟨w, .run horizon count next :: stack, .back (.ok ())⟩ with
    | none =>
      have hreturning : Returning ⟨w, .run horizon count next :: stack, .back (.ok ())⟩ horizon
          count next stack := ⟨rfl, rfl, hturn⟩
      rcases hreturning.step with ⟨-, hs⟩ | ⟨-, -, hs⟩
      · exact ⟨[], _, _, (Ends.taken hreturning hs).finishes_iff.2 ⟨rfl, rfl, rfl⟩, Nat.zero_le _⟩
      · exact ⟨[], _, _, (Ends.taken hreturning hs).finishes_iff.2 ⟨rfl, rfl, rfl⟩, Nat.zero_le _⟩
    | some t =>
      have htaken : taken? ⟨w, .run horizon count next :: stack, .back (.ok ())⟩ =
          some t.event := by
        rw [taken?, hturn]
        rfl
      have hcount : count < limit := by
        have hspent := ((Running.intro w [] count _ (by simp)).at_head htaken).2
        rw [spent, hbudget] at hspent
        simpa using hspent
      rcases event_returns hw hturn with ⟨past, x, hinside, hnone, hreturned⟩
      have hevents : (⟨w, .run horizon count next :: stack, .back (.ok ())⟩ :: past).filterMap
          taken? = [t.event] := by
        rw [List.filterMap_cons_some htaken, hnone]
      -- The run is as it was, but for one event, which it has counted.
      suffices hrest : ∃ events verdict v, Finishes stack horizon next x events verdict v ∧
          events.length ≤ limit - (count + 1) by
        rcases hrest with ⟨events, verdict, v, hfinishes, hlength⟩
        refine ⟨t.event :: events, verdict, v, hinside.finishes_iff.2 ⟨events, ?_, hfinishes⟩, ?_⟩
        · rw [hevents]
          rfl
        · rw [List.length_cons]
          omega
      have hbudget' : x.world.budget = some limit := hinside.life.budget.trans hbudget
      rcases x with ⟨v, callers, focus⟩
      rcases hreturned with ⟨rfl, hfocus, hv⟩
      cases focus with
      | code script => cases hfocus
      | resume going outcome => cases hfocus
      | crash cause =>
        exact ⟨[], _, v, (Ends.crashed v _ cause).finishes_iff.2 ⟨rfl, rfl, rfl⟩, Nat.zero_le _⟩
      | back result =>
        cases result with
        | error cause =>
          exact ⟨[], _, v, (Ends.failed v _ cause).finishes_iff.2 ⟨rfl, rfl, rfl⟩, Nat.zero_le _⟩
        | ok _ => exact ih _ (by omega) hv hbudget' rfl

end

/-- Whatever state a simulation is in, and whoever calls:

* the evaluation of any activity returns to the host code that has asked for it;
* whatever event is queued, if it is dispatched, it is returned to whoever has done so;
* the event that a run takes next is carried out, with all that it resumes, and the run is returned
  to;
* a run ends after no more events than its budget allows, if it has one.

Each takes finitely many transitions. An evaluation or an event takes no other event meanwhile, and
leaves a direct world behind. -/
theorem each_event_finishes {config : SimulationConfig} {memory : σ} {m : Machine σ}
    (hm : Reachable config memory m) (stack : List (Activation σ)) :
    (∀ activity caller (resume : Outcome → Script σ) next,
      (∀ outcome, (Piece.code (resume outcome)).Direct) →
        ∃ past x, Inside stack
            ⟨m.world, stack, .code (.evaluate activity caller resume next)⟩ past x ∧
          past.filterMap taken? = [] ∧ Returned (.await next :: stack) x) ∧
    (∀ e ∈ m.world.agenda.pending, ∀ caller,
      ∃ past x, Inside stack (dispatch m.world (caller :: stack) e.work) past x ∧
        past.filterMap taken? = [] ∧ Returned (caller :: stack) x) ∧
    (∀ horizon count next t,
      turn? ⟨m.world, .run horizon count next :: stack, .back (.ok ())⟩ = some t →
        ∃ past x, Inside stack ⟨m.world, .run horizon count next :: stack, .back (.ok ())⟩
            (⟨m.world, .run horizon count next :: stack, .back (.ok ())⟩ :: past) x ∧
          past.filterMap taken? = [] ∧ Returned (.run horizon (count + 1) next :: stack) x) ∧
    (∀ horizon next limit, config.maxEvents = some limit →
      ∃ events verdict v, Ran m.world stack horizon next events verdict v ∧
        events.length ≤ limit) := by
  have hw := hm.direct
  refine ⟨?_, ?_, ?_, ?_⟩
  · intro activity caller resume next hresume
    exact evaluation_returns hw stack activity caller hresume next
  · intro e he caller
    exact (DirectAbove.queued hw he).returns
  · intro horizon count next t hturn
    exact event_returns hw hturn
  · intro horizon next limit hlimit
    exact run_ends hw stack horizon next (hm.budget.trans hlimit)

/-- Host code that defines a service whose operation triggers itself, and triggers it for the first
time. -/
def mounting : Script Unit :=
  .evaluate
    (.sequence [.defineService "s" [.defineOperation "go" (.trigger "s" "go")], .trigger "s" "go"])
    .host (fun _ => .done) fun _ => .done

/-- A simulation that has executed this, and in which a run takes at most three events. -/
def carousel : Machine Unit := run 4 ⟨World.start ⟨true, some 3⟩ (), [], .code mounting⟩

theorem carousel_reachable : Reachable ⟨true, some 3⟩ () carousel := by
  refine (Reachable.start.call rfl (.code ?_ ?_ ?_)).run 4
  · intro c hc
    cases List.mem_singleton.1 hc
    exact .branch fun _ => .done
  · intro x hx
    cases hx
  · intro x hx
    cases List.mem_singleton.1 hx
    exact .branch fun _ => Piece.Direct.done.outer

/-- In the carousel a query returns, and so does the first event; and the run ends, although there
is always one more event to take at time zero. -/
theorem carousel_stops :
    (∃ past x, Inside [] ⟨carousel.world, [], .code (.evaluate (.query "s" "go" none) .host
        (fun _ => .done) fun _ => .done)⟩ past x ∧
      past.filterMap taken? = [] ∧ Returned [.await fun _ => .done] x) ∧
    (∃ e past x, e ∈ carousel.world.agenda.pending ∧
      Inside [] (dispatch carousel.world [.hold []] e.work) past x ∧
      past.filterMap taken? = [] ∧ Returned [.hold []] x) ∧
    (∃ t past x,
      turn? ⟨carousel.world, [.run 0.0 0 fun _ => .done], .back (.ok ())⟩ = some t ∧
      Inside [] ⟨carousel.world, [.run 0.0 0 fun _ => .done], .back (.ok ())⟩
        (⟨carousel.world, [.run 0.0 0 fun _ => .done], .back (.ok ())⟩ :: past) x ∧
      past.filterMap taken? = [] ∧ Returned [.run 0.0 1 fun _ => .done] x) ∧
    (∃ events verdict v, Ran carousel.world [] 0.0 (fun _ => .done) events verdict v ∧
      events.length ≤ 3) := by
  rcases each_event_finishes carousel_reachable [] with ⟨hevaluation, hqueued, hevent, hrun⟩
  refine ⟨hevaluation _ _ _ _ fun _ => .done, ?_, ?_, hrun 0.0 (fun _ => .done) 3 rfl⟩
  · have hsome : carousel.world.agenda.pending.head?.isSome = true := by decide +kernel
    rcases Option.isSome_iff_exists.1 hsome with ⟨e, he⟩
    rcases hqueued e (List.mem_of_head? he) (.hold []) with ⟨past, x, hreturned⟩
    exact ⟨e, past, x, List.mem_of_head? he, hreturned⟩
  · have hdue : (turn? ⟨carousel.world, [.run 0.0 0 fun _ => .done], .back (.ok ())⟩).isSome =
        true := by decide +kernel
    rcases Option.isSome_iff_exists.1 hdue with ⟨t, hturn⟩
    rcases hevent 0.0 0 (fun _ => .done) t hturn with ⟨past, x, hreturned⟩
    exact ⟨t, past, x, hturn, hreturned⟩

end Machine
end Callflow
