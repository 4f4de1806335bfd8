import Callflow.Proofs.Machine.Above
import Callflow.Proofs.Machine.Clock
import Callflow.Proofs.Machine.Split

/-!
# A run without runs inside

As long as a run is in progress and no other one is started above it, it takes all events that are
taken, and counts them (`Running.inside`). Between two of them the clock stands still (`Running.now`).
-/

namespace Callflow

variable {σ : Type}

/-- Whether host code starts a run next. -/
def Focus.startsRun : Focus σ → Bool
  | .code (.run _ _) => true
  | _ => false

namespace Machine

/-- Only a run takes events. -/
theorem taken?_of_not_isRun (w : World σ) {caller : Activation σ} (stack : List (Activation σ))
    (focus : Focus σ) (h : caller.isRun = false) :
    taken? ⟨w, caller :: stack, focus⟩ = none := by
  unfold taken? turn?
  split
  · rename_i heq
    cases heq
    cases h
  · rfl

/-- An event is carried out above the run that takes it. -/
theorem turn?_stack {m : Machine σ} {t : Turn σ} (h : m.turn? = some t) :
    ∃ horizon count next stack, m.stack = .run horizon count next :: stack ∧
      t.stack = .run horizon (count + 1) next :: stack := by
  unfold turn? at h
  split at h
  · rename_i horizon count next stack _ hstack
    split at h
    · cases h
    · rcases Option.map_eq_some_iff.1 h with ⟨_, -, rfl⟩
      exact ⟨horizon, count, next, stack, hstack, rfl⟩
  · cases h

/-- A run in progress above some callers that has counted some events, with no other run above it. -/
inductive Running (stack : List (Activation σ)) (horizon : Time)
    (next : Except SimulationError Nat → Script σ) : Nat → Machine σ → Prop where
  | intro (w : World σ) (inner : List (Activation σ)) (count : Nat) (focus : Focus σ) :
      (∀ caller ∈ inner, caller.isRun = false) →
        Running stack horizon next count ⟨w, inner ++ .run horizon count next :: stack, focus⟩

variable {stack : List (Activation σ)} {horizon : Time}
  {next : Except SimulationError Nat → Script σ} {count : Nat}

theorem Over.running {inner : List (Activation σ)} {n : Machine σ}
    (h : Over (inner ++ .run horizon count next :: stack) n)
    (hinner : ∀ caller ∈ inner, caller.isRun = false) : Running stack horizon next count n := by
  rcases n with ⟨w, callers, focus⟩
  rcases h with ⟨extra, hstack, hextra, -⟩
  have hcallers : callers = (extra ++ inner) ++ .run horizon count next :: stack := by
    rw [List.append_assoc]
    exact hstack
  rw [hcallers]
  refine .intro w (extra ++ inner) count focus ?_
  intro caller hcaller
  rcases List.mem_append.1 hcaller with hcaller | hcaller
  · exact hextra caller hcaller
  · exact hinner caller hcaller

/-- A run that has nobody above it and goes on takes an event. -/
theorem Running.continues {w : World σ} {n : Machine σ}
    (hs : step ⟨w, .run horizon count next :: stack, .back (.ok ())⟩ = some n)
    (hinside : stack.length < n.stack.length) :
    ∃ t, turn? ⟨w, .run horizon count next :: stack, .back (.ok ())⟩ = some t ∧
      n = dispatch t.world (.run horizon (count + 1) next :: stack) t.event.work := by
  cases hturn : turn? ⟨w, .run horizon count next :: stack, .back (.ok ())⟩ with
  | none =>
    have hreturning : Returning ⟨w, .run horizon count next :: stack, .back (.ok ())⟩ horizon count
        next stack := ⟨rfl, rfl, hturn⟩
    rcases hreturning.step with ⟨-, hgo⟩ | ⟨-, -, hgo⟩
    · cases hgo.symm.trans hs
      exact absurd hinside (lt_irrefl _)
    · cases hgo.symm.trans hs
      exact absurd hinside (lt_irrefl _)
  | some t =>
    refine ⟨t, rfl, ?_⟩
    rcases turn?_stack hturn with ⟨_, _, _, _, hstack, hcallers⟩
    cases hstack
    rw [← hcallers]
    exact Option.some_inj.1 (hs.symm.trans (turn?_spec hturn).2)

/-- A transition that does not leave a run, and starts no other one. -/
theorem Running.step {m n : Machine σ} (h : Running stack horizon next count m)
    (hs : m.step = some n) (hinside : stack.length < n.stack.length)
    (hcode : m.focus.startsRun = false) :
    Running stack horizon next (count + m.taken?.toList.length) n := by
  cases h with
  | intro w inner count focus hinner =>
    -- Whoever returns leaves the callers below as they are.
    have hpop (caller : Activation σ) (rest : List (Activation σ)) (v : World σ) (other : Focus σ)
        (hrest : ∀ x ∈ caller :: rest, x.isRun = false) :
        Running stack horizon next
          (count + (taken? ⟨w, caller :: rest ++ .run horizon count next :: stack,
            focus⟩).toList.length) ⟨v, rest ++ .run horizon count next :: stack, other⟩ := by
      have htaken := taken?_of_not_isRun w (rest ++ .run horizon count next :: stack) focus
        (hrest caller List.mem_cons_self)
      rw [List.cons_append, htaken]
      exact .intro v rest count other fun x hx => hrest x (List.mem_cons_of_mem _ hx)
    cases focus with
    | code script =>
      cases hs
      rcases execScript_over w (inner ++ .run horizon count next :: stack) script with
        ⟨caller, hcaller, hover⟩ | ⟨hstack, -⟩
      · -- Host code calls something other than a run.
        have hother : caller.isRun = false := by
          cases script <;> cases hcaller <;> first | rfl | cases hcode
        have habove : Over ((caller :: inner) ++ .run horizon count next :: stack)
          (execScript w (inner ++ .run horizon count next :: stack) script) := hover
        refine habove.running ?_
        intro x hx
        rcases List.mem_cons.1 hx with rfl | hx
        · exact hother
        · exact hinner x hx
      · exact Over.running ⟨[], hstack, by simp, by simp⟩ hinner
    | resume going outcome =>
      cases hs
      exact (Over.resume ..).running hinner
    | back result =>
      cases inner with
      | cons caller inner =>
        cases hs
        cases caller with
        | run _ _ _ => cases hinner _ List.mem_cons_self
        | _ => exact hpop _ inner _ _ hinner
      | nil =>
        -- The run goes on with an event; otherwise it returns.
        cases result with
        | error cause =>
          cases hs
          exact absurd hinside (lt_irrefl _)
        | ok _ =>
          rcases Running.continues hs hinside with ⟨t, hturn, rfl⟩
          have htaken : taken? ⟨w, .run horizon count next :: stack, .back (.ok ())⟩ =
              some t.event := by
            rw [taken?, hturn]
            rfl
          rw [List.nil_append, htaken]
          have habove : Over ([] ++ .run horizon (count + 1) next :: stack) _ :=
            Over.dispatch t.world (.run horizon (count + 1) next :: stack) t.event.work
          exact habove.running (by simp)
    | crash cause =>
      cases inner with
      | cons caller inner =>
        cases hs
        cases caller with
        | run _ _ _ => cases hinner _ List.mem_cons_self
        | _ => exact hpop _ inner _ _ hinner
      | nil =>
        cases hs
        exact absurd hinside (lt_irrefl _)

/-- A run counts the events that are taken until it returns, if no other one is started meanwhile. -/
theorem Running.inside {m x : Machine σ} {past : List (Machine σ)} (hinside : Inside stack m past x)
    (h : Running stack horizon next count m) (hcode : ∀ y ∈ past, y.focus.startsRun = false) :
    Running stack horizon next (count + (past.filterMap taken?).length) x := by
  induction hinside generalizing count with
  | refl m => exact h
  | @step m n x past hs hlong _ ih =>
    have hnext := ih (h.step hs hlong (hcode m List.mem_cons_self))
      fun y hy => hcode y (List.mem_cons_of_mem _ hy)
    have hcount : count + ((m :: past).filterMap taken?).length =
        count + m.taken?.toList.length + (past.filterMap taken?).length := by
      cases hm : m.taken? with
      | none => simp [hm]
      | some e => simp [hm, Nat.add_assoc, Nat.add_comm]
    rw [hcount]
    exact hnext

/-- A run with nobody above it has counted what its caller says. -/
theorem Running.count_eq {m : Machine σ} {other : Nat} (h : Running stack horizon next count m)
    (hstack : m.stack = .run horizon other next :: stack) : other = count := by
  cases h with
  | intro w inner count focus hinner =>
    cases inner with
    | nil =>
      cases hstack
      rfl
    | cons caller inner =>
      have hlength := congrArg List.length hstack
      simp only [List.length_append, List.length_cons] at hlength
      omega

/-- A run that is not left does not return, and neither does any other one. -/
theorem Running.not_returning {m n : Machine σ} (h : Running stack horizon next count m)
    (hs : m.step = some n) (hinside : stack.length < n.stack.length) :
    ∀ horizon count next stack, ¬ m.Returning horizon count next stack := by
  intro other more goesOn callers hreturning
  have hlow : n.stack = callers := by
    rcases hreturning.step with ⟨-, hgo⟩ | ⟨-, -, hgo⟩
    · cases hgo.symm.trans hs
      rfl
    · cases hgo.symm.trans hs
      rfl
  have hstack := hreturning.stack
  cases h with
  | intro w inner count focus hinner =>
    cases inner with
    | nil =>
      cases hstack
      rw [hlow] at hinside
      exact lt_irrefl _ hinside
    | cons caller inner =>
      cases hstack
      cases hinner _ List.mem_cons_self

/-- As long as a run is not left and takes no event, the clock stands still. -/
theorem Running.now {m x : Machine σ} {past : List (Machine σ)} (hinside : Inside stack m past x)
    (h : Running stack horizon next count m) (hcode : ∀ y ∈ past, y.focus.startsRun = false)
    (hnone : past.filterMap taken? = []) : x.world.now = m.world.now := by
  induction hinside generalizing count with
  | refl m => rfl
  | @step m n x past hs hlong _ ih =>
    have htaken : m.taken? = none := List.filterMap_eq_nil_iff.1 hnone m List.mem_cons_self
    rw [List.filterMap_cons_none htaken] at hnone
    have hlater := ih (h.step hs hlong (hcode m List.mem_cons_self))
      (fun y hy => hcode y (List.mem_cons_of_mem _ hy)) hnone
    have hsame := step_now hs (h.not_returning hs hlong)
    rw [hlater, hsame, moment_of_not_taken htaken]

end Machine
end Callflow
