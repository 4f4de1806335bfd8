import Callflow.Proofs.Machine.Callers
import Callflow.Proofs.Machine.Horizon

/-!
# Splitting a run

A run up to a later horizon does what a run up to an earlier one does, and then what a further run up
to the later one does: `Life.run_splits`. Nothing in between can observe that the clock has been moved
to the earlier horizon, since the next event sets it again.

Both runs make the same transitions as long as the earlier horizon leaves something to do: their
machines differ only in the activation of the run itself (`Twin`), at which nobody above it looks.
-/

namespace Callflow

variable {σ : Type}

/-! ## Two horizons -/

namespace Agenda

variable {α : Type} {a b : Agenda α}

/-- What is due by a horizon is due by a later one. -/
theorem Sound.take?_of_le {horizon later : Time} {e : Event α} (s : a.Sound)
    (h : a.take? horizon = some (e, b)) (hle : horizon ≤ later) : a.take? later = some (e, b) := by
  rcases take?_eq_some h with ⟨rest, hpending, hdue, rfl⟩
  have hread : e.time.IsReading := s.reading e (by simp [hpending])
  simp [Agenda.take?, hpending, hread.le_trans hdue hle]

/-- Whether an event is due has nothing to do with the clock, and taking it sets the clock. -/
theorem take?_advance (a : Agenda α) (horizon later : Time) :
    (a.advance horizon).take? later = a.take? later := by
  unfold advance
  split <;> rfl

/-- The clock may be moved in two strides. -/
theorem Sound.advance_advance {horizon later : Time} (s : a.Sound) (hle : horizon ≤ later) :
    (a.advance horizon).advance later = a.advance later := by
  by_cases hfirst : a.now < horizon
  · have hread : horizon.IsReading := s.clock.of_lt hfirst
    have hplace : a.now.place < horizon.place := (Time.lt_iff s.clock hread).1 hfirst
    have hlater : later.IsReading := hread.of_le hle (by omega)
    have horder : horizon.place ≤ later.place := (Time.le_iff hread hlater).1 hle
    have hboth : a.now < later := (Time.lt_iff s.clock hlater).2 (by omega)
    have hone : a.advance horizon = { a with now := horizon } := if_pos hfirst
    have hall : a.advance later = { a with now := later } := if_pos hboth
    rw [hone, hall]
    by_cases hsecond : horizon < later
    · exact if_pos hsecond
    · -- Both horizons are the same point in time.
      have hsame : horizon = later := by
        rw [Time.lt_iff hread hlater] at hsecond
        exact Time.place_inj (by omega)
      rw [← hsame]
      exact ite_self _
  · have hone : a.advance horizon = a := if_neg hfirst
    rw [hone]

end Agenda

namespace Machine

/-! ## How a run ends -/

/-- How a run ends. -/
inductive Verdict where
  -- It returns how many events it has taken.
  | taken (count : Nat)
  -- It returns an error.
  | failed (cause : SimulationError)
  -- It is given up.
  | crashed (cause : SchedulingError)

namespace Verdict

/-- What happens after a run has ended. -/
def focus (next : Except SimulationError Nat → Script σ) : Verdict → Focus σ
  | .taken count => .code (next (.ok count))
  | .failed cause => .code (next (.error cause))
  | .crashed cause => .crash cause

/-- The verdict if some events more have been taken before. -/
def after (count : Nat) : Verdict → Verdict
  | .taken more => .taken (count + more)
  | other => other

theorem after_zero (verdict : Verdict) : verdict.after 0 = verdict := by
  cases verdict with
  | taken count => exact congrArg taken (Nat.zero_add count)
  | _ => rfl

end Verdict

/-- A run, with nobody above it, ends in the next transition and leaves a world behind. -/
inductive Ends (stack : List (Activation σ)) (horizon : Time)
    (next : Except SimulationError Nat → Script σ) : Machine σ → Verdict → World σ → Prop where
  | taken {m : Machine σ} {v : World σ} {count : Nat} : m.Returning horizon count next stack →
      m.step = some ⟨v, stack, .code (next (.ok count))⟩ → Ends stack horizon next m (.taken count) v
  | failed (w : World σ) (count : Nat) (cause : SimulationError) : Ends stack horizon next
      ⟨w, .run horizon count next :: stack, .back (.error cause)⟩ (.failed cause) w
  | crashed (w : World σ) (count : Nat) (cause : SchedulingError) : Ends stack horizon next
      ⟨w, .run horizon count next :: stack, .crash cause⟩ (.crashed cause) w

/-- Some transitions that do not get down to certain callers. -/
inductive Inside (stack : List (Activation σ)) :
    Machine σ → List (Machine σ) → Machine σ → Prop where
  | refl (m : Machine σ) : Inside stack m [] m
  | step {m n x : Machine σ} {past : List (Machine σ)} : m.step = some n →
      stack.length < n.stack.length → Inside stack n past x → Inside stack m (m :: past) x

/-- From a machine on, a run takes some events, ends, and leaves a world behind. -/
def Finishes (stack : List (Activation σ)) (horizon : Time)
    (next : Except SimulationError Nat → Script σ) (m : Machine σ)
    (events : List (Event (Callback σ))) (verdict : Verdict) (v : World σ) : Prop :=
  ∃ past x, Inside stack m past x ∧ past.filterMap taken? = events ∧
    Ends stack horizon next x verdict v

/-- A run that is called in a world by some callers. -/
def called (w : World σ) (stack : List (Activation σ)) (horizon : Time)
    (next : Except SimulationError Nat → Script σ) : Machine σ :=
  ⟨w, .run horizon 0 next :: stack, .back (.ok ())⟩

/-- A run that is called in a world by some callers takes some events, ends, and leaves another world
behind. -/
def Ran (w : World σ) (stack : List (Activation σ)) (horizon : Time)
    (next : Except SimulationError Nat → Script σ) (events : List (Event (Callback σ)))
    (verdict : Verdict) (v : World σ) : Prop :=
  Finishes stack horizon next (called w stack horizon next) events verdict v

theorem Ends.step {stack : List (Activation σ)} {horizon : Time}
    {next : Except SimulationError Nat → Script σ} {m : Machine σ} {verdict : Verdict} {v : World σ}
    (h : Ends stack horizon next m verdict v) :
    m.step = some ⟨v, stack, verdict.focus next⟩ ∧ m.taken? = none := by
  cases h with
  | taken hreturning hstep =>
    refine ⟨hstep, ?_⟩
    rw [taken?, hreturning.turn]
    rfl
  | failed w count cause => exact ⟨rfl, rfl⟩
  | crashed w count cause => exact ⟨rfl, rfl⟩

theorem Inside.life {stack : List (Activation σ)} {m x : Machine σ} {past : List (Machine σ)}
    (h : Inside stack m past x) : Life m past x := by
  induction h with
  | refl m => exact .refl
  | step hs _ _ ih => exact (Life.refl.next (.step hs)).trans ih

/-- A run is what becomes of host code that calls it. -/
theorem Ran.life {w v : World σ} {stack : List (Activation σ)} {horizon : Time}
    {next : Except SimulationError Nat → Script σ} {events : List (Event (Callback σ))}
    {verdict : Verdict} (h : Ran w stack horizon next events verdict v) :
    ∃ past, Life ⟨w, stack, .code (.run horizon next)⟩ past ⟨v, stack, verdict.focus next⟩ ∧
      past.filterMap taken? = events := by
  rcases h with ⟨past, x, hinside, rfl, hends⟩
  rcases hends.step with ⟨hstep, htaken⟩
  have hcall : Next ⟨w, stack, .code (.run horizon next)⟩ (called w stack horizon next) := .step rfl
  refine ⟨_, ((Life.refl.next hcall).trans hinside.life).next (.step hstep), ?_⟩
  have hfirst : taken? ⟨w, stack, .code (.run horizon next)⟩ = none := rfl
  simp [hfirst, htaken]

/-! ## Runs are deterministic -/

/-- Whatever does not get further above the callers has come after everything else. -/
theorem Inside.cut {stack : List (Activation σ)} {m x y : Machine σ} {past all : List (Machine σ)}
    (h : Inside stack m past x) (k : Inside stack m all y)
    (hy : ∀ n, y.step = some n → ¬ stack.length < n.stack.length) :
    ∃ rest, all = past ++ rest ∧ Inside stack x rest y := by
  induction h generalizing all with
  | refl m => exact ⟨all, rfl, k⟩
  | step hs hinside _ ih =>
    cases k with
    | refl => exact absurd hinside (hy _ hs)
    | step ks _ krest =>
      rw [hs] at ks
      cases ks
      rcases ih krest with ⟨rest, rfl, hrest⟩
      exact ⟨rest, rfl, hrest⟩

section

variable {stack : List (Activation σ)} {horizon : Time}
  {next : Except SimulationError Nat → Script σ} {m x : Machine σ} {past : List (Machine σ)}
  {events : List (Event (Callback σ))} {verdict : Verdict} {v : World σ}

theorem Ends.leaves (h : Ends stack horizon next m verdict v) {n : Machine σ}
    (hs : m.step = some n) : ¬ stack.length < n.stack.length := by
  rw [h.step.1] at hs
  cases hs
  exact lt_irrefl _

theorem Ends.unique (h : Ends stack horizon next m verdict v) {other : Verdict} {u : World σ}
    (k : Ends stack horizon next m other u) : other = verdict ∧ u = v := by
  have hstep := h.step.1
  rw [k.step.1, Option.some_inj] at hstep
  refine ⟨?_, congrArg Machine.world hstep⟩
  cases h with
  | taken hreturning _ =>
    cases k with
    | taken kreturning _ =>
      have hcount := hreturning.stack
      rw [kreturning.stack] at hcount
      cases hcount
      rfl
    | failed w count cause => cases hreturning.focus
    | crashed w count cause => cases hreturning.focus
  | failed w count cause =>
    cases k with
    | taken kreturning _ => cases kreturning.focus
    | failed => rfl
  | crashed w count cause =>
    cases k with
    | taken kreturning _ => cases kreturning.focus
    | crashed => rfl

/-- A run that has got somewhere finishes as it goes on from there. -/
theorem Inside.finishes_iff (h : Inside stack m past x) :
    Finishes stack horizon next m events verdict v ↔
      ∃ more, events = past.filterMap taken? ++ more ∧
        Finishes stack horizon next x more verdict v := by
  constructor
  · rintro ⟨all, y, hall, rfl, hends⟩
    rcases h.cut hall fun n hs => hends.leaves hs with ⟨rest, rfl, hrest⟩
    exact ⟨_, List.filterMap_append, rest, y, hrest, rfl, hends⟩
  · rintro ⟨more, rfl, rest, y, hrest, rfl, hends⟩
    refine ⟨past ++ rest, y, ?_, List.filterMap_append, hends⟩
    induction h with
    | refl m => exact hrest
    | step hs hinside _ ih => exact .step hs hinside (ih hrest)

theorem Ends.finishes_iff (h : Ends stack horizon next m verdict v) {other : Verdict}
    {u : World σ} :
    Finishes stack horizon next m events other u ↔ events = [] ∧ other = verdict ∧ u = v := by
  constructor
  · rintro ⟨all, y, hall, rfl, hends⟩
    cases hall with
    | refl => exact ⟨rfl, h.unique hends⟩
    | step hs hinside _ => exact absurd hinside (h.leaves hs)
  · rintro ⟨rfl, rfl, rfl⟩
    exact ⟨[], m, .refl m, rfl, h⟩

end

/-! ## Twins -/

/-- Two machines that differ in one activation only, which holds nothing. -/
inductive Twin (a b : Nat → Activation σ) (stack : List (Activation σ)) :
    Machine σ → Machine σ → Prop where
  | intro (w : World σ) (inner : List (Activation σ)) (count : Nat) (focus : Focus σ) :
      Twin a b stack ⟨w, inner ++ a count :: stack, focus⟩ ⟨w, inner ++ b count :: stack, focus⟩

theorem inUse_append (inner : List (Activation σ)) {caller : Activation σ}
    (h : caller.refs = []) (stack : List (Activation σ)) :
    inUse (inner ++ caller :: stack) = inUse inner ++ inUse stack := by
  simp [inUse, h]

section

variable {a b : Nat → Activation σ} {stack : List (Activation σ)}

theorem Twin.of_uniform {f : List (Activation σ) → Machine σ} (hf : Uniform f)
    (ha : ∀ count, (a count).refs = []) (hb : ∀ count, (b count).refs = [])
    (inner : List (Activation σ)) (count : Nat) :
    Twin a b stack (f (inner ++ a count :: stack)) (f (inner ++ b count :: stack)) := by
  rcases hf.spec (inUse inner ++ inUse stack) with ⟨w, extra, focus, heq⟩
  rw [heq _ (inUse_append inner (ha count) stack), heq _ (inUse_append inner (hb count) stack),
    ← List.append_assoc, ← List.append_assoc]
  exact .intro w (extra ++ inner) count focus

theorem Twin.length {m m' : Machine σ} (h : Twin a b stack m m') :
    m'.stack.length = m.stack.length ∧ stack.length < m.stack.length := by
  cases h with
  | intro w inner count focus =>
    simp only [List.length_append, List.length_cons, true_and]
    omega

/-- The machines differ at the top. -/
theorem Twin.top {m m' : Machine σ} (h : Twin a b stack m m') {caller : Activation σ}
    (hstack : m.stack = caller :: stack) :
    ∃ count, caller = a count ∧ m' = ⟨m.world, b count :: stack, m.focus⟩ := by
  cases h with
  | intro w inner count focus =>
    cases inner with
    | nil =>
      cases hstack
      exact ⟨count, rfl, rfl⟩
    | cons first rest =>
      have hlength := congrArg List.length hstack
      simp only [List.length_append, List.length_cons] at hlength
      omega

end

/-- The event that is taken next depends on the world, the focus, and the topmost caller. -/
theorem taken?_congr (w : World σ) (focus : Focus σ) (caller : Activation σ)
    (stack other : List (Activation σ)) :
    taken? ⟨w, caller :: stack, focus⟩ = taken? ⟨w, caller :: other, focus⟩ := by
  unfold taken? turn?
  split
  · rename_i horizon count next callers hfocus hstack
    cases hfocus
    cases hstack
    dsimp only
    split
    · rfl
    · cases w.agenda.take? horizon <;> rfl
  · rename_i hnone
    split
    · rename_i horizon count next callers hfocus hstack
      cases hfocus
      cases hstack
      exact absurd rfl (hnone horizon count next stack rfl)
    · rfl

theorem spent_of_none {w : World σ} (h : w.budget = none) (count : Nat) :
    spent w count = false := by
  rw [spent, h]

/-- A run takes the next event that is due. -/
theorem continueRun_take {w : World σ} (stack : List (Activation σ)) {horizon : Time}
    (next : Except SimulationError Nat → Script σ) (hbudget : w.budget = none)
    {e : Event (Callback σ)} {agenda : Agenda (Callback σ)}
    (htake : w.agenda.take? horizon = some (e, agenda)) (count : Nat) :
    continueRun w stack horizon count next =
        dispatch (w.enter e agenda) (.run horizon (count + 1) next :: stack) e.work ∧
      taken? ⟨w, .run horizon count next :: stack, .back (.ok ())⟩ = some e := by
  constructor
  · simp only [continueRun, spent_of_none hbudget, htake, Bool.false_eq_true, if_false]
    rfl
  · simp [taken?, turn?, spent_of_none hbudget, htake]

/-- A run that may not take another event returns. -/
theorem ends_of_spent {w : World σ} (stack : List (Activation σ)) {horizon : Time}
    (next : Except SimulationError Nat → Script σ) {count : Nat} (hspent : spent w count = true) :
    Ends stack horizon next ⟨w, .run horizon count next :: stack, .back (.ok ())⟩ (.taken count)
      w := by
  have hreturning : Returning ⟨w, .run horizon count next :: stack, .back (.ok ())⟩ horizon count
      next stack := ⟨rfl, rfl, by simp [turn?, hspent]⟩
  refine .taken hreturning ?_
  simp only [Machine.step, back, continueRun, hspent, if_true]

/-- A run that may take another event, but finds none due, returns. -/
theorem ends_of_unspent {w : World σ} (stack : List (Activation σ)) {horizon : Time}
    (next : Except SimulationError Nat → Script σ) {count : Nat} (hspent : spent w count = false)
    (hnone : w.agenda.take? horizon = none) :
    Ends stack horizon next ⟨w, .run horizon count next :: stack, .back (.ok ())⟩ (.taken count)
      { w with agenda := w.agenda.advance horizon } := by
  have hreturning : Returning ⟨w, .run horizon count next :: stack, .back (.ok ())⟩ horizon count
      next stack := ⟨rfl, rfl, by simp [turn?, hnone]⟩
  refine .taken hreturning ?_
  simp only [Machine.step, back, continueRun, hspent, hnone, Bool.false_eq_true, if_false]

/-- A run to whose horizon nothing is due any more returns. -/
theorem ends_of_not_due {w : World σ} (stack : List (Activation σ)) {horizon : Time}
    (next : Except SimulationError Nat → Script σ) (hbudget : w.budget = none)
    (hnone : w.agenda.take? horizon = none) (count : Nat) :
    Ends stack horizon next ⟨w, .run horizon count next :: stack, .back (.ok ())⟩ (.taken count)
      { w with agenda := w.agenda.advance horizon } :=
  ends_of_unspent stack next (spent_of_none hbudget count) hnone

section

variable {horizon horizon' : Time} {p q : Nat} {next next' : Except SimulationError Nat → Script σ}
  {stack : List (Activation σ)}

/-- The transition of one machine is that of the other, as long as it does not leave the run. -/
theorem Twin.step {m m' n : Machine σ}
    (h : Twin (fun count => .run horizon (p + count) next)
      (fun count => .run horizon' (q + count) next') stack m m')
    (hdue : ∀ (e : Event (Callback σ)) (rest : Agenda (Callback σ)),
      m.world.agenda.take? horizon = some (e, rest) →
        m.world.agenda.take? horizon' = some (e, rest))
    (hbudget : m.world.budget = none) (hs : m.step = some n)
    (hinside : stack.length < n.stack.length) :
    ∃ n', m'.step = some n' ∧ m'.taken? = m.taken? ∧
      Twin (fun count => .run horizon (p + count) next)
        (fun count => .run horizon' (q + count) next') stack n n' := by
  cases h with
  | intro w inner count focus =>
    cases focus with
    | code script =>
      cases hs
      exact ⟨_, rfl, rfl, .of_uniform (.execScript w script) (fun _ => rfl) (fun _ => rfl) ..⟩
    | resume next outcome =>
      cases hs
      exact ⟨_, rfl, rfl, .of_uniform (.resume w next outcome) (fun _ => rfl) (fun _ => rfl) ..⟩
    | back result =>
      cases inner with
      | cons caller inner =>
        cases hs
        exact ⟨_, rfl, taken?_congr .., .of_uniform (.back w result caller) (fun _ => rfl)
          (fun _ => rfl) ..⟩
      | nil =>
        -- The run itself goes on.
        cases hs
        cases result with
        | error cause => exact absurd hinside (lt_irrefl _)
        | ok _ =>
          cases htake : w.agenda.take? horizon with
          | none =>
            have hends := (ends_of_not_due stack next hbudget htake
              (p + count)).step.1
            rw [Machine.step, Option.some_inj] at hends
            rw [hends] at hinside
            exact absurd hinside (lt_irrefl _)
          | some taken =>
            rcases taken with ⟨e, agenda⟩
            rcases continueRun_take stack next hbudget htake (p + count) with
              ⟨hgo, hevent⟩
            rcases continueRun_take stack next' hbudget (hdue e agenda htake)
              (q + count) with ⟨hgo', hevent'⟩
            refine ⟨_, rfl, hevent'.trans hevent.symm, ?_⟩
            have htwin : Twin (fun count => .run horizon (p + count) next)
                (fun count => .run horizon' (q + count) next') stack
                (dispatch (w.enter e agenda) (.run horizon (p + count + 1) next :: stack) e.work)
                (dispatch (w.enter e agenda) (.run horizon' (q + count + 1) next' :: stack)
                  e.work) :=
              .of_uniform (.dispatch (w.enter e agenda) e.work) (fun _ => rfl) (fun _ => rfl) []
                (count + 1)
            have hback : back w stack (.ok ()) (.run horizon (p + count) next) =
              continueRun w stack horizon (p + count) next := rfl
            have hback' : back w stack (.ok ()) (.run horizon' (q + count) next') =
              continueRun w stack horizon' (q + count) next' := rfl
            show Twin _ _ stack (back w stack (.ok ()) (.run horizon (p + count) next))
              (back w stack (.ok ()) (.run horizon' (q + count) next'))
            rw [hback, hback', hgo, hgo']
            exact htwin
    | crash cause =>
      cases inner with
      | cons caller inner =>
        cases hs
        exact ⟨_, rfl, rfl, .of_uniform (.unwind w cause caller) (fun _ => rfl) (fun _ => rfl) ..⟩
      | nil =>
        cases hs
        exact absurd hinside (lt_irrefl _)

/-- What one machine does inside the run, the other one does. -/
theorem Twin.inside {m m' x : Machine σ} {past : List (Machine σ)}
    (h : Twin (fun count => .run horizon (p + count) next)
      (fun count => .run horizon' (q + count) next') stack m m')
    (hdue : ∀ (a : Agenda (Callback σ)) (e : Event (Callback σ)) (rest : Agenda (Callback σ)),
      a.Sound → a.take? horizon = some (e, rest) → a.take? horizon' = some (e, rest))
    (hm : m.world.Sound) (hbudget : m.world.budget = none) (hinside : Inside stack m past x) :
    ∃ past' x', Inside stack m' past' x' ∧
      past'.filterMap taken? = past.filterMap taken? ∧
      Twin (fun count => .run horizon (p + count) next)
        (fun count => .run horizon' (q + count) next') stack x x' := by
  induction hinside generalizing m' with
  | refl m => exact ⟨[], m', .refl m', rfl, h⟩
  | @step m n x past hs hlong _ ih =>
    rcases h.step (fun e rest => hdue _ e rest hm.agenda) hbudget hs hlong with
      ⟨n', hs', htaken, htwin⟩
    rcases (Next.step hs).explains with ⟨deeds, hpath, -⟩
    rcases ih htwin (hpath.sound hm) (hpath.budget.trans hbudget) with
      ⟨past', x', hinside', hevents, hlast⟩
    refine ⟨m' :: past', x', .step hs' ?_ hinside', ?_, hlast⟩
    · rw [htwin.length.1]
      exact hlong
    · rw [List.filterMap_cons, List.filterMap_cons, htaken, hevents]

end

section

variable {horizon : Time} {p q : Nat} {next next' : Except SimulationError Nat → Script σ}
  {stack : List (Activation σ)}

/-- Two runs up to the same horizon end in the same way, with their own counts. -/
theorem Twin.ends {m m' : Machine σ} {verdict : Verdict} {v : World σ}
    (h : Twin (fun count => .run horizon (p + count) next)
      (fun count => .run horizon (q + count) next') stack m m')
    (hbudget : m.world.budget = none) (hends : Ends stack horizon next m verdict v) :
    ∃ rest : Verdict, verdict = rest.after p ∧ Ends stack horizon next' m' (rest.after q) v := by
  cases hends with
  | @taken m v count hreturning hstep =>
    rcases h.top hreturning.stack with ⟨more, hcaller, rfl⟩
    cases hcaller
    have hfocus := hreturning.focus
    rcases hreturning.step with ⟨hused, _⟩ | ⟨_, hnone, hsame⟩
    · rw [spent_of_none hbudget] at hused
      cases hused
    · rw [hsame] at hstep
      cases hstep
      refine ⟨.taken more, rfl, ?_⟩
      rw [hfocus]
      exact ends_of_not_due stack next' hbudget hnone (q + more)
  | failed _ count cause =>
    rcases h.top rfl with ⟨more, hcaller, rfl⟩
    exact ⟨.failed cause, rfl, .failed v (q + more) cause⟩
  | crashed _ count cause =>
    rcases h.top rfl with ⟨more, hcaller, rfl⟩
    exact ⟨.crashed cause, rfl, .crashed v (q + more) cause⟩

theorem Twin.finishes {m m' : Machine σ} {events : List (Event (Callback σ))} {verdict : Verdict}
    {v : World σ}
    (h : Twin (fun count => .run horizon (p + count) next)
      (fun count => .run horizon (q + count) next') stack m m')
    (hm : m.world.Sound) (hbudget : m.world.budget = none)
    (hfinishes : Finishes stack horizon next m events verdict v) :
    ∃ rest : Verdict, verdict = rest.after p ∧
      Finishes stack horizon next' m' events (rest.after q) v := by
  rcases hfinishes with ⟨past, x, hinside, rfl, hends⟩
  rcases h.inside (fun _ _ _ _ => id) hm hbudget hinside with ⟨past', x', hinside', hevents, htwin⟩
  have hlater : x.world.budget = none := hinside.life.budget.trans hbudget
  rcases htwin.ends hlater hends with ⟨rest, hverdict, hends'⟩
  exact ⟨rest, hverdict, past', x', hinside', hevents, hends'⟩

theorem Twin.symm {a b : Nat → Activation σ} {m m' : Machine σ} (h : Twin a b stack m m') :
    Twin b a stack m' m := by
  cases h with
  | intro w inner count focus => exact .intro w inner count focus

end

/-! ## Going on after a run -/

/-- A run that finds nothing due before an earlier horizon, and one that is called after the clock
was moved there. -/
theorem finishes_of_advance {w : World σ} {stack : List (Activation σ)} {horizon later : Time}
    (hsound : w.Sound) (hbudget : w.budget = none) (hle : horizon ≤ later)
    (hnone : w.agenda.take? horizon = none) (count : Nat)
    (whole second : Except SimulationError Nat → Script σ) (events : List (Event (Callback σ)))
    (verdict : Verdict) (v : World σ) :
    Finishes stack later whole ⟨w, .run later count whole :: stack, .back (.ok ())⟩ events verdict v ↔
      ∃ rest : Verdict, verdict = rest.after count ∧
        Ran { w with agenda := w.agenda.advance horizon } stack later second events rest v := by
  let moved : World σ := { w with agenda := w.agenda.advance horizon }
  have hmoved : moved.Sound := (World.Path.single (.advance hnone)).sound hsound
  have hsame : moved.agenda.take? later = w.agenda.take? later := w.agenda.take?_advance ..
  cases htake : w.agenda.take? later with
  | none =>
    -- Neither run has anything to do, and the clock goes to the later horizon.
    have hwhole := ends_of_not_due stack whole hbudget htake count
    have hsecond := ends_of_not_due (w := moved) stack second hbudget
      (hsame.trans htake) 0
    have hclock : { moved with agenda := moved.agenda.advance later } =
        { w with agenda := w.agenda.advance later } := by
      have hadvance := hsound.agenda.advance_advance hle
      show { w with agenda := (w.agenda.advance horizon).advance later } = _
      rw [hadvance]
    rw [hclock] at hsecond
    rw [hwhole.finishes_iff]
    constructor
    · rintro ⟨rfl, rfl, rfl⟩
      exact ⟨.taken 0, rfl, hsecond.finishes_iff.2 ⟨rfl, rfl, rfl⟩⟩
    · rintro ⟨rest, rfl, hran⟩
      rcases hsecond.finishes_iff.1 hran with ⟨rfl, rfl, rfl⟩
      exact ⟨rfl, rfl, rfl⟩
  | some taken =>
    -- Both take the same event, which sets the clock.
    rcases taken with ⟨e, agenda⟩
    rcases continueRun_take stack whole hbudget htake count with
      ⟨hgo, hevent⟩
    rcases continueRun_take (w := moved) stack second hbudget
      (hsame.trans htake) 0 with ⟨hgo', hevent'⟩
    have hcalled : (called moved stack later second).taken? = some e := hevent'
    have htwin : Twin (fun more => .run later (count + more) whole)
        (fun more => .run later (0 + more) second) stack
        (dispatch (w.enter e agenda) (.run later (count + 1) whole :: stack) e.work)
        (dispatch (moved.enter e agenda) (.run later (0 + 1) second :: stack) e.work) :=
      .of_uniform (.dispatch (w.enter e agenda) e.work) (fun _ => rfl) (fun _ => rfl) [] 1
    have hlong := htwin.length
    have hwhole : Inside stack ⟨w, .run later count whole :: stack, .back (.ok ())⟩
        [⟨w, .run later count whole :: stack, .back (.ok ())⟩] _ :=
      .step (congrArg some hgo) hlong.2 (.refl _)
    have hsecond : Inside stack (called moved stack later second)
        [called moved stack later second] _ :=
      .step (congrArg some hgo') (by rw [hlong.1]; exact hlong.2) (.refl _)
    have hone {m : Machine σ} (h : m.taken? = some e) : [m].filterMap taken? = [e] := by
      simp [h]
    have hrun := hwhole.life
    have hrun' := hsecond.life
    rw [hwhole.finishes_iff, hone hevent]
    constructor
    · rintro ⟨more, rfl, hmore⟩
      rcases htwin.finishes (hrun.sound hsound) (hrun.budget.trans hbudget) hmore with
        ⟨rest, rfl, hrest⟩
      rw [rest.after_zero] at hrest
      exact ⟨rest, rfl, hsecond.finishes_iff.2 ⟨more, by rw [hone hcalled], hrest⟩⟩
    · rintro ⟨rest, rfl, hran⟩
      rcases hsecond.finishes_iff.1 hran with ⟨more, rfl, hmore⟩
      rcases htwin.symm.finishes (hrun'.sound hmoved) (hrun'.budget.trans hbudget) hmore with
        ⟨same, hverdict, hsame⟩
      rw [same.after_zero] at hverdict
      rw [hone hcalled, hverdict]
      exact ⟨more, rfl, hsame⟩

/-- A run up to a later horizon, compared with a run up to an earlier one from the same world, in any
life without a budget and whoever calls:

* if the earlier run returns, then the later one ends just as a further run up to the later horizon
  does that is called where the earlier one has returned: in the same world, with the same verdict, to
  whose count the earlier run adds its own, and after the events of both;
* if the earlier run fails or crashes, then the later one does so in the same world, for the same
  reason, after the same events. -/
theorem Life.run_splits {config : SimulationConfig} {memory : σ} {past : List (Machine σ)}
    {m : Machine σ} (h : Life (idle (World.start config memory)) past m)
    (hbudget : config.maxEvents = none) {horizon later : Time} (hle : horizon ≤ later)
    {stack : List (Activation σ)} (first second whole : Except SimulationError Nat → Script σ)
    {events : List (Event (Callback σ))} {verdict : Verdict} {v : World σ}
    (hran : Ran m.world stack horizon first events verdict v) :
    (∀ count, verdict = .taken count → ∀ all last u,
      Ran m.world stack later whole all last u ↔
        ∃ more rest, all = events ++ more ∧ last = Verdict.after count rest ∧
          Ran v stack later second more rest u) ∧
    ((∀ count, verdict ≠ .taken count) → ∀ all last u,
      Ran m.world stack later whole all last u ↔ all = events ∧ last = verdict ∧ u = v) := by
  have hsound : m.world.Sound := h.sound (sound_idle config memory)
  have hnone : m.world.budget = none := h.budget.trans hbudget
  rcases hran with ⟨done, x, hinside, rfl, hends⟩
  have hstart : Twin (fun count => .run horizon (0 + count) first)
      (fun count => .run later (0 + count) whole) stack (called m.world stack horizon first)
      (called m.world stack later whole) := .intro m.world [] 0 (.back (.ok ()))
  rcases hstart.inside (fun a e rest ha htake => ha.take?_of_le htake hle) hsound hnone hinside with
    ⟨done', x', hinside', hevents, htwin⟩
  have hcut (all : List (Event (Callback σ))) (last : Verdict) (u : World σ) :
      Ran m.world stack later whole all last u ↔
        ∃ more, all = done.filterMap taken? ++ more ∧ Finishes stack later whole x' more last u := by
    rw [Ran, hinside'.finishes_iff, hevents]
  have hstill (all : List (Event (Callback σ))) : all = done.filterMap taken? ++ [] ↔
      all = done.filterMap taken? := by
    rw [List.append_nil]
  cases hends with
  | @taken x v count hreturning hstep =>
    refine ⟨?_, fun hnot => absurd rfl (hnot count)⟩
    rintro _ ⟨⟩ all last u
    -- Where the earlier run returns, the later one is in the same world and looks further.
    rcases htwin.top hreturning.stack with ⟨more, hcaller, rfl⟩
    cases hcaller
    have hx : x.world.budget = none := hinside.life.budget.trans hnone
    rcases hreturning.step with ⟨hused, _⟩ | ⟨_, hnotdue, hsame⟩
    · rw [spent_of_none hx] at hused
      cases hused
    · rw [hsame] at hstep
      cases hstep
      rw [hcut]
      simp only [hreturning.focus, finishes_of_advance (hinside.life.sound hsound) hx hle hnotdue
        (0 + more) whole second]
      constructor
      · rintro ⟨later, hall, rest, hlast, hrest⟩
        exact ⟨later, rest, hall, hlast, hrest⟩
      · rintro ⟨later, rest, hall, hlast, hrest⟩
        exact ⟨later, hall, rest, hlast, hrest⟩
  | failed _ count cause =>
    refine ⟨by rintro _ ⟨⟩, ?_⟩
    intro _ all last u
    rcases htwin.top rfl with ⟨more, -, rfl⟩
    rw [hcut]
    simp only [(Ends.failed v (0 + more) cause).finishes_iff]
    constructor
    · rintro ⟨_, hall, rfl, hlast, hu⟩
      exact ⟨(hstill all).1 hall, hlast, hu⟩
    · rintro ⟨hall, hlast, hu⟩
      exact ⟨[], (hstill all).2 hall, rfl, hlast, hu⟩
  | crashed _ count cause =>
    refine ⟨by rintro _ ⟨⟩, ?_⟩
    intro _ all last u
    rcases htwin.top rfl with ⟨more, -, rfl⟩
    rw [hcut]
    simp only [(Ends.crashed v (0 + more) cause).finishes_iff]
    constructor
    · rintro ⟨_, hall, rfl, hlast, hu⟩
      exact ⟨(hstill all).1 hall, hlast, hu⟩
    · rintro ⟨hall, hlast, hu⟩
      exact ⟨[], (hstill all).2 hall, rfl, hlast, hu⟩

/-- Host code that schedules two events. -/
def appointments : Script Unit :=
  .schedule 1.0 .external .done fun _ => .schedule 3.0 .external .done fun _ => .done

/-- The machine that has executed it. -/
def appointed : Machine Unit := run 3 ⟨World.start ⟨true, none⟩ (), [], .code appointments⟩

/-- The world in which a run up to a horizon between them returns. -/
def halfway : World Unit := (run 4 ⟨appointed.world, [], .code (.run 2.0 fun _ => .done)⟩).world

theorem appointments_split :
    ∃ u events, Ran appointed.world [] 5.0 (fun _ => .done) events (.taken 2) u ∧
      events.map Event.time = [1.0, 3.0] ∧ u.now = 5.0 := by
  have hlife : Life (idle (World.start ⟨true, none⟩ ())) _ appointed :=
    (Life.refl.next (.call appointments rfl)).trans (life_run 3 _)
  have hfirst : Ran appointed.world [] 2.0 (fun _ => .done) _ (.taken 1) halfway :=
    ⟨_, _, .step rfl (by decide) (.step rfl (by decide) (.refl _)), rfl, .taken ⟨rfl, rfl, rfl⟩ rfl⟩
  have hsecond : Ran halfway [] 5.0 (fun _ => .done) _ (.taken 1) _ :=
    ⟨_, _, .step rfl (by decide) (.step rfl (by decide) (.refl _)), rfl, .taken ⟨rfl, rfl, rfl⟩ rfl⟩
  have hle : (2.0 : Time) ≤ 5.0 := by decide
  have hsplit := (hlife.run_splits rfl hle (fun _ => .done) (fun _ => .done)
    (fun _ => .done) hfirst).1 1 rfl
  exact ⟨_, _, (hsplit _ _ _).2 ⟨_, .taken 1, rfl, rfl, hsecond⟩, rfl, rfl⟩

end Machine
end Callflow
