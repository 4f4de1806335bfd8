import Callflow.Proofs.Machine.Disguise
import Callflow.Proofs.Machine.Running

/-!
# A budget only cuts a run short

A run that has a budget does what the same run does without one, machine by machine, as long as the
budget lasts, if no other run is started meanwhile: the one is an echo of the other (`Echo`), and a
transition of either is one of both (`Echo.step`, `Echo.heard`). This goes for a run that is called
again after it has stopped, too: it echoes the rest of the run without a budget, which has counted
the events before. `budget_cuts_short` puts this together for a run and for calls in a row.
-/

namespace Callflow

variable {σ : Type}

/-- The world with another budget. -/
def World.limited (budget : Option Nat) (w : World σ) : World σ := { w with budget }

theorem World.limited_limited {w : World σ} {budget : Option Nat} (h : w.budget = budget)
    (other : Option Nat) : (w.limited other).limited budget = w := by
  subst h
  rfl

/-- The clock is not before a horizon that it has been moved to. -/
theorem Agenda.not_lt_advance {α : Type} (a : Agenda α) (horizon : Time) :
    ¬ (a.advance horizon).now < horizon := by
  unfold advance
  split
  · exact Time.lt_irrefl horizon
  · assumption

namespace Machine

/-- The machine with another budget. -/
def limited (budget : Option Nat) (m : Machine σ) : Machine σ :=
  { m with world := m.world.limited budget }

/-- Another budget. -/
def budgeted (budget : Option Nat) : Disguise where
  budget _ := budget
  journal := id
  record _ _ := rfl
  stats _ := rfl

/-- Whoever is fooled takes the same event. -/
theorem taken?_disguised {d : Disguise} {m : Machine σ} (h : m.Fooled d) :
    (m.disguised d).taken? = m.taken? := by
  rcases m with ⟨w, stack, focus⟩
  cases focus with
  | back result =>
    cases result with
    | error cause => rfl
    | ok _ =>
      cases stack with
      | nil => rfl
      | cons caller stack =>
        cases caller with
        | run horizon count next =>
          have hspent : spent (w.disguised d) count = spent w count :=
            h.budget horizon count next stack rfl rfl
          have hagenda : (w.disguised d).agenda = w.agenda := rfl
          simp only [taken?, turn?, disguised, hspent, hagenda]
          cases spent w count with
          | true => rfl
          | false => cases w.agenda.take? horizon <;> rfl
        | _ => rfl
  | _ => rfl

/-- From a machine on, no run is started before certain callers are reached again. -/
def Alone (stack : List (Activation σ)) (m : Machine σ) : Prop :=
  ∀ past x, Inside stack m past x → x.focus.startsRun = false

/-- From a machine on, a run takes some events, and is about to look for the next one. -/
def Reaches (stack : List (Activation σ)) (horizon : Time)
    (next : Except SimulationError Nat → Script σ) (m : Machine σ)
    (events : List (Event (Callback σ))) (count : Nat) (v : World σ) : Prop :=
  ∃ past, Inside stack m past ⟨v, .run horizon count next :: stack, .back (.ok ())⟩ ∧
    past.filterMap taken? = events

/-! ## Paths inside a run -/

theorem Inside.trans {stack : List (Activation σ)} {m x y : Machine σ}
    {past more : List (Machine σ)} (h : Inside stack m past x) (k : Inside stack x more y) :
    Inside stack m (past ++ more) y := by
  induction h with
  | refl m => exact k
  | step hs hinside _ ih => exact .step hs hinside (ih k)

theorem Inside.split {stack : List (Activation σ)} {m y : Machine σ}
    {past more : List (Machine σ)} (h : Inside stack m (past ++ more) y) :
    ∃ x, Inside stack m past x ∧ Inside stack x more y := by
  induction past generalizing m with
  | nil => exact ⟨m, .refl m, h⟩
  | cons _ past ih =>
    cases h with
    | step hs hinside hrest =>
      rcases ih hrest with ⟨x, hbefore, hafter⟩
      exact ⟨x, .step hs hinside hbefore, hafter⟩

theorem Alone.inside {stack : List (Activation σ)} {m x : Machine σ} {past : List (Machine σ)}
    (h : Alone stack m) (hinside : Inside stack m past x) : Alone stack x :=
  fun _ _ hmore => h _ _ (hinside.trans hmore)

theorem Alone.past {stack : List (Activation σ)} {m x : Machine σ} {past : List (Machine σ)}
    (h : Alone stack m) (hinside : Inside stack m past x) :
    ∀ y ∈ past, y.focus.startsRun = false := by
  intro y hy
  rcases List.append_of_mem hy with ⟨before, after, rfl⟩
  rcases hinside.split with ⟨z, hbefore, hafter⟩
  cases hafter with
  | step _ _ _ => exact h _ _ hbefore

/-! ## Runs in progress -/

section

variable {stack : List (Activation σ)} {horizon : Time}
  {next : Except SimulationError Nat → Script σ} {count : Nat} {m : Machine σ}

theorem Running.stack_eq (h : Running stack horizon next count m) :
    ∃ inner, (∀ caller ∈ inner, caller.isRun = false) ∧
      m.stack = inner ++ .run horizon count next :: stack := by
  cases h with
  | intro w inner count focus hinner => exact ⟨inner, hinner, rfl⟩

/-- A run in progress that takes an event has nobody above it. -/
theorem Running.at_head (h : Running stack horizon next count m) {e : Event (Callback σ)}
    (htaken : m.taken? = some e) :
    m = ⟨m.world, .run horizon count next :: stack, .back (.ok ())⟩ ∧
      spent m.world count = false := by
  cases h with
  | intro w inner count focus hinner =>
    cases inner with
    | cons caller inner =>
      have hnone := taken?_of_not_isRun w (inner ++ .run horizon count next :: stack) focus
        (hinner caller List.mem_cons_self)
      rw [List.cons_append, hnone] at htaken
      cases htaken
    | nil =>
      rcases Option.map_eq_some_iff.1 htaken with ⟨t, hturn, -⟩
      unfold turn? at hturn
      split at hturn
      · rename_i hfocus hstack
        cases hfocus
        cases hstack
        split at hturn
        · cases hturn
        · rename_i hspent
          exact ⟨rfl, Bool.eq_false_iff.2 hspent⟩
      · cases hturn

/-- A run that has nobody above it and is not left takes an event. -/
theorem Running.takes {w : World σ} {n : Machine σ}
    (hs : Machine.step ⟨w, .run horizon count next :: stack, .back (.ok ())⟩ = some n)
    (hinside : stack.length < n.stack.length) :
    ∃ e, taken? (Machine.mk w (.run horizon count next :: stack) (.back (.ok ()))) = some e := by
  rcases Running.continues hs hinside with ⟨t, hturn, -⟩
  exact ⟨t.event, by rw [taken?, hturn]; rfl⟩

end

/-! ## Echoes -/

/-- A machine in a run without a budget, and one that differs in two ways: it has a budget of `n`
events, and its run has not counted the events that were taken before it was called. -/
inductive Echo (stack : List (Activation σ)) (horizon : Time)
    (whole next : Except SimulationError Nat → Script σ) (before n : Nat) :
    Nat → Machine σ → Machine σ → Prop where
  | intro (w : World σ) (inner : List (Activation σ)) (count : Nat) (focus : Focus σ) :
      (∀ caller ∈ inner, caller.isRun = false) → count ≤ n →
      Echo stack horizon whole next before n count
        ⟨w.limited none, inner ++ .run horizon (before + count) whole :: stack, focus⟩
        ⟨w.limited (some n), inner ++ .run horizon count next :: stack, focus⟩

/-- Two machines of which the one echoes the other. -/
def Echoes (stack : List (Activation σ)) (horizon : Time)
    (whole next : Except SimulationError Nat → Script σ) (before n : Nat) (m x : Machine σ) :
    Prop :=
  ∃ count, Echo stack horizon whole next before n count m x

section

variable {stack : List (Activation σ)} {horizon : Time}
  {whole next : Except SimulationError Nat → Script σ} {before n count : Nat}
  {m m' x x' : Machine σ}

namespace Echo

theorem running (h : Echo stack horizon whole next before n count m x) :
    Running stack horizon whole (before + count) m ∧ Running stack horizon next count x := by
  cases h with
  | intro w inner count focus hinner hcount =>
    exact ⟨.intro _ inner _ focus hinner, .intro _ inner _ focus hinner⟩

theorem le (h : Echo stack horizon whole next before n count m x) : count ≤ n := by
  cases h with
  | intro w inner count focus hinner hcount => exact hcount

/-- Without its budget, an echo is a twin. -/
theorem twin (h : Echo stack horizon whole next before n count m x) :
    Twin (fun count => .run horizon (before + count) whole)
      (fun count => .run horizon (0 + count) next) stack m (x.limited none) := by
  cases h with
  | intro w inner count focus hinner hcount =>
    have htwin : Twin (fun count => .run horizon (before + count) whole)
        (fun count => .run horizon (0 + count) next) stack
        ⟨w.limited none, inner ++ .run horizon (before + count) whole :: stack, focus⟩
        ⟨w.limited none, inner ++ .run horizon (0 + count) next :: stack, focus⟩ :=
      .intro (w.limited none) inner count focus
    rw [Nat.zero_add] at htwin
    exact htwin

theorem of_twin (hrunning : Running stack horizon whole (before + count) m)
    (hbudget : m.world.budget = none) (hcount : count ≤ n)
    (h : Twin (fun count => .run horizon (before + count) whole)
      (fun count => .run horizon (0 + count) next) stack m m') :
    Echo stack horizon whole next before n count m (m'.limited (some n)) := by
  cases h with
  | intro w inner other focus =>
    rcases hrunning.stack_eq with ⟨_, hinner, hstack⟩
    rcases List.append_inj' hstack rfl with ⟨rfl, hcaller⟩
    have hsame : other = count := by
      injection hcaller with hrun
      injection hrun
      omega
    have hworld : w = w.limited none := congrArg (fun budget => { w with budget }) hbudget
    rw [hsame, Nat.zero_add, hworld]
    exact .intro w inner count focus hinner hcount

/-- Where the topmost caller is a run, it is the run of the echo, and nobody is above it. -/
theorem top (h : Echo stack horizon whole next before n count m x) {caller : Activation σ}
    {callers : List (Activation σ)} (hrun : caller.isRun = true)
    (hstack : x.stack = caller :: callers ∨ m.stack = caller :: callers) :
    ∃ w focus, m = ⟨World.limited none w, .run horizon (before + count) whole :: stack, focus⟩ ∧
      x = ⟨World.limited (some n) w, .run horizon count next :: stack, focus⟩ := by
  cases h with
  | intro w inner count focus hinner hcount =>
    cases inner with
    | nil => exact ⟨w, focus, rfl, rfl⟩
    | cons other inner =>
      have hother := hinner other List.mem_cons_self
      have hsame : other = caller := by
        rcases hstack with hstack | hstack
        · exact (List.cons.inj hstack).1
        · exact (List.cons.inj hstack).1
      rw [hsame, hrun] at hother
      cases hother

/-- The budget of an echo goes unnoticed, unless the run has nobody above it and has counted as many
events. -/
theorem fooled (h : Echo stack horizon whole next before n count m x)
    (hleft : ∀ w, x = ⟨World.limited (some n) w, .run horizon count next :: stack, .back (.ok ())⟩ →
      m = ⟨World.limited none w, .run horizon (before + count) whole :: stack, .back (.ok ())⟩ →
      count < n) : (x.limited none).Fooled (budgeted (some n)) where
  journal _ _ := rfl
  budget := by
    intro other more goesOn callers hfocus hstack
    rcases h.top rfl (Or.inl hstack) with ⟨w, focus, hm, hx⟩
    rw [hx] at hfocus hstack
    cases hfocus
    cases hstack
    show decide (n ≤ count) = false
    exact decide_eq_false (Nat.not_le.2 (hleft w hx hm))

theorem budget (h : Echo stack horizon whole next before n count m x) :
    m.world.budget = none ∧ x = (x.limited none).limited (some n) := by
  cases h
  exact ⟨rfl, rfl⟩

/-- A transition inside the run without a budget is echoed, as long as the budget lasts. -/
theorem step (h : Echo stack horizon whole next before n count m x) (hs : m.step = some m')
    (hinside : stack.length < m'.stack.length) (hcode : m.focus.startsRun = false)
    (hlimit : count + m.taken?.toList.length ≤ n) :
    ∃ x', x.step = some x' ∧ stack.length < x'.stack.length ∧ x.taken? = m.taken? ∧
      Echo stack horizon whole next before n (count + m.taken?.toList.length) m' x' := by
  rcases h.twin.step (fun _ _ => id) h.budget.1 hs hinside with ⟨y, hy, htaken, htwin⟩
  have hfooled : (x.limited none).Fooled (budgeted (some n)) := by
    refine h.fooled ?_
    rintro w - rfl
    rcases Running.takes hs hinside with ⟨e, he⟩
    rw [he] at hlimit
    exact hlimit
  have hstep : x.step = some (y.limited (some n)) := by
    rw [h.budget.2]
    exact (step_disguised hfooled).trans (congrArg (Option.map (limited (some n))) hy)
  have hsame : x.taken? = m.taken? := by
    rw [← htaken, h.budget.2]
    exact taken?_disguised hfooled
  have hrunning : Running stack horizon whole (before + (count + m.taken?.toList.length)) m' := by
    rw [← Nat.add_assoc]
    exact h.running.1.step hs hinside hcode
  have hbudget : m'.world.budget = none := (Life.refl.next (.step hs)).budget.trans h.budget.1
  exact ⟨_, hstep, htwin.length.1.symm ▸ hinside, hsame, of_twin hrunning hbudget hlimit htwin⟩

/-- A transition inside the run with a budget is an echo. -/
theorem heard (h : Echo stack horizon whole next before n count m x) (hs : x.step = some x')
    (hinside : stack.length < x'.stack.length) (hcode : m.focus.startsRun = false) :
    ∃ m', m.step = some m' ∧ stack.length < m'.stack.length ∧ x.taken? = m.taken? ∧
      Echo stack horizon whole next before n (count + m.taken?.toList.length) m' x' := by
  have hfooled : (x.limited none).Fooled (budgeted (some n)) := by
    refine h.fooled ?_
    rintro w rfl -
    rcases Running.takes hs hinside with ⟨e, he⟩
    have hspent := (h.running.2.at_head he).2
    exact Nat.not_le.1 (of_decide_eq_false hspent)
  have hmap : (x.limited none).step.map (limited (some n)) = some x' := by
    rw [← hs, h.budget.2]
    exact (step_disguised hfooled).symm
  rcases Option.map_eq_some_iff.1 hmap with ⟨y, hy, rfl⟩
  have hnone : (x.limited none).world.budget = none := rfl
  rcases h.twin.symm.step (fun _ _ => id) hnone hy hinside with ⟨m', hm, htaken, htwin⟩
  have hsame : x.taken? = m.taken? := by
    rw [htaken, h.budget.2]
    exact taken?_disguised hfooled
  have hbelow : stack.length < m'.stack.length := htwin.length.1.symm ▸ hinside
  have hrunning : Running stack horizon whole (before + (count + m.taken?.toList.length)) m' := by
    rw [← Nat.add_assoc]
    exact h.running.1.step hm hbelow hcode
  have hbudget : m'.world.budget = none := (Life.refl.next (.step hm)).budget.trans h.budget.1
  have hlimit : count + m.taken?.toList.length ≤ n := by
    cases he : m.taken? with
    | none => exact h.le
    | some e =>
      have hspent := (h.running.2.at_head (hsame.trans he)).2
      rw [h.budget.2] at hspent
      exact Nat.not_le.1 (of_decide_eq_false hspent)
  exact ⟨m', hm, hbelow, hsame, of_twin hrunning hbudget hlimit htwin.symm⟩

/-- What goes on inside the run without a budget is echoed, as long as the budget lasts. -/
theorem inside {past : List (Machine σ)} {a : Machine σ}
    (h : Echo stack horizon whole next before n count m x) (hinside : Inside stack m past a)
    (halone : Alone stack m) (hlimit : count + (past.filterMap taken?).length ≤ n) :
    ∃ past' b, Inside stack x past' b ∧
      List.Forall₂ (Echoes stack horizon whole next before n) past past' ∧
      past'.filterMap taken? = past.filterMap taken? ∧
      Echo stack horizon whole next before n (count + (past.filterMap taken?).length) a b := by
  induction hinside generalizing count x with
  | refl m => exact ⟨[], x, .refl x, .nil, rfl, h⟩
  | @step m m' a past hs hlong hrest ih =>
    have hcount : ((m :: past).filterMap taken?).length =
        m.taken?.toList.length + (past.filterMap taken?).length := by
      cases he : m.taken? <;> simp [he, Nat.add_comm]
    rw [hcount, ← Nat.add_assoc] at hlimit ⊢
    rcases h.step hs hlong (halone [] m (.refl m)) (by omega) with ⟨x', hx, hbelow, htaken, hnext⟩
    rcases ih hnext (halone.inside (.step hs hlong (.refl m'))) hlimit with
      ⟨past', b, hpath, hpast, hevents, hlast⟩
    refine ⟨x :: past', b, .step hx hbelow hpath, .cons ⟨count, h⟩ hpast, ?_, hlast⟩
    rw [List.filterMap_cons, List.filterMap_cons, htaken, hevents]

/-- What goes on inside the run with a budget is an echo. -/
theorem heard_inside {past : List (Machine σ)} {b : Machine σ}
    (h : Echo stack horizon whole next before n count m x) (hinside : Inside stack x past b)
    (halone : Alone stack m) :
    ∃ past₀ a, Inside stack m past₀ a ∧
      List.Forall₂ (Echoes stack horizon whole next before n) past₀ past ∧
      past.filterMap taken? = past₀.filterMap taken? ∧
      Echo stack horizon whole next before n (count + (past₀.filterMap taken?).length) a b := by
  induction hinside generalizing count m with
  | refl x => exact ⟨[], m, .refl m, .nil, rfl, h⟩
  | @step x x' b past hs hlong hrest ih =>
    rcases h.heard hs hlong (halone [] m (.refl m)) with ⟨m', hm, hbelow, htaken, hnext⟩
    rcases ih hnext (halone.inside (.step hm hbelow (.refl m'))) with
      ⟨past₀, a, hpath, hpast, hevents, hlast⟩
    have hcount : ((m :: past₀).filterMap taken?).length =
        m.taken?.toList.length + (past₀.filterMap taken?).length := by
      cases he : m.taken? <;> simp [he, Nat.add_comm]
    refine ⟨m :: past₀, a, .step hm hbelow hpath, .cons ⟨count, h⟩ hpast, ?_, ?_⟩
    · rw [List.filterMap_cons, List.filterMap_cons, htaken, hevents]
    · rw [hcount, ← Nat.add_assoc]
      exact hlast

/-- An echo ends when its budget is used up, or as the run without a budget does. -/
theorem ended (h : Echo stack horizon whole next before n count m x) {verdict : Verdict}
    {u : World σ} (hends : Ends stack horizon next x verdict u) : u.budget = some n ∧
      ((verdict = .taken n ∧ count = n ∧
          m = ⟨u.limited none, .run horizon (before + n) whole :: stack, .back (.ok ())⟩) ∨
        (Ends stack horizon whole m (verdict.after before) (u.limited none) ∧
          (count < n ∨ ∀ k, verdict ≠ .taken k))) := by
  cases hends with
  | @taken x u number hreturning hstep =>
    rcases h.top rfl (Or.inl hreturning.stack) with ⟨w, focus, rfl, rfl⟩
    cases hreturning.focus
    cases hreturning.stack
    rcases hreturning.step with ⟨hspent, hgo⟩ | ⟨hspent, hnone, hgo⟩
    · rw [hgo] at hstep
      cases hstep
      have hcount : count = n := le_antisymm h.le (of_decide_eq_true hspent)
      subst hcount
      exact ⟨rfl, Or.inl ⟨rfl, rfl, rfl⟩⟩
    · rw [hgo] at hstep
      cases hstep
      have hends := ends_of_not_due (w := w.limited none) stack whole rfl hnone (before + count)
      exact ⟨rfl, Or.inr ⟨hends, Or.inl (Nat.not_le.1 (of_decide_eq_false hspent))⟩⟩
  | failed u number cause =>
    rcases h.top rfl (Or.inl rfl) with ⟨w, focus, rfl, hx⟩
    cases hx
    exact ⟨rfl, Or.inr ⟨.failed _ _ cause, Or.inr fun _ => nofun⟩⟩
  | crashed u number cause =>
    rcases h.top rfl (Or.inl rfl) with ⟨w, focus, rfl, hx⟩
    cases hx
    exact ⟨rfl, Or.inr ⟨.crashed _ _ cause, Or.inr fun _ => nofun⟩⟩

/-- An echo ends where its budget is used up. -/
theorem ends_of_used_up {v : World σ} (h : Echo stack horizon whole next before n n
    ⟨v, .run horizon (before + n) whole :: stack, .back (.ok ())⟩ x) :
    Ends stack horizon next x (.taken n) (v.limited (some n)) := by
  rcases h.top rfl (Or.inr rfl) with ⟨w, focus, hm, rfl⟩
  cases hm
  exact ends_of_spent stack next (decide_eq_true le_rfl)

/-- An echo ends where the run without a budget ends, if it may still look for the next event. -/
theorem ends_alike (h : Echo stack horizon whole next before n count m x) {verdict : Verdict}
    {v : World σ} (hends : Ends stack horizon whole m (verdict.after before) v)
    (hleft : count < n ∨ ∀ k, verdict ≠ .taken k) :
    Ends stack horizon next x verdict (v.limited (some n)) := by
  cases verdict with
  | taken k =>
    have hlt : count < n := hleft.resolve_right fun hnot => hnot k rfl
    cases hends with
    | taken hreturning hstep =>
      rcases h.top rfl (Or.inr hreturning.stack) with ⟨w, focus, rfl, rfl⟩
      cases hreturning.focus
      have hcount : k = count := by
        have hstack := hreturning.stack
        injection hstack with hcaller
        injection hcaller
        omega
      subst hcount
      rcases hreturning.step with ⟨hspent, -⟩ | ⟨-, hnone, hgo⟩
      · cases hspent
      · rw [hgo] at hstep
        cases hstep
        have hspent : spent (w.limited (some n)) k = false :=
          decide_eq_false (Nat.not_le.2 hlt)
        exact ends_of_unspent stack next hspent hnone
  | failed cause =>
    cases hends with
    | failed _ number _ =>
      rcases h.top rfl (Or.inr rfl) with ⟨w, focus, hm, rfl⟩
      cases hm
      exact .failed _ count cause
  | crashed cause =>
    cases hends with
    | crashed _ number _ =>
      rcases h.top rfl (Or.inr rfl) with ⟨w, focus, hm, rfl⟩
      cases hm
      exact .crashed _ count cause

/-- How an echo ends: its budget is used up, or the run without a budget ends with it. -/
theorem ends_iff (h : Echo stack horizon whole next before n count m x) {verdict : Verdict}
    {u : World σ} :
    Ends stack horizon next x verdict u ↔ u.budget = some n ∧
      ((verdict = .taken n ∧ count = n ∧
          m = ⟨u.limited none, .run horizon (before + n) whole :: stack, .back (.ok ())⟩) ∨
        (Ends stack horizon whole m (verdict.after before) (u.limited none) ∧
          (count < n ∨ ∀ k, verdict ≠ .taken k))) := by
  refine ⟨h.ended, ?_⟩
  rintro ⟨hbudget, hhow⟩
  have hu : u = (u.limited none).limited (some n) := (World.limited_limited hbudget none).symm
  rw [hu]
  rcases hhow with ⟨rfl, rfl, rfl⟩ | ⟨hends, hleft⟩
  · exact h.ends_of_used_up
  · exact h.ends_alike hends hleft

/-- A run with a budget, compared with the rest of a run without one: it stops on its budget where
the other one is about to look for the next event, or they end alike. -/
theorem finishes_iff (h : Echo stack horizon whole next before n 0 m x) (halone : Alone stack m)
    {events : List (Event (Callback σ))} {verdict : Verdict} {u : World σ} :
    Finishes stack horizon next x events verdict u ↔ u.budget = some n ∧
      ((verdict = .taken n ∧ events.length = n ∧
          Reaches stack horizon whole m events (before + n) (u.limited none)) ∨
        (Finishes stack horizon whole m events (verdict.after before) (u.limited none) ∧
          (events.length < n ∨ events.length = n ∧ ∀ k, verdict ≠ .taken k))) := by
  constructor
  · rintro ⟨past, b, hinside, rfl, hends⟩
    rcases h.heard_inside hinside halone with ⟨past₀, a, hpath, -, hevents, hlast⟩
    rw [Nat.zero_add] at hlast
    have hle := hlast.le
    rw [hevents]
    rcases hlast.ends_iff.1 hends with ⟨hbudget, ⟨hverdict, hcount, rfl⟩ | ⟨hother, hleft⟩⟩
    · exact ⟨hbudget, Or.inl ⟨hverdict, hcount, past₀, hpath, rfl⟩⟩
    · refine ⟨hbudget, Or.inr ⟨⟨past₀, a, hpath, rfl, hother⟩, ?_⟩⟩
      rcases Nat.lt_or_eq_of_le hle with hlt | heq
      · exact Or.inl hlt
      · exact Or.inr ⟨heq, hleft.resolve_left (by omega)⟩
  · rintro ⟨hbudget, ⟨hverdict, hcount, past₀, hpath, rfl⟩ | ⟨⟨past₀, a, hpath, rfl, hends⟩, hleft⟩⟩
    · rcases h.inside hpath halone (by omega) with ⟨past, b, hinside, -, hevents, hlast⟩
      rw [Nat.zero_add] at hlast
      exact ⟨past, b, hinside, hevents, hlast.ends_iff.2 ⟨hbudget, Or.inl ⟨hverdict, hcount, rfl⟩⟩⟩
    · rcases h.inside hpath halone (by omega) with ⟨past, b, hinside, -, hevents, hlast⟩
      rw [Nat.zero_add] at hlast
      refine ⟨past, b, hinside, hevents, hlast.ends_iff.2 ⟨hbudget, Or.inr ⟨hends, ?_⟩⟩⟩
      exact hleft.imp_right fun hlast => hlast.2

/-- In a run that has counted nothing before, an echo differs in the budget only. -/
theorem eq_limited (h : Echo stack horizon next next 0 n count m x) :
    x = m.limited (some n) ∧ m = x.limited none := by
  cases h with
  | intro w inner count focus hinner hcount =>
    rw [Nat.zero_add]
    exact ⟨rfl, rfl⟩

end Echo
end

/-! ## Calls in a row -/

/-- Some calls of a run in a row that have returned, with the events that each of them has taken. -/
inductive Calls (stack : List (Activation σ)) (horizon : Time) (w : World σ) :
    List (List (Event (Callback σ))) → World σ → Prop where
  | start : Calls stack horizon w [] w
  | more {batches : List (List (Event (Callback σ)))} {v u : World σ}
      {next : Except SimulationError Nat → Script σ} {events : List (Event (Callback σ))}
      {count : Nat} : Calls stack horizon w batches v →
      Ran v stack horizon next events (.taken count) u →
      Calls stack horizon w (batches ++ [events]) u

section

variable {stack : List (Activation σ)} {horizon : Time}
  {whole next : Except SimulationError Nat → Script σ} {n : Nat} {w v u : World σ}
  {events more : List (Event (Callback σ))} {verdict : Verdict}

/-- A call that finds the world as a run without a budget leaves it between two events is an echo of
the rest. -/
theorem echo_called (v : World σ) (before n : Nat) :
    Echo stack horizon whole next before n 0
      ⟨v.limited none, .run horizon before whole :: stack, .back (.ok ())⟩
      (called (v.limited (some n)) stack horizon next) :=
  .intro v [] 0 (.back (.ok ())) (by simp) (Nat.zero_le n)

/-- Where a run without others inside stands, it has counted the events that it has taken. -/
theorem Alone.running (halone : Alone stack (called w stack horizon next)) {m : Machine σ}
    {past : List (Machine σ)} (hinside : Inside stack (called w stack horizon next) past m) :
    Running stack horizon next (past.filterMap taken?).length m := by
  have hstart : Running stack horizon next 0 (called w stack horizon next) :=
    .intro w [] 0 (.back (.ok ())) (by simp)
  have hrunning := hstart.inside hinside (halone.past hinside)
  rw [Nat.zero_add] at hrunning
  exact hrunning

theorem Reaches.count_eq {count : Nat} (halone : Alone stack (called w stack horizon next))
    (h : Reaches stack horizon next (called w stack horizon next) events count v) :
    count = events.length := by
  rcases h with ⟨past, hinside, rfl⟩
  exact (halone.running hinside).count_eq rfl

theorem Ran.count_eq {count : Nat} (halone : Alone stack (called w stack horizon next))
    (h : Ran w stack horizon next events (.taken count) v) : count = events.length := by
  rcases h with ⟨past, x, hinside, rfl, hends⟩
  cases hends with
  | taken hreturning _ => exact (halone.running hinside).count_eq hreturning.stack

/-- A run without a budget that has returned has left nothing due, and has moved the clock. -/
theorem Ran.rests {count : Nat} (hbudget : w.budget = none)
    (h : Ran w stack horizon next events (.taken count) v) :
    v.agenda.take? horizon = none ∧ ¬ v.agenda.now < horizon := by
  rcases h with ⟨past, x, hinside, -, hends⟩
  have hx : x.world.budget = none := hinside.life.budget.trans hbudget
  cases hends with
  | taken hreturning hstep =>
    rcases hreturning.step with ⟨hspent, -⟩ | ⟨-, hnone, hgo⟩
    · rw [spent_of_none hx] at hspent
      cases hspent
    · rw [hgo] at hstep
      cases hstep
      exact ⟨(x.world.agenda.take?_advance ..).trans hnone, x.world.agenda.not_lt_advance horizon⟩

/-- A call that finds nothing due and the clock at the horizon does nothing. -/
theorem ran_iff_of_rests (hbudget : v.budget = some n) (hn : 0 < n)
    (hnone : v.agenda.take? horizon = none) (hclock : ¬ v.agenda.now < horizon) :
    Ran v stack horizon next events verdict u ↔ events = [] ∧ verdict = .taken 0 ∧ u = v := by
  have hspent : spent v 0 = false := by
    rw [spent, hbudget]
    exact decide_eq_false (Nat.not_le.2 hn)
  have hends := ends_of_unspent stack next hspent hnone
  have hstill : { v with agenda := v.agenda.advance horizon } = v := by
    rw [Agenda.advance, if_neg hclock]
  rw [hstill] at hends
  exact hends.finishes_iff

/-- Where a run without a budget is between two events, a call with a budget goes on as it does. -/
theorem Reaches.goes_on
    (h : Reaches stack horizon whole (called (w.limited none) stack horizon whole) events
      events.length (v.limited none))
    (halone : Alone stack (called (w.limited none) stack horizon whole)) (hv : v.budget = some n)
    (hran : Ran v stack horizon next more verdict u) :
    u.budget = some n ∧
      ((verdict = .taken n ∧ more.length = n ∧
          Reaches stack horizon whole (called (w.limited none) stack horizon whole)
            (events ++ more) (events ++ more).length (u.limited none)) ∨
        (Ran (w.limited none) stack horizon whole (events ++ more) (verdict.after events.length)
            (u.limited none) ∧
          (more.length < n ∨ more.length = n ∧ ∀ k, verdict ≠ .taken k))) := by
  rcases h with ⟨past, hinside, rfl⟩
  have hecho : Echo stack horizon whole next (past.filterMap taken?).length n 0
      ⟨v.limited none, .run horizon (past.filterMap taken?).length whole :: stack, .back (.ok ())⟩
      (called v stack horizon next) := by
    rw [← World.limited_limited hv none]
    exact echo_called v (past.filterMap taken?).length n
  rcases (hecho.finishes_iff (halone.inside hinside)).1 hran with
    ⟨hbudget, ⟨hverdict, hlength, later, hpath, hevents⟩ | ⟨hfinishes, hleft⟩⟩
  · refine ⟨hbudget, Or.inl ⟨hverdict, hlength, past ++ later, ?_, ?_⟩⟩
    · rw [List.length_append, hlength]
      exact hinside.trans hpath
    · rw [List.filterMap_append, hevents]
  · exact ⟨hbudget, Or.inr ⟨hinside.finishes_iff.2 ⟨more, rfl, hfinishes⟩, hleft⟩⟩

/-- What calls in a row leave behind: a run without a budget is between two events, or has returned
with nothing left to do. -/
theorem Calls.leaves {batches : List (List (Event (Callback σ)))}
    (h : Calls stack horizon (w.limited (some n)) batches v)
    (halone : Alone stack (called (w.limited none) stack horizon whole)) :
    v.budget = some n ∧
      (Reaches stack horizon whole (called (w.limited none) stack horizon whole)
          batches.flatten batches.flatten.length (v.limited none) ∨
        0 < n ∧ Ran (w.limited none) stack horizon whole batches.flatten
          (.taken batches.flatten.length) (v.limited none)) := by
  induction h with
  | start => exact ⟨rfl, Or.inl ⟨[], .refl _, rfl⟩⟩
  | @more batches v u next events count _ hran ih =>
    rw [List.flatten_append, List.flatten_singleton]
    rcases ih with ⟨hv, hreaches | ⟨hn, hended⟩⟩
    · rcases hreaches.goes_on halone hv hran with
        ⟨hu, ⟨-, -, hlater⟩ | ⟨hended, hleft⟩⟩
      · exact ⟨hu, Or.inl hlater⟩
      · have hn : 0 < n := by
          rcases hleft with hlt | ⟨-, hnot⟩
          · omega
          · exact absurd rfl (hnot count)
        have hcount : batches.flatten.length + count = (batches.flatten ++ events).length :=
          Ran.count_eq halone hended
        rw [← hcount]
        exact ⟨hu, Or.inr ⟨hn, hended⟩⟩
    · rcases hended.rests rfl with ⟨hnone, hclock⟩
      rcases (ran_iff_of_rests hv hn hnone hclock).1 hran with ⟨rfl, -, rfl⟩
      rw [List.append_nil]
      exact ⟨hv, Or.inr ⟨hn, hended⟩⟩

/-- A run passes between any two of its events. -/
theorem Reaches.split {count : Nat} {first last : List (Event (Callback σ))}
    (halone : Alone stack (called w stack horizon next))
    (h : Reaches stack horizon next (called w stack horizon next) (first ++ last) count v) :
    ∃ u, Reaches stack horizon next (called w stack horizon next) first first.length u ∧
      Reaches stack horizon next ⟨u, .run horizon first.length next :: stack, .back (.ok ())⟩ last
        count v := by
  cases last with
  | nil =>
    rw [List.append_nil] at h
    cases h.count_eq halone
    exact ⟨v, h, [], .refl _, rfl⟩
  | cons e last =>
    rcases h with ⟨past, hinside, hevents⟩
    rcases List.filterMap_eq_append_iff.1 hevents with ⟨before, after, rfl, rfl, hafter⟩
    rcases List.filterMap_eq_cons_iff.1 hafter with ⟨quiet, y, rest, rfl, hquiet, he, rfl⟩
    rw [← List.append_assoc] at hinside
    rcases hinside.split with ⟨x, hfirst, hrest⟩
    cases hrest with
    | step hs hlong hrest =>
      have hnothing : quiet.filterMap taken? = [] := List.filterMap_eq_nil_iff.2 hquiet
      have hevents : (before ++ quiet).filterMap taken? = before.filterMap taken? := by
        rw [List.filterMap_append, hnothing, List.append_nil]
      -- The machine that takes the next event is between two events.
      have hhead := ((halone.running hfirst).at_head he).1
      rw [hevents] at hhead
      refine ⟨y.world, ⟨before ++ quiet, ?_, hevents⟩, y :: rest, ?_, ?_⟩
      · rw [← hhead]
        exact hfirst
      · rw [← hhead]
        exact .step hs hlong hrest
      · rw [List.filterMap_cons, he]

/-- A run that has not taken an event has not begun. -/
theorem Reaches.of_nil {count : Nat}
    (h : Reaches stack horizon next (called w stack horizon next) [] count v) : v = w := by
  rcases h with ⟨past, hinside, hevents⟩
  cases hinside with
  | refl => rfl
  | step hs hlong _ =>
    rcases Running.takes hs hlong with ⟨e, he⟩
    rw [List.filterMap_eq_nil_iff] at hevents
    cases (hevents _ List.mem_cons_self).symm.trans he

/-- As long as a run without a budget goes on, so do calls with one, each with the next events. -/
theorem Reaches.called (halone : Alone stack (called (w.limited none) stack horizon whole))
    (k : Nat)
    (h : Reaches stack horizon whole (called (w.limited none) stack horizon whole) events (k * n)
      (v.limited none)) :
    ∃ batches, batches.length = k ∧ (∀ batch ∈ batches, batch.length = n) ∧
      batches.flatten = events ∧
      Calls stack horizon (w.limited (some n)) batches (v.limited (some n)) := by
  induction k generalizing events v with
  | zero =>
    have hcount := h.count_eq halone
    rw [Nat.zero_mul] at hcount
    cases List.length_eq_zero_iff.1 hcount.symm
    have hworld : (v.limited none).limited (some n) = (w.limited none).limited (some n) :=
      congrArg (World.limited (some n)) h.of_nil
    have hsame : v.limited (some n) = w.limited (some n) := hworld
    rw [hsame]
    exact ⟨[], rfl, by simp, rfl, .start⟩
  | succ k ih =>
    have hcount := h.count_eq halone
    rw [Nat.succ_mul] at hcount h
    rw [← List.take_append_drop (k * n) events] at h
    rcases h.split halone with ⟨u, hfirst, hlast⟩
    have hlength : (events.take (k * n)).length = k * n := by
      rw [List.length_take]
      omega
    rw [hlength] at hfirst hlast
    have hbudget : u.budget = none := by
      rcases hfirst with ⟨past, hinside, -⟩
      exact hinside.life.budget
    rw [← World.limited_limited hbudget (some n)] at hfirst hlast
    rcases ih hfirst with ⟨batches, hbatches, hall, hflatten, hcalls⟩
    have hstop : Ran (u.limited (some n)) stack horizon whole (events.drop (k * n)) (.taken n)
        (v.limited (some n)) := by
      have halone' : Alone stack ⟨(u.limited (some n)).limited none,
          .run horizon (k * n) whole :: stack, .back (.ok ())⟩ := by
        rcases hfirst with ⟨past, hinside, -⟩
        exact halone.inside hinside
      refine ((echo_called (u.limited (some n)) (k * n) n).finishes_iff halone').2 ⟨rfl, Or.inl ?_⟩
      refine ⟨rfl, ?_, hlast⟩
      rw [List.length_drop]
      omega
    refine ⟨batches ++ [events.drop (k * n)], ?_, ?_, ?_, .more hcalls hstop⟩
    · rw [List.length_append, List.length_singleton, hbatches]
    · intro batch hbatch
      rcases List.mem_append.1 hbatch with hbatch | hbatch
      · exact hall batch hbatch
      · rw [List.mem_singleton.1 hbatch, List.length_drop]
        omega
    · rw [List.flatten_append, List.flatten_singleton, hflatten, List.take_append_drop]

end

theorem map_limited_of_echoes {stack : List (Activation σ)} {horizon : Time}
    {next : Except SimulationError Nat → Script σ} {n : Nat} {past past' : List (Machine σ)}
    (h : List.Forall₂ (Echoes stack horizon next next 0 n) past past') :
    past' = past.map (limited (some n)) := by
  induction h with
  | nil => rfl
  | cons hecho _ ih =>
    rcases hecho with ⟨count, hecho⟩
    rw [List.map_cons, ih, hecho.eq_limited.1]

/-- A run with a budget of `n` events, compared with the same run without one, from any state and
for any callers, where no other run is started before the run without a budget ends:

* it goes through the same machines as without the budget, just as long as no more than `n` events
  have been taken: these are the same events in the same order, with the same effects;
* it returns `n` and leaves the world just as it is without the budget after `n` events; or it ends
  as the run without a budget does, after fewer events, or with an error that the last one brings;
* the same goes for calls in a row: after any calls that have returned, a further one stops after
  the next `n` events of the run without a budget, or it ends as that run does, with the last ones;
* as long as the run without a budget goes on, so do the calls, each with the next `n` events. -/
theorem budget_cuts_short (w : World σ) (n : Nat) (stack : List (Activation σ)) (horizon : Time)
    (next : Except SimulationError Nat → Script σ)
    (halone : Alone stack (called (w.limited none) stack horizon next)) :
    (∀ past x, Inside stack (called (w.limited (some n)) stack horizon next) past x ↔
      ∃ past₀ x₀, Inside stack (called (w.limited none) stack horizon next) past₀ x₀ ∧
        (past₀.filterMap taken?).length ≤ n ∧
        past = past₀.map (limited (some n)) ∧ x = x₀.limited (some n) ∧
        past.filterMap taken? = past₀.filterMap taken?) ∧
    (∀ events verdict (v : World σ), Ran (w.limited (some n)) stack horizon next events verdict v ↔
      v.budget = some n ∧
        ((verdict = .taken n ∧ events.length = n ∧
            Reaches stack horizon next (called (w.limited none) stack horizon next) events n
              (v.limited none)) ∨
          (Ran (w.limited none) stack horizon next events verdict (v.limited none) ∧
            (events.length < n ∨ events.length = n ∧ ∀ count, verdict ≠ .taken count)))) ∧
    (∀ batches v, Calls stack horizon (w.limited (some n)) batches v →
      ∀ second events verdict (u : World σ), Ran v stack horizon second events verdict u →
        u.budget = some n ∧
          ((verdict = .taken n ∧ events.length = n ∧
              Reaches stack horizon next (called (w.limited none) stack horizon next)
                (batches.flatten ++ events) (batches.flatten ++ events).length (u.limited none)) ∨
            (Ran (w.limited none) stack horizon next (batches.flatten ++ events)
                (verdict.after batches.flatten.length) (u.limited none) ∧
              (events.length < n ∨ events.length = n ∧ ∀ count, verdict ≠ .taken count)))) ∧
    (∀ k events (v : World σ),
      Reaches stack horizon next (called (w.limited none) stack horizon next) events (k * n)
        (v.limited none) →
      ∃ batches, batches.length = k ∧ (∀ batch ∈ batches, batch.length = n) ∧
        batches.flatten = events ∧
        Calls stack horizon (w.limited (some n)) batches (v.limited (some n))) := by
  have hecho : Echo stack horizon next next 0 n 0 (called (w.limited none) stack horizon next)
      (called (w.limited (some n)) stack horizon next) := echo_called w 0 n
  refine ⟨?_, ?_, ?_, fun k events v h => h.called halone k⟩
  · intro past x
    constructor
    · intro hinside
      rcases hecho.heard_inside hinside halone with ⟨past₀, x₀, hpath, hpast, hevents, hlast⟩
      have hle := hlast.le
      rw [Nat.zero_add] at hle
      exact ⟨past₀, x₀, hpath, hle, map_limited_of_echoes hpast, hlast.eq_limited.1, hevents⟩
    · rintro ⟨past₀, x₀, hpath, hle, rfl, rfl, -⟩
      rcases hecho.inside hpath halone (by omega) with ⟨past, x, hinside, hpast, -, hlast⟩
      rw [← map_limited_of_echoes hpast, ← hlast.eq_limited.1]
      exact hinside
  · intro events verdict v
    have hiff : Ran (w.limited (some n)) stack horizon next events verdict v ↔ _ :=
      hecho.finishes_iff halone
    rw [Nat.zero_add, verdict.after_zero] at hiff
    exact hiff
  · intro batches v hcalls second events verdict u hran
    rcases hcalls.leaves halone with ⟨hv, hreaches | ⟨hn, hended⟩⟩
    · exact hreaches.goes_on halone hv hran
    · -- Nothing is left to do.
      rcases hended.rests rfl with ⟨hnone, hclock⟩
      rcases (ran_iff_of_rests hv hn hnone hclock).1 hran with ⟨rfl, rfl, rfl⟩
      rw [List.append_nil]
      exact ⟨hv, Or.inr ⟨hended, Or.inl hn⟩⟩

/-- A run that has been followed to its end, and has started no other. -/
theorem alone_of_leaves {stack : List (Activation σ)} {m y : Machine σ} {all : List (Machine σ)}
    (h : Inside stack m all y) (hy : ∀ n, y.step = some n → ¬ stack.length < n.stack.length)
    (hcode : ∀ x ∈ all ++ [y], x.focus.startsRun = false) : Alone stack m := by
  intro past x hx
  rcases hx.cut h hy with ⟨rest, rfl, hrest⟩
  cases hrest with
  | refl => exact hcode y (by simp)
  | step _ _ _ => exact hcode x (by simp)

/-- A run that takes two events. -/
def bothAppointments : Machine Unit :=
  called (appointed.world.limited none) [] 5.0 fun _ => .done

theorem alone_bothAppointments : Alone [] bothAppointments := by
  have hinside : Inside [] bothAppointments (trail 4 bothAppointments) (run 4 bothAppointments) :=
    .step rfl (by decide) (.step rfl (by decide) (.step rfl (by decide)
      (.step rfl (by decide) (.refl _))))
  refine alone_of_leaves hinside ?_ ?_
  · rintro n ⟨⟩
    decide
  · have hcode : (trail 4 bothAppointments ++ [run 4 bothAppointments]).all
        fun x => !x.focus.startsRun := by decide +kernel
    intro x hx
    simpa using List.all_eq_true.1 hcode x hx

/-- Each of two calls with a budget of one takes one of them. -/
theorem appointments_cut_short :
    ∃ batches u, Calls [] 5.0 (appointed.world.limited (some 1)) batches u ∧
      batches.map List.length = [1, 1] ∧ batches.flatten.map Event.time = [1.0, 3.0] ∧
      u.now = 3.0 := by
  have hreaches : Reaches [] 5.0 (fun _ => .done) bothAppointments _ (2 * 1)
      ((run 4 bothAppointments).world.limited none) :=
    ⟨_, .step rfl (by decide) (.step rfl (by decide) (.step rfl (by decide)
      (.step rfl (by decide) (.refl _)))), rfl⟩
  rcases (budget_cuts_short appointed.world 1 [] 5.0 (fun _ => .done) alone_bothAppointments).2.2.2
    2 _ _ hreaches with ⟨batches, hlength, hall, hflatten, hcalls⟩
  refine ⟨batches, _, hcalls, ?_, ?_, rfl⟩
  · have hsizes := List.map_eq_replicate_iff.2 hall
    rw [hlength] at hsizes
    exact hsizes
  · rw [hflatten]
    rfl

end Machine
end Callflow
