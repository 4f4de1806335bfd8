import Callflow.Proofs.Machine.Errors
import Callflow.Proofs.Machine.Origins

/-!
# Evaluations under way

An evaluation that has begun in a life is `Underway`, and its thread tells where. What is there stands
in its place in the evaluation (`Life.bears`), and whatever waits or is handed an outcome is where the
thread of an evaluation is (`Life.traced`). So a transition that evaluates something is one of the
thread of an evaluation under way (`Life.evaluates`), and all that it evaluates stands in its place
there (`Underway.placed`).
-/

namespace Callflow
namespace Machine

variable {σ : Type}

/-- An evaluation has begun in a life with these machines, the last one at the end, and this is where
it is now. -/
inductive Underway (o : Opening σ) : List (Machine σ) → Machine σ → Thread σ → Prop where
  -- The next transition begins it.
  | begins {past : List (Machine σ)} {m : Machine σ} : m.opening? = some o →
      Underway o past m .entering
  | goes {past : List (Machine σ)} {b c : Machine σ} {thread : Thread σ} :
      Underway o past b thread → Underway o (past ++ [b]) c (thread.follow b c)

variable {o : Opening σ} {past : List (Machine σ)} {m b c : Machine σ} {thread : Thread σ}

/-! ## Threads -/

theorem ofPlace_eq_within {place : Option (Spot σ)} {spot : Spot σ}
    (h : Thread.ofPlace place = .within spot) : place = some spot := by
  cases place with
  | none => cases h
  | some found =>
    cases h
    rfl

theorem follow_ne_entering (thread : Thread σ) (b c : Machine σ) :
    thread.follow b c ≠ .entering := by
  have hplace (place : Option (Spot σ)) : Thread.ofPlace place ≠ .entering := by
    cases place <;> simp [Thread.ofPlace]
  cases thread with
  | entering => exact hplace _
  | within spot =>
    simp only [Thread.follow]
    split
    · simp
    · exact hplace _
  | _ => simp [Thread.follow]

/-- Where a transition is one of an evaluation, the evaluation is afterwards where it has landed. -/
theorem follow_of_acts {spot : Spot σ} (h : Thread.acts b (.within spot) = true) (c : Machine σ) :
    (Thread.within spot).follow b c = .ofPlace (landed b c) := by
  cases spot with
  | focus =>
    have hreturns : Thread.returns b .focus = false := by
      simpa [Thread.acts] using h
    simp only [Thread.follow, hreturns, Spot.follow]
    rfl
  | event e =>
    have htaken : (b.taken?.any fun taken => taken.seq = e.seq) = true := h
    simp only [Thread.follow, Thread.returns, Spot.follow, htaken, if_true]
    rfl
  | request id => cases h

theorem Underway.opening (h : Underway o past m .entering) : m.opening? = some o := by
  generalize hentering : Thread.entering = thread at h
  cases h with
  | begins hopening => exact hopening
  | goes _ => exact absurd hentering.symm (follow_ne_entering _ _ _)

/-- An evaluation that is under way begins now, or has been under way before. -/
theorem Underway.before (h : Underway o (past ++ [b]) c thread) :
    (thread = .entering ∧ c.opening? = some o) ∨
      ∃ earlier, Underway o past b earlier ∧ thread = earlier.follow b c := by
  generalize hpast : past ++ [b] = all at h
  cases h with
  | begins hopening => exact Or.inl ⟨rfl, hopening⟩
  | goes hbefore =>
    rcases List.append_inj' hpast rfl with ⟨rfl, hlast⟩
    cases hlast
    exact Or.inr ⟨_, hbefore, rfl⟩

theorem Underway.depth (h : Underway o past m thread) : o.next.depth = 0 := by
  induction h with
  | begins hopening => exact depth_of_opening? hopening
  | goes _ ih => exact ih

/-! ## What stands there -/

theorem Bears.mono {good more : Store → Continuation σ → Prop} (hmore : ∀ s k, good s k → more s k)
    {spot : Spot σ} (h : m.Bears good spot) : m.Bears more spot := by
  cases h with
  | focus hfocus hk => exact .focus hfocus (hmore _ _ hk)
  | event hmem hwork hsits =>
    exact .event hmem hwork ⟨fun k hk => hmore _ _ (hsits.pursues k hk), hsits.fires⟩
  | request hwaiting hk => exact .request hwaiting (hmore _ _ hk)

theorem Bears.extend {spot : Spot σ} (h : m.Bears (Seats (· = o) (· ∈ past.flatMap parts)) spot)
    (b : Machine σ) : m.Bears (Seats (· = o) (· ∈ (past ++ [b]).flatMap parts)) spot := by
  refine h.mono fun s k => Seats.mono (fun _ => id) ?_
  intro p hp
  rw [List.flatMap_append]
  exact List.mem_append_left _ hp

variable {config : SimulationConfig} {memory : σ}

/-- A transition of an evaluation goes on with this evaluation only, and stays in its place. -/
theorem Underway.stays (h : Underway o past b thread) (hacts : thread.acts b = true)
    (hlife : Life (idle (World.start config memory)) past b) (hn : Next b c)
    (hbears : ∀ spot, thread = .within spot →
      b.Bears (Seats (· = o) (· ∈ past.flatMap parts)) spot) :
    Stays (· = o) (· ∈ (past ++ [b]).flatMap parts) b.world b.parts c := by
  have hseated := hlife.seated.extend b
  have hinvolves : Involves (· = o) (· ∈ (past ++ [b]).flatMap parts) b := by
    cases thread with
    | entering => exact hseated.involves_opening h.opening
    | within spot =>
      exact ((hbears spot rfl).extend b).involves hseated.root hlife.distinct hacts
    | returned => cases hacts
    | stopped => cases hacts
  refine hn.stays hinvolves fun p hp => ?_
  rw [List.flatMap_append, List.mem_append, List.flatMap_singleton]
  exact Or.inr hp

/-- What is where the thread of an evaluation is stands in its place in the evaluation. -/
theorem Life.bears (h : Life (idle (World.start config memory)) past m) {spot : Spot σ}
    (hunderway : Underway o past m (.within spot)) :
    m.Bears (Seats (· = o) (· ∈ past.flatMap parts)) spot := by
  induction h generalizing spot with
  | refl =>
    generalize hpast : ([] : List (Machine σ)) = past at hunderway
    generalize hwithin : Thread.within spot = thread at hunderway
    cases hunderway with
    | begins _ => cases hwithin
    | goes _ => simp at hpast
  | @next past b c hlife hn ih =>
    have hb := hlife.sound (sound_idle config memory)
    rcases hunderway.before with ⟨hentering, -⟩ | ⟨thread, hbefore, hspot⟩
    · cases hentering
    -- A transition of the evaluation leaves behind what stands in its place.
    have hlands (hacts : thread.acts b = true) (next : Spot σ) (hnext : landed b c = some next) :
        c.Bears (Seats (· = o) (· ∈ (past ++ [b]).flatMap parts)) next :=
      (hbefore.stays hacts hlife hn fun spot hwithin => ih (hwithin ▸ hbefore)).bears hb.agenda rfl
        hnext
    cases thread with
    | entering => exact hlands rfl spot (ofPlace_eq_within hspot.symm)
    | within before =>
      simp only [Thread.follow] at hspot
      split at hspot
      · cases hspot
      · rename_i hreturns
        have hfollow := ofPlace_eq_within hspot.symm
        rcases ((ih hbefore).extend b).follow hn hb hlife.distinct hbefore.depth
            (Bool.eq_false_iff.2 hreturns) hlands with ⟨next, hnext, hlater⟩ | ⟨hnone, -⟩
        · rw [hfollow] at hnext
          cases hnext
          exact hlater
        · rw [hfollow] at hnone
          cases hnone
    | returned => cases hspot
    | stopped => cases hspot

/-- What is evaluated in a transition of an evaluation stands in its place there. -/
theorem Underway.placed (h : Underway o past b thread) (hacts : thread.acts b = true)
    (hlife : Life (idle (World.start config memory)) past b) (hn : Next b c) :
    ∀ p ∈ b.parts, ∃ around, p.Placed o (· ∈ (past ++ [b]).flatMap parts) around := by
  have hstays := h.stays hacts hlife hn fun spot hwithin => hlife.bears (hwithin ▸ h)
  intro p hp
  rcases hstays.placed p hp with ⟨_, around, rfl, hplaced⟩
  exact ⟨around, hplaced⟩

/-! ## Nothing without an evaluation -/

/-- What stays where it is in a transition has not been gone on with. -/
theorem Life.stays_there (h : Life (idle (World.start config memory)) past b) (hn : Next b c)
    {spot : Spot σ} (hbefore : b.world.Waits spot) (hafter : c.world.Waits spot) :
    (Thread.within spot).follow b c = .within spot := by
  have hb := h.sound (sound_idle config memory)
  rcases hbefore with ⟨k, hkeeps⟩
  rcases hafter with ⟨k', hkeeps'⟩
  cases hkeeps with
  | @event e _ hmem hk =>
    cases hkeeps' with
    | event hmem' _ =>
      have hnot : (b.taken?.any fun taken => taken.seq = e.seq) = false := by
        cases htaken : b.taken? with
        | none => rfl
        | some taken =>
          -- No event that has been taken has the number of one that is pending.
          have htakes : taken ∈ (past ++ [b]).filterMap taken? := by
            rw [List.filterMap_append]
            exact List.mem_append_right _ (by simp [htaken])
          have hother := (h.next hn).taken_apart.2 taken htakes e hmem'
          simpa using hother.symm
      simp only [Thread.follow, Thread.returns, Spot.follow, hnot]
      rfl
  | @request id _ hk =>
    cases hkeeps' with
    | request hk' =>
      rcases hn.waiting hb hk with ⟨-, hgone, -⟩ | ⟨hnone, -⟩
      · rw [hgone] at hk'
        cases hk'
      · simp only [Thread.follow, Thread.returns, Spot.follow, hnone]
        rfl

/-- Whatever waits in a simulation, or is handed an outcome, is where the thread of an evaluation
is. -/
theorem Life.traced (h : Life (idle (World.start config memory)) past m) {spot : Spot σ}
    {k : Continuation σ} (hholds : m.Holds spot k) : ∃ o, Underway o past m (.within spot) := by
  induction h generalizing spot k with
  | refl =>
    cases hholds with
    | focus hfocus => cases hfocus
    | kept hkeeps =>
      cases hkeeps with
      | event hmem _ => cases hmem
      | request hk => cases World.waiting?_lt hk
  | @next past b c hlife hn ih =>
    have hb := hlife.sound (sound_idle config memory)
    rcases hn.origin hb hlife.distinct hlife.seated hholds with
      ⟨old, hold⟩ | ⟨hlanded, ⟨o, ho⟩ | ⟨before, next, hbefore, hacts⟩⟩ | ⟨rfl, id, hid, next, hnext⟩
    · have hthere : c.world.Waits spot := by
        cases hholds with
        | focus _ => cases hold
        | kept hkeeps => exact ⟨k, hkeeps⟩
      rcases ih (.kept hold) with ⟨o, hunderway⟩
      have hgoes := hunderway.goes (c := c)
      rw [hlife.stays_there hn ⟨old, hold⟩ hthere] at hgoes
      exact ⟨o, hgoes⟩
    · have hbegins : Underway o past b .entering := .begins ho
      have hgoes := hbegins.goes (c := c)
      rw [Thread.follow, hlanded] at hgoes
      exact ⟨o, hgoes⟩
    · rcases ih hbefore with ⟨o, hunderway⟩
      have hgoes := hunderway.goes (c := c)
      rw [follow_of_acts hacts, hlanded] at hgoes
      exact ⟨o, hgoes⟩
    · rcases ih (.kept (.request hnext)) with ⟨o, hunderway⟩
      have hgoes := hunderway.goes (c := c)
      simp only [Thread.follow, Thread.returns, Spot.follow, hid, if_true] at hgoes
      exact ⟨o, hgoes⟩

/-- A transition that replies evaluates nothing. -/
theorem parts_of_answer? {a : Answer σ} (h : m.answer? = some a) : m.parts = [] := by
  unfold answer? at h
  split at h
  · rename_i request failure next hfocus
    simp only [parts, hfocus, turn?_of_code hfocus]
    rfl
  · rename_i request value hfocus
    simp only [parts, hfocus, turn?_of_resume hfocus]
    rfl
  · rename_i request cause hfocus
    simp only [parts, hfocus, turn?_of_resume hfocus]
    rfl
  · rcases Option.bind_eq_some_iff.1 h with ⟨t, hturn, hanswer⟩
    have hall : m.parts = t.parts := by
      simp only [parts, (turn?_spec hturn).1.focus, hturn, Option.map_some, Option.getD_some]
    rw [hall, Turn.parts]
    unfold Turn.answer? at hanswer
    split at hanswer
    · rename_i hwork
      rw [hwork]
    · rename_i hwork
      rw [hwork]
    · cases hanswer

/-- A transition that evaluates something is one of an evaluation under way. -/
theorem Life.evaluates (h : Life (idle (World.start config memory)) past b) (hn : Next b c)
    (hparts : b.parts ≠ []) : ∃ o thread, Underway o past b thread ∧ thread.acts b = true := by
  by_contra hnone
  have hidle {o : Opening σ} {thread : Thread σ} (hunderway : Underway o past b thread) :
      thread.acts b = false :=
    Bool.eq_false_iff.2 fun hacts => hnone ⟨o, thread, hunderway, hacts⟩
  have hopening : b.opening? = none := by
    cases ho : b.opening? with
    | none => rfl
    | some o => cases hidle (.begins ho)
  have hrests : ∀ spot k, b.Holds spot k → Thread.acts b (.within spot) = false := by
    intro spot k hholds
    rcases h.traced hholds with ⟨o, hunderway⟩
    exact hidle hunderway
  have hanswers : ∀ id, ¬ b.Answers id := by
    rintro id ⟨hsome, -⟩
    rcases Option.isSome_iff_exists.1 hsome with ⟨a, ha⟩
    exact hparts (parts_of_answer? (answerTo?_eq_some.1 ha).1)
  exact hparts (hn.adds_of_idle h.seated hopening hrests hanswers).2.2

end Machine
end Callflow
