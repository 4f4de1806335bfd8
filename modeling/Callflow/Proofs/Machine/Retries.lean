import Callflow.Proofs.Machine.Parts
import Callflow.Proofs.Machine.Places
import Callflow.Proofs.World.Trials

/-!
# Retries make the attempts that they say

A simulation may evaluate many retries, alike ones too, with bodies that are suspended and resumed in
other transitions. One of them is followed by the place of its continuation: while an attempt is being
made, the continuation that the body was given waits somewhere or is handed an outcome
(`Trial.follow`). So every retry has its own `Trial.Record` of its attempts, and the record is as it
should be at every moment of the life: `Life.retry_exact`. Nothing else of the retry waits anywhere
(`Trial.Owns`).
-/

namespace Callflow

open Continuation (Through)
open World (Adds Resolved)

variable {σ : Type}

/-! ## Following a retry -/

namespace Trial

/-- An attempt that has ended: in which transitions it began and ended, counted from the one that
evaluates the retry, when, and how. -/
structure Attempt where
  begun : Nat
  start : Time
  ended : Nat
  finish : Time
  outcome : Outcome

def Attempt.Failed (a : Attempt) : Prop := ∃ cause, a.outcome = .failure cause

/-- How a retry stands. -/
inductive Stand (σ : Type) where
  -- An attempt is being made, and its continuation is at a spot.
  | trying (begun : Nat) (start : Time) (spot : Spot σ)
  -- An event will make the next attempt.
  | waiting (e : Event (Callback σ))
  -- The retry has ended.
  | finished (outcome : Outcome)
  -- The evaluation of the body has stopped for good.
  | stopped

/-- What has become of a retry after some transitions: the attempts that have ended, the last one
first, and how it stands. -/
structure Record (σ : Type) where
  count : Nat
  log : List Attempt
  stand : Stand σ

/-- How a retry stands when an attempt has ended: an outcome is handed on, or an event is left. -/
def Stand.ofEnd : Option Outcome → Option (Spot σ) → Stand σ
  | some outcome, _ => .finished outcome
  | none, some (.event e) => .waiting e
  | none, _ => .stopped

/-- How a retry stands when an attempt has not ended. -/
def Stand.ofPlace (begun : Nat) (start : Time) : Option (Spot σ) → Stand σ
  | some spot => .trying begun start spot
  | none => .stopped

/-- Where a retry goes on. -/
def Stand.spot? : Stand σ → Option (Spot σ)
  | .trying _ _ spot => some spot
  | .waiting e => some (.event e)
  | _ => none

/-- Whether a transition goes on with a retry. -/
def Stand.acts (b : Machine σ) (stand : Stand σ) : Bool := stand.spot?.any (Spot.acts b)

variable (t : Trial σ)

/-- The next attempt begins. -/
def begin (count : Nat) (log : List Attempt) (start : Time) (inUse : List Ref) (w : World σ) :
    Record σ :=
  let whole := t.launch log.length inUse w
  match t.bodyOf (log.length + 1) inUse w with
  | (v, .ok (.resolved outcome _)) =>
    ⟨count + 1, ⟨count, start, count, start, outcome⟩ :: log,
      .ofEnd (World.handed? whole.2) (v.parked? whole.1)⟩
  | (v, _) => ⟨count + 1, log, .ofPlace count start (w.parked? v)⟩

/-- The outcome of an attempt that is handed to the retry. -/
def outcome? (b : Machine σ) : Spot σ → Option Outcome
  | .focus =>
    match b.focus with
    | .resume k outcome => if k.depth = t.next.depth + 1 then some outcome else none
    | _ => none
  | _ => none

/-- What a transition does to a retry. -/
def follow (b c : Machine σ) (r : Record σ) : Record σ :=
  match r.stand with
  | .trying begun start spot =>
    match t.outcome? b spot with
    | some outcome =>
      ⟨r.count + 1, ⟨begun, start, r.count, b.world.now, outcome⟩ :: r.log,
        .ofEnd c.focus.handed? (b.world.parked? c.world)⟩
    | none => ⟨r.count + 1, r.log, .ofPlace begun start (spot.follow b c)⟩
  | .waiting e =>
    match b.turn?.filter fun turn => turn.event.seq = e.seq with
    | some turn =>
      t.begin r.count r.log turn.event.time (Machine.inUse (.hold t.frame.refs :: turn.stack))
        turn.world
    | none => { r with count := r.count + 1 }
  | _ => { r with count := r.count + 1 }

/-- What becomes of a retry in a life: in the transition that evaluates it, and in those of the
machines that move on after it. -/
def record (past : List (Machine σ)) (n : Machine σ) : Record σ :=
  (past.zip (past.tail ++ [n])).foldl (fun r move => t.follow move.1 move.2 r)
    (t.begin 0 [] t.world.now t.inUse t.world)

theorem record_concat (past : List (Machine σ)) (b c : Machine σ) :
    t.record (past ++ [b]) c = t.follow b c (t.record past b) := by
  rw [record, zip_tail_concat, List.foldl_append]
  rfl

/-! ## What the record says -/

/-- When the next attempt begins: the first one at once, in the transition that evaluates the retry;
any other one in a later transition than the one in which the last attempt failed, which takes an
event just for it when the wait after that failure is over. -/
inductive Begins (life : List (Machine σ)) : List Attempt → Nat → Time → Prop where
  | first : Begins life [] 0 t.world.now
  | again {last : Attempt} {earlier : List Attempt} {begun : Nat} {x : Machine σ}
      {e : Event (Callback σ)} : last.ended < begun → life[begun]? = some x → x.taken? = some e →
        e.work = .attempt (t.state (earlier.length + 1)) t.body t.frame t.next →
        e.time = last.finish + t.delay.waitAfter (earlier.length + 1) →
          Begins life (last :: earlier) begun e.time

/-- How an attempt ends: at once, or when its outcome is handed to the retry. -/
inductive Ends (life : List (Machine σ)) (number : Nat) (a : Attempt) : Prop where
  | atOnce : a.ended = a.begun → a.finish = a.start → Ends life number a
  | later {x : Machine σ} : a.begun < a.ended → life[a.ended]? = some x →
      x.focus = .resume (t.point number) a.outcome → x.world.now = a.finish → Ends life number a

/-- The attempts are made one after another, each after the failure of the one before. -/
inductive Logged (life : List (Machine σ)) : List Attempt → Prop where
  | nil : Logged life []
  | cons {a : Attempt} {earlier : List Attempt} : Logged life earlier →
      (∀ b ∈ earlier, b.Failed) → t.Begins life earlier a.begun a.start →
      t.Ends life (earlier.length + 1) a → a.ended + 1 < life.length → Logged life (a :: earlier)

/-- Whoever waits for the retry gets an outcome when an attempt ends: within the same evaluation, or
in the transition after this. -/
inductive Receives (life : List (Machine σ)) (a : Attempt) (outcome : Outcome) : Prop where
  | within {held : List Ref} : a.ended = 0 → a.finish = t.world.now →
      t.part.result.2 = .ok (.resolved outcome held) → Receives life a outcome
  | resumed {x : Machine σ} : life[a.ended + 1]? = some x → x.focus = .resume t.next outcome →
      x.world.now = a.finish → Receives life a outcome

/-- The evaluation of the body of an attempt stops for good: in the transition in which the attempt
begins, or in a later one that goes on with it and leaves it nowhere. -/
inductive Breaks (life : List (Machine σ)) (number begun : Nat) : Prop where
  | atOnce {x : Machine σ} : life[begun + 1]? = some x → x.focus.Stops → Breaks life number begun
  | later {i : Nat} {y x : Machine σ} {spot : Spot σ} {k : Continuation σ} : begun < i →
      life[i]? = some y → life[i + 1]? = some x → y.Holds spot k → Through (t.point number) k →
      spot.follow y x = none → x.focus.Stops → Breaks life number begun

/-- How a retry may stand after some attempts that have ended. -/
inductive Stands (life : List (Machine σ)) (n : Machine σ) : List Attempt → Stand σ → Prop where
  | trying {log : List Attempt} {begun : Nat} {start : Time} {spot : Spot σ} {k : Continuation σ} :
      (∀ a ∈ log, a.Failed) → log.length < t.limit → t.Begins life log begun start →
      begun + 1 < life.length → n.Holds spot k → Through (t.point (log.length + 1)) k →
        Stands life n log (.trying begun start spot)
  | waiting {last : Attempt} {earlier : List Attempt} {e : Event (Callback σ)} :
      (∀ a ∈ last :: earlier, a.Failed) → earlier.length + 1 < t.limit →
      e ∈ n.world.agenda.pending →
      e.work = .attempt (t.state (earlier.length + 1)) t.body t.frame t.next →
      e.time = last.finish + t.delay.waitAfter (earlier.length + 1) →
        Stands life n (last :: earlier) (.waiting e)
  | succeeded {last : Attempt} {earlier : List Attempt} {value : Value} :
      earlier.length + 1 ≤ t.limit → last.outcome = .success value →
      t.Receives life last (.success value) →
        Stands life n (last :: earlier) (.finished (.success value))
  | exhausted {last : Attempt} {earlier : List Attempt} :
      (∀ a ∈ last :: earlier, a.Failed) → earlier.length + 1 = t.limit →
      t.Receives life last (.failure (.exhausted t.limit)) →
        Stands life n (last :: earlier) (.finished (.failure (.exhausted t.limit)))
  | stopped {log : List Attempt} {begun : Nat} {start : Time} : (∀ a ∈ log, a.Failed) →
      log.length < t.limit → t.Begins life log begun start →
      t.Breaks life (log.length + 1) begun → Stands life n log .stopped

/-- A record is as it should be, in a life with these machines, up to the last of them. -/
structure Exact (life : List (Machine σ)) (n : Machine σ) (r : Record σ) : Prop where
  count : life.length = r.count + 1
  logged : t.Logged life r.log
  stands : t.Stands life n r.log r.stand

/-- Something of a retry waits at a spot: it has begun to wait there in the evaluation of the retry,
or in a transition that has gone on with the retry, and waits there since. -/
inductive Owns (past : List (Machine σ)) (n : Machine σ) (spot : Spot σ) : Prop where
  | evaluated : ¬ t.world.Waits spot → t.part.result.1.Waits spot →
      (∀ x ∈ past ++ [n], x.world.Waits spot) → Owns past n spot
  | acted {before after : List (Machine σ)} {b : Machine σ} : past = before ++ b :: after →
      (t.record before b).stand.acts b = true → ¬ b.world.Waits spot →
      (∀ x ∈ after ++ [n], x.world.Waits spot) → Owns past n spot

end Trial

/-! ## Keeping the record -/

namespace Trial

variable {t : Trial σ} {life : List (Machine σ)} {n : Machine σ}

theorem getElem?_append {β : Type} {l : List β} {i : Nat} {x : β} (h : l[i]? = some x)
    (more : List β) : (l ++ more)[i]? = some x := by
  rw [List.getElem?_append_left (List.getElem?_eq_some_iff.1 h).1]
  exact h

theorem Begins.append {log : List Attempt} {begun : Nat} {start : Time}
    (h : t.Begins life log begun start) (more : List (Machine σ)) :
    t.Begins (life ++ more) log begun start := by
  cases h with
  | first => exact .first
  | again hlater hx htaken hwork htime =>
    exact .again hlater (getElem?_append hx more) htaken hwork htime

theorem Ends.append {number : Nat} {a : Attempt} (h : t.Ends life number a)
    (more : List (Machine σ)) : t.Ends (life ++ more) number a := by
  cases h with
  | atOnce hended hfinish => exact .atOnce hended hfinish
  | later hlater hx hfocus hnow => exact .later hlater (getElem?_append hx more) hfocus hnow

theorem Logged.append {log : List Attempt} (h : t.Logged life log) (more : List (Machine σ)) :
    t.Logged (life ++ more) log := by
  induction h with
  | nil => exact .nil
  | cons _ hfailed hbegins hends hended ih =>
    refine .cons ih hfailed (hbegins.append more) (hends.append more) ?_
    rw [List.length_append]
    omega

theorem Receives.append {a : Attempt} {outcome : Outcome} (h : t.Receives life a outcome)
    (more : List (Machine σ)) : t.Receives (life ++ more) a outcome := by
  cases h with
  | within hfirst hfinish hresult => exact .within hfirst hfinish hresult
  | resumed hx hfocus hnow => exact .resumed (getElem?_append hx more) hfocus hnow

theorem Breaks.append {number begun : Nat} (h : t.Breaks life number begun)
    (more : List (Machine σ)) : t.Breaks (life ++ more) number begun := by
  cases h with
  | atOnce hx hstops => exact .atOnce (getElem?_append hx more) hstops
  | later hlater hy hx hholds hk hnowhere hstops =>
    exact .later hlater (getElem?_append hy more) (getElem?_append hx more) hholds hk hnowhere hstops

theorem Logged.ended_lt {last : Attempt} {earlier : List Attempt}
    (h : t.Logged life (last :: earlier)) : last.ended + 1 < life.length := by
  cases h with
  | cons _ _ _ _ hended => exact hended

/-- An attempt has ended, in a transition to `n`. -/
theorem Exact.ended (hvalid : t.Valid) {a : Attempt} {log : List Attempt} {count : Nat}
    {v : World σ} {held : List Ref} {e : Evaluation σ}
    (he : e = t.after (log.length + 1) held a.outcome v) (hv : v.agenda.Sound)
    (hcount : life.length = count + 1) (hlogged : t.Logged life (a :: log))
    (hlimit : log.length < t.limit) (hfinish : v.now = a.finish)
    (hreceives : ∀ outcome, World.handed? e.2 = some outcome → t.Receives life a outcome)
    (hleads : World.handed? e.2 = none → n.world = e.1) :
    t.Exact life n ⟨count, a :: log, .ofEnd (World.handed? e.2) (v.parked? e.1)⟩ := by
  refine ⟨hcount, hlogged, ?_⟩
  have hfailed : ∀ b ∈ log, b.Failed := by
    cases hlogged with
    | cons _ hfailed _ _ _ => exact hfailed
  have hconcludes := t.concludes hvalid hv (Nat.succ_pos _) hlimit held a.outcome
  rw [← he] at hconcludes
  generalize houtcome : a.outcome = outcome at hconcludes
  have hall {cause : Failure} (hcause : a.outcome = .failure cause) : ∀ b ∈ a :: log, b.Failed := by
    intro b hb
    rcases List.mem_cons.1 hb with rfl | hb
    · exact ⟨cause, hcause⟩
    · exact hfailed b hb
  cases hconcludes with
  | success => exact .succeeded hlimit houtcome (hreceives _ rfl)
  | exhausted hlast => exact .exhausted (hall houtcome) hlast (hreceives _ rfl)
  | again hless hwork htime hmem hparked =>
    have hworld := hleads rfl
    dsimp only at hworld
    simp only [World.handed?, hparked, Stand.ofEnd]
    rw [← hworld] at hmem
    rw [hfinish] at htime
    exact .waiting (hall houtcome) hless hmem hwork htime

/-- An attempt begins, in a transition to `n`. -/
theorem Exact.begun (hvalid : t.Valid) {log : List Attempt} {count : Nat} {start : Time}
    {inUse : List Ref} {w : World σ} (hw : w.Sound) (hcount : life.length = count + 2)
    (hlogged : t.Logged life log) (hfailed : ∀ a ∈ log, a.Failed) (hlimit : log.length < t.limit)
    (hbegins : t.Begins life log count start) (hnow : w.now = start)
    (hn : life[count + 1]? = some n)
    (hreceives : ∀ outcome, World.handed? (t.launch log.length inUse w).2 = some outcome →
      ∀ a : Attempt, a.ended = count → a.finish = start → t.Receives life a outcome)
    (hleads : World.handed? (t.launch log.length inUse w).2 = none →
      ∃ stack next, n = Machine.proceed stack next (t.launch log.length inUse w)) :
    t.Exact life n (t.begin count log start inUse w) := by
  have hparked := World.evaluate_parks inUse t.body t.frame (t.point (log.length + 1)) w
  rcases World.evaluate_quiet inUse t.body t.frame (t.point (log.length + 1)) w with
    ⟨deeds, hpath, hquiet⟩
  have hclock := (hpath.clock hquiet).1
  have hsound := hpath.sound hw
  rw [← bodyOf] at hparked hclock hsound
  unfold begin
  generalize hbody : t.bodyOf (log.length + 1) inUse w = e at hparked hclock hsound
  by_cases hresolved : Resolved e.2
  · -- The body has resolved, so the attempt ends at once.
    rcases e with ⟨v, _ | _ | ⟨outcome, held⟩⟩
    · cases hresolved
    · cases hresolved
    · have hlogged' : t.Logged life (⟨count, start, count, start, outcome⟩ :: log) :=
        .cons hlogged hfailed hbegins (.atOnce rfl rfl) (by simp only; omega)
      exact .ended hvalid (launch_of_resolved hbody) hsound.agenda (by omega) hlogged' hlimit
        (hclock.trans hnow) (fun outcome hhanded => hreceives outcome hhanded _ rfl rfl)
        fun hnone => by
          rcases hleads hnone with ⟨stack, next, hn⟩
          rw [hn, Machine.proceed_world]
  · have hlaunch : t.launch log.length inUse w = e := by
      rw [launch_of_unresolved (by rw [hbody]; exact hresolved), hbody]
    rw [hlaunch] at hleads
    rcases hleads (World.handed?_of_not_resolved hresolved) with ⟨stack, next, hproceed⟩
    have hworld : n.world = e.1 := by rw [hproceed, Machine.proceed_world]
    have hplaced : t.Stands life n log (.ofPlace count start (w.parked? e.1)) := by
      cases hspot : w.parked? e.1 with
      | some spot =>
        rcases hparked.parks.parked? hw.agenda hspot with ⟨k, hkeeps, -, hk⟩
        rw [← hworld] at hkeeps
        exact .trying hfailed hlimit hbegins (by omega) (.kept hkeeps) hk
      | none =>
        refine .stopped hfailed hlimit hbegins (.atOnce hn ?_)
        rcases e with ⟨v, stop | _ | _⟩
        · rw [hproceed]
          cases stop <;> trivial
        · have hfound := (hparked.leaves rfl).parked?
          rw [hspot] at hfound
          cases hfound
        · exact absurd trivial hresolved
    rcases e with ⟨v, _ | _ | _⟩
    · exact ⟨by simp only; omega, hlogged, hplaced⟩
    · exact ⟨by simp only; omega, hlogged, hplaced⟩
    · exact absurd trivial hresolved

/-- An attempt takes no time by itself. -/
theorem now_launch (t : Trial σ) (made : Nat) (inUse : List Ref) (w : World σ) :
    (t.launch made inUse w).1.now = w.now := by
  have hcourse : World.Course w _ (t.launch made inUse w).1 :=
    World.course_attempt (World.evaluate_course ..)
  rcases hcourse.hands.deeds with ⟨deeds, hpath, hquiet, -⟩
  exact (hpath.clock hquiet).1

theorem now_after (t : Trial σ) (number : Nat) (held : List Ref) (outcome : Outcome)
    (w : World σ) : (t.after number held outcome w).1.now = w.now := by
  rcases (World.afterAttempt_still w (t.state number) t.body t.frame t.next held
    outcome).hands.deeds with ⟨deeds, hpath, hquiet, -⟩
  exact (hpath.clock hquiet).1

/-- Whoever waits for the retry is resumed in the transition to `c`. -/
theorem Receives.of_proceed {before : List (Machine σ)} {b c : Machine σ} {a : Attempt}
    {stack : List (Activation σ)} {e : Evaluation σ} (hc : c = Machine.proceed stack t.next e)
    (hended : a.ended = before.length) (hnow : e.1.now = a.finish) {outcome : Outcome}
    (hhanded : World.handed? e.2 = some outcome) :
    t.Receives (before ++ [b] ++ [c]) a outcome := by
  rcases e with ⟨v, _ | _ | ⟨other, held⟩⟩
  · cases hhanded
  · cases hhanded
  · cases hhanded
    refine .resumed (x := c) (by simp [hended]) (by rw [hc]; rfl) ?_
    rw [hc]
    exact hnow

variable {before : List (Machine σ)} {b c : Machine σ}

/-- The outcome of an attempt is handed to the retry. -/
theorem outcome?_eq_some {spot : Spot σ} {k : Continuation σ} {number : Nat} {outcome : Outcome}
    (hholds : b.Holds spot k) (hk : Through (t.point number) k)
    (houtcome : t.outcome? b spot = some outcome) :
    spot = .focus ∧ b.focus = .resume (t.point number) outcome := by
  cases hholds with
  | @focus _ other hfocus =>
    simp only [outcome?, hfocus] at houtcome
    split at houtcome
    · rename_i hdepth
      cases houtcome
      rw [hk.eq_of_depth hdepth] at hfocus
      exact ⟨rfl, hfocus⟩
    · cases houtcome
  | kept hkeeps => cases hkeeps <;> cases houtcome

/-- An outcome is handed on within the body of an attempt. -/
theorem depth_ne {spot : Spot σ} {k : Continuation σ} (hholds : b.Holds spot k)
    (houtcome : t.outcome? b spot = none) : spot = .focus → k.depth ≠ t.next.depth + 1 := by
  rintro rfl hdepth
  cases hholds with
  | focus hfocus =>
    simp only [outcome?, hfocus] at houtcome
    rw [if_pos hdepth] at houtcome
    cases houtcome
  | kept hkeeps => cases hkeeps

/-- The event of the next attempt is taken in the transition from `b` to `c`. -/
theorem launches_of_turn {made : Nat} {e : Event (Callback σ)} {turn : Machine.Turn σ}
    (hn : Machine.Next b c) (hb : b.world.Sound) (hdistinct : b.world.agenda.Distinct)
    (hmem : e ∈ b.world.agenda.pending)
    (hwork : e.work = .attempt (t.state made) t.body t.frame t.next)
    (hturn : (b.turn?.filter fun turn => turn.event.seq = e.seq) = some turn) :
    turn.event = e ∧ b.taken? = some e ∧ Machine.Taking b turn ∧ turn.world.Sound ∧
      c = Machine.proceed (.hold t.frame.refs :: turn.stack) t.next
        (t.launch made (Machine.inUse (.hold t.frame.refs :: turn.stack)) turn.world) := by
  rcases Machine.turn?_filter hdistinct hmem hturn with ⟨htold, rfl⟩
  rcases Machine.turn?_spec htold with ⟨htaking, hstep⟩
  have htaken : b.taken? = some turn.event := by
    rw [Machine.taken?, htold]
    rfl
  have hsound : turn.world.Sound :=
    (htaking.path fun id deadline r hexpire => by simp [hwork] at hexpire).sound hb
  rw [hwork] at hstep
  exact ⟨rfl, htaken, htaking, hsound, hn.eq_of_step hstep⟩

/-- The continuation of an attempt goes on in the transition from `b` to `c`. -/
theorem Exact.follow_trying (hvalid : t.Valid) {count : Nat} {log : List Attempt} {begun : Nat}
    {start : Time} {spot : Spot σ} (hn : Machine.Next b c) (hb : b.world.Sound)
    (hdistinct : b.world.agenda.Distinct)
    (h : t.Exact (before ++ [b]) b ⟨count, log, .trying begun start spot⟩) :
    t.Exact (before ++ [b] ++ [c]) c (t.follow b c ⟨count, log, .trying begun start spot⟩) := by
  rcases h with ⟨hcount, hlogged, hstands⟩
  simp only [List.length_append, List.length_singleton, Nat.add_right_cancel_iff] at hcount
  cases hstands with
  | @trying _ _ _ _ k hfailed hlimit hbegins hearlier hholds hk =>
    rw [List.length_append, List.length_singleton] at hearlier
    simp only [follow]
    cases houtcome : t.outcome? b spot with
    | some outcome =>
      rcases outcome?_eq_some hholds hk houtcome with ⟨-, hfocus⟩
      have hc : c = Machine.proceed b.stack t.next
          (t.after (log.length + 1) [] outcome b.world) := hn.step_of_focus hfocus
      have hhere : (before ++ [b] ++ [c])[count]? = some b := by simp [← hcount]
      have hlogged' : t.Logged (before ++ [b] ++ [c])
          (⟨begun, start, count, b.world.now, outcome⟩ :: log) := by
        refine .cons (hlogged.append _) hfailed (hbegins.append _)
          (.later ?_ hhere hfocus rfl) (by simp [hcount])
        simp only
        omega
      have hlength : (before ++ [b] ++ [c]).length = count + 1 + 1 := by simp [hcount]
      have hexact := Exact.ended (n := c) (a := ⟨begun, start, count, b.world.now, outcome⟩) hvalid
        rfl hb.agenda hlength hlogged' hlimit rfl
        (fun _ hhanded => .of_proceed hc hcount.symm (now_after ..) hhanded)
        fun _ => by rw [hc, Machine.proceed_world]
      have hhanded : c.focus.handed? =
          World.handed? (t.after (log.length + 1) [] outcome b.world).2 := by
        rw [hc, Machine.proceed_handed]
      have hworld : c.world = (t.after (log.length + 1) [] outcome b.world).1 := by
        rw [hc, Machine.proceed_world]
      rw [hhanded, hworld]
      exact hexact
    | none =>
      refine ⟨by simp [hcount], hlogged.append _, ?_⟩
      rcases hholds.follow hn hb hdistinct hk (depth_ne hholds houtcome) with
        ⟨spot', other, hspot, hholds', hk'⟩ | ⟨hspot, hstops⟩
      · simp only [hspot, Stand.ofPlace]
        exact .trying hfailed hlimit (hbegins.append _) (by simp; omega) hholds' hk'
      · simp only [hspot, Stand.ofPlace]
        have hlater : begun < count := by omega
        have hhere : (before ++ [b] ++ [c])[count]? = some b := by simp [← hcount]
        have hthere : (before ++ [b] ++ [c])[count + 1]? = some c := by simp [← hcount]
        exact .stopped hfailed hlimit (hbegins.append _)
          (.later hlater hhere hthere hholds hk hspot hstops)

/-- The event of the next attempt stays, or it is taken in the transition from `b` to `c`. -/
theorem Exact.follow_waiting (hvalid : t.Valid) {count : Nat} {log : List Attempt}
    {e : Event (Callback σ)} (hn : Machine.Next b c) (hb : b.world.Sound)
    (hdistinct : b.world.agenda.Distinct)
    (h : t.Exact (before ++ [b]) b ⟨count, log, .waiting e⟩) :
    t.Exact (before ++ [b] ++ [c]) c (t.follow b c ⟨count, log, .waiting e⟩) := by
  rcases h with ⟨hcount, hlogged, hstands⟩
  simp only [List.length_append, List.length_singleton, Nat.add_right_cancel_iff] at hcount
  cases hstands with
  | @waiting last earlier _ hfailed hless hmem hwork htime =>
    simp only [follow]
    cases hturn : b.turn?.filter fun turn => turn.event.seq = e.seq with
    | none =>
      refine ⟨by simp [hcount], hlogged.append _, ?_⟩
      rcases hn.pending hmem with htaken | hstays
      · have hsome := Machine.turn?_taken b e
        rw [hturn, htaken] at hsome
        simp at hsome
      · exact .waiting hfailed hless hstays hwork htime
    | some turn =>
      rcases launches_of_turn hn hb hdistinct hmem hwork hturn with
        ⟨rfl, htaken, htaking, hsound, hc⟩
      have hended := hlogged.ended_lt
      rw [List.length_append, List.length_singleton] at hended
      have hhere : (before ++ [b] ++ [c])[count]? = some b := by simp [← hcount]
      have hbegins : t.Begins (before ++ [b] ++ [c]) (last :: earlier) count turn.event.time :=
        .again (by omega) hhere htaken hwork htime
      refine .begun hvalid hsound (by simp [hcount]) (hlogged.append _) hfailed hless hbegins
        htaking.now (by simp [← hcount]) ?_ fun _ => ⟨_, _, hc⟩
      intro outcome hhanded a hcounted hfinish
      refine .of_proceed hc (hcounted.trans hcount.symm) ?_ hhanded
      rw [now_launch, htaking.now, hfinish]

theorem Exact.follow (hvalid : t.Valid) {r : Record σ} (hn : Machine.Next b c)
    (hb : b.world.Sound) (hdistinct : b.world.agenda.Distinct)
    (h : t.Exact (before ++ [b]) b r) : t.Exact (before ++ [b] ++ [c]) c (t.follow b c r) := by
  rcases r with ⟨count, log, stand⟩
  cases stand with
  | trying begun start spot => exact h.follow_trying hvalid hn hb hdistinct
  | waiting e => exact h.follow_waiting hvalid hn hb hdistinct
  | finished outcome =>
    rcases h with ⟨hcount, hlogged, hstands⟩
    refine ⟨by simp [hcount.symm, Trial.follow], hlogged.append _, ?_⟩
    cases hstands with
    | succeeded hlimit houtcome hreceives =>
      exact .succeeded hlimit houtcome (hreceives.append _)
    | exhausted hfailed hlast hreceives => exact .exhausted hfailed hlast (hreceives.append _)
  | stopped =>
    rcases h with ⟨hcount, hlogged, hstands⟩
    refine ⟨by simp [hcount.symm, Trial.follow], hlogged.append _, ?_⟩
    cases hstands with
    | stopped hfailed hlimit hbegins hbreaks =>
      exact .stopped hfailed hlimit (hbegins.append _) (hbreaks.append _)

/-- As long as the next attempt is due, a run without a budget does not return. -/
theorem Exact.not_due {config : SimulationConfig} {memory : σ} {past : List (Machine σ)}
    {r : Record σ} (h : t.Exact life n r)
    (hlife : Machine.Life (Machine.idle (World.start config memory)) past n)
    {e : Event (Callback σ)} (hstand : r.stand = .waiting e) (hbudget : config.maxEvents = none)
    {horizon : Time} {count : Nat} {next : Except SimulationError Nat → Script σ}
    {stack : List (Activation σ)} (hreturning : n.Returning horizon count next stack) :
    ¬ e.time ≤ horizon := by
  have hstands := h.stands
  rw [hstand] at hstands
  generalize r.log = log at hstands
  cases hstands with
  | waiting _ _ hmem _ _ => exact hlife.not_due hbudget hreturning e hmem

theorem Exact.bounded {r : Record σ} (h : t.Exact life n r) : r.log.length ≤ t.limit := by
  rcases r with ⟨count, log, stand⟩
  rcases h with ⟨-, -, hstands⟩
  dsimp only at hstands
  cases hstands with
  | trying _ hless _ _ _ _ => exact hless.le
  | waiting _ hless _ _ _ => exact hless.le
  | succeeded hle _ _ => exact hle
  | exhausted _ hlast _ => exact hlast.le
  | stopped _ hless _ _ => exact hless.le

/-! ## What a retry leaves waiting -/

theorem spot?_ofPlace (begun : Nat) (start : Time) (place : Option (Spot σ)) :
    (Stand.ofPlace begun start place).spot? = place := by cases place <;> rfl

/-- After an attempt, nothing is left but the event of the next one. -/
theorem adds_after (hvalid : t.Valid) {v : World σ} (hv : v.agenda.Sound) {number : Nat}
    (hfirst : 1 ≤ number) (hlimit : number ≤ t.limit) (held : List Ref) (outcome : Outcome) :
    Adds v (t.after number held outcome v).1
      (Stand.ofEnd (World.handed? (t.after number held outcome v).2)
        (v.parked? (t.after number held outcome v).1)).spot? := by
  have hconcludes := t.concludes hvalid hv hfirst hlimit held outcome
  have hparked := World.Parked.afterAttempt v (t.state number) t.body t.frame t.next held outcome
  have hadds := (World.Sole.afterAttempt v (t.state number) t.body t.frame t.next held
    outcome).adds hv hparked.parks
  rw [← after] at hadds
  generalize t.after number held outcome v = e at hconcludes hadds
  cases hconcludes with
  | success => exact .refl v
  | exhausted _ => exact .refl v
  | again _ _ _ _ hfound =>
    rw [hfound] at hadds ⊢
    exact hadds

/-- When an attempt begins, nothing is left but where the retry goes on. -/
theorem adds_begin (hvalid : t.Valid) {log : List Attempt} (hlimit : log.length < t.limit)
    (count : Nat) (start : Time) (inUse : List Ref) {w : World σ} (hw : w.Sound) :
    Adds w (t.launch log.length inUse w).1 (t.begin count log start inUse w).stand.spot? := by
  have hsole := World.evaluate_sole inUse t.body t.frame (t.point (log.length + 1)) w
  have hparked := World.evaluate_parks inUse t.body t.frame (t.point (log.length + 1)) w
  rcases World.evaluate_quiet inUse t.body t.frame (t.point (log.length + 1)) w with
    ⟨deeds, hpath, -⟩
  have hsound := hpath.sound hw
  rw [← bodyOf] at hsole hparked hsound
  unfold begin
  generalize hbody : t.bodyOf (log.length + 1) inUse w = e at hsole hparked hsound
  by_cases hresolved : Resolved e.2
  · rcases e with ⟨v, _ | _ | ⟨outcome, held⟩⟩
    · cases hresolved
    · cases hresolved
    · rw [launch_of_resolved hbody]
      cases hsole with
      | resolved hnone =>
        exact (adds_after hvalid hsound.agenda (Nat.succ_pos _) hlimit held outcome).before hnone
  · have hadds := hsole.adds hw.agenda hparked.parks
    rw [launch_of_unresolved (by rw [hbody]; exact hresolved), hbody]
    rcases e with ⟨v, _ | _ | _⟩
    · rw [spot?_ofPlace]
      exact hadds
    · rw [spot?_ofPlace]
      exact hadds
    · exact absurd trivial hresolved

/-- A transition that goes on with a retry leaves nothing waiting but where the retry goes on. -/
theorem Exact.adds (hvalid : t.Valid) {r : Record σ} (hn : Machine.Next b c) (hb : b.world.Sound)
    (hdistinct : b.world.agenda.Distinct) (h : t.Exact life b r) (hacts : r.stand.acts b = true) :
    Adds b.world c.world (t.follow b c r).stand.spot? := by
  rcases r with ⟨count, log, stand⟩
  rcases h with ⟨-, -, hstands⟩
  dsimp only at hstands hacts
  cases hstands with
  | @trying _ begun start spot k _ hlimit _ _ hholds hk =>
    simp only [Trial.follow]
    cases houtcome : t.outcome? b spot with
    | some outcome =>
      rcases outcome?_eq_some hholds hk houtcome with ⟨-, hfocus⟩
      have hc : c = Machine.proceed b.stack t.next
          (t.after (log.length + 1) [] outcome b.world) := hn.step_of_focus hfocus
      have hadds := adds_after hvalid hb.agenda (Nat.succ_pos _) hlimit [] outcome
      rw [hc, Machine.proceed_handed, Machine.proceed_world]
      exact hadds
    | none =>
      have hdepth : spot = .focus → k.depth ≠ 0 := by
        have hle : t.next.depth + 1 ≤ k.depth := hk.depth_le
        intro _
        omega
      rw [spot?_ofPlace]
      exact hholds.adds hn hb hdistinct hdepth hacts
  | @waiting last earlier e _ hless hmem hwork _ =>
    simp only [Trial.follow]
    have hsome := Machine.turn?_taken b e
    cases hturn : b.turn?.filter fun turn => turn.event.seq = e.seq with
    | none =>
      rw [hturn] at hsome
      exact absurd hacts (Bool.eq_false_iff.1 hsome.symm)
    | some turn =>
      rcases launches_of_turn hn hb hdistinct hmem hwork hturn with ⟨-, -, htaking, hsound, hc⟩
      have hlimit : (last :: earlier).length < t.limit := hless
      rw [hc, Machine.proceed_world]
      exact (adds_begin hvalid hlimit _ _ _ hsound).before htaking.adds
  | succeeded _ _ _ => cases hacts
  | exhausted _ _ _ => cases hacts
  | stopped _ _ _ _ => cases hacts

/-- Where nothing goes on with a retry, it is where it has been before. -/
theorem spot?_of_rests {r : Record σ} (h : r.stand.acts b = false) :
    (t.follow b c r).stand.spot? = r.stand.spot? := by
  rcases r with ⟨count, log, stand⟩
  cases stand with
  | trying begun start spot =>
    have hrests : spot.acts b = false := h
    have hnone : t.outcome? b spot = none := by
      cases spot with
      | focus => cases hrests
      | _ => rfl
    simp only [follow, hnone]
    rw [spot?_ofPlace, Machine.follow_of_rests hrests]
    rfl
  | waiting e =>
    have hsome := Machine.turn?_taken b e
    have hnone : (b.turn?.filter fun turn => turn.event.seq = e.seq) = none :=
      Option.not_isSome_iff_eq_none.1 (Bool.eq_false_iff.1 (hsome.trans h))
    simp only [follow, hnone]
  | finished outcome => rfl
  | stopped => rfl

variable {past : List (Machine σ)} {spot : Spot σ}

theorem Owns.waits (h : t.Owns past n spot) : n.world.Waits spot := by
  cases h with
  | evaluated _ _ hsince => exact hsince n (by simp)
  | acted _ _ _ hsince => exact hsince n (by simp)

/-- What waits after a transition has waited before, or has begun to wait in this one. -/
theorem Owns.of_concat (h : t.Owns (past ++ [b]) c spot) :
    t.Owns past b spot ∨ (t.record past b).stand.acts b = true ∧ ¬ b.world.Waits spot := by
  cases h with
  | evaluated hnew hwaits hsince =>
    exact Or.inl (.evaluated hnew hwaits fun x hx => hsince x (List.mem_append_left _ hx))
  | @acted before after y hsplit hacts hnew hsince =>
    rcases List.eq_nil_or_concat after with rfl | ⟨more, z, rfl⟩
    · rcases List.append_inj' hsplit rfl with ⟨rfl, hlast⟩
      cases hlast
      exact Or.inr ⟨hacts, hnew⟩
    · rw [List.concat_eq_append, ← List.cons_append, ← List.append_assoc] at hsplit
      rcases List.append_inj' hsplit rfl with ⟨rfl, hlast⟩
      cases hlast
      refine Or.inl (.acted rfl hacts hnew fun x hx => hsince x ?_)
      rw [List.concat_eq_append]
      exact List.mem_append_left _ hx

/-- What waits of a retry is where the retry goes on. -/
theorem Owns.next (hvalid : t.Valid) (hn : Machine.Next b c) (hb : b.world.Sound)
    (hdistinct : b.world.agenda.Distinct) (hexact : t.Exact life b (t.record past b))
    (hbefore : ∀ spot, t.Owns past b spot → (t.record past b).stand.spot? = some spot)
    (h : t.Owns (past ++ [b]) c spot) : (t.record (past ++ [b]) c).stand.spot? = some spot := by
  have hwaits := h.waits
  rw [t.record_concat]
  rcases h.of_concat with hold | ⟨hacts, hnew⟩
  · have hspot := hbefore spot hold
    rw [← hspot]
    -- If the retry went on from there, nothing would wait there any more.
    refine spot?_of_rests (Bool.eq_false_iff.2 fun hacts => ?_)
    rw [Stand.acts, hspot] at hacts
    exact hn.leaves hb hdistinct hold.waits hacts hwaits
  · exact (hexact.adds hvalid hn hb hdistinct hacts spot hwaits).resolve_left hnew

/-- The attempts do not overlap. -/
theorem Logged.apart {log : List Attempt} (h : t.Logged life log) :
    log.Pairwise fun later earlier => earlier.ended < later.begun := by
  induction h with
  | nil => exact List.Pairwise.nil
  | @cons a earlier hlogged _ hbegins _ _ ih =>
    refine List.pairwise_cons.2 ⟨?_, ih⟩
    intro b hb
    generalize a.begun = begun at hbegins ⊢
    generalize a.start = start at hbegins
    cases hbegins with
    | first => cases hb
    | @again last earlier _ _ _ hlater _ _ _ _ =>
      rcases List.mem_cons.1 hb with rfl | hb
      · exact hlater
      · have hbefore := (List.pairwise_cons.1 ih).1 b hb
        cases hlogged with
        | cons _ _ _ hends _ =>
          cases hends with
          | atOnce hended _ => omega
          | later hended _ _ _ => omega

end Trial

/-! ## Retries in a life -/

namespace Machine

/-- A transition that evaluates a retry makes its first attempt. -/
theorem step_retry {t : Trial σ} {m m₁ : Machine σ} (hm : m.world.Sound)
    (hs : m.step = some m₁) (ht : t.part ∈ m.parts) (hvalid : t.Valid) :
    t.world.now = m.moment ∧
      t.Exact [m, m₁] m₁ (t.begin 0 [] t.world.now t.inUse t.world) ∧
      Adds t.world t.part.result.1 (t.begin 0 [] t.world.now t.inUse t.world).stand.spot? := by
  rcases step_parts hs ht with ⟨w, ⟨deeds, hpath⟩, hnow, -, hcomes⟩
  rcases hcomes.quiet with ⟨more, hmore, hquiet⟩
  have hsound : t.world.Sound := hmore.sound (hpath.sound hm)
  have hallowed : ([] : List Trial.Attempt).length < t.limit := hvalid.allowed
  have hadds := Trial.adds_begin hvalid hallowed 0 t.world.now t.inUse hsound
  rw [List.length_nil, ← t.result_eq hvalid] at hadds
  refine ⟨(hmore.clock hquiet).1.trans hnow, ?_, hadds⟩
  refine .begun hvalid hsound rfl .nil (by simp) hallowed .first rfl (by simp) ?_ ?_
  · intro outcome hhanded a hended hfinish
    have hresult := t.result_eq hvalid
    rw [List.length_nil, ← hresult] at hhanded
    generalize hpart : t.part.result = e at hhanded
    rcases e with ⟨v, _ | _ | ⟨other, held⟩⟩
    · cases hhanded
    · cases hhanded
    · cases hhanded
      exact .within hended hfinish (by rw [hpart])
  · intro hnone
    have hresult := t.result_eq hvalid
    rw [List.length_nil, ← hresult] at hnone ⊢
    refine hcomes.unresolved fun hresolved => ?_
    generalize t.part.result = e at hnone hresolved
    rcases e with ⟨v, _ | _ | ⟨other, held⟩⟩
    · cases hresolved
    · cases hresolved
    · cases hnone

section

variable {config : SimulationConfig} {memory : σ} {early past : List (Machine σ)}
  {m m₁ n : Machine σ} {t : Trial σ}

/-- The record of a retry is as it should be at every moment. -/
theorem Life.record_exact (h : Life (idle (World.start config memory)) early m)
    (hs : m.step = some m₁) (ht : t.part ∈ m.parts) (hvalid : t.Valid) (hlife : Life m₁ past n) :
    t.Exact (m :: past ++ [n]) n (t.record past n) := by
  induction hlife with
  | refl => exact (step_retry (h.sound (sound_idle config memory)) hs ht hvalid).2.1
  | @next past b c hlife hn ih =>
    have hwhole := (h.next (.step hs)).trans hlife
    rw [t.record_concat, ← List.cons_append]
    exact ih.follow hvalid hn (hwhole.sound (sound_idle config memory)) hwhole.distinct

/-- What a retry leaves waiting is where it goes on. -/
theorem Life.spot?_of_owns (h : Life (idle (World.start config memory)) early m)
    (hs : m.step = some m₁) (ht : t.part ∈ m.parts) (hvalid : t.Valid) (hlife : Life m₁ past n)
    {spot : Spot σ} (howns : t.Owns past n spot) : (t.record past n).stand.spot? = some spot := by
  induction hlife generalizing spot with
  | refl =>
    have hadds := (step_retry (h.sound (sound_idle config memory)) hs ht hvalid).2.2
    cases howns with
    | evaluated hnew hwaits _ => exact (hadds spot hwaits).resolve_left hnew
    | acted hsplit _ _ _ => simp at hsplit
  | @next past b c hlife hn ih =>
    have hwhole := (h.next (.step hs)).trans hlife
    have hexact := h.record_exact hs ht hvalid hlife
    exact howns.next hvalid hn (hwhole.sound (sound_idle config memory)) hwhole.distinct hexact
      fun _ => ih

end

/-- Whatever else a simulation does after it has evaluated a retry with valid waits, alone or inside
other activities, and whatever the body is, suspended or not, in every moment of its life:

* the first attempt was made at once;
* the record of this retry is as it should be (`Trial.Exact`): no attempt is made before the one
  before it has failed and the wait after it is over, and then it is made in an event of its own; the
  first success is handed on when the attempt ends, and so is the failure of the last attempt that is
  allowed;
* no more attempts are made than allowed, and they do not overlap;
* a run without a budget does not return as long as the next attempt is due;
* whatever of it waits (`Trial.Owns`) is where its record goes on, and nothing else of it waits; so
  when it has ended, nothing of it is left that could make a further attempt. -/
theorem Life.retry_exact {config : SimulationConfig} {memory : σ} {early past : List (Machine σ)}
    {m m₁ n : Machine σ} {t : Trial σ} (h : Life (idle (World.start config memory)) early m)
    (hs : m.step = some m₁) (ht : t.part ∈ m.parts) (hvalid : t.Valid) (hlife : Life m₁ past n) :
    t.world.now = m.moment ∧
    t.Exact (m :: past ++ [n]) n (t.record past n) ∧
    (t.record past n).log.length ≤ t.limit ∧
    (t.record past n).log.Pairwise (fun later earlier => earlier.ended < later.begun) ∧
    (∀ e horizon count next stack, (t.record past n).stand = .waiting e →
      config.maxEvents = none → n.Returning horizon count next stack → ¬ e.time ≤ horizon) ∧
    (∀ spot, t.Owns past n spot → (t.record past n).stand.spot? = some spot) := by
  have hexact := h.record_exact hs ht hvalid hlife
  refine ⟨(step_retry (h.sound (sound_idle config memory)) hs ht hvalid).1, hexact,
    hexact.bounded, hexact.logged.apart, ?_, fun spot => h.spot?_of_owns hs ht hvalid hlife⟩
  intro e horizon count next stack hstand hbudget hreturning
  exact hexact.not_due ((h.next (.step hs)).trans hlife) hstand hbudget hreturning

/-- The retry inside the activity of `patience`, which fails twice. -/
def trying : Trial Unit where
  world := impatient.world
  inUse := inUse (.await (fun _ => .run 4.0 fun _ => .run 4.5 fun _ => .done) :: impatient.stack)
  frame := .plain World.root .host
  next := .ignore (.steps [.think 0.5] (.plain World.root .host) (.host fun _ => .done))
  body := .sequence [.think 1.0, .fail]
  limit := 2
  delay := .constant 2.0

theorem patience_retry_exact :
    trying.Exact (impatient :: trail 24 sleeping ++ [run 24 sleeping]) (run 24 sleeping)
        (trying.record (trail 24 sleeping) (run 24 sleeping)) ∧
      (trying.record (trail 24 sleeping) (run 24 sleeping)).log.map
        (fun a => (a.start, a.finish, a.outcome)) =
          [(3.0, 4.0, .failure .injected), (0.0, 1.0, .failure .injected)] ∧
      (trying.record (trail 24 sleeping) (run 24 sleeping)).stand =
        .finished (.failure (.exhausted 2)) ∧
      ∀ spot, ¬ trying.Owns (trail 24 sleeping) (run 24 sleeping) spot := by
  have hlife : Life (idle (World.start ⟨true, none⟩ ())) _ impatient :=
    (Life.refl.next (.call patience rfl)).trans (life_run 1 _)
  have hpart : trying.part ∈ impatient.parts :=
    List.mem_cons_of_mem _ (List.mem_append_left _ (List.mem_cons_of_mem _ (List.mem_cons_self)))
  have hwait : Time.checkDelay 2.0 = .ok () := rfl
  have hvalid : trying.Valid := ⟨by decide, hwait, fun _ _ _ => hwait⟩
  have hstand : (trying.record (trail 24 sleeping) (run 24 sleeping)).stand =
      .finished (.failure (.exhausted 2)) := by with_unfolding_all rfl
  rcases hlife.retry_exact rfl hpart hvalid (life_run 24 sleeping) with
    ⟨-, hexact, -, -, -, howns⟩
  refine ⟨hexact, ?_, hstand, fun spot hspot => ?_⟩
  · with_unfolding_all rfl
  · have hnowhere := howns spot hspot
    rw [hstand] at hnowhere
    cases hnowhere

end Machine
end Callflow
