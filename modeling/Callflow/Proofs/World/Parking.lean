import Callflow.Proofs.World.Requests
import Callflow.Proofs.World.Calls

/-!
# Where a suspended evaluation waits

An evaluation that is suspended has left its continuation behind, with the constructs that it had got
into around it, in a new event or with a new request (`evaluate_parks`); and whatever it leaves
behind goes on to the continuation that it was given. So one can tell from the worlds before and after
where the evaluation goes on (`Parks.parked?`).
-/

namespace Callflow

variable {σ : Type}

/-! ## Going through a continuation -/

/-- The continuation that a callback goes on to. -/
def Callback.continuation? : Callback σ → Option (Continuation σ)
  | .wake next => some next
  | .attempt _ _ _ next => some next
  | _ => none

/-- The continuation that waits. -/
def Waiter.continuation? : Waiter σ → Option (Continuation σ)
  | .continuation next => some next
  | _ => none

namespace Continuation

/-- How many constructs are left before the end of a continuation. -/
def depth : Continuation σ → Nat
  | .host _ => 0
  | .reply _ => 0
  | .complete _ => 0
  | .steps _ _ next => next.depth + 1
  | .service _ next => next.depth + 1
  | .ignore next => next.depth + 1
  | .retry _ _ _ next => next.depth + 1

/-- A continuation is another one, or gets to it in the end. -/
inductive Through (target : Continuation σ) : Continuation σ → Prop where
  | here : Through target target
  | steps {rest : List Activity} {frame : Frame} {next : Continuation σ} :
      Through target next → Through target (.steps rest frame next)
  | service {id : ServiceId} {next : Continuation σ} :
      Through target next → Through target (.service id next)
  | ignore {next : Continuation σ} : Through target next → Through target (.ignore next)
  | retry {state : RetryState} {body : Activity} {frame : Frame} {next : Continuation σ} :
      Through target next → Through target (.retry state body frame next)

theorem Through.trans {a b c : Continuation σ} (h : Through a b) (k : Through b c) :
    Through a c := by
  induction k with
  | here => exact h
  | steps _ ih => exact .steps ih
  | service _ ih => exact .service ih
  | ignore _ ih => exact .ignore ih
  | retry _ ih => exact .retry ih

theorem Through.depth_le {a b : Continuation σ} (h : Through a b) : a.depth ≤ b.depth := by
  induction h with
  | here => exact le_rfl
  | steps _ ih => exact Nat.le_succ_of_le ih
  | service _ ih => exact Nat.le_succ_of_le ih
  | ignore _ ih => exact Nat.le_succ_of_le ih
  | retry _ ih => exact Nat.le_succ_of_le ih

/-- The depth tells whether a continuation has got there. -/
theorem Through.eq_of_depth {a b : Continuation σ} (h : Through a b) (hdepth : b.depth = a.depth) :
    b = a := by
  cases h with
  | here => rfl
  | steps h | service h | ignore h | retry h =>
    have hle := h.depth_le
    simp only [depth] at hdepth
    omega

/-- What comes next in a continuation. -/
def next? : Continuation σ → Option (Continuation σ)
  | .steps _ _ next => some next
  | .service _ next => some next
  | .ignore next => some next
  | .retry _ _ _ next => some next
  | _ => none

/-- A continuation that has not got there yet gets there by what comes next. -/
theorem Through.inner {a b next : Continuation σ} (h : Through a b) (hdepth : b.depth ≠ a.depth)
    (hnext : b.next? = some next) : Through a next := by
  cases h with
  | here => exact absurd rfl hdepth
  | steps h | service h | ignore h | retry h =>
    cases hnext
    exact h

end Continuation

open Continuation (Through)

/-- Where a continuation can be: it is handed an outcome, or it waits. -/
inductive Spot (σ : Type) where
  | focus
  | event (e : Event (Callback σ))
  | request (id : RequestId)

namespace World

/-- The continuation that waits for a request. -/
def waiting? (w : World σ) (id : RequestId) : Option (Continuation σ) :=
  (w.waiter id).continuation?

/-- Where a continuation has begun to wait between two worlds. -/
def parked? (w v : World σ) : Option (Spot σ) :=
  ((v.agenda.pending.find? fun e =>
    decide (w.agenda.nextSeq ≤ e.seq) && e.work.continuation?.isSome).map .event).or
  (((List.range v.waiters.size).find? fun number =>
    decide (w.waiters.size ≤ number) && (v.waiting? ⟨number⟩).isSome).map fun number =>
      .request ⟨number⟩)

/-- Between two worlds, nothing has begun to wait but what goes on to a continuation. -/
structure Parks (next : Continuation σ) (w v : World σ) : Prop where
  seq_le : w.agenda.nextSeq ≤ v.agenda.nextSeq
  size_le : w.waiters.size ≤ v.waiters.size
  events : ∀ e ∈ v.agenda.pending, e ∈ w.agenda.pending ∨
    (w.agenda.nextSeq ≤ e.seq ∧ ∀ k, e.work.continuation? = some k → Through next k)
  waiters : ∀ id k, v.waiting? id = some k → w.waiting? id = some k ∨
    (w.waiters.size ≤ id.number ∧ Through next k)

/-- Something has begun to wait between two worlds. -/
def Leaves (w v : World σ) : Prop :=
  (∃ e ∈ v.agenda.pending, w.agenda.nextSeq ≤ e.seq ∧ e.work.continuation?.isSome) ∨
    ∃ id, w.waiters.size ≤ id.number ∧ (v.waiting? id).isSome

namespace Parks

variable {next : Continuation σ} {w v u : World σ}

theorem refl (next : Continuation σ) (w : World σ) : Parks next w w where
  seq_le := le_rfl
  size_le := le_rfl
  events := fun _ he => Or.inl he
  waiters := fun _ _ hk => Or.inl hk

theorem trans (h : Parks next w v) (k : Parks next v u) : Parks next w u where
  seq_le := h.seq_le.trans k.seq_le
  size_le := h.size_le.trans k.size_le
  events := by
    intro e he
    rcases k.events e he with hold | ⟨hseq, hthrough⟩
    · exact h.events e hold
    · exact Or.inr ⟨h.seq_le.trans hseq, hthrough⟩
  waiters := by
    intro id other hother
    rcases k.waiters id other hother with hold | ⟨hsize, hthrough⟩
    · exact h.waiters id other hold
    · exact Or.inr ⟨h.size_le.trans hsize, hthrough⟩

/-- What goes on to a continuation goes on to what this one goes on to. -/
theorem mono (h : Parks next w v) {target : Continuation σ} (hnext : Through target next) :
    Parks target w v where
  seq_le := h.seq_le
  size_le := h.size_le
  events := by
    intro e he
    rcases h.events e he with hold | ⟨hseq, hthrough⟩
    · exact Or.inl hold
    · exact Or.inr ⟨hseq, fun k hk => hnext.trans (hthrough k hk)⟩
  waiters := by
    intro id k hk
    rcases h.waiters id k hk with hold | ⟨hsize, hthrough⟩
    · exact Or.inl hold
    · exact Or.inr ⟨hsize, hnext.trans hthrough⟩

/-- Nothing has been scheduled, and nobody waits for a request. -/
theorem of_same (next : Continuation σ) (hagenda : v.agenda = w.agenda)
    (hwaiters : v.waiters = w.waiters) : Parks next w v where
  seq_le := by rw [hagenda]
  size_le := by rw [hwaiters]
  events := by
    rw [hagenda]
    exact fun _ he => Or.inl he
  waiters := by
    intro id k hk
    rw [waiting?, waiter, hwaiters] at hk
    exact Or.inl hk

theorem schedule {delay : Time} {kind : EventKind} {work : Callback σ} {event : EventId}
    (h : w.schedule delay kind work = .ok (v, event))
    (hwork : ∀ k, work.continuation? = some k → Through next k) : Parks next w v := by
  rcases schedule_eq_ok h with ⟨agenda, hagenda, rfl, -⟩
  rcases Agenda.schedule_eq_ok hagenda with ⟨-, rfl⟩
  refine ⟨Nat.le_succ _, le_rfl, ?_, fun _ _ hk => Or.inl hk⟩
  intro e he
  rcases Agenda.mem_insert.1 he with rfl | he
  · exact Or.inr ⟨le_rfl, hwork⟩
  · exact Or.inl he

theorem issue (w : World σ) (caller : Caller) (operation : String) (deadline : Option Time)
    {waiter : Waiter σ} (hwaiter : ∀ k, waiter.continuation? = some k → Through next k) :
    Parks next w (w.issue caller operation deadline waiter).1 := by
  have hpush : (w.issue caller operation deadline waiter).1.waiters = w.waiters.push waiter := rfl
  refine ⟨le_rfl, by simp [hpush], fun _ he => Or.inl he, ?_⟩
  intro id k hk
  rw [waiting?, waiter_of_push hpush] at hk
  split at hk
  · rename_i hnumber
    exact Or.inr ⟨hnumber.ge, hwaiter k hk⟩
  · exact Or.inl hk

theorem send (next : Continuation σ) (w : World σ) (id : RequestId) (target : Target) :
    Parks next w (w.send id target).1 := by
  cases hr : w.request? id with
  | none =>
    rw [send_absent target hr]
    exact refl next w
  | some r =>
    rcases send_eq hr (Prod.mk.eta (p := w.send id target)).symm with ⟨_, _, hv⟩ | ⟨_, event, hs⟩
    · rw [hv]
      exact of_same next rfl rfl
    · have hnoted : Parks next w (w.record
          (.issued w.now id r.caller (w.store.targetName target) r.operation)) :=
        of_same next rfl rfl
      exact hnoted.trans (schedule hs (by simp [Callback.continuation?]))

end Parks

theorem Leaves.before {w v u : World σ} {next : Continuation σ} (h : Leaves v u)
    (k : Parks next w v) : Leaves w u := by
  rcases h with ⟨e, he, hseq, hsome⟩ | ⟨id, hsize, hsome⟩
  · exact Or.inl ⟨e, he, k.seq_le.trans hseq, hsome⟩
  · exact Or.inr ⟨id, k.size_le.trans hsize, hsome⟩

/-- What an evaluation with a continuation leaves behind: nothing that goes on elsewhere, and
something if it is suspended. -/
structure Parked (next : Continuation σ) (w : World σ) (e : Evaluation σ) : Prop where
  parks : Parks next w e.1
  leaves : e.2 = .ok .suspended → Leaves w e.1

namespace Parked

variable {next : Continuation σ} {w v : World σ}

theorem before {e : Evaluation σ} (h : Parked next v e) (k : Parks next w v) : Parked next w e where
  parks := k.trans h.parks
  leaves := fun hsuspended => (h.leaves hsuspended).before k

/-- An evaluation that ends, or stops. -/
theorem of_parks {e : Evaluation σ} (h : Parks next w e.1) (hended : e.2 ≠ .ok .suspended) :
    Parked next w e where
  parks := h
  leaves := fun hsuspended => absurd hsuspended hended

theorem suspend (w : World σ) (delay : Time) (kind : EventKind) {work : Callback σ}
    {k : Continuation σ} (hwork : work.continuation? = some k) (hk : Through next k) :
    Parked next w (w.suspend delay kind work) := by
  unfold World.suspend
  split
  · rename_i v event hs
    refine ⟨.schedule hs ?_, fun _ => ?_⟩
    · intro other hother
      rw [hwork] at hother
      cases hother
      exact hk
    · rcases schedule_eq_ok hs with ⟨agenda, hagenda, rfl, -⟩
      rcases Agenda.schedule_eq_ok hagenda with ⟨-, rfl⟩
      exact Or.inl ⟨_, Agenda.mem_insert.2 (Or.inl rfl), le_rfl, by simp [hwork]⟩
  · exact of_parks (.refl next w) (by simp [refuse])

theorem trigger (w : World σ) (inUse : List Ref) (name operation : String) (frame : Frame)
    (next : Continuation σ) : Parked next w (w.trigger inUse name operation frame next) := by
  have hissued : Parks next w (w.issue frame.caller operation none .nobody).1 :=
    .issue w frame.caller operation none (by simp [Waiter.continuation?])
  unfold World.trigger
  split
  · exact of_parks (.refl next w) (by simp [mistake])
  · rename_i target _
    have hsent := hissued.trans
      (.send next _ (w.issue frame.caller operation none .nobody).2 target)
    dsimp only
    split
    · rename_i v cause hs
      rw [hs] at hsent
      exact of_parks hsent (by simp)
    · rename_i v hs
      rw [hs] at hsent
      exact of_parks hsent (by simp)

/-- The continuation of a query waits for its request. -/
theorem query (w : World σ) (inUse : List Ref) (name operation : String) (timeout : Option Time)
    (frame : Frame) (next : Continuation σ) :
    Parked next w (w.query inUse name operation timeout frame next) := by
  generalize hquery : w.query inUse name operation timeout frame next = e
  rcases e with ⟨u, result⟩
  have hissued (deadline : Option Time) :
      Parks next w (w.issue frame.caller operation deadline (.continuation next)).1 := by
    refine .issue w frame.caller operation deadline ?_
    rintro k ⟨⟩
    exact .here
  have hsent (deadline : Option Time) (target : Target) := (hissued deadline).trans
    (.send next _ ⟨w.requests.size⟩ target)
  have hwaits (deadline : Option Time) (target : Target) :
      ((w.issue frame.caller operation deadline (.continuation next)).1.send
        ⟨w.requests.size⟩ target).1.waiting? ⟨w.waiters.size⟩ = some next := by
    have hpush : (w.issue frame.caller operation deadline (.continuation next)).1.waiters =
        w.waiters.push (.continuation next) := rfl
    have hkept := (send_requests (w.issue frame.caller operation deadline
      (.continuation next)).1 ⟨w.requests.size⟩ target).2
    rw [waiting?, waiter, hkept, ← waiter, waiter_of_push hpush, if_pos rfl]
    rfl
  rcases query_cases hquery with
    ⟨_, rfl, rfl, _⟩ | ⟨target, _, rfl, _, _, hsend⟩ | ⟨target, _, rfl, _, hsend⟩ |
    ⟨target, delay, v, event, _, rfl, _, _, hsend, hwatch⟩
  · exact of_parks (.refl next u) (by simp)
  · have hu := hsent none target
    rw [hsend] at hu
    exact of_parks hu (by simp)
  · have hu := hsent none target
    have hwait := hwaits none target
    rw [hsend] at hu hwait
    have hsome : (u.waiting? ⟨w.waiters.size⟩).isSome := by rw [hwait]; rfl
    exact ⟨hu, fun _ => Or.inr ⟨⟨w.waiters.size⟩, le_rfl, hsome⟩⟩
  · have hv := hsent (some (w.now + delay)) target
    have hwait := hwaits (some (w.now + delay)) target
    rw [hsend] at hv hwait
    have hu : Parks next v u := .schedule hwatch (by simp [Callback.continuation?])
    rcases schedule_eq_ok hwatch with ⟨agenda, _, rfl, -⟩
    have hlater : { v with agenda }.waiting? ⟨w.waiters.size⟩ = some next := hwait
    have hsome : ({ v with agenda }.waiting? ⟨w.waiters.size⟩).isSome := by rw [hlater]; rfl
    exact ⟨hv.trans hu, fun _ => Or.inr ⟨⟨w.waiters.size⟩, le_rfl, hsome⟩⟩

theorem defineOperation (w : World σ) (name : String) (body : Activity) (frame : Frame)
    (next : Continuation σ) : Parked next w (w.defineOperation name body frame) := by
  unfold World.defineOperation
  split
  · exact of_parks (.refl next w) (by simp [mistake])
  · exact of_parks (.of_same next rfl rfl) (by simp)

theorem defineClient (w : World σ) (name : String) (period : Time) (body : Activity)
    (frame : Frame) (next : Continuation σ) :
    Parked next w (w.defineClient name period body frame) := by
  unfold World.defineClient
  split
  · exact of_parks (.refl next w) (by simp [mistake])
  · have hdefined : Parks next w { w with
        store := ((w.store.newClient name period body).1).bind frame.scope name
          (.client (w.store.newClient name period body).2) } := .of_same next rfl rfl
    dsimp only
    split
    · rename_i v event hs
      exact of_parks (hdefined.trans (.schedule hs (by simp [Callback.continuation?]))) (by simp)
    · exact of_parks hdefined (by simp [refuse])

/-- After a failed attempt, the retry waits for the next one. -/
theorem afterAttempt (w : World σ) (state : RetryState) (body : Activity) (frame : Frame)
    (next : Continuation σ) (held : List Ref) (outcome : Outcome) :
    Parked next w (w.afterAttempt state body frame next held outcome) := by
  cases outcome with
  | success value => exact of_parks (.refl next w) (by simp [World.afterAttempt])
  | failure cause =>
    by_cases hexhausted : state.exhausted = true
    · simp only [World.afterAttempt, hexhausted, if_true]
      exact of_parks (.refl next w) (by simp)
    · simp only [World.afterAttempt, if_neg hexhausted]
      exact suspend w _ _ rfl .here

theorem attempt {inUse : List Ref} {state : RetryState} {body : Activity} {frame : Frame}
    (h : Parked (.retry state.begin body frame next) w
      (evaluate inUse body frame (.retry state.begin body frame next) w)) :
    Parked next w (World.attempt inUse state body frame next w) := by
  have hparks := h.parks.mono (.retry .here)
  have hleaves := h.leaves
  unfold World.attempt
  dsimp only
  split
  · rename_i v outcome held hv
    rw [hv] at hparks
    exact (afterAttempt v state.begin body frame next held outcome).before hparks
  · exact ⟨hparks, hleaves⟩

end Parked

-- Both proofs follow the recursion of the evaluation: a part of an activity is evaluated with a
-- continuation that goes on to the one that the activity was given.
mutual

theorem evaluate_parks (inUse : List Ref) (activity : Activity) (frame : Frame)
    (next : Continuation σ) (w : World σ) :
    Parked next w (evaluate inUse activity frame next w) := by
  cases activity with
  | defineService name body =>
    have hdefined : Parks next w { w with
        store := ((w.store.newService name (some frame.scope)).1).bind frame.scope name
          (.service (w.store.newService name (some frame.scope)).2) } := .of_same next rfl rfl
    have hbody := evaluateSteps_parks inUse body
      (frame.inside (w.store.newService name (some frame.scope)).2 ⟨w.store.scopes.size⟩) .unit
      (.service (w.store.newService name (some frame.scope)).2 next)
      { w with
        store := ((w.store.newService name (some frame.scope)).1).bind frame.scope name
          (.service (w.store.newService name (some frame.scope)).2) }
    have hparks := hdefined.trans (hbody.parks.mono (.service .here))
    rw [evaluate]
    dsimp only
    split
    · rename_i v value held hv
      rw [hv] at hparks
      exact .of_parks hparks (by simp)
    · rename_i v cause held hv
      rw [hv] at hparks
      exact .of_parks hparks (by simp)
    · exact ⟨hparks, fun hsuspended => (hbody.leaves hsuspended).before hdefined⟩
  | defineOperation name body => exact .defineOperation w name body frame next
  | defineClient name period body => exact .defineClient w name period body frame next
  | trigger target operation => exact .trigger w inUse target operation frame next
  | query target operation timeout => exact .query w inUse target operation timeout frame next
  | sequence steps => exact evaluateSteps_parks inUse steps frame .unit next w
  | think duration => exact .suspend w _ _ rfl .here
  | retry body limit delay =>
    rw [evaluate]
    cases Time.checkDelay delay.base with
    | error e => exact .of_parks (.refl next w) (by simp [refuse])
    | ok _ =>
      cases RetryState.start limit delay with
      | error e => exact .of_parks (.refl next w) (by simp [mistake])
      | ok state =>
        exact .attempt (evaluate_parks inUse body frame (.retry state.begin body frame next) w)
  | ignoreError body =>
    have hbody := evaluate_parks inUse body frame (.ignore next) w
    have hparks := hbody.parks.mono (.ignore .here)
    rw [evaluate]
    split
    · rename_i v cause held hv
      rw [hv] at hparks
      exact .of_parks hparks (by simp)
    · exact ⟨hparks, hbody.leaves⟩
  | fail => exact .of_parks (.refl next w) (by simp [evaluate])

theorem evaluateSteps_parks (inUse : List Ref) (steps : List Activity) (frame : Frame)
    (last : Value) (next : Continuation σ) (w : World σ) :
    Parked next w (evaluate.evaluateSteps inUse steps frame last next w) := by
  cases steps with
  | nil => exact .of_parks (.refl next w) (by simp [evaluate.evaluateSteps])
  | cons step rest =>
    have hstep := evaluate_parks inUse step frame (.steps rest frame next) w
    have hparks := hstep.parks.mono (.steps .here)
    rw [evaluate.evaluateSteps]
    split
    · rename_i v value held hv
      rw [hv] at hparks
      exact (evaluateSteps_parks inUse rest frame value next v).before hparks
    · rename_i v cause held hv
      rw [hv] at hparks
      exact .of_parks hparks (by simp)
    · exact ⟨hparks, hstep.leaves⟩

end

/-! ## Finding the place -/

/-- A continuation waits at a spot. -/
inductive Keeps (w : World σ) : Spot σ → Continuation σ → Prop where
  | event {e : Event (Callback σ)} {k : Continuation σ} : e ∈ w.agenda.pending →
      e.work.continuation? = some k → Keeps w (.event e) k
  | request {id : RequestId} {k : Continuation σ} : w.waiting? id = some k →
      Keeps w (.request id) k

/-- A spot is one that a world does not have yet. -/
def Lacks (w : World σ) : Spot σ → Prop
  | .focus => True
  | .event e => w.agenda.nextSeq ≤ e.seq
  | .request id => w.waiters.size ≤ id.number

theorem waiting?_lt {w : World σ} {id : RequestId} {k : Continuation σ}
    (h : w.waiting? id = some k) : id.number < w.waiters.size := by
  by_contra hge
  rw [waiting?, waiter, Array.getElem?_eq_none (by omega)] at h
  cases h

/-- What has begun to wait is found. -/
theorem Leaves.parked? {w v : World σ} (h : Leaves w v) : (w.parked? v).isSome := by
  rcases h with ⟨e, he, hseq, hsome⟩ | ⟨id, hsize, hsome⟩
  · have hfound : (v.agenda.pending.find? fun e =>
        decide (w.agenda.nextSeq ≤ e.seq) && e.work.continuation?.isSome).isSome :=
      List.find?_isSome.2 ⟨e, he, by simp [hseq, hsome]⟩
    simp [World.parked?, hfound]
  · rcases Option.isSome_iff_exists.1 hsome with ⟨k, hk⟩
    have hfound : ((List.range v.waiters.size).find? fun number =>
        decide (w.waiters.size ≤ number) && (v.waiting? ⟨number⟩).isSome).isSome :=
      List.find?_isSome.2 ⟨id.number, List.mem_range.2 (waiting?_lt hk), by simp [hsize, hsome]⟩
    simp [World.parked?, hfound]

/-- What is found has begun to wait. -/
theorem parked?_keeps {w v : World σ} {spot : Spot σ} (hspot : w.parked? v = some spot) :
    ∃ k, v.Keeps spot k ∧ w.Lacks spot := by
  rcases Option.or_eq_some_iff.1 hspot with hevent | ⟨-, hrequest⟩
  · rcases Option.map_eq_some_iff.1 hevent with ⟨e, hfound, rfl⟩
    have hmem := List.mem_of_find?_eq_some hfound
    have hnew := List.find?_some hfound
    simp only [Bool.and_eq_true, decide_eq_true_eq] at hnew
    rcases Option.isSome_iff_exists.1 hnew.2 with ⟨k, hk⟩
    exact ⟨k, .event hmem hk, hnew.1⟩
  · rcases Option.map_eq_some_iff.1 hrequest with ⟨number, hfound, rfl⟩
    have hnew := List.find?_some hfound
    simp only [Bool.and_eq_true, decide_eq_true_eq] at hnew
    rcases Option.isSome_iff_exists.1 hnew.2 with ⟨k, hk⟩
    exact ⟨k, .request hk, hnew.1⟩

/-- It goes on to the continuation. -/
theorem Parks.parked? {next : Continuation σ} {w v : World σ} (h : Parks next w v)
    (hw : w.agenda.Sound) {spot : Spot σ} (hspot : w.parked? v = some spot) :
    ∃ k, v.Keeps spot k ∧ w.Lacks spot ∧ Through next k := by
  rcases parked?_keeps hspot with ⟨k, hkeeps, hlacks⟩
  refine ⟨k, hkeeps, hlacks, ?_⟩
  cases hkeeps with
  | @event e _ hmem hk =>
    rcases h.events e hmem with hold | ⟨_, hthrough⟩
    · exact absurd (hw.numbered e hold) (Nat.not_lt.2 hlacks)
    · exact hthrough k hk
  | @request id _ hk =>
    rcases h.waiters id k hk with hold | ⟨_, hthrough⟩
    · exact absurd (waiting?_lt hold) (Nat.not_lt.2 hlacks)
    · exact hthrough

end World
end Callflow
