import Mathlib.Algebra.Order.BigOperators.Group.List
import Mathlib.Algebra.Order.Ring.Nat
import Callflow.Proofs.World.Evaluation
import Callflow.Proofs.World.Timeouts

/-!
# The stock of continuations

A continuation has an end: host code, a request or a client that gets the outcome in the end. The
stock of a world counts the continuations with certain ends that wait in it, in events and with
requests. An evaluation leaves one more continuation behind, the one that it was given or one around
it, if it is suspended; and none, if it resolves and the outcome is still to be handed on, or if it
ends with an error (`evaluate_left`).
-/

namespace Callflow

variable {σ : Type} (p : Continuation σ → Bool)

/-- Who gets the outcome in the end: host code, a request or a client. -/
def Continuation.bottom : Continuation σ → Continuation σ
  | .host resume => .host resume
  | .reply request => .reply request
  | .complete client => .complete client
  | .steps _ _ next => next.bottom
  | .service _ next => next.bottom
  | .ignore next => next.bottom
  | .retry _ _ _ next => next.bottom

/-- One, if the end of a continuation is counted. -/
def Continuation.stock (next : Continuation σ) : Nat := (p next.bottom).toNat

/-- The continuations that wait in an event. -/
def Callback.stock : Callback σ → Nat
  | .wake next => next.stock p
  | .attempt _ _ _ next => next.stock p
  | _ => 0

/-- The continuations that wait for a request. -/
def Waiter.stock : Waiter σ → Nat
  | .continuation next => next.stock p
  | _ => 0

/-- The continuations that wait in some events. -/
def Agenda.stock (a : Agenda (Callback σ)) : Nat := (a.pending.map fun e => e.work.stock p).sum

namespace Agenda

theorem stock_schedule {a b : Agenda (Callback σ)} {delay : Time} {kind : EventKind}
    {work : Callback σ} (h : a.schedule delay kind work = .ok b) :
    b.stock p = a.stock p + work.stock p := by
  rcases schedule_eq_ok h with ⟨-, rfl⟩
  have hperm := (insert_perm ⟨a.now + delay, a.nextSeq, kind, work⟩ a.pending).map
    fun e => e.work.stock p
  have hsum := hperm.sum_nat
  simp only [List.map_cons, List.sum_cons] at hsum
  simp only [stock, hsum]
  exact Nat.add_comm _ _

theorem stock_take? {a b : Agenda (Callback σ)} {horizon : Time} {e : Event (Callback σ)}
    (h : a.take? horizon = some (e, b)) : b.stock p + e.work.stock p = a.stock p := by
  rcases take?_eq_some h with ⟨rest, hpending, -, rfl⟩
  simp only [stock, hpending, List.map_cons, List.sum_cons]
  exact Nat.add_comm _ _

theorem stock_advance (a : Agenda (Callback σ)) (horizon : Time) :
    (a.advance horizon).stock p = a.stock p := by
  rw [stock, (advance_pending a horizon).1]
  rfl

end Agenda

namespace World

/-- The continuations that wait in a world. -/
def stock (w : World σ) : Nat := w.agenda.stock p + (w.waiters.toList.map (Waiter.stock p)).sum

/-! ## What the operations do -/

theorem stock_schedule {w v : World σ} {delay : Time} {kind : EventKind} {work : Callback σ}
    {event : EventId} (h : w.schedule delay kind work = .ok (v, event)) :
    v.stock p = w.stock p + work.stock p := by
  rcases schedule_eq_ok h with ⟨agenda, hagenda, rfl, -⟩
  have hstock := Agenda.stock_schedule p hagenda
  simp only [stock, hstock]
  omega

theorem stock_issue (w : World σ) (caller : Caller) (operation : String) (deadline : Option Time)
    (waiter : Waiter σ) :
    (w.issue caller operation deadline waiter).1.stock p = w.stock p + waiter.stock p := by
  simp only [stock, issue, Array.toList_push, List.map_append, List.sum_append, List.map_cons,
    List.map_nil, List.sum_cons, List.sum_nil]
  omega

theorem stock_send (w : World σ) (id : RequestId) (target : Target) :
    (w.send id target).1.stock p = w.stock p := by
  cases hr : w.request? id with
  | none =>
    unfold send
    rw [hr]
  | some r =>
    rcases send_eq hr (Prod.mk.eta (p := w.send id target)).symm with ⟨_, _, hv⟩ | ⟨_, event, hs⟩
    · rw [hv]
      rfl
    · exact stock_schedule p hs

theorem sum_set {l : List (Waiter σ)} {i : Nat} {x y : Waiter σ} (h : l[i]? = some x) :
    ((l.set i y).map (Waiter.stock p)).sum + x.stock p = (l.map (Waiter.stock p)).sum + y.stock p := by
  induction l generalizing i with
  | nil => simp at h
  | cons first rest ih =>
    cases i with
    | zero =>
      simp only [List.getElem?_cons_zero, Option.some.injEq] at h
      subst h
      simp only [List.set_cons_zero, List.map_cons, List.sum_cons]
      omega
    | succ i =>
      have hrest := ih (i := i) (by simpa using h)
      simp only [List.set_cons_succ, List.map_cons, List.sum_cons]
      omega

/-- A reply takes out whoever has waited. -/
theorem stock_settle (w : World σ) (id : RequestId) (failure : Option Failure) :
    (w.settle id failure).1.stock p + (w.settle id failure).2.stock p = w.stock p := by
  cases hr : w.request? id with
  | none =>
    rw [settle_absent failure hr]
    rfl
  | some r =>
    cases hp : r.isPending with
    | false =>
      rw [settle_stale failure hr hp]
      rfl
    | true =>
      rw [settle_pending failure hr hp]
      simp only [stock, waiter, Array.toList_setIfInBounds]
      cases hx : w.waiters[id.number]? with
      | none =>
        -- There is no place for the request, so nobody is taken out.
        have hlen : w.waiters.toList.length ≤ id.number := by
          rw [Array.length_toList]
          exact Array.getElem?_eq_none_iff.1 hx
        rw [List.set_eq_of_length_le hlen]
        rfl
      | some x =>
        have hset := sum_set p (y := .nobody) (by rw [Array.getElem?_toList]; exact hx)
        simp only [Option.getD_some]
        have hnobody : Waiter.stock p (.nobody : Waiter σ) = 0 := rfl
        omega

/-! ## Evaluations -/

/-- What an evaluation has left behind of the continuation that it was given. Where it is given up, a
request may have been made already that the continuation waits for. -/
inductive Left (next : Continuation σ) (w : World σ) : Evaluation σ → Prop where
  | suspended {v : World σ} : v.stock p = w.stock p + next.stock p → Left next w (v, .ok .suspended)
  | resolved {v : World σ} {outcome : Outcome} {held : List Ref} : v.stock p = w.stock p →
      Left next w (v, .ok (.resolved outcome held))
  | failed {v : World σ} {e : SimulationError} : v.stock p = w.stock p →
      Left next w (v, .error (.error e))
  | crashed {v : World σ} {e : SchedulingError} :
      v.stock p = w.stock p ∨ v.stock p = w.stock p + next.stock p →
        Left next w (v, .error (.crash e))

variable {p} in
/-- Only what waits already counts for a later evaluation. -/
theorem Left.of_stock {next other : Continuation σ} {w v : World σ} {e : Evaluation σ}
    (h : Left p next v e) (hw : v.stock p = w.stock p) (hnext : next.stock p = other.stock p) :
    Left p other w e := by
  cases h with
  | suspended hv => exact .suspended (by rw [hv, hw, hnext])
  | resolved hv => exact .resolved (hv.trans hw)
  | failed hv => exact .failed (hv.trans hw)
  | crashed hv =>
    rw [hw, hnext] at hv
    exact .crashed hv

theorem suspend_left (w : World σ) (delay : Time) (kind : EventKind) {work : Callback σ}
    {next : Continuation σ} (hwork : work.stock p = next.stock p) :
    Left p next w (w.suspend delay kind work) := by
  unfold suspend
  split
  · rename_i v event hs
    have hv := stock_schedule p hs
    rw [hwork] at hv
    exact .suspended hv
  · exact .failed rfl

theorem defineOperation_left (w : World σ) (name : String) (body : Activity) (frame : Frame)
    (next : Continuation σ) : Left p next w (w.defineOperation name body frame) := by
  unfold defineOperation
  split
  · exact .failed rfl
  · exact .resolved rfl

theorem defineClient_left (w : World σ) (name : String) (period : Time) (body : Activity)
    (frame : Frame) (next : Continuation σ) :
    Left p next w (w.defineClient name period body frame) := by
  unfold defineClient
  split
  · exact .failed rfl
  · dsimp only
    split
    · rename_i v event hs
      exact .resolved (stock_schedule p hs)
    · exact .failed rfl

theorem trigger_left (w : World σ) (inUse : List Ref) (name operation : String) (frame : Frame)
    (next : Continuation σ) : Left p next w (w.trigger inUse name operation frame next) := by
  have hsent (target : Target) :=
    stock_send p (w.issue frame.caller operation none .nobody).1 ⟨w.requests.size⟩ target
  have hissued := stock_issue p w frame.caller operation none .nobody
  have hid : (w.issue frame.caller operation none .nobody).2 = ⟨w.requests.size⟩ := rfl
  unfold trigger
  split
  · exact .failed rfl
  · rename_i target _
    simp only [hid]
    split
    · rename_i v cause hs
      have hv := hsent target
      rw [hs, hissued] at hv
      exact .crashed (Or.inl hv)
    · rename_i v hs
      have hv := hsent target
      rw [hs, hissued] at hv
      exact .resolved hv

theorem query_left (w : World σ) (inUse : List Ref) (name operation : String)
    (timeout : Option Time) (frame : Frame) (next : Continuation σ) :
    Left p next w (w.query inUse name operation timeout frame next) := by
  generalize hquery : w.query inUse name operation timeout frame next = e
  rcases e with ⟨u, result⟩
  have hissued (deadline : Option Time) :=
    stock_issue p w frame.caller operation deadline (.continuation next)
  have hsent (deadline : Option Time) (target : Target) :=
    stock_send p (w.issue frame.caller operation deadline (.continuation next)).1
      ⟨w.requests.size⟩ target
  rcases query_cases hquery with
    ⟨_, rfl, rfl, _⟩ | ⟨target, _, rfl, _, _, hsend⟩ | ⟨target, _, rfl, _, hsend⟩ |
    ⟨target, delay, v, event, _, rfl, _, _, hsend, hwatch⟩
  · exact .failed rfl
  · have hu := hsent none target
    rw [hsend, hissued] at hu
    exact .crashed (Or.inr hu)
  · have hu := hsent none target
    rw [hsend, hissued] at hu
    exact .suspended hu
  · have hv := hsent (some (w.now + delay)) target
    rw [hsend, hissued] at hv
    exact .suspended ((stock_schedule p hwatch).trans hv)

theorem afterAttempt_left (w : World σ) (state : RetryState) (body : Activity) (frame : Frame)
    (next : Continuation σ) (held : List Ref) (outcome : Outcome) :
    Left p next w (w.afterAttempt state body frame next held outcome) := by
  cases outcome with
  | success value => exact .resolved rfl
  | failure cause =>
    unfold afterAttempt
    split
    · rename_i heq
      cases heq
    · split
      · exact .resolved rfl
      · exact suspend_left p w _ _ rfl

variable {p} in
/-- One more attempt of a retry hands the continuation back, or leaves it behind once. -/
theorem attempt_left {w : World σ} {inUse : List Ref} {state : RetryState} {body : Activity}
    {frame : Frame} {next : Continuation σ}
    (h : Left p (.retry state.begin body frame next) w
      (evaluate inUse body frame (.retry state.begin body frame next) w)) :
    Left p next w (attempt inUse state body frame next w) := by
  unfold attempt
  dsimp only
  generalize evaluate inUse body frame (.retry state.begin body frame next) w = e at h ⊢
  cases h with
  | suspended hv => exact .suspended hv
  | resolved hv => exact (afterAttempt_left p _ state.begin body frame next _ _).of_stock hv rfl
  | failed hv => exact .failed hv
  | crashed hv => exact .crashed hv

-- Both proofs follow the recursion: a part of an activity is evaluated with a continuation that has
-- the same end, and when it resolves, the continuation goes on to the next part.
mutual

theorem evaluate_left (inUse : List Ref) (activity : Activity) (frame : Frame)
    (next : Continuation σ) (w : World σ) :
    Left p next w (evaluate inUse activity frame next w) := by
  cases activity with
  | defineService name body =>
    have hbody := evaluateSteps_left inUse body
      (frame.inside (w.store.newService name (some frame.scope)).2 ⟨w.store.scopes.size⟩) .unit
      (.service (w.store.newService name (some frame.scope)).2 next)
      { w with
        store := ((w.store.newService name (some frame.scope)).1).bind frame.scope name
          (.service (w.store.newService name (some frame.scope)).2) }
    rw [evaluate]
    dsimp only
    generalize evaluate.evaluateSteps inUse body _ _ _ _ = e at hbody ⊢
    cases hbody with
    | suspended hv => exact .suspended hv
    | @resolved v outcome held hv => cases outcome <;> exact .resolved hv
    | failed hv => exact .failed hv
    | crashed hv => exact .crashed hv
  | defineOperation name body =>
    rw [evaluate]
    exact defineOperation_left ..
  | defineClient name period body =>
    rw [evaluate]
    exact defineClient_left ..
  | trigger target operation =>
    rw [evaluate]
    exact trigger_left ..
  | query target operation timeout =>
    rw [evaluate]
    exact query_left ..
  | sequence steps =>
    rw [evaluate]
    exact evaluateSteps_left inUse steps frame .unit next w
  | think duration =>
    rw [evaluate]
    exact suspend_left p w _ _ rfl
  | retry body limit delay =>
    rw [evaluate]
    cases Time.checkDelay delay.base with
    | error e => exact .failed rfl
    | ok _ =>
      cases RetryState.start limit delay with
      | error e => exact .failed rfl
      | ok state =>
        exact attempt_left (evaluate_left inUse body frame (.retry state.begin body frame next) w)
  | ignoreError body =>
    have hbody := evaluate_left inUse body frame (.ignore next) w
    rw [evaluate]
    generalize evaluate inUse body frame (.ignore next) w = e at hbody ⊢
    cases hbody with
    | suspended hv => exact .suspended hv
    | @resolved v outcome held hv => cases outcome <;> exact .resolved hv
    | failed hv => exact .failed hv
    | crashed hv => exact .crashed hv
  | fail =>
    rw [evaluate]
    exact .resolved rfl

theorem evaluateSteps_left (inUse : List Ref) (steps : List Activity) (frame : Frame)
    (last : Value) (next : Continuation σ) (w : World σ) :
    Left p next w (evaluate.evaluateSteps inUse steps frame last next w) := by
  cases steps with
  | nil =>
    rw [evaluate.evaluateSteps]
    exact .resolved rfl
  | cons step rest =>
    have hstep := evaluate_left inUse step frame (.steps rest frame next) w
    rw [evaluate.evaluateSteps]
    generalize evaluate inUse step frame (.steps rest frame next) w = e at hstep ⊢
    cases hstep with
    | suspended hv => exact .suspended hv
    | @resolved v outcome held hv =>
      cases outcome with
      | success value =>
        exact (evaluateSteps_left inUse rest frame value next v).of_stock hv rfl
      | failure cause => exact .resolved hv
    | failed hv => exact .failed hv
    | crashed hv => exact .crashed hv

end

end World
end Callflow
