import Callflow.Proofs.World.Calls
import Callflow.Proofs.World.Timeouts

/-!
# The story of the requests

Every move writes into the journal at the time that the clock shows when it is over, so the entries
are in the order of their times unless the host writes others (`Path.timely`). A timeout is scheduled
behind the delivery of its request (`Path.watched`). Where nobody but the calls of evaluations makes
requests and hands them over, a request is announced in the journal as soon as it is made, and the
journal tells what becomes of all of them (`Course.told`).
-/

namespace Callflow
namespace World

variable {σ : Type}

/-! ## Times -/

/-- What a move writes shows the clock when it is over. -/
theorem Move.entry_time {w v : World σ} {deeds : List (Deed σ)} (h : Move w deeds v)
    (hnone : deeds.filterMap Deed.recorded? = []) :
    ∀ e ∈ deeds.filterMap Deed.entry?, e.time = v.now := by
  cases h with
  | record _ => cases hnone
  | watch hsend hwatch =>
    rcases watch_eq hsend hwatch with ⟨agenda, hdeliver, hexpire, rfl⟩
    rcases Agenda.schedule_eq_ok hdeliver with ⟨-, hfirst⟩
    rcases Agenda.schedule_eq_ok hexpire with ⟨-, hsecond⟩
    have hnow : agenda.now = w.agenda.now := by rw [hsecond, hfirst]
    intro e he
    simp only [plan, List.filterMap_cons, Deed.entry?, List.filterMap_nil, List.mem_singleton] at he
    rw [he]
    exact hnow.symm
  | schedule _ _ => simp [plan, Deed.entry?]
  | settle failure _ _ => simp [Deed.entry?, JournalEntry.time, settle_now]
  | stale failure _ _ => simp [Deed.entry?, JournalEntry.time, settle_now]
  | take ht _ => simp [Deed.entry?, JournalEntry.time, now_enter ht]
  | expire ht _ _ _ => simp [Deed.entry?, JournalEntry.time, settle_now, now_enter ht]
  | announce _ _ _ _ =>
    intro e he
    rw [List.mem_singleton.1 he]
    rfl
  | _ => simp [Deed.entry?]

theorem Move.timely {w v : World σ} {deeds : List (Deed σ)} (h : Move w deeds v) (hw : w.Sound)
    (hnone : deeds.filterMap Deed.recorded? = []) (ht : w.journal.Timely w.now) :
    v.journal.Timely v.now := by
  rcases h.agenda.place_le hw.agenda with ⟨hv, hle⟩
  have htime := h.entry_time hnone
  rw [h.journal]
  -- The clock has got to where the entries are written.
  have hlater : w.journal.Timely v.now := ht.later hle
  generalize deeds.filterMap Deed.entry? = entries at htime
  generalize w.journal = j at hlater
  induction entries generalizing j with
  | nil => exact hlater
  | cons e rest ih =>
    exact ih (fun x hx => htime x (List.mem_cons_of_mem _ hx)) _
      (hlater.record hv.clock (htime e List.mem_cons_self))

/-- The entries of a journal stay in the order of their times, unless the host writes some. -/
theorem Path.timely {w v : World σ} {deeds : List (Deed σ)} (h : Path w deeds v) (hw : w.Sound)
    (hnone : deeds.filterMap Deed.recorded? = []) (ht : w.journal.Timely w.now) :
    v.journal.Timely v.now := by
  induction h with
  | refl => exact ht
  | move hpath hm ih =>
    rw [List.filterMap_append, List.append_eq_nil_iff] at hnone
    exact hm.timely (hpath.sound hw) hnone.2 (ih hnone.1)

/-! ## Timeouts -/

theorem Move.watched {w v : World σ} {deeds : List (Deed σ)} (h : Move w deeds v) {clock delay : Time}
    {e : Event (Callback σ)} {id : RequestId} (hmem : .agenda (.scheduled clock delay e) ∈ deeds)
    (hexpires : e.Expires id) : ∃ start transit d target,
      .agenda (.scheduled start transit d) ∈ deeds ∧ d.work = .deliver id target ∧
        d.seq < e.seq := by
  rcases hexpires with ⟨deadline, hwork⟩
  cases h with
  | watch hsend hwatch =>
    rcases watch_eq hsend hwatch with ⟨agenda, hdeliver, -, -⟩
    rcases Agenda.schedule_eq_ok hdeliver with ⟨-, hfirst⟩
    simp only [plan, List.mem_cons, List.not_mem_nil, or_false, reduceCtorEq, false_or] at hmem
    rcases hmem with hmem | hmem
    · cases hmem
      cases hwork
    · cases hmem
      cases hwork
      refine ⟨_, _, _, _, List.mem_cons_of_mem _ List.mem_cons_self, rfl, ?_⟩
      rw [hfirst]
      exact Nat.lt_succ_self _
  | schedule hs hnot =>
    simp only [plan, List.mem_singleton] at hmem
    cases hmem
    exact absurd hwork (hnot id deadline)
  | _ => simp at hmem

/-- Whoever schedules a timeout has handed over its request before. -/
theorem Path.watched {w v : World σ} {deeds : List (Deed σ)} (h : Path w deeds v)
    {clock delay : Time} {e : Event (Callback σ)} {id : RequestId}
    (hmem : .agenda (.scheduled clock delay e) ∈ deeds) (hexpires : e.Expires id) :
    ∃ start transit d target, .agenda (.scheduled start transit d) ∈ deeds ∧
      d.work = .deliver id target ∧ d.seq < e.seq := by
  induction h with
  | refl => cases hmem
  | move _ hm ih =>
    rcases List.mem_append.1 hmem with hmem | hmem
    · rcases ih hmem with ⟨start, transit, d, target, hd, hdeliver⟩
      exact ⟨start, transit, d, target, List.mem_append_left _ hd, hdeliver⟩
    · rcases hm.watched hmem hexpires with ⟨start, transit, d, target, hd, hdeliver⟩
      exact ⟨start, transit, d, target, List.mem_append_right _ hd, hdeliver⟩

/-! ## Requests -/

/-- The journal tells what has become of the requests. -/
def Told (w : World σ) : Prop := w.journal.Tells w.requests

theorem request?_eq_some {w : World σ} {id : RequestId} {r : Request} :
    w.request? id = some r ↔ w.requests[id.number]? = some (some r) := by
  unfold request?
  cases w.requests[id.number]? with
  | none => simp
  | some x => cases x <;> simp

theorem Told.settle {w : World σ} (h : w.Told) {id : RequestId} {r : Request}
    (failure : Option Failure) (hr : w.request? id = some r) (hp : r.isPending = true) :
    (w.settle id failure).1.Told := by
  rw [settle_pending failure hr hp]
  exact Journal.Tells.settle h (request?_eq_some.1 hr) hp w.now failure

/-- Moves that make no request and hand none over. -/
theorem Move.told {w v : World σ} {deeds : List (Deed σ)} (h : Move w deeds v)
    (hsize : v.requests.size = w.requests.size) (hplain : ∀ d ∈ deeds, d.isPlain = true)
    (hw : w.Told) : v.Told := by
  cases h with
  | define _ => exact hw
  | arrange _ _ _ _ => exact hw
  | record _ => simp [Deed.isPlain] at hplain
  | allocate => simp [World.allocate] at hsize
  | issue _ _ _ _ _ => simp [World.issue] at hsize
  | watch hsend hwatch => simp [Deed.isPlain] at hplain
  | announce _ _ _ _ => simp [Deed.isPlain] at hplain
  | schedule hs _ =>
    rcases schedule_eq_ok hs with ⟨agenda, -, rfl, -⟩
    exact hw
  | settle failure hr hp => exact hw.settle failure hr hp
  | stale failure hr hp =>
    rw [settle_stale failure hr hp]
    exact Journal.Tells.stale hw (request?_eq_some.1 hr) hp w.now _
  | take ht _ => exact Journal.Tells.dispatch hw _ _ _
  | @expire horizon e agenda id deadline r ht _ hr hp =>
    have hentered : (w.enter e agenda).Told := Journal.Tells.dispatch hw e.time e.seq e.kind
    exact hentered.settle _ hr hp
  | advance _ => exact hw

theorem Path.told {w v : World σ} {deeds : List (Deed σ)} (h : Path w deeds v)
    (hsize : v.requests.size = w.requests.size) (hplain : ∀ d ∈ deeds, d.isPlain = true)
    (hw : w.Told) : v.Told := by
  induction h with
  | refl => exact hw
  | move hpath hm ih =>
    -- Numbers are never given back, so there is no new one on the way.
    have hbefore := hpath.size_le
    have hafter := hm.effect.size_le
    exact hm.told (by omega) (fun d hd => hplain d (List.mem_append_right _ hd))
      (ih (by omega) fun d hd => hplain d (List.mem_append_left _ hd))

theorem Still.told {w v : World σ} (h : Still w v) (hw : w.Told) : v.Told := by
  rcases h.deeds with ⟨deeds, hpath, hstill⟩
  exact hpath.told h.size (fun d hd => Deed.isPlain_of_isStill (hstill d hd)) hw

/-! ## Calls -/

/-- A new request that is handed over is announced, even if it cannot be delivered. -/
theorem Told.issue {w : World σ} (h : w.Told) (caller : Caller) (operation : String)
    (deadline : Option Time) (waiter : Waiter σ) (target : Target) :
    ((w.issue caller operation deadline waiter).1.send ⟨w.requests.size⟩ target).1.Told := by
  have hissued := Journal.Tells.issue h caller (w.store.targetName target) operation w.now deadline
  rcases send_eq (request?_issue w caller operation deadline waiter)
    (Prod.mk.eta (p := (w.issue caller operation deadline waiter).1.send ⟨w.requests.size⟩
      target)).symm with ⟨_, _, hv⟩ | ⟨_, event, hs⟩
  · rw [hv]
    exact hissued
  · rcases schedule_eq_ok hs with ⟨agenda, -, hv, -⟩
    rw [hv]
    exact hissued

end World

/-- A call makes one request and announces it, or does nothing. -/
theorem Call.told (c : Call σ) (h : c.world.Told) : c.perform.1.Told := by
  rcases c with ⟨w, inUse, frame, next, symbol, operation, manner⟩
  cases hresolve : w.resolve inUse frame next symbol with
  | error e =>
    cases manner with
    | trigger =>
      simp only [perform, World.trigger, hresolve]
      exact h
    | query timeout =>
      simp only [perform, World.query, hresolve]
      exact h
  | ok target =>
    cases manner with
    | trigger =>
      rw [perform, World.trigger_world hresolve]
      exact h.issue ..
    | query timeout =>
      simp only [perform]
      generalize hquery : w.query inUse symbol operation timeout frame next = result
      rcases result with ⟨u, result⟩
      have hsent (deadline : Option Time) (other : Target) :=
        h.issue frame.caller operation deadline (.continuation next) other
      rcases World.query_cases hquery with
        ⟨_, _, rfl, _⟩ | ⟨other, _, _, _, _, hsend⟩ | ⟨other, _, _, _, hsend⟩ |
        ⟨other, delay, v, event, _, _, _, _, hsend, hwatch⟩
      · exact h
      · have hu := hsent none other
        rw [hsend] at hu
        exact hu
      · have hu := hsent none other
        rw [hsend] at hu
        exact hu
      · have hv := hsent (some (w.now + delay)) other
        rw [hsend] at hv
        rcases World.schedule_eq_ok hwatch with ⟨agenda, -, rfl, -⟩
        exact hv

/-- Where only calls make requests, the journal goes on telling what becomes of them. -/
theorem World.Course.told {w v : World σ} {calls : List (Call σ)} (h : Course w calls v)
    (hw : w.Told) : v.Told := by
  induction h with
  | still hs => exact hs.told hw
  | call hs _ ih => exact ih (Call.told _ (hs.told hw))

end Callflow
