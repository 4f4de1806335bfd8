import Callflow.Machine.Evaluate
import Callflow.Proofs.World.Move

/-!
# Quiet deeds and queries

An evaluation defines things, makes and hands over requests, and schedules what is to be done later:
its deeds are quiet (`World.evaluate_quiet`). Such deeds take no time (`Path.clock`). `query_cases`
tells in which ways the evaluation of a query ends.
-/

namespace Callflow

/-- Whether only the host schedules such a callback. -/
def Callback.fromHost {σ : Type} : Callback σ → Bool
  | .host _ => true
  | .reply .. => true
  | _ => false

namespace World

variable {σ : Type}

/-- Whether an evaluation may do something like this. -/
def Deed.isQuiet : Deed σ → Bool
  | .issued .. => true
  | .agenda (.scheduled _ _ e) => !e.work.fromHost
  | _ => false

/-- Moves that an evaluation may make. -/
def Quiet (w v : World σ) : Prop := ∃ deeds, Path w deeds v ∧ ∀ d ∈ deeds, d.isQuiet = true

theorem Quiet.refl (w : World σ) : Quiet w w := ⟨[], .refl, by simp⟩

/-! ## The clock -/

theorem Move.clock {w v : World σ} {deeds : List (Deed σ)} (h : Move w deeds v)
    (hquiet : ∀ d ∈ deeds, d.isQuiet = true) :
    v.now = w.now ∧
      ∀ clock delay e, .agenda (.scheduled clock delay e) ∈ deeds → clock = w.now := by
  cases h with
  | define _ => exact ⟨rfl, by simp⟩
  | arrange _ _ _ _ => exact ⟨rfl, by simp⟩
  | allocate => exact ⟨rfl, by simp⟩
  | issue _ _ _ _ _ => exact ⟨rfl, by simp⟩
  | announce _ _ _ _ => exact ⟨rfl, by simp⟩
  | watch hsend hwatch =>
    rcases watch_eq hsend hwatch with ⟨agenda, hdeliver, hexpire, rfl⟩
    rcases Agenda.schedule_eq_ok hdeliver with ⟨-, hfirst⟩
    rcases Agenda.schedule_eq_ok hexpire with ⟨-, hsecond⟩
    have hnow : agenda.now = w.now := by
      rw [hsecond, hfirst]
      rfl
    refine ⟨hnow, ?_⟩
    intro clock delay e he
    simp only [plan, List.mem_cons, List.not_mem_nil, or_false, reduceCtorEq, false_or] at he
    rcases he with he | he
    · cases he
      rfl
    · -- The delivery has been scheduled in between, and the clock has not moved.
      cases he
      rw [now, hfirst]
      rfl
  | schedule hs _ =>
    rcases schedule_eq_ok hs with ⟨agenda, hagenda, rfl, -⟩
    rcases Agenda.schedule_eq_ok hagenda with ⟨-, rfl⟩
    refine ⟨rfl, ?_⟩
    intro clock delay e he
    simp only [plan, List.mem_singleton] at he
    cases he
    rfl
  | record entry => simp [Deed.isQuiet] at hquiet
  | settle _ _ _ => simp [Deed.isQuiet] at hquiet
  | stale _ _ _ => simp [Deed.isQuiet] at hquiet
  | take _ _ => simp [Deed.isQuiet] at hquiet
  | expire _ _ _ _ => simp [Deed.isQuiet] at hquiet
  | advance _ => simp [Deed.isQuiet] at hquiet

/-- Quiet moves take no time. -/
theorem Path.clock {w v : World σ} {deeds : List (Deed σ)} (h : Path w deeds v)
    (hquiet : ∀ d ∈ deeds, d.isQuiet = true) :
    v.now = w.now ∧
      ∀ clock delay e, .agenda (.scheduled clock delay e) ∈ deeds → clock = w.now := by
  induction h with
  | refl => exact ⟨rfl, by simp⟩
  | move _ hm ih =>
    rcases ih (fun d hd => hquiet d (List.mem_append_left _ hd)) with ⟨hnow, hbefore⟩
    rcases hm.clock (fun d hd => hquiet d (List.mem_append_right _ hd)) with ⟨hsame, hafter⟩
    refine ⟨hsame.trans hnow, ?_⟩
    intro clock delay e he
    rcases List.mem_append.1 he with he | he
    · exact hbefore clock delay e he
    · exact (hafter clock delay e he).trans hnow

/-! ## Calls -/

/-- Handing over a request changes the agenda and the journal, and takes no time. -/
theorem send_eq_with (w : World σ) (id : RequestId) (target : Target) :
    ∃ agenda journal, agenda.now = w.now ∧ (w.send id target).1 = { w with agenda, journal } := by
  cases hr : w.request? id with
  | none =>
    exact ⟨w.agenda, w.journal, rfl, by rw [send_absent target hr]⟩
  | some r =>
    rcases send_eq hr (Prod.mk.eta (p := w.send id target)).symm with ⟨_, _, hv⟩ | ⟨_, event, hs⟩
    · exact ⟨w.agenda, _, rfl, hv⟩
    · rcases schedule_eq_ok hs with ⟨agenda, ha, hv, -⟩
      refine ⟨agenda, _, ?_, hv⟩
      rw [(Agenda.schedule_eq_ok ha).2]
      rfl

theorem now_send (w : World σ) (id : RequestId) (target : Target) :
    (w.send id target).1.now = w.now := by
  rcases w.send_eq_with id target with ⟨agenda, journal, hnow, hsent⟩
  rw [hsent]
  exact hnow

theorem setDeadline_issue (w : World σ) (caller : Caller) (operation : String)
    (waiter : Waiter σ) (deadline : Time) :
    (w.issue caller operation none waiter).1.setDeadline ⟨w.requests.size⟩ deadline =
      (w.issue caller operation (some deadline) waiter).1 := by
  have hlast (x : Option Request) (f : Option Request → Option Request) :
      (w.requests.push x).modify w.requests.size f = w.requests.push (f x) := by
    apply Array.ext_getElem?
    intro i
    -- Only the last entry differs, and it is the one that is modified.
    rw [Array.getElem?_modify, Array.getElem?_push, Array.getElem?_push]
    by_cases h : i = w.requests.size
    · subst h
      simp
    · rw [if_neg (fun hi => h hi.symm), if_neg h, if_neg h]
  simp only [issue, setDeadline, hlast]
  rfl

theorem request?_setDeadline (w : World σ) (id : RequestId) (deadline : Time) :
    (w.setDeadline id deadline).request? id =
      (w.request? id).map fun r => { r with deadline := some deadline } := by
  simp only [request?, setDeadline, Array.getElem?_modify, if_true]
  cases w.requests[id.number]? with
  | none => rfl
  | some x => rfl

/-- Handing over a request has nothing to do with its deadline. -/
theorem send_setDeadline (w : World σ) (id : RequestId) (deadline : Time) (target : Target) :
    (w.setDeadline id deadline).send id target =
      ((w.send id target).1.setDeadline id deadline, (w.send id target).2) := by
  unfold send
  rw [request?_setDeadline]
  cases w.request? id with
  | none => rfl
  | some r =>
    cases hs : w.agenda.schedule (0.0 + w.store.transit target) .delivery (.deliver id target) with
    | error e => simp [schedule, record, setDeadline, now, hs]
    | ok agenda => simp [schedule, record, setDeadline, now, hs]

/-- How a query ends: it is rejected and changes nothing; or its request is handed over in vain; or
its continuation waits, without a timeout or watched by one. -/
theorem query_cases {w u : World σ} {inUse : List Ref} {name operation : String}
    {timeout : Option Time} {frame : Frame} {next : Continuation σ} {result : Except Stop Progress}
    (h : w.query inUse name operation timeout frame next = (u, result)) :
    (∃ cause, result = .error (.error cause) ∧ u = w ∧ ∀ target,
      w.resolve inUse frame next name = .ok target →
        ∃ delay, timeout = some delay ∧ Time.checkDelay delay ≠ .ok ()) ∨
    (∃ target cause, result = .error (.crash cause) ∧
      w.resolve inUse frame next name = .ok target ∧
      (∀ delay, timeout = some delay → Time.checkDelay delay = .ok ()) ∧
      (w.issue frame.caller operation none (.continuation next)).1.send
        ⟨w.requests.size⟩ target = (u, .error cause)) ∨
    (∃ target, timeout = none ∧ result = .ok .suspended ∧
      w.resolve inUse frame next name = .ok target ∧
      (w.issue frame.caller operation none (.continuation next)).1.send
        ⟨w.requests.size⟩ target = (u, .ok ())) ∨
    (∃ target delay v event, timeout = some delay ∧ result = .ok .suspended ∧
      w.resolve inUse frame next name = .ok target ∧ Time.checkDelay delay = .ok () ∧
      (w.issue frame.caller operation (some (w.now + delay)) (.continuation next)).1.send
        ⟨w.requests.size⟩ target = (v, .ok ()) ∧
      v.schedule delay .timeout (.expire ⟨w.requests.size⟩ (w.now + delay)) = .ok (u, event)) := by
  unfold query at h
  cases hresolve : w.resolve inUse frame next name with
  | error e =>
    rw [hresolve] at h
    cases h
    exact Or.inl ⟨_, rfl, rfl, by simp⟩
  | ok target =>
    rw [hresolve] at h
    have hid : (w.issue frame.caller operation none (.continuation next)).2 =
      ⟨w.requests.size⟩ := rfl
    cases timeout with
    | none =>
      simp only [Option.mapM_none, pure, Except.pure, hid] at h
      split at h
      · rename_i v cause hs
        cases h
        exact Or.inr (Or.inl ⟨target, cause, rfl, rfl, by simp, hs⟩)
      · rename_i v hs
        cases h
        exact Or.inr (Or.inr (Or.inl ⟨target, rfl, rfl, rfl, hs⟩))
    | some delay =>
      cases hcheck : Time.checkDelay delay with
      | error e =>
        simp only [Option.mapM_some, hcheck, Functor.map, Except.map] at h
        cases h
        exact Or.inl ⟨_, rfl, rfl, fun _ _ => ⟨delay, rfl, by simp [hcheck]⟩⟩
      | ok _ =>
        simp only [Option.mapM_some, hcheck, Functor.map, Except.map, hid] at h
        split at h
        · rename_i v cause hs
          cases h
          refine Or.inr (Or.inl ⟨target, cause, rfl, rfl, ?_, hs⟩)
          rintro _ ⟨⟩
          exact hcheck
        · rename_i v hs
          -- The deadline is set after the request was handed over; it could as well be set before.
          have hnow : v.now = w.now := by
            have hkept := now_send (w.issue frame.caller operation none (.continuation next)).1
              ⟨w.requests.size⟩ target
            rw [hs] at hkept
            exact hkept
          have hsend := send_setDeadline
            (w.issue frame.caller operation none (.continuation next)).1 ⟨w.requests.size⟩
            (w.now + delay) target
          rw [setDeadline_issue, hs] at hsend
          rcases schedule_of_checkDelay (v.setDeadline ⟨w.requests.size⟩ (w.now + delay)) .timeout
            (.expire ⟨w.requests.size⟩ (w.now + delay)) hcheck with ⟨u', event, hwatch⟩
          rw [hnow, suspend, hwatch] at h
          cases h
          exact Or.inr (Or.inr (Or.inr
            ⟨target, delay, _, event, rfl, rfl, rfl, hcheck, hsend, hwatch⟩))

/-- A request can be handed over when the transit time of its target is a delay. -/
theorem send_of_checkDelay (w : World σ) (id : RequestId) {target : Target}
    (h : Time.checkDelay (0.0 + w.store.transit target) = .ok ()) :
    ∃ v, w.send id target = (v, .ok ()) := by
  unfold send
  split
  · exact ⟨_, rfl⟩
  · rename_i r _
    let w' := w.record (.issued w.now id r.caller (w.store.targetName target) r.operation)
    have h' : Time.checkDelay (0.0 + w'.store.transit target) = .ok () := h
    rcases schedule_of_checkDelay w' .delivery (.deliver id target) h' with ⟨v, event, hv⟩
    exact ⟨v, by simp only [w', hv]⟩

/-- A query that can be handed over, with a valid timeout, does not end at once. -/
theorem query_suspended {w : World σ} {inUse : List Ref} {name : String} (operation : String)
    {timeout : Time} {frame : Frame} {next : Continuation σ} {target : Target}
    (hresolve : w.resolve inUse frame next name = .ok target)
    (htransit : Time.checkDelay (0.0 + w.store.transit target) = .ok ())
    (hvalid : Time.checkDelay timeout = .ok ()) :
    ∃ v, w.query inUse name operation (some timeout) frame next = (v, .ok .suspended) := by
  rcases send_of_checkDelay (w.issue frame.caller operation none (.continuation next)).1
    ⟨w.requests.size⟩ htransit with ⟨v, hsend⟩
  rcases schedule_of_checkDelay (v.setDeadline ⟨w.requests.size⟩ (v.now + timeout)) .timeout
    (.expire ⟨w.requests.size⟩ (v.now + timeout)) hvalid with ⟨u, event, hwatch⟩
  have hid : (w.issue frame.caller operation none (.continuation next)).2 =
    ⟨w.requests.size⟩ := rfl
  unfold query
  rw [hresolve]
  simp only [Option.mapM_some, hvalid, Functor.map, Except.map, hid, hsend, suspend, hwatch]
  exact ⟨u, rfl⟩

end World
end Callflow
