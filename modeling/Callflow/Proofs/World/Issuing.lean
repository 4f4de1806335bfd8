import Callflow.Proofs.Journal.Story
import Callflow.Proofs.World.Parts

/-!
# What an evaluation issues

The calls that an evaluation comes upon are the triggers and the queries among its parts
(`World.calls_eq_parts`). Each of them that is accepted writes one entry into the journal, as whoever
its frame says (`Call.issue?`), and the evaluation writes nothing else (`World.Course.journal`).
-/

namespace Callflow

variable {σ : Type}

/-- The call that a part is, if it is a trigger or a query. -/
def Part.call? (p : Part σ) : Option (Call σ) :=
  match p.activity with
  | .trigger symbol operation => some ⟨p.world, p.inUse, p.frame, p.next, symbol, operation, .trigger⟩
  | .query symbol operation timeout =>
    some ⟨p.world, p.inUse, p.frame, p.next, symbol, operation, .query timeout⟩
  | _ => none

/-- The entry about the request that a call makes, if it is accepted. -/
def Call.issue? (c : Call σ) : Option JournalEntry :=
  c.target?.map fun target =>
    .issued c.world.now c.request c.frame.caller (c.world.store.targetName target) c.operation

/-- The entry that a part writes when it issues a request. -/
def Part.issue? (p : Part σ) : Option JournalEntry := p.call?.bind Call.issue?

theorem Part.issue?_eq_some {p : Part σ} {e : JournalEntry} (h : p.issue? = some e) :
    ∃ symbol operation target, (p.activity = .trigger symbol operation ∨
        ∃ timeout, p.activity = .query symbol operation timeout) ∧
      p.world.resolve p.inUse p.frame p.next symbol = .ok target ∧
      e = .issued p.world.now ⟨p.world.requests.size⟩ p.frame.caller
        (p.world.store.targetName target) operation := by
  rcases Option.bind_eq_some_iff.1 h with ⟨c, hcall, hentry⟩
  rcases Option.map_eq_some_iff.1 hentry with ⟨target, htarget, rfl⟩
  have hresolve := Call.resolve_of_target? htarget
  unfold Part.call? at hcall
  split at hcall
  · rename_i symbol operation hactivity
    cases hcall
    exact ⟨symbol, operation, target, Or.inl hactivity, hresolve, rfl⟩
  · rename_i symbol operation timeout hactivity
    cases hcall
    exact ⟨symbol, operation, target, Or.inr ⟨timeout, hactivity⟩, hresolve, rfl⟩
  · cases hcall

namespace World

-- Both lists follow the recursion of the evaluation.
mutual

theorem calls_eq_parts (inUse : List Ref) (activity : Activity) (frame : Frame)
    (next : Continuation σ) (w : World σ) :
    calls inUse activity frame next w =
      (parts inUse activity frame next w).filterMap Part.call? := by
  cases activity with
  | defineService name body =>
    rw [calls, parts]
    exact calls_eq_parts_steps inUse body _ .unit _ _
  | sequence steps =>
    rw [calls, parts]
    exact calls_eq_parts_steps inUse steps frame .unit next w
  | retry body limit delay =>
    rw [calls, parts]
    cases Time.checkDelay delay.base with
    | error e => rfl
    | ok _ =>
      cases RetryState.start limit delay with
      | error e => rfl
      | ok state => exact calls_eq_parts inUse body frame (.retry state.begin body frame next) w
  | ignoreError body =>
    rw [calls, parts]
    exact calls_eq_parts inUse body frame (.ignore next) w
  | _ =>
    rw [calls, parts]
    · rfl
    all_goals simp

theorem calls_eq_parts_steps (inUse : List Ref) (steps : List Activity) (frame : Frame)
    (last : Value) (next : Continuation σ) (w : World σ) :
    calls.ofSteps inUse steps frame last next w =
      (parts.ofSteps inUse steps frame last next w).filterMap Part.call? := by
  cases steps with
  | nil => rfl
  | cons step rest =>
    have hstep := calls_eq_parts inUse step frame (.steps rest frame next) w
    rw [calls.ofSteps, parts.ofSteps, List.filterMap_append, hstep]
    congr 1
    rcases evaluate inUse step frame (.steps rest frame next) w with ⟨v, _ | _ | ⟨_ | _, held⟩⟩
    · rfl
    · rfl
    · exact calls_eq_parts_steps inUse rest frame _ next v
    · rfl

end

/-! ## What the calls write -/

theorem schedule_journal {w v : World σ} {delay : Time} {kind : EventKind} {work : Callback σ}
    {event : EventId} (h : w.schedule delay kind work = .ok (v, event)) :
    v.journal = w.journal := by
  rcases schedule_eq_ok h with ⟨agenda, -, rfl, -⟩
  rfl

theorem send_journal {w : World σ} {id : RequestId} {r : Request} (target : Target)
    (hr : w.request? id = some r) :
    (w.send id target).1.journal =
      w.journal.record (.issued w.now id r.caller (w.store.targetName target) r.operation) := by
  rcases send_eq hr (Prod.mk.eta (p := w.send id target)).symm with
    ⟨cause, -, hv⟩ | ⟨-, event, hs⟩
  · rw [hv]
    rfl
  · rw [schedule_journal hs]
    rfl

/-- The entry about a new request says who has made it. -/
theorem issue_send_journal (w : World σ) (caller : Caller) (operation : String)
    (deadline : Option Time) (waiter : Waiter σ) (target : Target) :
    ((w.issue caller operation deadline waiter).1.send ⟨w.requests.size⟩ target).1.journal =
      w.journal.record (.issued w.now ⟨w.requests.size⟩ caller (w.store.targetName target)
        operation) :=
  send_journal target (request?_issue w caller operation deadline waiter)

end World

/-- A call writes one entry, if it is accepted. -/
theorem Call.journal (c : Call σ) :
    c.perform.1.journal = c.issue?.toList.foldl Journal.record c.world.journal := by
  rcases c.perform_cases with
    ⟨hnone, hworld⟩ | ⟨target, waiter, htarget, hworld⟩ |
    ⟨target, timeout, v, event, htarget, hsend, hwatch⟩
  · rw [hworld, issue?, hnone]
    rfl
  · rw [hworld, issue?, htarget]
    exact World.issue_send_journal ..
  · have hsent := World.issue_send_journal c.world c.frame.caller c.operation
      (some (c.world.now + timeout)) (.continuation c.next) target
    rw [World.schedule_journal hwatch, issue?, htarget]
    exact (congrArg (fun sent => sent.1.journal) hsend).symm.trans hsent

namespace World

/-- Nothing is written between the calls. -/
theorem Still.journal {w v : World σ} (h : Still w v) : v.journal = w.journal := by
  rcases h.deeds with ⟨deeds, hpath, hstill⟩
  have hnone : deeds.filterMap Deed.entry? = [] := by
    rw [List.filterMap_eq_nil_iff]
    intro d hd
    have hd := hstill d hd
    cases d with
    | agenda deed => cases deed <;> first | rfl | cases hd
    | _ => cases hd
  rw [hpath.journal, hnone]
  rfl

/-- The journal gets the entries of the calls, in their order, and no others. -/
theorem Course.journal {w v : World σ} {calls : List (Call σ)} (h : Course w calls v) :
    v.journal = (calls.filterMap Call.issue?).foldl Journal.record w.journal := by
  induction h with
  | still hs => exact hs.journal
  | @call w v c rest hs _ ih =>
    have hcons : (c :: rest).filterMap Call.issue? =
        c.issue?.toList ++ rest.filterMap Call.issue? := by
      cases hc : c.issue? <;> simp [hc]
    rw [ih, c.journal, hs.journal, hcons, List.foldl_append]

end World
end Callflow
