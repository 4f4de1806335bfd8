import Callflow.Proofs.Store.Signature
import Callflow.Proofs.World.Evaluation
import Callflow.Proofs.World.Requests

/-!
# The calls of an evaluation

An evaluation comes upon some triggers and queries, its `Call`s, each in the world that it has got
into by then. `World.calls` lists them; it follows `World.evaluate`. Between its calls an evaluation
neither makes a request nor hands one over (`Course`), so the requests that it hands over are just
those of its calls, in their order (`Course.hands`).
-/

namespace Callflow

variable {σ : Type}

/-- How an operation is called. -/
inductive Manner where
  -- Nobody waits for the reply.
  | trigger
  -- The continuation waits, at most until a timeout has passed.
  | query (timeout : Option Time)

/-- A call of an operation, in the world in which it is evaluated. -/
structure Call (σ : Type) where
  world : World σ
  inUse : List Ref
  frame : Frame
  next : Continuation σ
  symbol : String
  operation : String
  manner : Manner

/-- Whether a callback has nothing to do with requests. -/
def Callback.isPrivate : Callback σ → Bool
  | .wake _ => true
  | .attempt .. => true
  | .fire .. => true
  | _ => false

/-- A request that has been handed to a target. -/
structure Sending where
  request : RequestId
  target : Target
  time : Time
  -- The time that the request needs to get to the target.
  transit : Time

/-- The request that hands over a request to a target, if the target can be reached. -/
def World.sending? (w : World σ) (request : RequestId) (target : Target) : Option Sending :=
  match Time.checkDelay (0.0 + w.store.transit target) with
  | .ok () => some ⟨request, target, w.now, 0.0 + w.store.transit target⟩
  | .error _ => none

namespace Call

/-- Evaluates a call. -/
def perform (c : Call σ) : Evaluation σ :=
  match c.manner with
  | .trigger => c.world.trigger c.inUse c.symbol c.operation c.frame c.next
  | .query timeout => c.world.query c.inUse c.symbol c.operation timeout c.frame c.next

/-- The number of the request that is made if the call is accepted. -/
def request (c : Call σ) : RequestId := ⟨c.world.requests.size⟩

/-- The target of an accepted call: the symbol stands for it, and the timeout is valid. -/
def target? (c : Call σ) : Option Target :=
  match c.world.resolve c.inUse c.frame c.next c.symbol, c.manner with
  | .ok target, .query (some timeout) =>
    match Time.checkDelay timeout with
    | .ok () => some target
    | .error _ => none
  | .ok target, _ => some target
  | .error _, _ => none

/-- The symbol of an accepted call stands for its target. -/
theorem resolve_of_target? {c : Call σ} {target : Target} (h : c.target? = some target) :
    c.world.resolve c.inUse c.frame c.next c.symbol = .ok target := by
  unfold target? at h
  split at h
  · rename_i other timeout hresolve _
    split at h
    · rw [hresolve, Option.some.inj h]
    · cases h
  · rename_i other hresolve _
    rw [hresolve, Option.some.inj h]
  · cases h

/-- The request that an accepted call hands to its target. -/
def sending? (c : Call σ) : Option Sending :=
  c.target?.bind fun target => c.world.sending? c.request target

end Call

namespace World

/-! ## Listing the calls -/

/-- The calls that an evaluation comes upon. -/
def calls (inUse : List Ref) : Activity → Frame → Continuation σ → World σ → List (Call σ)
  | .defineService name body, frame, next, w =>
    let (store, id) := w.store.newService name (some frame.scope)
    let inner := frame.inside id ⟨w.store.scopes.size⟩
    let w := { w with store := store.bind frame.scope name (.service id) }
    ofSteps inUse body inner .unit (.service id next) w
  | .trigger symbol operation, frame, next, w =>
    [⟨w, inUse, frame, next, symbol, operation, .trigger⟩]
  | .query symbol operation timeout, frame, next, w =>
    [⟨w, inUse, frame, next, symbol, operation, .query timeout⟩]
  | .sequence steps, frame, next, w => ofSteps inUse steps frame .unit next w
  | .retry body limit delay, frame, next, w =>
    match Time.checkDelay delay.base, RetryState.start limit delay with
    | .ok (), .ok state => calls inUse body frame (.retry state.begin body frame next) w
    | _, _ => []
  | .ignoreError body, frame, next, w => calls inUse body frame (.ignore next) w
  | .defineOperation _ _, _, _, _ => []
  | .defineClient _ _ _, _, _, _ => []
  | .think _, _, _, _ => []
  | .fail, _, _, _ => []
where
  -- The calls of the steps of a sequence.
  ofSteps (inUse : List Ref) :
      List Activity → Frame → Value → Continuation σ → World σ → List (Call σ)
    | [], _, _, _, _ => []
    | step :: rest, frame, _, next, w =>
      calls inUse step frame (.steps rest frame next) w ++
        match evaluate inUse step frame (.steps rest frame next) w with
        | (w, .ok (.resolved (.success value) _)) => ofSteps inUse rest frame value next w
        | _ => []

/-! ## Sendings -/

/-- The request that was handed over, if an event was scheduled that delivers one. -/
def Deed.sending? : Deed σ → Option Sending
  | .agenda (.scheduled clock delay e) =>
    match e.work with
    | .deliver request target => some ⟨request, target, clock, delay⟩
    | _ => none
  | _ => none

/-- The deeds hand over some requests and no others. -/
structure Sends (deeds : List (Deed σ)) (sendings : List Sending) : Prop where
  handed : deeds.filterMap Deed.sending? = sendings
  kind : ∀ clock delay e request target, .agenda (.scheduled clock delay e) ∈ deeds →
    e.work = .deliver request target → e.kind = .delivery

theorem Sends.append {deeds more : List (Deed σ)} {sendings others : List Sending}
    (h : Sends deeds sendings) (k : Sends more others) :
    Sends (deeds ++ more) (sendings ++ others) where
  handed := by rw [List.filterMap_append, h.handed, k.handed]
  kind := by
    intro clock delay e request target hmem hwork
    rcases List.mem_append.1 hmem with hmem | hmem
    · exact h.kind clock delay e request target hmem hwork
    · exact k.kind clock delay e request target hmem hwork

theorem Sends.none {deeds : List (Deed σ)}
    (h : ∀ clock delay e, .agenda (.scheduled clock delay e) ∈ deeds →
      ∀ request target, e.work ≠ .deliver request target) : Sends deeds [] where
  handed := by
    rw [List.filterMap_eq_nil_iff]
    intro d hd
    cases d with
    | agenda deed =>
      cases deed with
      | scheduled clock delay e =>
        have hwork := h clock delay e hd
        simp only [Deed.sending?]
      | taken e => rfl
      | advanced horizon => rfl
    | _ => rfl
  kind := by
    intro clock delay e request target hmem hwork
    exact absurd hwork (h clock delay e hmem request target)

/-- Some requests are made and handed over, under rising numbers, and no others are handed over. -/
structure Hands (w : World σ) (sendings : List Sending) (v : World σ) : Prop where
  deeds : ∃ deeds, Path w deeds v ∧ (∀ d ∈ deeds, d.isQuiet = true) ∧ Sends deeds sendings
  fresh : ∀ s ∈ sendings, w.requests.size ≤ s.request.number ∧ s.request.number < v.requests.size
  ordered : sendings.Pairwise fun s t => s.request.number < t.request.number
  signed : w.store.Signed → v.store.Signed

theorem Hands.size_le {w v : World σ} {sendings : List Sending} (h : Hands w sendings v) :
    w.requests.size ≤ v.requests.size := by
  rcases h.deeds with ⟨deeds, hpath, -, -⟩
  exact hpath.size_le

theorem Hands.trans {w v u : World σ} {sendings more : List Sending} (h : Hands w sendings v)
    (k : Hands v more u) : Hands w (sendings ++ more) u where
  deeds := by
    rcases h.deeds with ⟨deeds, hpath, hquiet, hsends⟩
    rcases k.deeds with ⟨later, kpath, kquiet, ksends⟩
    refine ⟨deeds ++ later, hpath.trans kpath, ?_, hsends.append ksends⟩
    intro d hd
    rcases List.mem_append.1 hd with hd | hd
    · exact hquiet d hd
    · exact kquiet d hd
  fresh := by
    intro s hs
    rcases List.mem_append.1 hs with hs | hs
    · exact ⟨(h.fresh s hs).1, (h.fresh s hs).2.trans_le k.size_le⟩
    · exact ⟨h.size_le.trans (k.fresh s hs).1, (k.fresh s hs).2⟩
  ordered := by
    rw [List.pairwise_append]
    refine ⟨h.ordered, k.ordered, ?_⟩
    -- What is made later has a number that was not given before.
    intro s hs t ht
    exact (h.fresh s hs).2.trans_le (k.fresh t ht).1
  signed := fun hw => k.signed (h.signed hw)

/-! ## Between the calls -/

/-- Whether a deed only lets something private wait. -/
def Deed.isStill : Deed σ → Bool
  | .agenda (.scheduled _ _ e) => e.work.isPrivate
  | _ => false

theorem Deed.isQuiet_of_isStill {d : Deed σ} (h : d.isStill = true) : d.isQuiet = true := by
  cases d with
  | agenda deed =>
    cases deed with
    | scheduled clock delay e =>
      simp only [isStill] at h
      cases hwork : e.work <;> simp_all [isQuiet, Callback.isPrivate, Callback.fromHost]
    | taken e => cases h
    | advanced horizon => cases h
  | _ => cases h

/-- Whether a deed neither hands over a request nor is an entry of the host. -/
def Deed.isPlain : Deed σ → Bool
  | .issued .. => false
  | .recorded _ => false
  | _ => true

theorem Deed.isPlain_of_isStill {d : Deed σ} (h : d.isStill = true) : d.isPlain = true := by
  cases d with
  | agenda deed => rfl
  | _ => cases h

/-- Moves that neither make a request nor hand one over. -/
structure Still (w v : World σ) : Prop where
  deeds : ∃ deeds, Path w deeds v ∧ ∀ d ∈ deeds, d.isStill = true
  size : v.requests.size = w.requests.size
  signed : w.store.Signed → v.store.Signed

namespace Still

theorem refl (w : World σ) : Still w w := ⟨⟨[], .refl, by simp⟩, rfl, id⟩

theorem trans {w v u : World σ} (h : Still w v) (k : Still v u) : Still w u := by
  rcases h.deeds with ⟨deeds, hpath, hstill⟩
  rcases k.deeds with ⟨more, kpath, kstill⟩
  refine ⟨⟨deeds ++ more, hpath.trans kpath, ?_⟩, k.size.trans h.size,
    fun hw => k.signed (h.signed hw)⟩
  intro d hd
  rcases List.mem_append.1 hd with hd | hd
  · exact hstill d hd
  · exact kstill d hd

/-- A move without deeds that makes no request. -/
theorem of_move {w v : World σ} (h : Move w [] v) (hsize : v.requests.size = w.requests.size)
    (hsigned : w.store.Signed → v.store.Signed) : Still w v :=
  ⟨⟨[], .single h, by simp⟩, hsize, hsigned⟩

/-- A definition that leaves the services alone. -/
theorem define {w : World σ} {store : Store} (h : w.store.Move store)
    (hsame : store.services = w.store.services) : Still w { w with store } :=
  .of_move (.define h) rfl fun hw => hw.of_services hsame

theorem service (w : World σ) (name : String) (parent : Option ScopeId) :
    Still w { w with store := (w.store.newService name parent).1 } :=
  .of_move (.define (.service name parent)) rfl fun hw => hw.newService name parent

theorem schedule {w v : World σ} {delay : Time} {kind : EventKind} {work : Callback σ}
    {event : EventId} (h : w.schedule delay kind work = .ok (v, event))
    (hprivate : work.isPrivate = true) : Still w v := by
  have hexpire : ∀ id deadline, work ≠ .expire id deadline := by
    rintro id deadline rfl
    cases hprivate
  refine ⟨⟨_, .single (.schedule h hexpire), by simp [plan, Deed.isStill, hprivate]⟩, ?_, ?_⟩
  · rcases schedule_eq_ok h with ⟨agenda, _, rfl, -⟩
    rfl
  · rcases schedule_eq_ok h with ⟨agenda, _, rfl, -⟩
    exact id

theorem suspend (w : World σ) (delay : Time) (kind : EventKind) {work : Callback σ}
    (hprivate : work.isPrivate = true) : Still w (w.suspend delay kind work).1 := by
  unfold World.suspend
  split
  · rename_i v event hs
    exact schedule hs hprivate
  · exact refl w

/-- Nothing is handed over. -/
theorem hands {w v : World σ} (h : Still w v) : Hands w [] v := by
  rcases h.deeds with ⟨deeds, hpath, hstill⟩
  refine ⟨⟨deeds, hpath, fun d hd => Deed.isQuiet_of_isStill (hstill d hd), .none ?_⟩, by simp,
    List.Pairwise.nil, h.signed⟩
  intro clock delay e hmem request target hwork
  have hprivate := hstill _ hmem
  simp only [Deed.isStill, hwork] at hprivate
  cases hprivate

end Still

/-- Some calls one after another, with nothing about requests before, between and after them. -/
inductive Course : World σ → List (Call σ) → World σ → Prop where
  | still {w v : World σ} : Still w v → Course w [] v
  | call {w v : World σ} {c : Call σ} {rest : List (Call σ)} :
      Still w c.world → Course c.perform.1 rest v → Course w (c :: rest) v

namespace Course

theorem refl (w : World σ) : Course w [] w := .still (.refl w)

theorem single (c : Call σ) : Course c.world [c] c.perform.1 := .call (.refl _) (.refl _)

theorem before {w v u : World σ} {calls : List (Call σ)} (h : Still w v) (k : Course v calls u) :
    Course w calls u := by
  cases k with
  | still hs => exact .still (h.trans hs)
  | call hs hrest => exact .call (h.trans hs) hrest

theorem trans {w v u : World σ} {calls more : List (Call σ)} (h : Course w calls v)
    (k : Course v more u) : Course w (calls ++ more) u := by
  induction h with
  | still hs => exact before hs k
  | call hs _ ih => exact .call hs (ih k)

theorem after {w v u : World σ} {calls : List (Call σ)} (h : Course w calls v) (k : Still v u) :
    Course w calls u := by
  have hcourse := h.trans (.still k)
  rw [List.append_nil] at hcourse
  exact hcourse

/-- Any of the calls cuts a course in two. -/
theorem cut {w v : World σ} {before after : List (Call σ)} {c : Call σ}
    (h : Course w (before ++ c :: after) v) :
    Course w before c.world ∧ Course c.perform.1 after v := by
  induction before generalizing w with
  | nil =>
    cases h with
    | call hs hrest => exact ⟨.still hs, hrest⟩
  | cons first rest ih =>
    cases h with
    | call hs hrest =>
      rcases ih hrest with ⟨hbefore, hafter⟩
      exact ⟨.call hs hbefore, hafter⟩

end Course

/-! ## The requests of the calls -/

/-- Handing over a request that has been made. -/
theorem send_sends {w : World σ} {id : RequestId} {r : Request} (target : Target)
    (hr : w.request? id = some r) :
    ∃ deeds, Path w deeds (w.send id target).1 ∧ (∀ d ∈ deeds, d.isQuiet = true) ∧
      Sends deeds (w.sending? id target).toList := by
  let entered := w.record (.issued w.now id r.caller (w.store.targetName target) r.operation)
  have hannounce : Path w [.issued w.now id r.caller (w.store.targetName target) r.operation]
      entered := .single (.announce id r.caller _ r.operation)
  rcases send_eq hr (Prod.mk.eta (p := w.send id target)).symm with
    ⟨cause, herror, hv⟩ | ⟨_, event, hs⟩
  · -- The transit time is no delay, and nothing is scheduled.
    have hnone : w.sending? id target = none := by
      unfold sending?
      split
      · rename_i hcheck
        rcases send_of_checkDelay w id hcheck with ⟨v, hok⟩
        rw [hok] at herror
        cases herror
      · rfl
    rw [hv, hnone]
    exact ⟨_, hannounce, by simp [Deed.isQuiet], .none (by simp)⟩
  · rcases schedule_eq_ok hs with ⟨agenda, hagenda, _, _⟩
    have hcheck := (Agenda.schedule_eq_ok hagenda).1
    have hsome : w.sending? id target =
        some ⟨id, target, w.now, 0.0 + w.store.transit target⟩ := by
      unfold sending?
      rw [hcheck]
    rw [hsome]
    refine ⟨_, hannounce.move (.schedule hs (by simp)), ?_, rfl, ?_⟩
    · simp [plan, Deed.isQuiet, Callback.fromHost]
    · intro clock delay e request other hmem _
      simp only [plan, List.mem_append, List.mem_singleton, reduceCtorEq, false_or] at hmem
      cases hmem
      rfl

theorem sending?_request {w : World σ} {id : RequestId} {target : Target} {s : Sending}
    (h : w.sending? id target = some s) :
    s = ⟨id, target, w.now, 0.0 + w.store.transit target⟩ := by
  unfold sending? at h
  split at h
  · exact (Option.some.inj h).symm
  · cases h

/-- The next number is given to a request, which is handed over. -/
theorem Hands.of_sends {w v : World σ} {target : Target} {deeds : List (Deed σ)}
    (hpath : Path w deeds v) (hquiet : ∀ d ∈ deeds, d.isQuiet = true)
    (hsends : Sends deeds (w.sending? ⟨w.requests.size⟩ target).toList)
    (hsize : w.requests.size < v.requests.size) (hstore : v.store = w.store) :
    Hands w (w.sending? ⟨w.requests.size⟩ target).toList v where
  deeds := ⟨deeds, hpath, hquiet, hsends⟩
  fresh := by
    intro s hs
    rw [Option.mem_toList] at hs
    rw [sending?_request hs]
    exact ⟨le_rfl, hsize⟩
  ordered := by
    cases w.sending? ⟨w.requests.size⟩ target with
    | none => exact List.Pairwise.nil
    | some s => exact List.pairwise_singleton _ _
  signed := by
    rw [hstore]
    exact id

theorem send_requests (w : World σ) (id : RequestId) (target : Target) :
    (w.send id target).1.requests = w.requests ∧ (w.send id target).1.waiters = w.waiters := by
  rcases w.send_eq_with id target with ⟨agenda, journal, -, hsent⟩
  rw [hsent]
  exact ⟨rfl, rfl⟩

theorem send_store (w : World σ) (id : RequestId) (target : Target) :
    (w.send id target).1.store = w.store := by
  rcases w.send_eq_with id target with ⟨agenda, journal, -, hsent⟩
  rw [hsent]

/-- A new request that is handed over. -/
theorem issue_hands (w : World σ) (caller : Caller) (operation : String) (waiter : Waiter σ)
    (target : Target) :
    Hands w (w.sending? ⟨w.requests.size⟩ target).toList
      ((w.issue caller operation none waiter).1.send ⟨w.requests.size⟩ target).1 := by
  rcases send_sends target (request?_issue w caller operation none waiter) with
    ⟨deeds, hpath, hquiet, hsends⟩
  have hissue := Path.single (Move.issue (w := w) caller operation none waiter (by simp))
  refine .of_sends (hissue.trans hpath) hquiet hsends (lt_of_lt_of_le ?_ hpath.size_le)
    (send_store ..)
  simp [issue]

theorem trigger_world {w : World σ} {inUse : List Ref} {name operation : String} {frame : Frame}
    {next : Continuation σ} {target : Target} (h : w.resolve inUse frame next name = .ok target) :
    (w.trigger inUse name operation frame next).1 =
      ((w.issue frame.caller operation none .nobody).1.send ⟨w.requests.size⟩ target).1 := by
  have hid : (w.issue frame.caller operation none .nobody).2 = ⟨w.requests.size⟩ := rfl
  unfold trigger
  simp only [h, hid]
  split <;> simp_all

/-- Handing over a request that a timeout watches. -/
theorem watch_hands {w v u : World σ} {caller : Caller} {operation : String} {timeout : Time}
    {next : Continuation σ} {target : Target} {event : EventId}
    (hsend : (w.issue caller operation (some (w.now + timeout)) (.continuation next)).1.send
      ⟨w.requests.size⟩ target = (v, .ok ()))
    (hwatch : v.schedule timeout .timeout (.expire ⟨w.requests.size⟩ (w.now + timeout)) =
      .ok (u, event)) :
    Hands w (w.sending? ⟨w.requests.size⟩ target).toList u := by
  have hsame : w.requests.size < u.requests.size ∧ u.store = w.store := by
    rcases watch_eq hsend hwatch with ⟨agenda, _, _, rfl⟩
    exact ⟨by simp, rfl⟩
  rcases watch_eq hsend hwatch with ⟨agenda, hdeliver, -, -⟩
  have hcheck := (Agenda.schedule_eq_ok hdeliver).1
  have hsome : w.sending? ⟨w.requests.size⟩ target =
      some ⟨⟨w.requests.size⟩, target, w.now, 0.0 + w.store.transit target⟩ := by
    unfold sending?
    rw [hcheck]
  refine .of_sends (.single (.watch hsend hwatch)) ?_ ⟨?_, ?_⟩ hsame.1 hsame.2
  · simp [plan, Deed.isQuiet, Callback.fromHost]
  · rw [hsome]
    rfl
  · intro clock delay e request other hmem hwork
    simp only [plan, List.mem_cons, List.not_mem_nil, or_false, reduceCtorEq, false_or] at hmem
    rcases hmem with hmem | hmem
    · cases hmem
      rfl
    · cases hmem
      cases hwork

end World

/-- A call that is not accepted does nothing. An accepted one makes a request under the next number
and hands it over to its target, and a query with a timeout has it watched. -/
theorem Call.perform_cases (c : Call σ) :
    (c.target? = none ∧ c.perform.1 = c.world) ∨
    (∃ target waiter, c.target? = some target ∧
      c.perform.1 =
        ((c.world.issue c.frame.caller c.operation none waiter).1.send c.request target).1) ∨
    ∃ target timeout v event, c.target? = some target ∧
      (c.world.issue c.frame.caller c.operation (some (c.world.now + timeout))
        (.continuation c.next)).1.send c.request target = (v, .ok ()) ∧
      v.schedule timeout .timeout (.expire c.request (c.world.now + timeout)) =
        .ok (c.perform.1, event) := by
  rcases c with ⟨w, inUse, frame, next, symbol, operation, manner⟩
  cases hresolve : w.resolve inUse frame next symbol with
  | error e =>
    left
    refine ⟨by simp [target?, hresolve], ?_⟩
    cases manner with
    | trigger =>
      simp only [perform, World.trigger, hresolve]
      rfl
    | query timeout =>
      simp only [perform, World.query, hresolve]
      rfl
  | ok target =>
    cases manner with
    | trigger =>
      exact Or.inr (Or.inl ⟨target, .nobody, by simp [target?, hresolve],
        World.trigger_world hresolve⟩)
    | query timeout =>
      have htarget (hvalid : ∀ delay, timeout = some delay → Time.checkDelay delay = .ok ()) :
          (Call.mk w inUse frame next symbol operation (.query timeout)).target? =
            some target := by
        cases timeout with
        | none => simp [target?, hresolve]
        | some delay => simp [target?, hresolve, hvalid delay rfl]
      simp only [perform]
      generalize hquery : w.query inUse symbol operation timeout frame next = result
      rcases result with ⟨u, result⟩
      rcases World.query_cases hquery with
        ⟨_, _, hu, hinvalid⟩ | ⟨other, _, _, hother, hvalid, hsend⟩ |
        ⟨other, htimeout, _, hother, hsend⟩ |
        ⟨other, delay, v, event, htimeout, _, hother, hcheck, hsend, hwatch⟩
      · -- Only the timeout can be wrong.
        left
        rcases hinvalid target hresolve with ⟨delay, rfl, hcheck⟩
        refine ⟨?_, hu⟩
        cases hc : Time.checkDelay delay with
        | ok _ => exact absurd hc hcheck
        | error e => simp [target?, hresolve, hc]
      · cases hresolve.symm.trans hother
        exact Or.inr (Or.inl ⟨target, _, htarget hvalid, (congrArg Prod.fst hsend).symm⟩)
      · cases hresolve.symm.trans hother
        exact Or.inr (Or.inl ⟨target, _, htarget (by simp [htimeout]),
          (congrArg Prod.fst hsend).symm⟩)
      · cases hresolve.symm.trans hother
        cases htimeout
        exact Or.inr (Or.inr ⟨target, delay, v, event, htarget (by rintro _ ⟨⟩; exact hcheck),
          hsend, hwatch⟩)

/-- A call makes one request, under the next number, and hands it over to the target that the symbol
stands for; a call that is not accepted does nothing. -/
theorem Call.hands (c : Call σ) : World.Hands c.world c.sending?.toList c.perform.1 := by
  rcases c.perform_cases with
    ⟨hnone, hworld⟩ | ⟨target, waiter, htarget, hworld⟩ |
    ⟨target, timeout, v, event, htarget, hsend, hwatch⟩
  · rw [hworld, sending?, hnone]
    exact (World.Still.refl c.world).hands
  · rw [hworld, sending?, htarget]
    exact World.issue_hands ..
  · rw [sending?, htarget]
    exact World.watch_hands hsend hwatch

namespace World

/-- The requests that are handed over in a course are those of its calls. -/
theorem Course.hands {w v : World σ} {calls : List (Call σ)} (h : Course w calls v) :
    Hands w (calls.filterMap Call.sending?) v := by
  induction h with
  | still hs => exact hs.hands
  | @call w v c rest hs _ ih =>
    have hall := hs.hands.trans (c.hands.trans ih)
    have hcons : c.sending?.toList ++ rest.filterMap Call.sending? =
        (c :: rest).filterMap Call.sending? := by
      cases hc : c.sending? <;> simp [hc]
    rw [List.nil_append, hcons] at hall
    exact hall

/-- Where no target needs time to be reached, every request arrives at once. -/
theorem Course.transit {w v : World σ} {calls : List (Call σ)} (h : Course w calls v)
    (hdirect : v.store.Direct) : ∀ s ∈ calls.filterMap Call.sending?, s.transit = 0.0 := by
  induction h with
  | still _ => simp
  | @call w v c rest hs hrest ih =>
    intro s hs
    rcases List.mem_filterMap.1 hs with ⟨other, hmem, hsending⟩
    rcases List.mem_cons.1 hmem with hfirst | hmem
    · rw [hfirst] at hsending
      rcases Option.bind_eq_some_iff.1 hsending with ⟨target, _, htarget⟩
      rcases c.hands.deeds with ⟨_, hpath, -, -⟩
      rcases hrest.hands.deeds with ⟨_, hlater, -, -⟩
      have hstart := (hpath.trans hlater).grows.direct hdirect
      rw [sending?_request htarget]
      show 0.0 + c.world.store.transit target = 0.0
      rw [hstart.transit]
      rfl
    · exact ih hdirect s (List.mem_filterMap.2 ⟨other, hmem, hsending⟩)

/-! ## Evaluations -/

theorem defineOperation_still (w : World σ) (name : String) (body : Activity) (frame : Frame) :
    Still w (w.defineOperation name body frame).1 := by
  unfold defineOperation
  split
  · exact .refl w
  · rename_i id _
    exact .of_move (.define (.register id _)) rfl fun hw => hw.register id rfl

theorem defineClient_still (w : World σ) (name : String) (period : Time) (body : Activity)
    (frame : Frame) : Still w (w.defineClient name period body frame).1 := by
  have hdefined : Still w { w with
      store := ((w.store.newClient name period body).1).bind frame.scope name
        (.client (w.store.newClient name period body).2) } :=
    (Still.define (w := w) (.client name period body) rfl).trans (.define (.bind _ _ _) rfl)
  unfold defineClient
  split
  · exact .refl w
  · dsimp only
    split
    · rename_i v event hs
      exact hdefined.trans (.schedule hs rfl)
    · exact hdefined

theorem afterAttempt_still (w : World σ) (state : RetryState) (body : Activity) (frame : Frame)
    (next : Continuation σ) (held : List Ref) (outcome : Outcome) :
    Still w (w.afterAttempt state body frame next held outcome).1 := by
  cases outcome with
  | success value => exact .refl w
  | failure cause =>
    unfold afterAttempt
    split
    · rename_i heq
      cases heq
    · split
      · exact .refl w
      · exact .suspend w _ _ rfl

/-- One more attempt of a retry makes the calls of its body. -/
theorem course_attempt {w : World σ} {inUse : List Ref} {state : RetryState} {body : Activity}
    {frame : Frame} {next : Continuation σ} {calls : List (Call σ)}
    (h : Course w calls (evaluate inUse body frame (.retry state.begin body frame next) w).1) :
    Course w calls (attempt inUse state body frame next w).1 := by
  unfold attempt
  dsimp only
  split
  · rename_i v outcome held hv
    rw [hv] at h
    exact h.after (afterAttempt_still ..)
  · exact h

-- Both proofs follow the recursion of the evaluation, which the lists of calls share.
mutual

theorem evaluate_course (inUse : List Ref) (activity : Activity) (frame : Frame)
    (next : Continuation σ) (w : World σ) :
    Course w (calls inUse activity frame next w) (evaluate inUse activity frame next w).1 := by
  cases activity with
  | defineService name body =>
    have hdefined : Still w { w with
        store := ((w.store.newService name (some frame.scope)).1).bind frame.scope name
          (.service (w.store.newService name (some frame.scope)).2) } :=
      (Still.service w name (some frame.scope)).trans (.define (.bind _ _ _) rfl)
    have hbody := Course.before hdefined (evaluateSteps_course inUse body
      (frame.inside (w.store.newService name (some frame.scope)).2 ⟨w.store.scopes.size⟩) .unit
      (.service (w.store.newService name (some frame.scope)).2 next) _)
    rw [evaluate, calls]
    dsimp only
    split
    · rename_i v value held hv
      rw [hv] at hbody
      exact hbody
    · rename_i v cause held hv
      rw [hv] at hbody
      exact hbody
    · exact hbody
  | defineOperation name body => exact .still (defineOperation_still w name body frame)
  | defineClient name period body => exact .still (defineClient_still w name period body frame)
  | trigger symbol operation =>
    exact .single ⟨w, inUse, frame, next, symbol, operation, .trigger⟩
  | query symbol operation timeout =>
    exact .single ⟨w, inUse, frame, next, symbol, operation, .query timeout⟩
  | sequence steps => exact evaluateSteps_course inUse steps frame .unit next w
  | think duration => exact .still (.suspend w _ _ rfl)
  | retry body limit delay =>
    rw [evaluate, calls]
    cases Time.checkDelay delay.base with
    | error e => exact .refl w
    | ok _ =>
      cases RetryState.start limit delay with
      | error e => exact .refl w
      | ok state =>
        -- The first attempt is made as every other one.
        exact course_attempt
          (evaluate_course inUse body frame (.retry state.begin body frame next) w)
  | ignoreError body =>
    have hbody := evaluate_course inUse body frame (.ignore next) w
    rw [evaluate, calls]
    split
    · rename_i v cause held hv
      rw [hv] at hbody
      exact hbody
    · exact hbody
  | fail => exact .refl w

theorem evaluateSteps_course (inUse : List Ref) (steps : List Activity) (frame : Frame)
    (last : Value) (next : Continuation σ) (w : World σ) :
    Course w (calls.ofSteps inUse steps frame last next w)
      (evaluate.evaluateSteps inUse steps frame last next w).1 := by
  cases steps with
  | nil => exact .refl w
  | cons step rest =>
    have hstep := evaluate_course inUse step frame (.steps rest frame next) w
    rw [evaluate.evaluateSteps, calls.ofSteps]
    -- Only a step that resolves to a value is followed by another one.
    split
    · rename_i v value held hv
      rw [hv] at hstep
      rw [hv]
      exact hstep.trans (evaluateSteps_course inUse rest frame value next v)
    · rename_i hother
      rw [List.append_nil]
      split
      · rename_i v value held hv
        exact absurd hv (hother v value held)
      · rename_i v cause held hv
        rw [hv] at hstep
        exact hstep
      · exact hstep

end

/-- An evaluation takes no event, replies to no request, and does nothing in the name of the host. -/
theorem evaluate_quiet (inUse : List Ref) (activity : Activity) (frame : Frame)
    (next : Continuation σ) (w : World σ) : Quiet w (evaluate inUse activity frame next w).1 := by
  rcases (evaluate_course inUse activity frame next w).hands.deeds with ⟨deeds, hpath, hquiet, -⟩
  exact ⟨deeds, hpath, hquiet⟩

end World
end Callflow
