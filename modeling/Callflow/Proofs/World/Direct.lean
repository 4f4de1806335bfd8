import Callflow.Proofs.World.Pieces
import Callflow.Proofs.World.Setup

/-!
# Host code that calls no other host code

Host code can call host code that it is not made of: by a run, which takes any events, and by having
an endpoint process a request right away. A piece of work is direct if nothing that it comes down to
does so (`Piece.Direct`). It is outer if it may do so by itself, but hands over only what is direct
to be called later (`Piece.Outer`): so does host code that drives a simulation. A world is direct if
all host code that waits there is. A program that has no host code of its own leaves a world direct:
evaluations and replies do (`Course.direct`, `World.Direct.settle`), as they have nothing called
that has not been waiting before.
-/

namespace Callflow

variable {σ : Type}

namespace Piece

/-- A piece that never comes down to host code that calls other host code. -/
def Direct (x : Piece σ) : Prop :=
  ∀ script : Script σ, Relation.ReflTransGen Below (.code script) x → script.reenters = false

theorem Direct.below {x y : Piece σ} (h : x.Direct) (hy : y.Below x) : y.Direct :=
  fun script hscript => h script (hscript.tail hy)

/-- A piece is direct if it does not call other host code by itself and falls into direct ones. -/
theorem Direct.of_below {x : Piece σ} (hself : ∀ script, x = .code script → script.reenters = false)
    (h : ∀ y : Piece σ, y.Below x → y.Direct) : x.Direct := by
  intro script hscript
  rcases hscript.cases_tail with hsame | ⟨y, hreach, hy⟩
  · exact hself script hsame
  · exact h y hy script hreach

theorem Direct.code {script : Script σ} (hself : script.reenters = false)
    (h : ∀ x ∈ script.pieces, x.Direct) : Direct (.code script) := by
  refine .of_below ?_ ?_
  · rintro _ ⟨⟩
    exact hself
  · rintro x ⟨hx⟩
    exact h x hx

theorem Direct.branch {α : Type} {next : α → Script σ}
    (h : ∀ answer, Direct (.code (next answer))) : Direct (.branch next) := by
  refine .of_below (by simp) ?_
  rintro _ ⟨⟩
  exact h _

theorem Direct.done : Direct (.code (.done : Script σ)) :=
  .code rfl (by simp [Script.pieces, Script.starts, Script.rest, Script.leaves, Script.onward])

theorem Direct.first {script : Script σ} (h : Direct (.code script)) : script.reenters = false :=
  h script .refl

theorem Direct.answer {α : Type} {next : α → Script σ} (h : Direct (.branch next)) (answer : α) :
    Direct (.code (next answer)) :=
  h.below (.branch next answer)

theorem Direct.leaves {script : Script σ} (h : Direct (.code script)) :
    ∀ x ∈ script.leaves, x.Direct :=
  fun _ hx => h.below (.code (List.mem_append_right _ (List.mem_append_left _ hx)))

theorem Direct.onward {script : Script σ} (h : Direct (.code script)) :
    ∀ x ∈ script.onward, x.Direct :=
  fun _ hx => h.below (.code (List.mem_append_right _ (List.mem_append_right _ hx)))

theorem Direct.starts {script : Script σ} (h : Direct (.code script)) :
    ∀ c ∈ script.starts, c.piece.Direct :=
  fun _ hc => h.below (.code (List.mem_append_left _ (List.mem_map_of_mem hc)))

/-! ## Host code that drives a simulation -/

/-- What a piece goes on with by itself. -/
inductive Onward : Piece σ → Piece σ → Prop where
  | code {script : Script σ} {x : Piece σ} : x ∈ script.onward → Onward x (.code script)
  | branch {α : Type} (next : α → Script σ) (answer : α) :
      Onward (.code (next answer)) (.branch next)

/-- A piece that may call other host code, but hands over only direct pieces, to be called later. -/
def Outer (x : Piece σ) : Prop :=
  ∀ script : Script σ, Relation.ReflTransGen Onward (.code script) x →
    (∀ c ∈ script.starts, c.piece.Direct) ∧ ∀ y ∈ script.leaves, y.Direct

theorem Outer.goes {x y : Piece σ} (h : x.Outer) (hy : y.Onward x) : y.Outer :=
  fun script hscript => h script (hscript.tail hy)

theorem Outer.onward {script : Script σ} (h : Outer (.code script)) :
    ∀ x ∈ script.onward, x.Outer :=
  fun _ hx => h.goes (.code hx)

theorem Outer.answer {α : Type} {next : α → Script σ} (h : Outer (.branch next)) (answer : α) :
    Outer (.code (next answer)) :=
  h.goes (.branch next answer)

theorem Outer.code {script : Script σ} (hstarts : ∀ c ∈ script.starts, c.piece.Direct)
    (hleaves : ∀ x ∈ script.leaves, x.Direct) (h : ∀ x ∈ script.onward, x.Outer) :
    Outer (.code script) := by
  intro other hother
  rcases hother.cases_tail with hsame | ⟨y, hreach, ⟨hy⟩⟩
  · cases hsame
    exact ⟨hstarts, hleaves⟩
  · exact h y hy other hreach

theorem Outer.branch {α : Type} {next : α → Script σ}
    (h : ∀ answer, Outer (.code (next answer))) : Outer (.branch next) := by
  intro script hscript
  rcases hscript.cases_tail with hsame | ⟨y, hreach, ⟨hy⟩⟩
  · cases hsame
  · exact h _ script hreach

theorem below_of_onward {x y : Piece σ} (h : y.Onward x) : y.Below x := by
  cases h with
  | code hy => exact .code (List.mem_append_right _ (List.mem_append_right _ hy))
  | branch next answer => exact .branch next answer

/-- Direct pieces call no other host code at all. -/
theorem Direct.outer {x : Piece σ} (h : x.Direct) : x.Outer := by
  intro script hscript
  have hbelow : Relation.ReflTransGen Below (.code script) x :=
    Relation.ReflTransGen.mono (fun _ _ => below_of_onward) _ _ hscript
  have hdirect : Direct (.code script) := fun other hother => h other (hother.trans hbelow)
  exact ⟨hdirect.starts, hdirect.leaves⟩

end Piece

/-- A continuation that does not end in host code that calls other host code. -/
def Continuation.Direct (next : Continuation σ) : Prop :=
  ∀ resume, next.bottom = .host resume → (Piece.branch resume).Direct

/-- The hooks of a client are direct. -/
structure Observers.Direct (o : Observers σ) : Prop where
  success : ∀ hook, o.onSuccess = some hook → (Piece.code hook).Direct
  failure : ∀ hook, o.onFailure = some hook → (Piece.branch hook).Direct

/-- All host code that waits in a world, or is set up there, is direct. -/
structure World.Direct (w : World σ) : Prop where
  events : ∀ e ∈ w.agenda.pending, ∀ code, e.work = .host code → (Piece.code code).Direct
  ends : ∀ resume, .host resume ∈ w.ends → (Piece.branch resume).Direct
  hooks : ∀ x ∈ w.hooks, x.Direct
  observers : ∀ id, (w.observersOf id).Direct
  handlers : ∀ id, (Piece.branch (w.handle id)).Direct

namespace World

theorem direct_start (config : SimulationConfig) (memory : σ) : (start config memory).Direct where
  events := by simp [start, Agenda.empty]
  ends := by simp [start, ends, Agenda.empty]
  hooks := by simp [start, hooks]
  observers := fun _ => ⟨by simp [start, observersOf], by simp [start, observersOf]⟩
  handlers := fun _ => .branch fun _ => .done

/-- What is new is direct. -/
theorem Direct.of_new {w v : World σ} (hw : w.Direct)
    (hevents : ∀ e ∈ v.agenda.pending, e ∈ w.agenda.pending ∨
      ∀ code, e.work = .host code → (Piece.code code).Direct)
    (hends : ∀ resume, .host resume ∈ v.ends → .host resume ∈ w.ends ∨ (Piece.branch resume).Direct)
    (hhooks : ∀ x ∈ v.hooks, x ∈ w.hooks ∨ x.Direct) (hsetup : v.setup = w.setup) : v.Direct where
  events := by
    intro e he code hcode
    rcases hevents e he with hold | hnew
    · exact hw.events e hold code hcode
    · exact hnew code hcode
  ends := fun resume hresume => (hends resume hresume).elim (hw.ends resume) id
  hooks := fun x hx => (hhooks x hx).elim (hw.hooks x) id
  observers := by
    intro id
    have hsame : v.observersOf id = w.observersOf id := by
      rw [observersOf, observersOf, observers_eq hsetup]
    rw [hsame]
    exact hw.observers id
  handlers := by
    intro id
    have hsame : v.handle id = w.handle id := by
      funext request
      rw [handle, handle, handlers_eq hsetup]
    rw [hsame]
    exact hw.handlers id

/-! ## Evaluations -/

/-- Through the calls of an evaluation, only the continuation begins to wait that it was given. -/
theorem Course.direct {w v : World σ} {calls : List (Call σ)} {next : Continuation σ}
    (h : Course w calls v) (hw : w.Direct) (hnext : next.Direct)
    (hends : v.ends ≤ {next.bottom} + w.ends) (hsetup : v.setup = w.setup) : v.Direct := by
  refine hw.of_new ?_ ?_ ?_ hsetup
  · rcases h.hands.deeds with ⟨deeds, hpath, hquiet, -⟩
    intro e he
    rcases hpath.agenda.planned.2 e he with hold | ⟨clock, delay, hmem, -⟩
    · exact Or.inl hold
    · right
      intro code hcode
      rcases List.mem_filterMap.1 hmem with ⟨d, hd, hdeed⟩
      have hown := hquiet d hd
      cases d with
      | agenda deed =>
        cases hdeed
        simp [Deed.isQuiet, hcode, Callback.fromHost] at hown
      | _ => cases hdeed
  · intro resume hresume
    rcases Multiset.mem_add.1 (Multiset.mem_of_le hends hresume) with hnew | hold
    · exact Or.inr (hnext resume (Multiset.mem_singleton.1 hnew).symm)
    · exact Or.inl hold
  · intro x hx
    rw [h.hooks] at hx
    exact Or.inl hx

section

variable {w : World σ} {next : Continuation σ}

theorem countP_singleton (p : Continuation σ → Bool) (next : Continuation σ) :
    ({next.bottom} : Multiset (Continuation σ)).countP (p ·) = next.stock p := by
  rw [← Multiset.coe_singleton, Multiset.coe_countP]
  simp [Continuation.stock, List.countP_cons, Bool.toNat, Bool.cond_eq_ite]

theorem Left.ends_le {e : Evaluation σ} (h : ∀ p, Left p next w e) :
    e.1.ends ≤ {next.bottom} + w.ends := by
  refine World.ends_le fun p => ?_
  rw [countP_singleton]
  cases h p with
  | suspended hv => exact (hv.trans (Nat.add_comm _ _)).le
  | resolved hv => exact hv.le.trans (Nat.le_add_left _ _)
  | failed hv => exact hv.le.trans (Nat.le_add_left _ _)
  | crashed hv =>
    rcases hv with hv | hv
    · exact hv.le.trans (Nat.le_add_left _ _)
    · exact (hv.trans (Nat.add_comm _ _)).le

theorem Direct.evaluate (hw : w.Direct) (hnext : next.Direct) (inUse : List Ref)
    (activity : Activity) (frame : Frame) : (World.evaluate inUse activity frame next w).1.Direct :=
  (evaluate_course ..).direct hw hnext (Left.ends_le fun _ => evaluate_left ..) (setup_evaluate ..)

theorem Direct.evaluateSteps (hw : w.Direct) (hnext : next.Direct) (inUse : List Ref)
    (steps : List Activity) (frame : Frame) (last : Value) :
    (World.evaluate.evaluateSteps inUse steps frame last next w).1.Direct :=
  (evaluateSteps_course ..).direct hw hnext (Left.ends_le fun _ => evaluateSteps_left ..)
    (setup_evaluateSteps ..)

theorem Direct.afterAttempt (hw : w.Direct) (hnext : next.Direct) (state : RetryState)
    (body : Activity) (frame : Frame) (held : List Ref) (outcome : Outcome) :
    (w.afterAttempt state body frame next held outcome).1.Direct :=
  (Course.still (afterAttempt_still ..)).direct hw hnext
    (Left.ends_le fun _ => afterAttempt_left ..) (setup_afterAttempt ..)

theorem Direct.attempt (hw : w.Direct) (hnext : next.Direct) (inUse : List Ref)
    (state : RetryState) (body : Activity) (frame : Frame) :
    (World.attempt inUse state body frame next w).1.Direct :=
  (course_attempt (evaluate_course ..)).direct hw hnext
    (Left.ends_le fun _ => attempt_left (evaluate_left ..)) (setup_attempt (setup_evaluate ..))

end

/-! ## Events and requests -/

section

variable {w v : World σ}

theorem ends_of_stock (h : ∀ p, v.stock p ≤ w.stock p) : v.ends ≤ w.ends := by
  have hends := ends_le (s := 0) fun p => (h p).trans (Nat.le_add_left _ _)
  rwa [zero_add] at hends

/-- Nothing begins to wait where no more continuations, hooks and host code wait than before. -/
theorem Direct.of_le (hw : w.Direct)
    (hevents : ∀ e ∈ v.agenda.pending, e ∈ w.agenda.pending ∨
      ∀ code, e.work = .host code → (Piece.code code).Direct)
    (hends : ∀ p, v.stock p ≤ w.stock p) (hhooks : ∀ x ∈ v.hooks, x ∈ w.hooks ∨ x.Direct)
    (hsetup : v.setup = w.setup) : v.Direct :=
  hw.of_new hevents (fun _ h => Or.inl (Multiset.mem_of_le (ends_of_stock hends) h)) hhooks hsetup

/-- Nothing about events, requests, hooks and handlers changes. -/
theorem Direct.of_same (hw : w.Direct) (hagenda : v.agenda.pending = w.agenda.pending)
    (hwaiters : v.waiters = w.waiters) (hsetup : v.setup = w.setup) : v.Direct := by
  refine hw.of_le ?_ (fun p => ?_) ?_ hsetup
  · rw [hagenda]
    exact fun _ he => Or.inl he
  · rw [stock, stock, Agenda.stock, hagenda, hwaiters]
    rfl
  · rw [hooks_of_waiters hwaiters]
    exact fun _ hx => Or.inl hx

theorem Direct.schedule (hw : w.Direct) {delay : Time} {kind : EventKind} {work : Callback σ}
    {event : EventId} (h : w.schedule delay kind work = .ok (v, event))
    (hcode : ∀ code, work = .host code → (Piece.code code).Direct)
    (hnone : ∀ p, work.stock p = 0) : v.Direct := by
  refine hw.of_le ?_ (fun p => ?_) ?_ (setup_schedule h)
  · rcases schedule_eq_ok h with ⟨agenda, hagenda, rfl, -⟩
    rcases Agenda.schedule_eq_ok hagenda with ⟨-, rfl⟩
    intro e he
    rcases Agenda.mem_insert.1 he with rfl | he
    · exact Or.inr hcode
    · exact Or.inl he
  · rw [stock_schedule p h, hnone]
    exact le_rfl
  · rw [hooks_schedule h]
    exact fun _ hx => Or.inl hx

theorem Direct.issue (hw : w.Direct) (caller : Caller) (operation : String)
    (deadline : Option Time) {waiter : Waiter σ} (hhooks : ∀ x ∈ waiter.hooks, x.Direct)
    (hnone : ∀ p, waiter.stock p = 0) : (w.issue caller operation deadline waiter).1.Direct := by
  refine hw.of_le (fun _ he => Or.inl he) (fun p => ?_) ?_ rfl
  · rw [stock_issue, hnone]
    exact le_rfl
  · intro x hx
    rw [hooks_issue] at hx
    exact (Multiset.mem_add.1 hx).symm.imp_right fun hnew => hhooks x (Multiset.mem_coe.1 hnew)

theorem Direct.allocate (hw : w.Direct) : w.allocate.1.Direct := by
  refine hw.of_le (fun _ he => Or.inl he) (fun p => le_of_eq ?_) (fun x hx => Or.inl ?_) rfl
  · simp [World.stock, World.allocate, Waiter.stock]
  · simpa [World.hooks, World.allocate, Waiter.hooks] using hx

theorem Direct.send (hw : w.Direct) (id : RequestId) (target : Target) :
    (w.send id target).1.Direct := by
  refine hw.of_le ?_ (fun p => (stock_send p w id target).le) ?_ (setup_send w id target)
  · cases hr : w.request? id with
    | none =>
      rw [send_absent target hr]
      exact fun _ he => Or.inl he
    | some r =>
      rcases send_eq hr (Prod.mk.eta (p := w.send id target)).symm with ⟨_, _, hv⟩ | ⟨_, event, hs⟩
      · rw [hv]
        exact fun _ he => Or.inl he
      · rcases schedule_eq_ok hs with ⟨agenda, hagenda, hv, -⟩
        rcases Agenda.schedule_eq_ok hagenda with ⟨-, rfl⟩
        rw [hv]
        intro e he
        rcases Agenda.mem_insert.1 he with rfl | he
        · right
          rintro code ⟨⟩
        · exact Or.inl he
  · rw [hooks_send]
    exact fun _ hx => Or.inl hx

/-- A reply leaves nothing behind but what has waited, and whoever has waited is direct. -/
theorem Direct.settle (hw : w.Direct) (id : RequestId) (failure : Option Failure) :
    (w.settle id failure).1.Direct ∧ (∀ x ∈ (w.settle id failure).2.hooks, x.Direct) ∧
      ∀ next, (w.settle id failure).2 = .continuation next → next.Direct := by
  have hhooks := w.hooks_settle id failure
  refine ⟨hw.of_le ?_ (fun p => ?_) ?_ (setup_settle w id failure), ?_, ?_⟩
  · rw [settle_agenda]
    exact fun _ he => Or.inl he
  · exact (Nat.le_add_right _ _).trans (stock_settle p w id failure).le
  · intro x hx
    refine Or.inl ?_
    rw [← hhooks]
    exact Multiset.mem_add.2 (Or.inr hx)
  · intro x hx
    refine hw.hooks x ?_
    rw [← hhooks]
    exact Multiset.mem_add.2 (Or.inl hx)
  · intro next hnext resume hresume
    refine hw.ends resume (mem_ends fun p hp => ?_)
    rw [← stock_settle p w id failure, hnext, Waiter.stock, Continuation.stock, hresume, hp]
    exact Nat.succ_pos _

/-- An event that is taken is direct. -/
theorem Direct.enter (hw : w.Direct) {horizon : Time} {e : Event (Callback σ)}
    {agenda : Agenda (Callback σ)} (h : w.agenda.take? horizon = some (e, agenda)) :
    (w.enter e agenda).Direct ∧ (∀ code, e.work = .host code → (Piece.code code).Direct) ∧
      ∀ resume, .host resume ∈ e.work.ends → (Piece.branch resume).Direct := by
  have hstock (p : Continuation σ → Bool) :
      (w.enter e agenda).stock p + e.work.stock p = w.stock p := by
    have htaken := Agenda.stock_take? p h
    simp only [World.stock, World.enter, World.record]
    omega
  rcases Agenda.take?_eq_some h with ⟨rest, hpending, -, hagenda⟩
  refine ⟨hw.of_le ?_ (fun p => ?_) (fun _ hx => Or.inl hx) rfl, ?_, ?_⟩
  · intro other hother
    rw [hagenda] at hother
    rw [hpending]
    exact Or.inl (List.mem_cons_of_mem _ hother)
  · exact (Nat.le_add_right _ _).trans (hstock p).le
  · exact hw.events e (by rw [hpending]; exact List.mem_cons_self)
  · intro resume hresume
    refine hw.ends resume (mem_ends fun p hp => ?_)
    have hcounted : 0 < e.work.ends.countP p := List.countP_pos_iff.2 ⟨_, hresume, hp⟩
    rw [countP_work] at hcounted
    rw [← hstock p]
    exact Nat.add_pos_right _ hcounted

end

end World
end Callflow
