import Callflow.Proofs.Machine.Errors
import Callflow.Proofs.World.Rejection

/-!
# A rejected activity leaves no trace

A transition that comes upon an activity that is rejected ends with its error, in the world in which
the activity was to be evaluated; and the world is still the same when the error gets to whoever
waits for a result. So is it when the host schedules something after a delay that is refused. Both
are said of every transition of a life by `Life.rejection_leaves_no_trace`.
-/

namespace Callflow

variable {σ : Type}

namespace Machine

/-- A transition that comes upon a rejected activity ends there, with the error. -/
theorem step_of_rejected {b c : Machine σ} (hs : b.step = some c) {p : Part σ} (hp : p ∈ b.parts)
    {e : SimulationError} (h : p.Rejected e) :
    c.world = p.world ∧ c.focus = .back (.error e) ∧ [p] <:+ b.parts := by
  have hresult := h.result
  have hraises : b.Raises e := .node hp (by rw [hresult])
  have hunresolved : ¬ World.Resolved p.result.2 := by simp [hresult, World.Resolved]
  rcases hraises.part hs hp hunresolved with ⟨hsame, hsuffix⟩
  refine ⟨?_, (hraises.focus hs).2, h.own ▸ hsuffix⟩
  rw [hresult] at hsame
  exact (congrArg Prod.fst hsame).symm

/-- A refused delay schedules nothing: host code goes on with the error. -/
theorem step_of_refused {b : Machine σ} {delay : Time} {cause : SchedulingError}
    (h : delay.Refused cause) {next : Except SchedulingError EventId → Script σ}
    (hfocus : (∃ kind callback, b.focus = .code (.schedule delay kind callback next)) ∨
      ∃ request failure, b.focus = .code (.replyAfter delay request failure next)) :
    b.step = some ⟨b.world, b.stack, .code (next (.error cause))⟩ := by
  rcases b with ⟨w, stack, focus⟩
  rcases hfocus with ⟨kind, callback, rfl⟩ | ⟨request, failure, rfl⟩
  · simp only [step, execScript, World.schedule_of_refused h]
  · simp only [step, execScript, World.schedule_of_refused h]

/-- A rejected activity leaves no trace. If a transition of a life comes upon one, it is the last
activity that is evaluated, and the transition ends with the error in the world in which the
activity was to be evaluated: nothing of the clock, the agenda, the journal, the store or the
requests has changed, and no continuation waits but those that have waited before, less the one in
the event that was taken. The error is then returned to the nearest caller that waits for a result,
in the same world. The reasons are exactly those for which an activity ends with an error by itself.
If the transition is a call that schedules something after a refused delay, host code goes on with
the error in the same world, and gives up if it insists on the delay. -/
theorem Life.rejection_leaves_no_trace {config : SimulationConfig} {memory : σ}
    {past : List (Machine σ)} {b c : Machine σ}
    (h : Life (idle (World.start config memory)) past b) (hs : b.step = some c) :
    (∀ p ∈ b.parts, ∀ e,
      (p.Rejected e ↔ World.own p = [p] ∧ p.result.2 = .error (.error e)) ∧
      (p.Rejected e →
        p.result = (p.world, .error (.error e)) ∧ [p] <:+ b.parts ∧
        c.world = p.world ∧ c.focus = .back (.error e) ∧
        (∀ counted, p.world.stock counted + b.carried counted = b.world.stock counted) ∧
        ∃ holds base handler below, Based c.stack holds base handler below ∧
          run (holds.length + 1) c = ⟨p.world, below, .code (handler e)⟩ ∧
          ∀ x ∈ trail (holds.length + 1) c, x.world = p.world ∧ x.focus = .back (.error e))) ∧
    ∀ delay cause, delay.Refused cause → ∀ next,
      ((∃ kind callback, b.focus = .code (.schedule delay kind callback next)) ∨
        ∃ request failure, b.focus = .code (.replyAfter delay request failure next)) →
      c = ⟨b.world, b.stack, .code (next (.error cause))⟩ ∧
      ∀ goesOn, next = Script.insist goesOn → c.step = some ⟨b.world, b.stack, .crash cause⟩ := by
  constructor
  · intro p hp e
    refine ⟨Part.rejected_iff, fun hrejected => ?_⟩
    have hresult := hrejected.result
    rcases step_of_rejected hs hp hrejected with ⟨hworld, hfocus, hlast⟩
    have hcode : c.focus.isCode = false := by
      rw [hfocus]
      rfl
    have hstock (counted : Continuation σ → Bool) := step_stock_error counted hs hfocus
    rcases (h.poised (poised_idle _)).step hs (works_of_mem_parts hp) hcode with
      ⟨holds, base, handler, below, hbased⟩
    have hmachine : (⟨p.world, c.stack, .back (.error e)⟩ : Machine σ) = c := by
      rw [← hfocus, ← hworld]
    have hreturns := hbased.returns p.world e
    rw [hmachine] at hreturns
    rw [hworld] at hstock
    exact ⟨hresult, hlast, hworld, hfocus, hstock, holds, base, handler, below, hbased, hreturns⟩
  · intro delay cause hrefused next hcall
    have hc := (step_of_refused hrefused hcall).symm.trans hs
    cases hc
    refine ⟨rfl, ?_⟩
    rintro goesOn rfl
    rfl

/-- An activity that sends a query with an invalid timeout, after a while, with constructs around it
that handle failures. -/
def hasty : Activity :=
  .ignoreError
    (.retry (.sequence [.think 1.0, .query "t" "work" (some (-1.0)), .fail]) 3 (.constant 0.5))

/-- Host code that evaluates it, runs the agenda, and then insists on a negative delay. -/
def impatience : Script Unit :=
  .bind "t" "t" 0.0 (fun _ => .done) fun _ =>
    .evaluate hasty .host (fun _ => .done) fun _ => .run 5.0 fun _ =>
      .schedule (-1.0) .external .done (Script.insist fun _ => .done)

/-- The simulation after some transitions. -/
def hurried (fuel : Nat) : Machine Unit :=
  run fuel ⟨World.start ⟨true, none⟩ (), [], .code impatience⟩

theorem refused_of_negative : (-1.0 : Time).Refused (.negativeDelay (-1.0)) :=
  .negative (by decide +kernel) (by decide +kernel)

theorem impatience_leaves_no_trace :
    (∃ p ∈ (hurried 5).parts, p.Rejected (.scheduling (.negativeDelay (-1.0))) ∧
      [p] <:+ (hurried 5).parts ∧ (hurried 6).world = p.world ∧
      (hurried 6).focus = .back (.error (.scheduling (.negativeDelay (-1.0)))) ∧
      (hurried 6).world.requests.size = 0 ∧ (hurried 6).world.agenda.nextSeq = 1) ∧
    (hurried 8).step = some
      ⟨(hurried 7).world, (hurried 7).stack, .crash (.negativeDelay (-1.0))⟩ := by
  have hearly (fuel : Nat) : Life (idle (World.start ⟨true, none⟩ ())) _ (hurried fuel) :=
    (Life.refl.next (.call impatience rfl)).trans (life_run fuel _)
  have hfirst : (hurried 5).step = some (hurried 6) := by with_unfolding_all rfl
  have hsecond : (hurried 7).step = some (hurried 8) := by with_unfolding_all rfl
  have hnodes := ((hearly 5).rejection_leaves_no_trace hfirst).1
  have hcalls := ((hearly 7).rejection_leaves_no_trace hsecond).2
  constructor
  · -- The query is the only activity that the event evaluates.
    let p : Part Unit := ⟨(hurried 5).world, [], .query "t" "work" (some (-1.0)),
      .plain World.root .host, .steps [.fail] (.plain World.root .host) (.retry
        (RetryState.begin ⟨0, 3, .constant 0.5⟩)
        (.sequence [.think 1.0, .query "t" "work" (some (-1.0)), .fail]) (.plain World.root .host)
        (.ignore (.host fun _ => .done)))⟩
    have hp : p ∈ (hurried 5).parts := List.mem_cons_self
    have hrejected : p.Rejected (.scheduling (.negativeDelay (-1.0))) :=
      .timeout rfl (by decide +kernel) refused_of_negative
    rcases (hnodes p hp _).2 hrejected with ⟨-, hlast, hworld, hfocus, -⟩
    exact ⟨p, hp, hrejected, hlast, hworld, hfocus, by with_unfolding_all rfl,
      by with_unfolding_all rfl⟩
  · exact (hcalls _ _ refused_of_negative (Script.insist fun _ => .done)
      (.inl ⟨.external, .done, by with_unfolding_all rfl⟩)).2 _ rfl

end Machine
end Callflow
