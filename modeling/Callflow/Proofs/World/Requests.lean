import Callflow.Proofs.Journal.Story
import Callflow.Proofs.World.Move

/-!
# Requests settle once

A move leaves the requests alone, adds one under the next number, settles one, or replies to one that
is settled already (`Move.effect`). So the first reply to a pending request settles it and takes out
whoever has waited, and all further replies are stale: `Path.answered`.
-/

namespace Callflow
namespace World

variable {σ : Type}

/-! ## What a move does to the requests -/

/-- The effect of some deeds on the requests and on those who wait for them. -/
inductive Effect (w v : World σ) (deeds : List (Deed σ)) : Prop where
  | none : v.requests = w.requests → v.waiters = w.waiters →
      (∀ id, deeds.filter (Deed.answers id) = []) → Effect w v deeds
  | fresh (request : Option Request) (waiter : Waiter σ) :
      v.requests = w.requests.push request → v.waiters = w.waiters.push waiter →
      (∀ r, request = some r → r.isPending = true) → (waiter ≠ .nobody → request.isSome) →
      (∀ id, deeds.filter (Deed.answers id) = []) → Effect w v deeds
  | settled {id : RequestId} {r : Request} (time : Time) (failure : Option Failure) :
      w.request? id = some r → r.isPending = true →
      v.requests = w.requests.setIfInBounds id.number (some (r.settle time failure)) →
      v.waiters = w.waiters.setIfInBounds id.number .nobody →
      (∀ other, deeds.filter (Deed.answers other) =
        if id = other then [.settled time id failure] else []) → Effect w v deeds
  | stale {id : RequestId} {r : Request} (time : Time) (failure : Option Failure) :
      w.request? id = some r → r.isPending = false →
      v.requests = w.requests → v.waiters = w.waiters →
      (∀ other, deeds.filter (Deed.answers other) =
        if id = other then [.stale time id failure] else []) → Effect w v deeds

theorem Move.effect {w v : World σ} {deeds : List (Deed σ)} (h : Move w deeds v) :
    Effect w v deeds := by
  cases h with
  | define _ => exact .none rfl rfl (fun _ => rfl)
  | arrange _ _ _ _ => exact .none rfl rfl (fun _ => rfl)
  | record _ => exact .none rfl rfl (fun _ => rfl)
  | allocate => exact .fresh none .nobody rfl rfl (by simp) (by simp) (fun _ => rfl)
  | issue caller operation deadline waiter _ =>
    refine .fresh _ waiter rfl rfl ?_ (fun _ => rfl) (fun _ => rfl)
    intro r hr
    cases hr
    rfl
  | watch hsend hwatch =>
    rcases watch_eq hsend hwatch with ⟨agenda, _, _, rfl⟩
    refine .fresh _ _ rfl rfl ?_ (fun _ => rfl) (fun _ => rfl)
    intro r hr
    cases hr
    rfl
  | announce _ _ _ _ => exact .none rfl rfl (fun _ => rfl)
  | schedule hs _ =>
    rcases schedule_eq_ok hs with ⟨agenda, _, rfl, -⟩
    exact .none rfl rfl (fun _ => rfl)
  | @settle id r failure hr hp =>
    rw [settle_pending failure hr hp]
    refine .settled w.now failure hr hp rfl rfl ?_
    intro other
    by_cases h : id = other <;> simp [Deed.answers, h]
  | @stale id r failure hr hp =>
    rw [settle_stale failure hr hp]
    refine .stale w.now failure hr hp rfl rfl ?_
    intro other
    by_cases h : id = other <;> simp [Deed.answers, h]
  | take _ _ => exact .none rfl rfl (fun _ => rfl)
  | @expire horizon e agenda id deadline r ht _ hr hp =>
    have hentered : (w.enter e agenda).request? id = some r := hr
    rw [settle_pending _ hentered hp, now_enter ht]
    refine .settled e.time _ hr hp rfl rfl ?_
    intro other
    by_cases h : id = other <;> simp [Deed.answers, h]
  | advance _ => exact .none rfl rfl (fun _ => rfl)

/-! ## Look-ups -/

theorem request?_lt {w : World σ} {id : RequestId} {r : Request} (h : w.request? id = some r) :
    id.number < w.requests.size := by
  unfold request? at h
  rcases Nat.lt_or_ge id.number w.requests.size with hlt | hge
  · exact hlt
  · rw [Array.getElem?_eq_none hge] at h
    cases h

theorem number_ne {id other : RequestId} (h : id ≠ other) : id.number ≠ other.number := by
  intro heq
  cases id
  cases other
  exact h (congrArg RequestId.mk heq)

theorem request?_of_push {w v : World σ} {x : Option Request}
    (h : v.requests = w.requests.push x) (id : RequestId) :
    v.request? id = if id.number = w.requests.size then x else w.request? id := by
  rw [request?, h, Array.getElem?_push]
  split <;> rfl

theorem waiter_of_push {w v : World σ} {y : Waiter σ} (h : v.waiters = w.waiters.push y)
    (id : RequestId) :
    v.waiter id = if id.number = w.waiters.size then y else w.waiter id := by
  rw [waiter, h, Array.getElem?_push]
  split <;> rfl

theorem request?_of_set {w v : World σ} {id : RequestId} {r s : Request}
    (hr : w.request? id = some r) (h : v.requests = w.requests.setIfInBounds id.number (some s))
    (other : RequestId) :
    v.request? other = if id = other then some s else w.request? other := by
  have hlt := request?_lt hr
  rw [request?, h, Array.getElem?_setIfInBounds]
  by_cases same : id = other
  · subst same
    simp [hlt]
  · rw [if_neg (number_ne same), if_neg same]
    rfl

theorem waiter_of_set {w v : World σ} {id : RequestId}
    (h : v.waiters = w.waiters.setIfInBounds id.number .nobody) (other : RequestId) :
    v.waiter other = if id = other then .nobody else w.waiter other := by
  rw [waiter, h, Array.getElem?_setIfInBounds]
  by_cases same : id = other
  · subst same
    -- Where there is no place for the request, nobody waits for it either.
    by_cases hlt : id.number < w.waiters.size <;> simp [hlt]
  · rw [if_neg (number_ne same), if_neg same]
    rfl

/-- Numbers are never given back. -/
theorem Effect.size_le {w v : World σ} {deeds : List (Deed σ)} (h : Effect w v deeds) :
    w.requests.size ≤ v.requests.size := by
  cases h with
  | none hr _ _ => rw [hr]
  | fresh x y hr _ _ _ _ =>
    rw [hr, Array.size_push]
    exact Nat.le_succ _
  | settled time failure _ _ hr _ _ => rw [hr, Array.size_setIfInBounds]
  | stale time failure _ _ hr _ _ => rw [hr]

theorem Path.size_le {w v : World σ} {deeds : List (Deed σ)} (h : Path w deeds v) :
    w.requests.size ≤ v.requests.size := by
  induction h with
  | refl => exact le_rfl
  | move _ hm ih => exact ih.trans hm.effect.size_le

theorem request?_settle {w : World σ} {id : RequestId} {r : Request} (failure : Option Failure)
    (hr : w.request? id = some r) (hp : r.isPending = true) (other : RequestId) :
    (w.settle id failure).1.request? other =
      if id = other then some (r.settle w.now failure) else w.request? other := by
  rw [settle_pending failure hr hp]
  exact request?_of_set hr rfl other

theorem waiter_settle {w : World σ} {id : RequestId} {r : Request} (failure : Option Failure)
    (hr : w.request? id = some r) (hp : r.isPending = true) (other : RequestId) :
    (w.settle id failure).1.waiter other = if id = other then .nobody else w.waiter other := by
  rw [settle_pending failure hr hp]
  exact waiter_of_set rfl other

/-! ## Waiting -/

/-- Only pending requests are waited for. -/
structure Waiting (w : World σ) : Prop where
  paired : w.waiters.size = w.requests.size
  awaited : ∀ id, w.waiter id ≠ .nobody → ∃ r, w.request? id = some r ∧ r.isPending = true

theorem Effect.waiting {w v : World σ} {deeds : List (Deed σ)} (h : Effect w v deeds)
    (hw : w.Waiting) : v.Waiting := by
  cases h with
  | none hr hq _ =>
    exact ⟨by rw [hr, hq, hw.paired], by simpa [waiter, request?, hr, hq] using hw.awaited⟩
  | fresh x y hr hq hpending hsome _ =>
    refine ⟨by simp [hr, hq, hw.paired], ?_⟩
    intro id hid
    rw [waiter_of_push hq, hw.paired] at hid
    rw [request?_of_push hr]
    by_cases hlast : id.number = w.requests.size
    · -- Whoever waits for the new number waits for a request, and a new one is pending.
      rw [if_pos hlast] at hid ⊢
      rcases Option.isSome_iff_exists.1 (hsome hid) with ⟨r, hx⟩
      exact ⟨r, hx, hpending r hx⟩
    · rw [if_neg hlast] at hid ⊢
      exact hw.awaited id hid
  | @settled id r time failure hsome hp hr hq _ =>
    refine ⟨by simp [hr, hq, hw.paired], ?_⟩
    intro other hother
    rw [waiter_of_set hq] at hother
    rw [request?_of_set hsome hr]
    by_cases same : id = other
    · -- Nobody waits any more for the request that has settled.
      rw [if_pos same] at hother
      exact absurd rfl hother
    · rw [if_neg same] at hother ⊢
      exact hw.awaited other hother
  | stale time failure _ _ hr hq _ =>
    exact ⟨by rw [hr, hq, hw.paired], by simpa [waiter, request?, hr, hq] using hw.awaited⟩

theorem Path.waiting {w v : World σ} {deeds : List (Deed σ)} (h : Path w deeds v)
    (hw : w.Waiting) : v.Waiting := by
  induction h with
  | refl => exact hw
  | move _ hm ih => exact hm.effect.waiting ih

/-! ## Replies -/

/-- A move leaves a request alone, settles it, or finds it settled. -/
theorem Effect.request {w v : World σ} {deeds : List (Deed σ)} (h : Effect w v deeds)
    (hw : w.Waiting) {id : RequestId} {r : Request} (hid : w.request? id = some r) :
    (deeds.filter (Deed.answers id) = [] ∧ v.request? id = some r ∧
      v.waiter id = w.waiter id) ∨
    (∃ time failure, deeds.filter (Deed.answers id) = [.settled time id failure] ∧
      r.isPending = true ∧ v.request? id = some (r.settle time failure) ∧
      v.waiter id = .nobody) ∨
    (∃ time failure, deeds.filter (Deed.answers id) = [.stale time id failure] ∧
      r.isPending = false ∧ v.request? id = some r) := by
  have hlt := request?_lt hid
  cases h with
  | none hr hq hnone =>
    left
    exact ⟨hnone id, by rw [request?, hr]; exact hid, by rw [waiter, hq]; rfl⟩
  | fresh x y hr hq _ _ hnone =>
    -- The new request has another number.
    left
    refine ⟨hnone id, ?_, ?_⟩
    · rw [request?_of_push hr, if_neg (by omega)]
      exact hid
    · rw [waiter_of_push hq, hw.paired, if_neg (by omega)]
  | @settled other s time failure hsome hp hr hq hfilter =>
    rw [hfilter id, request?_of_set hsome hr, waiter_of_set hq]
    by_cases same : other = id
    · subst same
      rw [hsome] at hid
      cases hid
      right
      left
      exact ⟨time, failure, by simp, hp, by simp, by simp⟩
    · left
      simp [same, hid]
  | @stale other s time failure hsome hp hr hq hfilter =>
    have hsame : v.request? id = some r := by
      rw [request?, hr]
      exact hid
    rw [hfilter id, waiter, hq]
    by_cases same : other = id
    · subst same
      rw [hsome] at hid
      cases hid
      right
      right
      exact ⟨time, failure, by simp, hp, hsame⟩
    · left
      exact ⟨by simp [same], hsame, rfl⟩

/-- Nothing happens any more to a request that has settled; further replies are stale. -/
theorem Path.settled {w v : World σ} {deeds : List (Deed σ)} (h : Path w deeds v)
    (hw : w.Waiting) {id : RequestId} {r : Request} (hid : w.request? id = some r)
    (hp : r.isPending = false) :
    v.request? id = some r ∧
      ∀ d ∈ deeds.filter (Deed.answers id), ∃ time failure, d = .stale time id failure := by
  induction h with
  | refl => exact ⟨hid, by simp⟩
  | move hpath hm ih =>
    rcases ih with ⟨hsame, hstale⟩
    rw [List.filter_append]
    rcases hm.effect.request (hpath.waiting hw) hsame with
      ⟨hnone, hnext, _⟩ | ⟨_, _, _, hpending, _⟩ | ⟨time, failure, hone, _, hnext⟩
    · rw [hnone, List.append_nil]
      exact ⟨hnext, hstale⟩
    · -- Only a pending request can be settled.
      rw [hp] at hpending
      cases hpending
    · refine ⟨hnext, ?_⟩
      intro d hd
      rcases List.mem_append.1 hd with hd | hd
      · exact hstale d hd
      · rw [hone, List.mem_singleton] at hd
        exact ⟨time, failure, hd⟩

/-- What becomes of a pending request: without a reply it stays as it is; the first reply settles it
and takes out whoever has waited, and all further replies are stale. -/
theorem Path.answered {w v : World σ} {deeds : List (Deed σ)} (h : Path w deeds v)
    (hw : w.Waiting) {id : RequestId} {r : Request} (hid : w.request? id = some r)
    (hp : r.isPending = true) :
    (deeds.filter (Deed.answers id) = [] ∧ v.request? id = some r ∧
      v.waiter id = w.waiter id) ∨
    ∃ time failure rest, deeds.filter (Deed.answers id) = .settled time id failure :: rest ∧
      (∀ d ∈ rest, ∃ time failure, d = .stale time id failure) ∧
      v.request? id = some (r.settle time failure) := by
  -- By induction on the path: the first move that replies to the request settles it, and from then
  -- on the path goes on with a request that has settled.
  induction h with
  | refl => exact Or.inl ⟨rfl, hid, rfl⟩
  | move hpath hm ih =>
    rw [List.filter_append]
    rcases ih with ⟨hnone, hsame, hwaiter⟩ | ⟨time, failure, rest, hfirst, hrest, hsettled⟩
    · rw [hnone, List.nil_append]
      rcases hm.effect.request (hpath.waiting hw) hsame with
        ⟨hmore, hnext, hkept⟩ | ⟨time, failure, hone, _, hnext, _⟩ | ⟨_, _, _, hnot, _⟩
      · exact Or.inl ⟨hmore, hnext, hkept.trans hwaiter⟩
      · exact Or.inr ⟨time, failure, [], hone, by simp, hnext⟩
      · rw [hp] at hnot
        cases hnot
    · right
      rw [hfirst]
      rcases (Path.single hm).settled (hpath.waiting hw) hsettled (r.isPending_settle ..) with
        ⟨hnext, hmore⟩
      refine ⟨time, failure, rest ++ _, rfl, ?_, hnext⟩
      intro d hd
      rcases List.mem_append.1 hd with hd | hd
      · exact hrest d hd
      · exact hmore d hd

/-- A request that has been made stays. -/
theorem Path.request?_isSome {w v : World σ} {deeds : List (Deed σ)} (h : Path w deeds v)
    (hw : w.Waiting) {id : RequestId} (hid : (w.request? id).isSome) :
    (v.request? id).isSome := by
  rcases Option.isSome_iff_exists.1 hid with ⟨r, hr⟩
  cases hp : r.isPending with
  | true =>
    rcases h.answered hw hr hp with ⟨_, hv, _⟩ | ⟨_, _, _, _, _, hv⟩ <;> simp [hv]
  | false => simp [(h.settled hw hr hp).1]

end World
end Callflow
