import Callflow.Proofs.Machine.Life

/-!
# The requests that are handed over in a life

The events that deliver requests are scheduled just for the requests that the machines of a life hand
over (`Life.sendings`), which the host does or a trigger or a query. Triggers and queries make
different requests (`Life.numbered`).
-/

namespace Callflow
namespace Machine

open World (Deed Path Sends)

variable {σ : Type}

/-! ## Transitions -/

/-- The operations stay signed. -/
theorem Leads.signed {m : Machine σ} {w : World σ} (h : Leads m w) (hm : m.world.store.Signed) :
    w.store.Signed := by
  rcases h with ⟨_, v, hbegins, hcourse, -⟩
  refine hcourse.hands.signed ?_
  rw [hbegins.store]
  exact hm

/-- Where no target needs time to be reached, every request arrives at once. -/
theorem Leads.transit {m : Machine σ} {w : World σ} (h : Leads m w) (hdirect : w.store.Direct) :
    ∀ s ∈ m.sends, s.transit = 0.0 := by
  rcases h.deeds with ⟨_, hpath, -, -⟩
  rcases h with ⟨_, _, _, hcourse, -⟩
  intro s hs
  rcases List.mem_append.1 hs with hs | hs
  · -- The host hands over a request in the world that the transition begins with.
    have hstart := hpath.grows.direct hdirect
    rw [Option.mem_toList, handed?] at hs
    split at hs
    · rename_i request target next _
      rcases Option.bind_eq_some_iff.1 hs with ⟨_, _, hsending⟩
      rw [World.sending?_request hsending]
      show 0.0 + m.world.store.transit target = 0.0
      rw [hstart.transit]
      rfl
    · cases hs
  · exact hcourse.transit hdirect s hs

/-! ## Lives -/

/-- A path of the world with the events and the sendings of some machines. -/
structure Ledger (a : Machine σ) (past : List (Machine σ)) (deeds : List (Deed σ))
    (b : Machine σ) : Prop where
  path : Path a.world deeds b.world
  taken : deeds.filterMap Deed.taken? = past.filterMap taken?
  sends : Sends deeds (past.flatMap sends)

/-- What the agenda has taken is what the machines have taken. -/
theorem Ledger.takes {a b : Machine σ} {past : List (Machine σ)} {deeds : List (Deed σ)}
    (h : Ledger a past deeds b) :
    Agenda.takes (deeds.filterMap Deed.agenda?) = past.filterMap taken? := by
  rw [World.takes_agenda, h.taken]

theorem Life.sendings {a b : Machine σ} {past : List (Machine σ)} (h : Life a past b) :
    ∃ deeds, Ledger a past deeds b := by
  induction h with
  | refl => exact ⟨[], .refl, rfl, .none (by simp)⟩
  | @next past b c _ hn ih =>
    rcases ih with ⟨deeds, hpath, htaken, hsends⟩
    rcases hn.leads.deeds with ⟨more, hmore, hexplains, hmoreSends⟩
    refine ⟨deeds ++ more, hpath.trans hmore, ?_, ?_⟩
    · have hone : [b].filterMap taken? = b.taken?.toList := by
        cases hb : b.taken? <;> simp [hb]
      rw [List.filterMap_append, List.filterMap_append, htaken, hexplains.taken, hone]
    · rw [List.flatMap_append, List.flatMap_singleton]
      exact hsends.append hmoreSends

theorem Life.signed {a b : Machine σ} {past : List (Machine σ)} (h : Life a past b)
    (ha : a.world.store.Signed) : b.world.store.Signed := by
  induction h with
  | refl => exact ha
  | next _ hn ih => exact hn.leads.signed ih

theorem Life.transit {a b : Machine σ} {past : List (Machine σ)} (h : Life a past b)
    (hdirect : b.world.store.Direct) : ∀ s ∈ past.flatMap sends, s.transit = 0.0 := by
  induction h with
  | refl => simp
  | @next past b c _ hn ih =>
    rcases hn.leads.deeds with ⟨_, hpath, -, -⟩
    have hbefore := ih (hpath.grows.direct hdirect)
    intro s hs
    rw [List.flatMap_append, List.flatMap_singleton] at hs
    rcases List.mem_append.1 hs with hs | hs
    · exact hbefore s hs
    · exact hn.leads.transit hdirect s hs

/-- The calls that some machines come upon. -/
def callsOf (past : List (Machine σ)) : List (Call σ) := past.flatMap calls

/-- The calls of a life make requests under rising numbers. -/
theorem Life.numbered {a b : Machine σ} {past : List (Machine σ)} (h : Life a past b) :
    a.world.requests.size ≤ b.world.requests.size ∧
    (∀ s ∈ (callsOf past).filterMap Call.sending?,
      a.world.requests.size ≤ s.request.number ∧ s.request.number < b.world.requests.size) ∧
    ((callsOf past).filterMap Call.sending?).Pairwise fun s t =>
      s.request.number < t.request.number := by
  induction h with
  | refl => exact ⟨le_rfl, by simp [callsOf], List.Pairwise.nil⟩
  | @next past b c _ hn ih =>
    rcases ih with ⟨hsize, hfresh, hordered⟩
    rcases hn.leads with ⟨_, v, hbegins, hcourse, -⟩
    have hpath := hbegins.path
    have hhands := hcourse.hands
    have hnew : ∀ s ∈ b.calls.filterMap Call.sending?,
        b.world.requests.size ≤ s.request.number ∧ s.request.number < c.world.requests.size :=
      fun s hs => ⟨hpath.size_le.trans (hhands.fresh s hs).1, (hhands.fresh s hs).2⟩
    have hlater : b.world.requests.size ≤ c.world.requests.size :=
      hpath.size_le.trans hhands.size_le
    have hall : (callsOf (past ++ [b])).filterMap Call.sending? =
        (callsOf past).filterMap Call.sending? ++ b.calls.filterMap Call.sending? := by
      rw [callsOf, List.flatMap_append, List.flatMap_singleton, List.filterMap_append]
      rfl
    rw [hall]
    refine ⟨hsize.trans hlater, ?_, ?_⟩
    · intro s hs
      rcases List.mem_append.1 hs with hs | hs
      · exact ⟨(hfresh s hs).1, (hfresh s hs).2.trans_le hlater⟩
      · exact ⟨hsize.trans (hnew s hs).1, (hnew s hs).2⟩
    · rw [List.pairwise_append]
      refine ⟨hordered, hhands.ordered, ?_⟩
      intro s hs t ht
      exact (hfresh s hs).2.trans_le (hnew t ht).1

end Machine
end Callflow
