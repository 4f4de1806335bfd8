import Callflow.Journal.Basic
import Callflow.Proofs.Time.Form

/-!
# What a journal tells

Three things can be kept of a journal while it grows, whoever writes into it:

* its entries are in the order of their times, as long as they show the clock (`Journal.Timely`);
* its statistics are a recount of its entries (`Journal.Recounts`);
* it tells the story of the requests (`Journal.Tells`): they were issued one after another, and the
  entries about each of them are a word that says how far it has come (`Request.Word`).
-/

namespace Callflow

namespace JournalEntry

/-- The time of an entry. -/
def time : JournalEntry → Time
  | .dispatched time _ _ => time
  | .issued time _ _ _ _ => time
  | .settled time _ _ _ => time
  | .staleReply time _ _ => time

/-- The request that was handed over, if an entry says so. -/
def issued? : JournalEntry → Option RequestId
  | .issued _ request _ _ _ => some request
  | _ => none

/-- Whether an entry is about a request. -/
def about (id : RequestId) : JournalEntry → Bool
  | .dispatched .. => false
  | .issued _ request _ _ _ => request = id
  | .settled _ request _ _ => request = id
  | .staleReply _ request _ => request = id

end JournalEntry

namespace Request

/-- The entries about a request: it was issued, and if it is not pending any more, it settled once,
and whatever came then came too late. -/
inductive Word (r : Request) : List JournalEntry → Prop where
  | pending (service : String) : r.isPending = true →
      Word r [.issued r.createdAt r.id r.caller service r.operation]
  | settled (service : String) (time : Time) (late : List (Time × Status)) :
      r.isPending = false → r.settledAt = some time →
        Word r (.issued r.createdAt r.id r.caller service r.operation ::
          .settled time r.id r.status r.failure ::
          late.map fun reply => .staleReply reply.1 r.id reply.2)

theorem isPending_settle (r : Request) (time : Time) (failure : Option Failure) :
    (r.settle time failure).isPending = false := by
  cases failure <;> rfl

theorem Word.settle {r : Request} {word : List JournalEntry} (h : r.Word word)
    (hp : r.isPending = true) (time : Time) (failure : Option Failure) :
    (r.settle time failure).Word
      (word ++ [.settled time r.id (r.settle time failure).status failure]) := by
  cases h with
  | pending service _ => exact .settled service time [] (r.isPending_settle time failure) rfl
  | settled _ _ _ hnot _ =>
    rw [hp] at hnot
    cases hnot

theorem Word.stale {r : Request} {word : List JournalEntry} (h : r.Word word)
    (hp : r.isPending = false) (time : Time) (attempted : Status) :
    r.Word (word ++ [.staleReply time r.id attempted]) := by
  cases h with
  | pending _ hpending =>
    rw [hp] at hpending
    cases hpending
  | settled service settledAt late _ hsettled =>
    have hword := Word.settled (r := r) service settledAt (late ++ [(time, attempted)]) hp hsettled
    rw [List.map_append] at hword
    exact hword

/-- A request that is pending has not settled before. -/
theorem Word.not_settled {r : Request} {word : List JournalEntry} (h : r.Word word)
    (hp : r.isPending = true) (time : Time) (id : RequestId) (status : Status)
    (failure : Option Failure) : .settled time id status failure ∉ word := by
  cases h with
  | pending _ _ => simp
  | settled _ _ _ hnot _ =>
    rw [hp] at hnot
    cases hnot

end Request

namespace Journal

variable {j : Journal}

theorem entries_record (h : j.enabled = true) (e : JournalEntry) :
    (j.record e).entries.toList = j.entries.toList ++ [e] := by
  simp [record, h]

/-- A journal that keeps its entries gets those that are written, in their order. -/
theorem entries_foldl (entries : List JournalEntry) (h : j.enabled = true) :
    (entries.foldl Journal.record j).entries.toList = j.entries.toList ++ entries := by
  induction entries generalizing j with
  | nil => simp
  | cons e rest ih =>
    have hkept : (j.record e).enabled = true := h
    rw [List.foldl_cons, ih hkept, entries_record h, List.append_assoc]
    rfl

theorem enabled_foldl (entries : List JournalEntry) :
    (entries.foldl Journal.record j).enabled = j.enabled := by
  induction entries generalizing j with
  | nil => rfl
  | cons e rest ih => exact ih

/-- A journal that does not keep its entries gets none. -/
theorem entries_foldl_of_disabled (entries : List JournalEntry) (h : j.enabled = false) :
    (entries.foldl Journal.record j).entries = j.entries := by
  induction entries generalizing j with
  | nil => rfl
  | cons e rest ih =>
    have hsame : (j.record e).entries = j.entries := by simp [record, h]
    have hkept : (j.record e).enabled = false := h
    rw [List.foldl_cons, ih hkept, hsame]

/-! ## Times -/

/-- The entries are in the order of their times, and the clock has got to each of them. -/
structure Timely (j : Journal) (now : Time) : Prop where
  past : ∀ e ∈ j.entries.toList, e.time.IsReading ∧ e.time.place ≤ now.place
  ordered : j.entries.toList.Pairwise fun a b => a.time ≤ b.time

theorem timely_empty (enabled : Bool) (now : Time) : (empty enabled).Timely now :=
  ⟨by simp [empty], List.Pairwise.nil⟩

/-- The clock may move on. -/
theorem Timely.later {now later : Time} (h : j.Timely now) (hle : now.place ≤ later.place) :
    j.Timely later where
  past := fun e he => ⟨(h.past e he).1, (h.past e he).2.trans hle⟩
  ordered := h.ordered

/-- An entry is written that shows the clock. -/
theorem Timely.record {now : Time} (h : j.Timely now) (hnow : now.IsReading) {e : JournalEntry}
    (he : e.time = now) : (j.record e).Timely now := by
  cases henabled : j.enabled with
  | false => simpa [Journal.record, henabled] using ⟨h.past, h.ordered⟩
  | true =>
    refine ⟨?_, ?_⟩
    · rw [entries_record henabled]
      intro x hx
      rcases List.mem_append.1 hx with hx | hx
      · exact h.past x hx
      · rw [List.mem_singleton.1 hx, he]
        exact ⟨hnow, le_rfl⟩
    · rw [entries_record henabled, List.pairwise_append]
      refine ⟨h.ordered, List.pairwise_singleton _ _, ?_⟩
      intro x hx y hy
      rw [List.mem_singleton.1 hy, he]
      exact (Time.le_iff (h.past x hx).1 hnow).2 (h.past x hx).2

/-! ## Statistics -/

/-- Every entry is kept, and the statistics are a recount of them. -/
structure Recounts (j : Journal) : Prop where
  enabled : j.enabled = true
  stats : j.stats = j.entries.toList.foldl RequestStats.count .zero

theorem recounts_empty : (empty true).Recounts := ⟨rfl, rfl⟩

theorem Recounts.record (h : j.Recounts) (e : JournalEntry) : (j.record e).Recounts where
  enabled := h.enabled
  stats := by
    rw [entries_record h.enabled, List.foldl_append, ← h.stats]
    rfl

theorem Recounts.foldl (entries : List JournalEntry) (h : j.Recounts) :
    (entries.foldl Journal.record j).Recounts := by
  induction entries generalizing j with
  | nil => exact h
  | cons e rest ih => exact ih (h.record e)

/-! ## Requests -/

/-- The journal tells the story of the requests: they were issued one after another without a gap, the
entries about each of them say how far it has come, and the statistics balance. -/
structure Tells (j : Journal) (requests : Array (Option Request)) : Prop where
  enabled : j.enabled = true
  issued : j.entries.toList.filterMap JournalEntry.issued? =
    (List.range requests.size).map RequestId.mk
  made : ∀ id : RequestId, id.number < requests.size → ∃ r,
    requests[id.number]? = some (some r) ∧ r.id = id ∧
      r.Word (j.entries.toList.filter (JournalEntry.about id))
  unmade : ∀ id : RequestId, requests.size ≤ id.number →
    j.entries.toList.filter (JournalEntry.about id) = []
  balanced : j.stats.issued = j.stats.succeeded + j.stats.failed +
    requests.countP (·.any Request.isPending)

variable {requests : Array (Option Request)}

theorem tells_empty : (empty true).Tells #[] where
  enabled := rfl
  issued := rfl
  made := by simp
  unmade := fun _ _ => rfl
  balanced := rfl

/-- An entry that is about no request. -/
theorem Tells.dispatch (h : j.Tells requests) (time : Time) (seq : Nat) (kind : EventKind) :
    (j.record (.dispatched time seq kind)).Tells requests := by
  have hentries := entries_record h.enabled (.dispatched time seq kind)
  have hfilter (id : RequestId) :
      (j.record (.dispatched time seq kind)).entries.toList.filter (JournalEntry.about id) =
        j.entries.toList.filter (JournalEntry.about id) := by
    rw [hentries, List.filter_append]
    exact List.append_nil _
  refine ⟨h.enabled, ?_, ?_, ?_, h.balanced⟩
  · rw [hentries, List.filterMap_append, ← h.issued]
    exact List.append_nil _
  · intro id hid
    rw [hfilter]
    exact h.made id hid
  · intro id hid
    rw [hfilter]
    exact h.unmade id hid

/-- A request is made under the next number and handed over. -/
theorem Tells.issue (h : j.Tells requests) (caller : Caller) (service operation : String)
    (now : Time) (deadline : Option Time) :
    (j.record (.issued now ⟨requests.size⟩ caller service operation)).Tells
      (requests.push (some (.issue ⟨requests.size⟩ caller operation now deadline))) := by
  have hentries := entries_record h.enabled (.issued now ⟨requests.size⟩ caller service operation)
  have hother {id : RequestId} (hid : id.number ≠ requests.size) :
      (j.record (.issued now ⟨requests.size⟩ caller service operation)).entries.toList.filter
        (JournalEntry.about id) = j.entries.toList.filter (JournalEntry.about id) := by
    have hnot : (⟨requests.size⟩ : RequestId) ≠ id := by
      rintro rfl
      exact hid rfl
    rw [hentries, List.filter_append, List.filter_cons_of_neg (by simp [JournalEntry.about, hnot])]
    exact List.append_nil _
  refine ⟨h.enabled, ?_, ?_, ?_, ?_⟩
  · rw [hentries, List.filterMap_append, h.issued, Array.size_push, List.range_succ,
      List.map_append]
    rfl
  · intro id hid
    rw [Array.size_push] at hid
    by_cases hlast : id.number = requests.size
    · -- Nothing has been told before of the new number.
      have hnone := h.unmade id hlast.ge
      have hself : id = ⟨requests.size⟩ := by
        rw [← hlast]
      subst hself
      refine ⟨_, by rw [Array.getElem?_push_size], rfl, ?_⟩
      rw [hentries, List.filter_append, hnone, List.filter_cons_of_pos (by simp [JournalEntry.about])]
      exact .pending service rfl
    · rcases h.made id (by omega) with ⟨r, hr, hself, hword⟩
      refine ⟨r, ?_, hself, ?_⟩
      · rw [Array.getElem?_push, if_neg hlast]
        exact hr
      · rw [hother hlast]
        exact hword
  · intro id hid
    rw [Array.size_push] at hid
    rw [hother (by omega)]
    exact h.unmade id (by omega)
  · have hpending : Option.any Request.isPending
        (some (.issue ⟨requests.size⟩ caller operation now deadline)) = true := rfl
    have hbalanced := h.balanced
    rw [Array.countP_push, if_pos hpending]
    simp only [record, RequestStats.count]
    omega

/-- The entries about a request after one more entry, which is about one request only. -/
theorem filter_record (h : j.enabled = true) (id : RequestId) {e : JournalEntry}
    (he : ∀ other, e.about other = decide (id = other)) (other : RequestId) :
    (j.record e).entries.toList.filter (JournalEntry.about other) =
      j.entries.toList.filter (JournalEntry.about other) ++ if id = other then [e] else [] := by
  rw [entries_record h, List.filter_append]
  by_cases hsame : id = other <;> simp [he, hsame]

/-- A pending request settles. -/
theorem Tells.settle (h : j.Tells requests) {id : RequestId} {r : Request}
    (hr : requests[id.number]? = some (some r)) (hp : r.isPending = true) (now : Time)
    (failure : Option Failure) :
    (j.record (.settled now id (r.settle now failure).status failure)).Tells
      (requests.setIfInBounds id.number (some (r.settle now failure))) := by
  have hlt : id.number < requests.size := (Array.getElem?_eq_some_iff.1 hr).1
  have hget : requests[id.number] = some r := (Array.getElem?_eq_some_iff.1 hr).2
  have hentries := entries_record h.enabled (.settled now id (r.settle now failure).status failure)
  have hfilter := filter_record h.enabled id
    (e := .settled now id (r.settle now failure).status failure) fun _ => rfl
  refine ⟨h.enabled, ?_, ?_, ?_, ?_⟩
  · rw [hentries, List.filterMap_append, h.issued, Array.size_setIfInBounds]
    exact List.append_nil _
  · intro other hother
    rw [Array.size_setIfInBounds] at hother
    rw [hfilter]
    by_cases hsame : id = other
    · subst hsame
      rcases h.made id hlt with ⟨s, hs, hself, hword⟩
      cases hr.symm.trans hs
      refine ⟨r.settle now failure, ?_, hself, ?_⟩
      · rw [Array.getElem?_setIfInBounds_self_of_lt hlt]
      · have hsettled := hword.settle hp now failure
        rw [hself] at hsettled
        rw [if_pos rfl]
        exact hsettled
    · have hnumber : id.number ≠ other.number := by
        intro heq
        exact hsame (by cases id; cases other; exact congrArg RequestId.mk heq)
      rw [Array.getElem?_setIfInBounds_ne hnumber, if_neg hsame, List.append_nil]
      exact h.made other hother
  · intro other hother
    rw [Array.size_setIfInBounds] at hother
    have hnot : id ≠ other := by
      rintro rfl
      omega
    rw [hfilter, if_neg hnot, List.append_nil]
    exact h.unmade other hother
  · -- One request less is pending, and one more is counted.
    have hbalanced := h.balanced
    have hpos : 0 < requests.countP (·.any Request.isPending) := by
      refine Array.countP_pos_iff.2 ⟨some r, ?_, hp⟩
      rw [← hget]
      exact Array.getElem_mem hlt
    have hnot : Option.any Request.isPending (some (r.settle now failure)) = false :=
      r.isPending_settle now failure
    have hpending : Option.any Request.isPending (some r) = true := hp
    rw [Array.setIfInBounds_def, dif_pos hlt, Array.countP_set, hget, if_pos hpending,
      if_neg (by simp [hnot])]
    cases failure <;> simp only [record, RequestStats.count, Request.settle, Option.isSome] <;>
      simp <;> omega

/-- A reply comes too late. -/
theorem Tells.stale (h : j.Tells requests) {id : RequestId} {r : Request}
    (hr : requests[id.number]? = some (some r)) (hp : r.isPending = false) (now : Time)
    (attempted : Status) : (j.record (.staleReply now id attempted)).Tells requests := by
  have hlt : id.number < requests.size := (Array.getElem?_eq_some_iff.1 hr).1
  have hentries := entries_record h.enabled (.staleReply now id attempted)
  have hfilter := filter_record h.enabled id (e := .staleReply now id attempted) fun _ => rfl
  refine ⟨h.enabled, ?_, ?_, ?_, h.balanced⟩
  · rw [hentries, List.filterMap_append, h.issued]
    exact List.append_nil _
  · intro other hother
    rw [hfilter]
    rcases h.made other hother with ⟨s, hs, hself, hword⟩
    refine ⟨s, hs, hself, ?_⟩
    by_cases hsame : id = other
    · subst hsame
      cases hr.symm.trans hs
      have hstale := hword.stale hp now attempted
      rw [hself] at hstale
      rw [if_pos rfl]
      exact hstale
    · rw [if_neg hsame, List.append_nil]
      exact hword
  · intro other hother
    have hnot : id ≠ other := by
      rintro rfl
      omega
    rw [hfilter, if_neg hnot, List.append_nil]
    exact h.unmade other hother

end Journal
end Callflow
