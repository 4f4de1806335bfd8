import Callflow.Proofs.Machine.Places
import Callflow.Proofs.Machine.Serving
import Callflow.Proofs.World.Likeness

/-!
# What an evaluation has nothing to do with

Whatever does not belong to the family of an evaluation stays `Apart` from it: no other event and
nobody who waits for another request serves a request of the family, or is about one. A transition
that does not act for the evaluation keeps it that way (`Apart.idle`), and leaves the requests and
events of the family alone (`Apart.kept`). In a transition that acts for the evaluation, all that is
new belongs to the family, which grows (`Apart.grow`).
-/

namespace Callflow

open Machine (Next)

variable {σ : Type}

/-- A request does not belong to a family, and will not when the family grows. -/
def Family.Stranger (F : Family σ) (w : World σ) (request : Option RequestId) : Prop :=
  ∀ id, request = some id → id ∉ F.requests ∧ id.number < w.requests.size

/-- What does not belong to a family has nothing to do with it. If the evaluation is not awake, this
includes what happens next. -/
structure Family.Apart (F : Family σ) (awake : Bool) (m : Machine σ) : Prop where
  known : ∀ id ∈ F.requests, id.number < m.world.requests.size
  booked : ∀ seq ∈ F.seqs, seq < m.world.agenda.nextSeq
  continued : ∀ e ∈ m.world.agenda.pending, F.owns e = false →
    ∀ k, e.work.continuation? = some k → F.Stranger m.world k.request?
  asked : ∀ e ∈ m.world.agenda.pending, F.owns e = false → F.Stranger m.world e.work.asks?
  waiters : ∀ id, id ∉ F.requests →
    ∀ k, m.world.waiting? id = some k → F.Stranger m.world k.request?
  focus : awake = false →
    ∀ k outcome, m.focus = .resume k outcome → F.Stranger m.world k.request?

/-- A transition does not act for an evaluation: the host handles no request, and no event of the
family is taken. -/
structure Family.Idle (F : Family σ) (b : Machine σ) : Prop where
  host : b.handles? = none
  taken : ∀ e, b.taken? = some e → F.owns e = false

namespace Family

variable {F : Family σ} {awake : Bool} {w v : World σ} {b c : Machine σ}
  {request : Option RequestId}

theorem Stranger.later (h : F.Stranger w request) (hsize : w.requests.size ≤ v.requests.size) :
    F.Stranger v request :=
  fun id hid => ⟨(h id hid).1, (h id hid).2.trans_le hsize⟩

theorem owns_iff {e : Event (Callback σ)} : F.owns e = true ↔ e.seq ∈ F.seqs := by simp [owns]

theorem mem_grow_requests {id : RequestId} :
    id ∈ (F.grow w v).requests ↔
      id ∈ F.requests ∨ w.requests.size ≤ id.number ∧ id.number < v.requests.size := by
  have hnew : id ∈ (List.range' w.requests.size (v.requests.size - w.requests.size)).map
      RequestId.mk ↔ w.requests.size ≤ id.number ∧ id.number < v.requests.size := by
    constructor
    · intro hid
      rcases List.mem_map.1 hid with ⟨number, hnumber, rfl⟩
      rw [List.mem_range'_1] at hnumber
      dsimp only
      omega
    · intro hid
      refine List.mem_map.2 ⟨id.number, ?_, rfl⟩
      rw [List.mem_range'_1]
      omega
  rw [grow, List.mem_append, hnew]

theorem mem_grow_seqs {seq : Nat} :
    seq ∈ (F.grow w v).seqs ↔
      seq ∈ F.seqs ∨ w.agenda.nextSeq ≤ seq ∧ seq < v.agenda.nextSeq := by
  rw [grow, List.mem_append, List.mem_range'_1]
  refine or_congr_right ?_
  omega

/-- A stranger is not among the new requests. -/
theorem Stranger.grow (h : F.Stranger w request) (hsize : w.requests.size ≤ v.requests.size) :
    (F.grow w v).Stranger v request := by
  intro id hid
  refine ⟨?_, (h id hid).2.trans_le hsize⟩
  rw [mem_grow_requests]
  rintro (hold | ⟨hnew, -⟩)
  · exact (h id hid).1 hold
  · exact absurd (h id hid).2 hnew.not_gt

namespace Apart

/-- At the start there is nothing to be apart from. -/
theorem start (config : SimulationConfig) (memory : σ) (code : Outcome → Script σ) :
    (Family.mk code [] []).Apart false (Machine.idle (World.start config memory)) where
  known := by simp
  booked := by simp
  continued := by simp [Machine.idle, World.start, Agenda.empty]
  asked := by simp [Machine.idle, World.start, Agenda.empty]
  waiters := by
    intro id _ k hk
    cases hk
  focus := by
    rintro _ k outcome ⟨⟩

theorem awaken (h : F.Apart awake b) : F.Apart true b :=
  ⟨h.known, h.booked, h.continued, h.asked, h.waiters, by simp⟩

theorem served (h : F.Apart awake b) {id : RequestId} (hid : id ∉ F.requests) :
    F.Stranger b.world (b.world.served? id) := by
  unfold World.served?
  cases hk : b.world.waiting? id with
  | none => rintro _ ⟨⟩
  | some k => exact h.waiters id hid k hk

theorem served_of_stranger (h : F.Apart awake b) {id : RequestId}
    (hid : F.Stranger b.world (some id)) : F.Stranger b.world (b.world.served? id) :=
  h.served (hid id rfl).1

/-- A transition that does not act for the evaluation serves a stranger. -/
theorem serves (h : F.Apart false b) (hidle : F.Idle b) : F.Stranger b.world b.serves? := by
  have hhost := hidle.host
  unfold Machine.serves?
  split
  · rename_i hfocus
    simp [Machine.handles?, hfocus] at hhost
  · rename_i hfocus
    simp [Machine.handles?, hfocus] at hhost
  · rename_i request outcome hfocus
    exact h.served_of_stranger (h.focus rfl _ outcome hfocus)
  · rename_i k outcome _ hfocus
    exact h.focus rfl k outcome hfocus
  · cases htaken : b.taken? with
    | none => rintro _ ⟨⟩
    | some e =>
      have hmem := (Machine.taken?_spec htaken).1
      have hother := hidle.taken e htaken
      have hasked := h.asked e hmem hother
      have hcontinued := h.continued e hmem hother
      rw [Option.bind_some]
      cases hwork : e.work with
      | host code => rintro _ ⟨⟩
      | fire client scope => rintro _ ⟨⟩
      | wake k => exact hcontinued k (by rw [hwork]; rfl)
      | attempt state body frame k => exact hcontinued k (by rw [hwork]; rfl)
      | deliver request target =>
        rw [hwork] at hasked
        exact hasked
      | expire request deadline =>
        rw [hwork] at hasked
        exact h.served_of_stranger hasked
      | reply request failure =>
        rw [hwork] at hasked
        exact h.served_of_stranger hasked

/-- A transition that does not act for the evaluation replies to no request of the family. -/
theorem unanswered (h : F.Apart false b) (hidle : F.Idle b) {id : RequestId}
    (hid : id ∈ F.requests) : b.answerTo? id = none := by
  have hhost := hidle.host
  have hstranger {request : RequestId} (hrequest : F.Stranger b.world (some request)) :
      request ≠ id := by
    rintro rfl
    exact (hrequest request rfl).1 hid
  rw [Machine.answerTo?, Option.filter_eq_none_iff]
  intro a ha
  rw [decide_eq_true_eq]
  unfold Machine.answer? at ha
  split at ha
  · rename_i hfocus
    simp [Machine.handles?, hfocus] at hhost
  · rename_i request value hfocus
    cases ha
    exact hstranger (h.focus rfl _ _ hfocus)
  · rename_i request cause hfocus
    cases ha
    exact hstranger (h.focus rfl _ _ hfocus)
  · rcases Option.bind_eq_some_iff.1 ha with ⟨t, hturn, hanswer⟩
    have htaken : b.taken? = some t.event := by
      rw [Machine.taken?, hturn]
      rfl
    have hasked := h.asked t.event (Machine.taken?_spec htaken).1 (hidle.taken _ htaken)
    unfold Machine.Turn.answer? at hanswer
    split at hanswer
    · rename_i hwork
      cases hanswer
      rw [hwork] at hasked
      exact hstranger hasked
    · rename_i hwork
      rw [hwork] at hasked
      split at hanswer
      · cases hanswer
        exact hstranger hasked
      · cases hanswer
    · cases hanswer

/-! ## Transitions -/

theorem idle (h : F.Apart false b) (hn : Next b c) (hidle : F.Idle b) : F.Apart false c := by
  have hserves := h.serves hidle
  rcases hn.explains with ⟨deeds, hpath, -⟩
  have hsize := hpath.size_le
  have hcarries := hn.carries
  refine ⟨?_, ?_, ?_, ?_, ?_, ?_⟩
  · intro id hid
    exact (h.known id hid).trans_le hsize
  · intro seq hseq
    exact (h.booked seq hseq).trans_le hpath.agenda.planned.1
  · intro e he hother k hk
    rcases hcarries.events e he with hold | hnew
    · exact (h.continued e hold hother k hk).later hsize
    · rw [hnew k hk]
      exact hserves.later hsize
  · intro e he hother
    rcases hn.asks hidle.host e he with hold | hnew
    · exact (h.asked e hold hother).later hsize
    · intro id hid
      refine ⟨fun hmem => ?_, (hnew id hid).2⟩
      exact absurd (h.known id hmem) (hnew id hid).1.not_gt
  · intro id hid k hk
    rcases hcarries.waiters id k hk with hold | ⟨-, hnew⟩
    · exact (h.waiters id hid k hold).later hsize
    · rw [hnew]
      exact hserves.later hsize
  · intro _ k outcome hfocus
    rw [hcarries.focus k outcome hfocus]
    exact hserves.later hsize

theorem grow (h : F.Apart awake b) (hn : Next b c) (hb : b.world.Sound) (hc : c.world.Sound) :
    (F.grow b.world c.world).Apart c.focus.handed?.isSome c := by
  rcases hn.explains with ⟨deeds, hpath, -⟩
  have hsize := hpath.size_le
  have hseq := hpath.agenda.planned.1
  -- An event that does not belong to the family has been there before, and did not belong to it.
  have hold {e : Event (Callback σ)} (he : e ∈ c.world.agenda.pending)
      (hother : (F.grow b.world c.world).owns e = false) :
      e ∈ b.world.agenda.pending ∧ F.owns e = false := by
    rw [Bool.eq_false_iff, ne_eq, owns_iff, mem_grow_seqs, not_or] at hother
    refine ⟨?_, ?_⟩
    · rcases hpath.agenda.planned.2 e he with hold | ⟨_, _, _, _, _, hnew⟩
      · exact hold
      · exact absurd ⟨hnew, hc.agenda.numbered e he⟩ hother.2
    · rw [Bool.eq_false_iff, ne_eq, owns_iff]
      exact hother.1
  refine ⟨?_, ?_, ?_, ?_, ?_, ?_⟩
  · intro id hid
    rcases mem_grow_requests.1 hid with hid | ⟨-, hid⟩
    · exact (h.known id hid).trans_le hsize
    · exact hid
  · intro seq hmem
    rcases mem_grow_seqs.1 hmem with hmem | ⟨-, hmem⟩
    · exact (h.booked seq hmem).trans_le hseq
    · exact hmem
  · intro e he hother k hk
    exact (h.continued e (hold he hother).1 (hold he hother).2 k hk).grow hsize
  · intro e he hother
    exact (h.asked e (hold he hother).1 (hold he hother).2).grow hsize
  · intro id hid k hk
    rw [mem_grow_requests, not_or] at hid
    have hlt := World.waiting?_lt hk
    rw [hc.waiting.paired] at hlt
    rcases hn.carries.waiters id k hk with hwaiting | ⟨hnew, -⟩
    · exact (h.waiters id hid.1 k hwaiting).grow hsize
    · rw [hb.waiting.paired] at hnew
      exact absurd ⟨hnew, hlt⟩ hid.2
  · intro hasleep k outcome hfocus
    rw [hfocus] at hasleep
    cases hasleep

/-- A transition that does not act for the evaluation leaves its requests and events alone. -/
theorem kept (h : F.Apart false b) (hn : Next b c) (hb : b.world.Sound) (hidle : F.Idle b)
    (hmade : ∀ id ∈ F.requests, (b.world.request? id).isSome) : F.Kept b.world c.world := by
  rcases hn.explains with ⟨deeds, hpath, hexplains⟩
  have hcwaiting := hpath.waiting hb.waiting
  have hsame {id : RequestId} (hid : id ∈ F.requests) :
      c.world.request? id = b.world.request? id ∧ c.world.waiter id = b.world.waiter id := by
    rcases Option.isSome_iff_exists.1 (hmade id hid) with ⟨r, hr⟩
    have hnone := hexplains.answered id (hmade id hid)
    rw [h.unanswered hidle hid] at hnone
    cases hp : r.isPending with
    | true =>
      rcases hpath.answered hb.waiting hr hp with
        ⟨-, hsame, hkept⟩ | ⟨_, _, _, hsettled, -⟩
      · exact ⟨hsame.trans hr.symm, hkept⟩
      · rw [hnone] at hsettled
        cases hsettled
    | false =>
      have hlater := (hpath.settled hb.waiting hr hp).1
      -- Nobody waits for a request that has settled.
      have hnobody {u : World σ} (hu : u.Waiting) (hru : u.request? id = some r) :
          u.waiter id = .nobody := by
        by_contra hne
        rcases hu.awaited id hne with ⟨s, hs, hpending⟩
        rw [hru] at hs
        cases hs
        rw [hp] at hpending
        cases hpending
      exact ⟨hlater.trans hr.symm, (hnobody hcwaiting hlater).trans (hnobody hb.waiting hr).symm⟩
  refine ⟨fun id hid => (hsame hid).1, fun id hid => (hsame hid).2, ?_⟩
  refine hpath.agenda.filter_pending ?_ ?_
  · intro e he
    exact h.booked e.seq (owns_iff.1 he)
  · intro e he
    rw [World.takes_agenda, hexplains.taken, Option.mem_toList] at he
    exact hidle.taken e he

end Apart
end Family
end Callflow
