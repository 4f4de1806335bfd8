import Callflow.Proofs.Machine.Operation
import Callflow.Proofs.World.Story

/-!
# What the journal says about each request

As long as the host neither makes requests nor writes into the journal (`Chronicle`), the journal tells
what becomes of each request, in the middle of a run and after one that was given up as well:
`Chronicle.journal_grammar`.

A request has been delivered before anything can settle it (`Life.delivered_before`). An operation that
replies was begun by the delivery, the host gets hold of the request by it, and the timeout comes
behind it in the agenda.
-/

namespace Callflow
namespace Machine

open World (Deed Path)

variable {σ : Type}

/-! ## The story -/

theorem Leads.told {m : Machine σ} {w : World σ} (h : Leads m w) (hhost : m.meddles = false)
    (hm : m.world.Told) : w.Told := by
  rcases h with ⟨deeds, v, hbegins, hcourse, -⟩
  rcases hbegins.plain hhost with ⟨hsize, hplain⟩
  exact hcourse.told (hbegins.path.told hsize hplain hm)

/-- Where the host does not meddle, the journal goes on telling what becomes of the requests. -/
theorem Life.told {a b : Machine σ} {past : List (Machine σ)} (h : Life a past b)
    (hhost : ∀ x ∈ past, x.meddles = false) (ha : a.world.Told) : b.world.Told := by
  induction h with
  | refl => exact ha
  | next _ hn ih =>
    exact hn.leads.told (hhost _ (by simp)) (ih fun x hx => hhost x (List.mem_append_left _ hx))

theorem recorded?_of_not_meddles {m : Machine σ} (h : m.meddles = false) : m.recorded? = none := by
  unfold recorded?
  split
  · rename_i hfocus
    simp [meddles, hfocus] at h
  · rfl

theorem filterMap_recorded? {past : List (Machine σ)} (h : ∀ x ∈ past, x.meddles = false) :
    past.filterMap recorded? = [] :=
  List.filterMap_eq_nil_iff.2 fun x hx => recorded?_of_not_meddles (h x hx)

/-! ## Deliveries -/

/-- The host handles a request only after it has been delivered: this is how a target gets hold of
it. -/
structure HandlesDelivered (past : List (Machine σ)) : Prop where
  delivered : ∀ before x after id, past = before ++ x :: after → x.handles? = some id →
    ∃ s ∈ before.filterMap delivery?, s.request = id

theorem HandlesDelivered.cut {before after : List (Machine σ)}
    (h : HandlesDelivered (before ++ after)) : HandlesDelivered before := by
  refine ⟨?_⟩
  rintro first x rest id rfl hhandles
  exact h.delivered first x (rest ++ after) id (by simp) hhandles

/-- The same, machine by machine. -/
theorem handlesDelivered_iff {past : List (Machine σ)} :
    HandlesDelivered past ↔ ∀ i < past.length, ∀ id ∈ past[i]?.bind handles?,
      ∃ s ∈ (past.take i).filterMap delivery?, s.request = id := by
  constructor
  · intro h i hi id hhandles
    rw [Option.mem_def, List.getElem?_eq_getElem hi] at hhandles
    refine h.delivered (past.take i) past[i] (past.drop (i + 1)) id ?_ hhandles
    rw [← List.drop_eq_getElem_cons, List.take_append_drop]
  · intro h
    refine ⟨?_⟩
    rintro before x after id rfl hhandles
    have hbefore := h before.length (by simp) id (by simp [hhandles])
    rw [List.take_left'] at hbefore
    · exact hbefore
    · rfl

instance (past : List (Machine σ)) : Decidable (HandlesDelivered past) :=
  decidable_of_iff' _ handlesDelivered_iff

/-- Whoever is about to handle a request, or has handled it, does so after its delivery. -/
theorem HandlesDelivered.before {before : List (Machine σ)} {x y : Machine σ} {id : RequestId}
    (h : HandlesDelivered (before ++ [x])) (hy : y ∈ before ++ [x]) (hhandles : y.handles? = some id) :
    ∃ s ∈ before.filterMap delivery?, s.request = id := by
  rcases List.mem_append.1 hy with hy | hy
  · rcases List.append_of_mem hy with ⟨first, rest, rfl⟩
    rcases h.cut.delivered first y rest id rfl hhandles with ⟨s, hs, hrequest⟩
    refine ⟨s, ?_, hrequest⟩
    rw [List.filterMap_append]
    exact List.mem_append_left _ hs
  · rw [List.mem_singleton.1 hy] at hhandles
    exact h.delivered before x [] id rfl hhandles

/-- An operation that is about to reply was begun by the delivery of the request. -/
theorem Life.delivered_of_ended {config : SimulationConfig} {memory : σ}
    {before : List (Machine σ)} {x : Machine σ} {id : RequestId} {outcome : Outcome}
    (h : Life (idle (World.start config memory)) before x)
    (hhost : ∀ y ∈ before, y.handles? ≠ some id)
    (hfocus : x.focus = .resume (.reply id) outcome) :
    ∃ s ∈ before.filterMap delivery?, s.request = id := by
  have hstock := h.stock (serves id)
  have hstart : (idle (World.start config memory)).stock (serves id) = 0 := rfl
  have hlast : 1 ≤ x.stock (serves id) := by
    unfold Machine.stock
    rw [hfocus]
    simp [Focus.stock, Continuation.stock, Continuation.bottom, serves]
  have hbegun := begun_sum_le hhost
  have hpos : 0 < ((before.filterMap delivery?).filter fun s => s.request = id).length := by
    omega
  rcases List.exists_mem_of_length_pos hpos with ⟨s, hs⟩
  rcases List.mem_filter.1 hs with ⟨hmem, hrequest⟩
  exact ⟨s, hmem, of_decide_eq_true hrequest⟩

/-- When the timeout of a request is taken, its delivery has been: it was due before. -/
theorem Life.delivered_of_expires {config : SimulationConfig} {memory : σ}
    {before : List (Machine σ)} {x : Machine σ} {e : Event (Callback σ)} {id : RequestId}
    (h : Life (idle (World.start config memory)) before x) (hdirect : x.world.store.Direct)
    (htaken : x.taken? = some e) (hexpires : e.Expires id) :
    ∃ s ∈ before.filterMap delivery?, s.request = id := by
  have hx := (h.sound (sound_idle config memory)).agenda
  rcases h.sendings with ⟨deeds, hledger⟩
  rcases Option.map_eq_some_iff.1 htaken with ⟨t, hturn, rfl⟩
  rcases (turn?_spec hturn).1.take with ⟨horizon, agenda, htake, -⟩
  rcases Agenda.take?_eq_some htake with ⟨rest, hpending, -, -⟩
  have hmem : t.event ∈ x.world.agenda.pending := by simp [hpending]
  rcases hledger.path.agenda.planned.2 t.event hmem with hstart | ⟨clock, delay, hlog, -⟩
  · cases hstart
  rcases hledger.path.watched (mem_log hlog) hexpires with
    ⟨start, transit, d, target, hd, hdeliver, hseq⟩
  have hsending : d.sending? = some ⟨id, target, d.time, 0.0⟩ := by
    simp [Event.sending?, hdeliver]
  have hscheduled : d ∈ Agenda.schedules (deeds.filterMap Deed.agenda?) := by
    refine List.mem_filterMap.2 ⟨.scheduled start transit d, ?_, rfl⟩
    exact List.mem_filterMap.2 ⟨_, hd, rfl⟩
  rcases List.mem_append.1 (hledger.path.agenda.perm.mem_iff.2 (List.mem_append_right _ hscheduled))
    with htakes | hleft
  · rw [hledger.takes] at htakes
    rcases List.mem_filterMap.1 htakes with ⟨y, hy, hevent⟩
    refine ⟨⟨id, target, d.time, 0.0⟩, List.mem_filterMap.2 ⟨y, hy, ?_⟩, rfl⟩
    rw [delivery?, hevent]
    exact hsending
  · -- It cannot be left, as the timeout is the first event of the agenda.
    exfalso
    have hdue := (h.delivering hdirect).due d hleft (by simp [hsending])
    have hlate := hx.due t.event hmem
    have hordered := hx.ordered
    have hread := hx.reading d hleft
    rw [hpending] at hordered hleft
    rcases List.mem_cons.1 hleft with rfl | hrest
    · exact lt_irrefl _ hseq
    · have hprecedes := (List.pairwise_cons.1 hordered).1 d hrest
      rw [Event.precedes_iff (hx.reading t.event hmem) hread, hdue] at hprecedes
      change x.world.agenda.now.place ≤ t.event.time.place at hlate
      change t.event.time.place < x.world.agenda.now.place ∨
        t.event.time.place = x.world.agenda.now.place ∧ t.event.seq < d.seq at hprecedes
      omega

/-- A request has been delivered when a transition is about to settle it. -/
theorem Life.delivered_before {config : SimulationConfig} {memory : σ}
    {before : List (Machine σ)} {x : Machine σ} {a : Answer σ}
    (h : Life (idle (World.start config memory)) before x) (hdirect : x.world.store.Direct)
    (hhost : HandlesDelivered (before ++ [x])) (ha : x.answer? = some a) :
    ∃ s ∈ before.filterMap delivery?, s.request = a.request := by
  by_cases hany : ∃ y ∈ before ++ [x], y.handles? = some a.request
  · rcases hany with ⟨y, hy, hhandles⟩
    exact hhost.before hy hhandles
  · -- The host has had nothing to do with it.
    have hnone : ∀ y ∈ before, y.handles? ≠ some a.request :=
      fun y hy hhandles => hany ⟨y, List.mem_append_left _ hy, hhandles⟩
    rcases answer?_cases ha with hhandles | ⟨outcome, hfocus⟩ | ⟨e, htaken, hwork⟩
    · exact absurd ⟨x, by simp, hhandles⟩ hany
    · exact h.delivered_of_ended hnone hfocus
    · rcases hwork with ⟨failure, hwork⟩ | hexpires
      · exact absurd hwork (h.unreplied (fun e he => by cases he) hnone e (taken?_spec htaken).1 _)
      · exact h.delivered_of_expires hdirect htaken hexpires

/-! ## Entries -/

theorem filterMap_delivery? (past : List (Machine σ)) :
    past.filterMap delivery? = (past.filterMap taken?).filterMap Event.sending? := by
  rw [List.filterMap_filterMap]
  rfl

/-- An event that delivers a request is marked as a delivery. -/
theorem Life.kind_of_delivery {config : SimulationConfig} {memory : σ} {past : List (Machine σ)}
    {m : Machine σ} (h : Life (idle (World.start config memory)) past m)
    (hdirect : m.world.store.Direct) {e : Event (Callback σ)} (he : e ∈ past.filterMap taken?)
    (hdelivers : e.sending?.isSome = true) : e.kind = .delivery := by
  rcases List.mem_filterMap.1 he with ⟨x, hx, htaken⟩
  rcases h.through (List.mem_append_left _ hx) with ⟨before, after, hbefore, hafter⟩
  exact (hbefore.delivering (hafter.grows.direct hdirect)).kind e (taken?_spec htaken).1 hdelivers

/-- The journal gets the entries of the deeds. -/
theorem Account.entries {a b : Machine σ} {past : List (Machine σ)} {deeds : List (Deed σ)}
    (h : Account a past deeds b) (ha : a.world.journal.Recounts) :
    b.world.journal.Recounts ∧ b.world.journal.entries.toList =
      a.world.journal.entries.toList ++ deeds.filterMap Deed.entry? := by
  rw [h.path.journal]
  exact ⟨ha.foldl _, Journal.entries_foldl _ ha.enabled⟩

/-- Every event that was taken is in the journal. -/
theorem Account.dispatched {a b : Machine σ} {past : List (Machine σ)} {deeds : List (Deed σ)}
    (h : Account a past deeds b) {e : Event (Callback σ)} (he : e ∈ past.filterMap taken?) :
    .dispatched e.time e.seq e.kind ∈ deeds.filterMap Deed.entry? := by
  rw [← h.taken] at he
  rcases List.mem_filterMap.1 he with ⟨d, hd, htaken⟩
  refine List.mem_filterMap.2 ⟨d, hd, ?_⟩
  cases d with
  | agenda deed =>
    cases deed with
    | taken other =>
      cases htaken
      rfl
    | _ => cases htaken
  | _ => cases htaken

/-- Where the host writes nothing, a settlement in the journal is that of a transition. -/
theorem Account.settling {a b : Machine σ} {past : List (Machine σ)} {deeds : List (Deed σ)}
    (h : Account a past deeds b) (hrecorded : past.filterMap recorded? = []) {time : Time}
    {id : RequestId} {status : Status} {failure : Option Failure}
    (hmem : .settled time id status failure ∈ deeds.filterMap Deed.entry?) :
    ∃ x ∈ past, ∃ answer, x.settling? = some answer ∧ answer.request = id := by
  rcases List.mem_filterMap.1 hmem with ⟨d, hd, hentry⟩
  have hnot : d.recorded? = none := by
    rw [← h.recorded, List.filterMap_eq_nil_iff] at hrecorded
    exact hrecorded d hd
  cases d with
  | settled _ request cause =>
    cases hentry
    have hsettled : (id, failure) ∈ deeds.filterMap Deed.settled? :=
      List.mem_filterMap.2 ⟨_, hd, rfl⟩
    rw [h.settled] at hsettled
    rcases List.mem_filterMap.1 hsettled with ⟨x, hx, hmap⟩
    rcases Option.map_eq_some_iff.1 hmap with ⟨answer, hanswer, hpair⟩
    exact ⟨x, hx, answer, hanswer, congrArg Prod.fst hpair⟩
  | recorded entry => cases hnot
  | agenda deed => cases deed <;> cases hentry
  | _ => cases hentry

/-- What comes before an element that is new. -/
theorem mem_front {β : Type} {old new front back : List β} {x y : β}
    (h : old ++ new = front ++ y :: back) (hnew : y ∉ old) (hx : x ∈ old) : x ∈ front := by
  rcases List.append_eq_append_iff.1 h with ⟨rest, rfl, -⟩ | ⟨rest, rfl, hrest⟩
  · exact List.mem_append_left _ hx
  · cases rest with
    | nil => simpa using hx
    | cons z rest =>
      cases hrest
      exact absurd (List.mem_append_right front List.mem_cons_self) hnew

/-- A life in which the journal keeps its entries, and only the scheduler and the requests of
evaluations write into it. -/
structure Chronicle (config : SimulationConfig) (memory : σ) (past : List (Machine σ))
    (m : Machine σ) : Prop where
  life : Life (idle (World.start config memory)) past m
  journal : config.journal = true
  host : ∀ x ∈ past, x.meddles = false

namespace Chronicle

variable {config : SimulationConfig} {memory : σ} {past : List (Machine σ)} {m : Machine σ}

theorem recounts_idle (h : Chronicle config memory past m) :
    (idle (World.start config memory)).world.journal.Recounts := by
  show (Journal.empty config.journal).Recounts
  rw [h.journal]
  exact Journal.recounts_empty

theorem told (h : Chronicle config memory past m) : m.world.Told := by
  refine h.life.told h.host ?_
  show (Journal.empty config.journal).Tells #[]
  rw [h.journal]
  exact Journal.tells_empty

theorem timely (h : Chronicle config memory past m) : m.world.journal.Timely m.world.now := by
  have hsound := sound_idle config memory
  rcases h.life.deeds hsound.waiting with ⟨deeds, haccount⟩
  refine haccount.path.timely hsound ?_ (Journal.timely_empty _ _)
  rw [haccount.recorded]
  exact filterMap_recorded? h.host

theorem recounts (h : Chronicle config memory past m) : m.world.journal.Recounts := by
  rcases h.life.deeds (sound_idle config memory).waiting with ⟨deeds, haccount⟩
  exact (haccount.entries h.recounts_idle).1

theorem cut {before after : List (Machine σ)} {x : Machine σ}
    (h : Chronicle config memory (before ++ x :: after) m) : Chronicle config memory before x where
  life := h.life.cut.1
  journal := h.journal
  host := fun y hy => h.host y (List.mem_append_left _ hy)

theorem dispatched (h : Chronicle config memory past m) {e : Event (Callback σ)}
    (he : e ∈ past.filterMap taken?) :
    .dispatched e.time e.seq e.kind ∈ m.world.journal.entries.toList := by
  rcases h.life.deeds (sound_idle config memory).waiting with ⟨deeds, haccount⟩
  rw [(haccount.entries h.recounts_idle).2]
  exact List.mem_append_right _ (haccount.dispatched he)

/-- The journal says nothing about the settlement of a request that is pending. -/
theorem not_settled (h : Chronicle config memory past m) {id : RequestId}
    (hpending : (m.world.request? id).any Request.isPending = true) {time : Time}
    {status : Status} {failure : Option Failure} :
    .settled time id status failure ∉ m.world.journal.entries.toList := by
  intro hmem
  rcases (Option.any_eq_true _ _).1 hpending with ⟨r, hr, hp⟩
  rcases h.told.made id (World.request?_lt hr) with ⟨s, hs, -, hword⟩
  cases (World.request?_eq_some.1 hr).symm.trans hs
  exact hword.not_settled hp time id status failure
    (List.mem_filter.2 ⟨hmem, by simp [JournalEntry.about]⟩)

/-- The dispatch of its delivery comes before the settlement of a request. -/
theorem delivered (h : Chronicle config memory past m) (hdirect : m.world.store.Direct)
    (hhost : HandlesDelivered past) {front back : List JournalEntry} {time : Time}
    {id : RequestId} {status : Status} {failure : Option Failure}
    (hentries : m.world.journal.entries.toList =
      front ++ .settled time id status failure :: back) :
    ∃ e ∈ past.filterMap taken?, e.delivers id = true ∧
      .dispatched e.time e.seq .delivery ∈ front := by
  rcases h.life.deeds (sound_idle config memory).waiting with ⟨deeds, haccount⟩
  have hall := (haccount.entries h.recounts_idle).2
  have hmem : .settled time id status failure ∈ deeds.filterMap Deed.entry? := by
    change _ = deeds.filterMap Deed.entry? at hall
    rw [← hall, hentries]
    simp
  rcases haccount.settling (filterMap_recorded? h.host) hmem with ⟨x, hx, a, hsettling, rfl⟩
  rcases List.append_of_mem hx with ⟨before, after, rfl⟩
  rcases Option.filter_eq_some_iff.1 hsettling with ⟨hanswer, hpending⟩
  -- The life up to the transition that settles the request, and from there on.
  have hx := h.cut
  have hrest := h.life.rest
  have hdirectx := hrest.grows.direct hdirect
  have hhostx : HandlesDelivered (before ++ [x]) := by
    have hall : HandlesDelivered ((before ++ [x]) ++ after) := by
      rw [List.append_assoc]
      exact hhost
    exact hall.cut
  rcases hx.life.delivered_before hdirectx hhostx hanswer with ⟨s, hs, hrequest⟩
  rw [filterMap_delivery?] at hs
  rcases List.mem_filterMap.1 hs with ⟨e, he, hsending⟩
  refine ⟨e, ?_, by simp [Event.delivers, hsending, hrequest], ?_⟩
  · rw [List.filterMap_append]
    exact List.mem_append_left _ he
  · -- The request has not settled before, so the settlement is one of the later entries.
    have hdispatched := hx.dispatched he
    rw [hx.life.kind_of_delivery hdirectx he (by simp [hsending])] at hdispatched
    rcases hrest.deeds (hx.life.sound (sound_idle config memory)).waiting with ⟨later, hlater⟩
    have hsplit := (hlater.entries hx.recounts).2
    rw [hentries] at hsplit
    exact mem_front hsplit.symm (hx.not_settled hpending) hdispatched

end Chronicle

end Machine
end Callflow
