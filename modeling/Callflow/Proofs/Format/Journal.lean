import Callflow.Format.Report
import Callflow.Proofs.Format.Request

/-!
# Documents about the journal survive

Journal entries, request counts and configurations are read back from their documents. An entry
carries the name of its variant in front of its fields, and all values of its fields survive.
-/

namespace Callflow

open Json (Codec)

/-! ## Events -/

theorem EventKind.named : Json.Named all word := by
  intro k
  cases k <;> rfl

theorem EventKind.codec (ahead : Bool) : Codec toJson (ofJson? ahead) fun _ => True :=
  Json.codec_word named ahead

/-- Whether the number is a word. -/
def EventId.Fits (id : EventId) : Prop := id.seq < Json.word64

theorem EventId.codec : Codec toJson ofJson? Fits :=
  Json.codec_word64.wrap (fun _ => rfl) fun _ => rfl

/-! ## Entries -/

theorem EntryVariant.named : Json.Named all word := by
  intro k
  cases k <;> rfl

theorem EntryVariant.distinct : Json.Distinct JournalEntry.tag fieldNames := by
  intro k
  cases k <;> decide

namespace JournalEntry

/-- Whether every number is finite or a word. -/
def Fits : JournalEntry → Prop
  | .dispatched time seq _ => Decimal.isFinite time = true ∧ seq < Json.word64
  | .issued time request _ _ _ => Decimal.isFinite time = true ∧ request.Fits
  | .settled time request _ failure =>
    Decimal.isFinite time = true ∧ request.Fits ∧ Json.FitsOption Failure.Fits failure
  | .staleReply time request _ => Decimal.isFinite time = true ∧ request.Fits

/-- An entry is read from its variant and the values of its fields. -/
theorem ofJson?_zip (k : EntryVariant) (vs : List Json)
    (hlength : k.fieldNames.length = vs.length) :
    ofJson? (.obj ((tag, .str k.word) :: k.fieldNames.zip vs)) = ofContent? k (vs.map some) := by
  have hvariant : Json.variant? false EntryVariant.all EntryVariant.word (.str k.word) = some k :=
    EntryVariant.named k
  simp only [ofJson?, Json.fields?, Json.content?_zip EntryVariant.distinct hvariant hlength,
    Option.bind_eq_bind, Option.bind_some]

theorem read_write {e : JournalEntry} (h : e.Fits) : ofJson? e.toJson = some e := by
  cases e with
  | dispatched time seq kind =>
    apply (ofJson?_zip .dispatched [.ofFloat time, .ofNat seq, kind.toJson] rfl).trans
    simp only [List.map_cons, List.map_nil, ofContent?, Json.codec_float.read_write h.1,
      Json.codec_word64.read_write h.2, (EventKind.codec true).read_write trivial,
      Option.bind_eq_bind, Option.bind_some, Option.pure_def]
  | issued time request caller service operation =>
    apply (ofJson?_zip .issued [.ofFloat time, request.toJson, caller.toJson, .str service,
      .str operation] rfl).trans
    simp only [List.map_cons, List.map_nil, ofContent?, Json.codec_float.read_write h.1,
      RequestId.codec.read_write h.2, (Caller.codec true).read_write trivial, Json.string?,
      Option.bind_eq_bind, Option.bind_some, Option.pure_def]
  | settled time request status failure =>
    apply (ofJson?_zip .settled [.ofFloat time, request.toJson, status.toJson,
      .ofOption Failure.toJson failure] rfl).trans
    simp only [List.map_cons, List.map_nil, ofContent?, Json.codec_float.read_write h.1,
      RequestId.codec.read_write h.2.1, (Status.codec true).read_write trivial,
      (Failure.codec true).optional?_ofOption h.2.2 fun f _ => f.toJson_ne_null,
      Option.bind_eq_bind, Option.bind_some, Option.pure_def]
  | staleReply time request attempted =>
    apply (ofJson?_zip .staleReply [.ofFloat time, request.toJson, attempted.toJson] rfl).trans
    simp only [List.map_cons, List.map_nil, ofContent?, Json.codec_float.read_write h.1,
      RequestId.codec.read_write h.2, (Status.codec true).read_write trivial, Option.bind_eq_bind,
      Option.bind_some, Option.pure_def]

theorem written {e : JournalEntry} (h : e.Fits) : Json.Written e.toJson := by
  cases e with
  | dispatched time seq kind =>
    simp [toJson, tagged, Json.codec_float.written h.1, Json.codec_word64.written h.2,
      (EventKind.codec true).written trivial]
  | issued time request caller service operation =>
    simp [toJson, tagged, Json.codec_float.written h.1, RequestId.codec.written h.2,
      (Caller.codec true).written trivial]
  | settled time request status failure =>
    simp [toJson, tagged, Json.codec_float.written h.1, RequestId.codec.written h.2.1,
      (Status.codec true).written trivial, (Failure.codec true).written_option h.2.2]
  | staleReply time request attempted =>
    simp [toJson, tagged, Json.codec_float.written h.1, RequestId.codec.written h.2,
      (Status.codec true).written trivial]

theorem fits {v : Json} {e : JournalEntry} (hv : v.Sound) (h : ofJson? v = some e) : e.Fits := by
  simp only [ofJson?, Option.bind_eq_bind, Option.bind_eq_some_iff, Prod.exists] at h
  obtain ⟨fs, hfs, k, values, hvalues, h⟩ := h
  have hall := (hv.fields? hfs).content? hvalues
  unfold ofContent? at h
  split at h
  all_goals
    simp only [List.forall_mem_cons, Option.mem_some_iff, forall_eq', Option.bind_eq_bind,
      Option.bind_eq_some_iff, Option.pure_def, Option.some_inj, reduceCtorEq] at hall h
  · obtain ⟨time, htime, seq, hseq, kind, -, rfl⟩ := h
    exact ⟨Json.codec_float.fits hall.1 htime, Json.codec_word64.fits hall.2.1 hseq⟩
  · obtain ⟨time, htime, request, hrequest, caller, -, service, -, operation, -, rfl⟩ := h
    exact ⟨Json.codec_float.fits hall.1 htime, RequestId.codec.fits hall.2.1 hrequest⟩
  · obtain ⟨time, htime, request, hrequest, status, -, failure, hfailure, rfl⟩ := h
    exact ⟨Json.codec_float.fits hall.1 htime, RequestId.codec.fits hall.2.1 hrequest,
      (Failure.codec true).fits_option hall.2.2.2.1 hfailure⟩
  · obtain ⟨time, htime, request, hrequest, attempted, -, rfl⟩ := h
    exact ⟨Json.codec_float.fits hall.1 htime, RequestId.codec.fits hall.2.1 hrequest⟩

theorem codec : Codec toJson ofJson? Fits where
  read_write := read_write
  written := written
  fits := fits

theorem height_toJson (e : JournalEntry) : e.toJson.height ≤ 3 := by
  cases e with
  | dispatched time seq kind => simp [toJson, tagged, EventKind.toJson]
  | issued time request caller service operation =>
    simp [toJson, tagged, RequestId.toJson, Caller.height_toJson caller]
  | settled time request status failure =>
    have hfailure := Json.height_ofOption (fun f => (Failure.height_toJson f).trans one_le_two)
      failure
    simpa [toJson, tagged, RequestId.toJson, Status.toJson] using hfailure
  | staleReply time request attempted =>
    simp [toJson, tagged, RequestId.toJson, Status.toJson]

end JournalEntry

/-! ## Counts -/

namespace RequestStats

/-- Whether every count is a word. -/
structure Fits (s : RequestStats) : Prop where
  issued : s.issued < Json.word64
  succeeded : s.succeeded < Json.word64
  failed : s.failed < Json.word64
  timedOut : s.timedOut < Json.word64
  staleReplies : s.staleReplies < Json.word64

theorem distinct : fieldNames.Nodup := by decide

/-- Counts are read from their values. -/
theorem ofJson?_zip (vs : List Json) (hlength : fieldNames.length = vs.length) :
    ofJson? (.obj (fieldNames.zip vs)) = ofValues? (vs.map some) := by
  simp only [ofJson?, Json.fields?, Json.select?_zip distinct hlength, Option.bind_eq_bind,
    Option.bind_some]

theorem codec : Codec toJson ofJson? Fits where
  read_write {s} h := by
    apply (ofJson?_zip [.ofNat s.issued, .ofNat s.succeeded, .ofNat s.failed, .ofNat s.timedOut,
      .ofNat s.staleReplies] rfl).trans
    simp only [List.map_cons, List.map_nil, ofValues?, Json.codec_word64.read_write h.issued,
      Json.codec_word64.read_write h.succeeded, Json.codec_word64.read_write h.failed,
      Json.codec_word64.read_write h.timedOut, Json.codec_word64.read_write h.staleReplies,
      Option.bind_eq_bind, Option.bind_some, Option.pure_def]
  written {s} h := by
    simp [toJson, Json.codec_word64.written h.issued, Json.codec_word64.written h.succeeded,
      Json.codec_word64.written h.failed, Json.codec_word64.written h.timedOut,
      Json.codec_word64.written h.staleReplies]
  fits {v s} hv h := by
    simp only [ofJson?, Option.bind_eq_bind, Option.bind_eq_some_iff] at h
    obtain ⟨fs, hfs, values, hvalues, h⟩ := h
    have hall := (hv.fields? hfs).select? hvalues
    unfold ofValues? at h
    split at h
    · simp only [List.forall_mem_cons, Option.mem_some_iff, forall_eq'] at hall
      simp only [Option.bind_eq_bind, Option.bind_eq_some_iff, Option.pure_def,
        Option.some_inj] at h
      obtain ⟨issued, hissued, succeeded, hsucceeded, failed, hfailed, timedOut, htimedOut,
        staleReplies, hstaleReplies, rfl⟩ := h
      exact ⟨Json.codec_word64.fits hall.1 hissued, Json.codec_word64.fits hall.2.1 hsucceeded,
        Json.codec_word64.fits hall.2.2.1 hfailed, Json.codec_word64.fits hall.2.2.2.1 htimedOut,
        Json.codec_word64.fits hall.2.2.2.2.1 hstaleReplies⟩
    · cases h

theorem height_toJson (s : RequestStats) : s.toJson.height ≤ 1 := by simp [toJson]

end RequestStats

/-! ## Configurations -/

namespace SimulationConfig

/-- Whether the limit is a word. -/
def Fits (c : SimulationConfig) : Prop := Json.FitsOption (· < Json.word64) c.maxEvents

theorem distinct : fieldNames.Nodup := by decide

/-- The values of a configuration are values of its fields, also where some are left out. -/
theorem forall_padded? {P : Json → Prop} {fs : Json.Fields Json} (h : fs.All P)
    {values : List (Option Json)} (hvalues : padded? fs = some values) :
    ∀ o ∈ values, ∀ v ∈ o, P v := by
  cases fs with
  | named fields => exact Json.Fields.All.select? h hvalues
  | listed items =>
    simp only [padded?] at hvalues
    split_ifs at hvalues
    cases hvalues
    intro o ho v hv
    rcases List.mem_append.1 ho with ho | ho
    · rcases List.mem_map.1 ho with ⟨w, hw, rfl⟩
      cases hv
      exact h v hw
    · rw [List.eq_of_mem_replicate ho] at hv
      cases hv

/-- A configuration is read from its values. -/
theorem ofJson?_zip (vs : List Json) (hlength : fieldNames.length = vs.length) :
    ofJson? (.obj (fieldNames.zip vs)) = ofValues? (vs.map some) := by
  have hpadded : padded? (.named (fieldNames.zip vs)) = some (vs.map some) :=
    Json.select?_zip distinct hlength
  simp only [ofJson?, Json.fields?, hpadded, Option.bind_eq_bind, Option.bind_some]

theorem codec : Codec toJson ofJson? Fits where
  read_write {c} h := by
    have hlimit := Json.codec_word64.optional?_ofOption h fun n _ => Json.noConfusion
    apply (ofJson?_zip [.bool c.journal, .ofOption .ofNat c.maxEvents] rfl).trans
    simp only [List.map_cons, List.map_nil, ofValues?, Json.bool?, hlimit, Option.bind_eq_bind,
      Option.bind_some, Option.pure_def]
  written {c} h := by
    simp [toJson, Json.codec_word64.written_option h]
  fits {v c} hv h := by
    simp only [ofJson?, Option.bind_eq_bind, Option.bind_eq_some_iff] at h
    obtain ⟨fs, hfs, values, hvalues, h⟩ := h
    have hall := forall_padded? (hv.fields? hfs) hvalues
    unfold ofValues? at h
    split at h
    · rw [List.forall_mem_cons, List.forall_mem_cons] at hall
      split at h
      all_goals
        simp only [Option.bind_eq_bind, Option.bind_eq_some_iff, Option.pure_def,
          Option.some_inj] at h
        obtain ⟨journal, -, limit, hlimit, rfl⟩ := h
        exact Json.codec_word64.fits_option hall.2.1 hlimit
    · cases h

theorem height_toJson (c : SimulationConfig) : c.toJson.height ≤ 1 := by
  have hlimit := Json.height_ofOption (fun n => (Json.height_ofNat n).le) c.maxEvents
  simpa [toJson] using hlimit

end SimulationConfig
end Callflow
