import Callflow.Format.Text
import Callflow.Proofs.Format.Journal
import Callflow.Proofs.Format.Program

/-!
# Values survive their texts

For each type that has texts (`DocumentType`): a value that fits and is not nested too deep is read
back from its text, `DocumentType.parse?_render`. And whatever the text that a value was read from,
the text written for it is read as the same value, so that writing and reading again changes
nothing: `DocumentType.render_canonical`.
-/

namespace Callflow

/-- The types whose values are written as texts and read back. -/
inductive DocumentType where
  | program
  | delay
  | growth
  | caller
  | status
  | failure
  | eventKind
  | eventId
  | requestId
  | entry
  | stats
  | config

namespace DocumentType

/-- The values of a type. -/
def Value : DocumentType → Type
  | .program => Activity
  | .delay => Delay
  | .growth => Growth
  | .caller => Caller
  | .status => Status
  | .failure => Failure
  | .eventKind => EventKind
  | .eventId => EventId
  | .requestId => RequestId
  | .entry => JournalEntry
  | .stats => RequestStats
  | .config => SimulationConfig

/-- The value that a text holds. -/
def parse? : (d : DocumentType) → String → Option d.Value
  | .program => Activity.parse?
  | .delay => Delay.parse?
  | .growth => Growth.parse?
  | .caller => Caller.parse?
  | .status => Status.parse?
  | .failure => Failure.parse?
  | .eventKind => EventKind.parse?
  | .eventId => EventId.parse?
  | .requestId => RequestId.parse?
  | .entry => JournalEntry.parse?
  | .stats => RequestStats.parse?
  | .config => SimulationConfig.parse?

/-- The text of a value. -/
def render : (d : DocumentType) → d.Value → String
  | .program => Activity.render
  | .delay => Delay.render
  | .growth => Growth.render
  | .caller => Caller.render
  | .status => Status.render
  | .failure => Failure.render
  | .eventKind => EventKind.render
  | .eventId => EventId.render
  | .requestId => RequestId.render
  | .entry => JournalEntry.render
  | .stats => RequestStats.render
  | .config => SimulationConfig.render

/-- The document of a value. -/
def toJson : (d : DocumentType) → d.Value → Json
  | .program => Activity.toJson
  | .delay => Delay.toJson
  | .growth => Growth.toJson
  | .caller => Caller.toJson
  | .status => Status.toJson
  | .failure => Failure.toJson
  | .eventKind => EventKind.toJson
  | .eventId => EventId.toJson
  | .requestId => RequestId.toJson
  | .entry => JournalEntry.toJson
  | .stats => RequestStats.toJson
  | .config => SimulationConfig.toJson

/-- Whether every double in a value is finite, and every other number of the width that its type
says. -/
def Fits : (d : DocumentType) → d.Value → Prop
  | .program => Activity.Fits
  | .delay => Delay.Fits
  | .growth => Growth.Fits
  | .caller => fun _ => True
  | .status => fun _ => True
  | .failure => Failure.Fits
  | .eventKind => fun _ => True
  | .eventId => EventId.Fits
  | .requestId => RequestId.Fits
  | .entry => JournalEntry.Fits
  | .stats => RequestStats.Fits
  | .config => SimulationConfig.Fits

/-- The value that a document holds. -/
def ofJson? : (d : DocumentType) → Json → Option d.Value
  | .program => Activity.ofJson?
  | .delay => Delay.ofJson?
  | .growth => Growth.ofJson? false
  | .caller => Caller.ofJson? false
  | .status => Status.ofJson? false
  | .failure => Failure.ofJson? false
  | .eventKind => EventKind.ofJson? false
  | .eventId => EventId.ofJson?
  | .requestId => RequestId.ofJson?
  | .entry => JournalEntry.ofJson?
  | .stats => RequestStats.ofJson?
  | .config => SimulationConfig.ofJson?

/-- Whether a text is read ahead as a whole in search of a tag. -/
def ahead : DocumentType → Bool
  | .program | .delay | .growth | .failure | .entry => true
  | _ => false

theorem codec (d : DocumentType) : Json.Codec d.toJson d.ofJson? d.Fits := by
  cases d with
  | program => exact Activity.codec
  | delay => exact Delay.codec
  | growth => exact Growth.codec false
  | caller => exact Caller.codec false
  | status => exact Status.codec false
  | failure => exact Failure.codec false
  | eventKind => exact EventKind.codec false
  | eventId => exact EventId.codec
  | requestId => exact RequestId.codec
  | entry => exact JournalEntry.codec
  | stats => exact RequestStats.codec
  | config => exact SimulationConfig.codec

theorem render_eq (d : DocumentType) (a : d.Value) : d.render a = (d.toJson a).compact := by
  cases d <;> rfl

theorem parse?_eq (d : DocumentType) (text : String) :
    d.parse? text = ((Json.parse? text).filter fun v => !d.ahead || Json.Bounded v).bind
      d.ofJson? := by
  have hall : (Json.parse? text).filter (fun _ => true) = Json.parse? text := by
    cases Json.parse? text <;> rfl
  cases d
  case program | delay | growth | failure | entry => rfl
  all_goals
    show _ = ((Json.parse? text).filter fun _ => true).bind _
    rw [hall]
    rfl

/-- Only programs are nested deeper than three. -/
theorem height_toJson (d : DocumentType) (a : d.Value) (h : d ≠ .program) :
    (d.toJson a).height ≤ 3 := by
  cases d with
  | program => exact absurd rfl h
  | delay => exact (Delay.height_toJson a).trans (by decide)
  | growth => exact (Growth.height_toJson a).trans (by decide)
  | caller => exact (Caller.height_toJson a).trans (by decide)
  | status => exact Nat.zero_le 3
  | failure => exact (Failure.height_toJson a).trans (by decide)
  | eventKind => exact Nat.zero_le 3
  | eventId => exact Nat.zero_le 3
  | requestId => exact Nat.zero_le 3
  | entry => exact JournalEntry.height_toJson a
  | stats => exact (RequestStats.height_toJson a).trans (by decide)
  | config => exact (SimulationConfig.height_toJson a).trans (by decide)

theorem parse?_compact {d : DocumentType} {a : d.Value} (h : d.Fits a)
    (hheight : (d.toJson a).height ≤ Json.depthLimit) : d.parse? (d.toJson a).compact = some a := by
  have hwritten := d.codec.written h
  have hbounded : Json.Bounded (d.toJson a) = true := by
    unfold Json.Bounded
    rw [hwritten.readable, decide_eq_true hheight]
    rfl
  rw [parse?_eq, Json.parse?_compact hwritten.sound hwritten.readable, Option.filter_some, hbounded,
    Bool.or_true, if_pos rfl]
  exact d.codec.read_write h

/-- A value that was read fits, and is not nested too deep. -/
theorem fits_of_parse? {d : DocumentType} {text : String} {a : d.Value}
    (h : d.parse? text = some a) : d.Fits a ∧ (d.toJson a).height ≤ Json.depthLimit := by
  rw [parse?_eq] at h
  rcases Option.bind_eq_some_iff.1 h with ⟨v, hv, ha⟩
  rcases Option.filter_eq_some_iff.1 hv with ⟨hparsed, hahead⟩
  have hsound := Json.parse?_sound hparsed
  refine ⟨d.codec.fits hsound ha, ?_⟩
  by_cases hprogram : d = .program
  · subst hprogram
    -- A program was read out of a document within the limit, and is written no higher.
    have hbounded : v.readable = true ∧ v.height ≤ Json.depthLimit := by
      simpa [Json.Bounded, ahead] using hahead
    exact (Activity.good_of_ofJson? hsound ha).2.trans hbounded.2
  · exact (d.height_toJson a hprogram).trans (by decide)

/-- Decoding undoes encoding: a value in which every number fits, and whose document is not nested
too deep, is read back from its text. -/
theorem parse?_render (d : DocumentType) (a : d.Value) (h : d.Fits a)
    (hheight : (d.toJson a).height ≤ Json.depthLimit) : d.parse? (d.render a) = some a := by
  rw [render_eq]
  exact parse?_compact h hheight

/-- A program with quotes and a line break in its names, a negative zero and the largest limit. -/
def stubbornCall : Activity :=
  .sequence [.retry (.query "a\"b" "\\\n" none) 0xFFFFFFFF ⟨-0.0, .exponential 1.5 (some 60.0)⟩,
    .defineService "" [.ignoreError .fail]]

theorem stubbornCall_parse?_render :
    DocumentType.parse? .program (DocumentType.render .program stubbornCall) =
      some stubbornCall := by
  have hfits : stubbornCall.Fits := by
    refine ⟨⟨fun _ hx => absurd hx (Option.not_mem_none _), by decide,
      Decimal.isFinite_neg Decimal.isFinite_zero, by decide +kernel, ?_⟩, ⟨trivial, trivial⟩,
      trivial⟩
    intro x hx
    cases hx
    decide +kernel
  exact parse?_render .program stubbornCall hfits (by decide +kernel)

/-- Every text that is accepted has one canonical form: the text of the value that it was read as is
within the limit of nesting, is read as the same value, and is written again as itself. -/
theorem render_canonical (d : DocumentType) (text : String) (a : d.Value)
    (h : d.parse? text = some a) :
    (d.toJson a).height ≤ Json.depthLimit ∧ d.parse? (d.render a) = some a ∧
      ∀ b, d.parse? (d.render a) = some b → d.render b = d.render a := by
  rcases fits_of_parse? h with ⟨hfits, hheight⟩
  have hread : d.parse? (d.render a) = some a := by
    rw [render_eq]
    exact parse?_compact hfits hheight
  refine ⟨hheight, hread, ?_⟩
  intro b hb
  rw [hread] at hb
  rw [Option.some_inj.1 hb]

/-- An activity by position, in which another one has a field that it does not know. -/
def positional : String := "[ \"ignore_error\", \x7b\"x\": [], \"node\": \"fail\"\x7d ]"

theorem positional_render_canonical :
    let a : Activity := .ignoreError .fail
    (DocumentType.toJson .program a).height ≤ Json.depthLimit ∧
      DocumentType.parse? .program (DocumentType.render .program a) = some a ∧
      ∀ b, DocumentType.parse? .program (DocumentType.render .program a) = some b →
        DocumentType.render .program b = DocumentType.render .program a := by
  -- It is read as a program with the same canonical text.
  have htext : (DocumentType.parse? .program positional).map (DocumentType.render .program) =
      some (DocumentType.render .program (.ignoreError .fail)) := by decide +kernel
  rcases Option.map_eq_some_iff.1 htext with ⟨b, hb, hsame⟩
  rcases fits_of_parse? hb with ⟨hfits, hheight⟩
  have hread := parse?_render .program b hfits hheight
  rw [hsame, parse?_render .program (.ignoreError .fail) trivial (by decide)] at hread
  rw [← Option.some_inj.1 hread] at hb
  exact render_canonical .program positional (.ignoreError .fail) hb

end DocumentType
end Callflow
