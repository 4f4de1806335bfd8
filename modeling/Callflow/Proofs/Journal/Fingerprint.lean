import Callflow.Journal.Fingerprint
import Callflow.Proofs.Format.Journal

/-!
# What a fingerprint says

The entries of a journal are digested one after another, with nothing between them and with any
characters in their names. What is digested still determines the entries,
`Journal.bytes_determine`: each entry is one object, and a reader that has completed an object takes
no further word.
-/

namespace Callflow
namespace Journal

/-- The bytes that are digested. -/
def bytes (entries : List JournalEntry) : ByteArray := (String.ofList (chars entries)).toUTF8

theorem fingerprint_eq (j : Journal) : j.fingerprint = Blake3.hex (bytes j.entries.toList) := rfl

theorem stops_chars (es : List JournalEntry) : Json.Stops Json.isNumeric (chars es) := by
  cases es with
  | nil => exact Json.stops_nil _
  | cons e es =>
    have hbrace : ∃ rest, chars (e :: es) = '\x7b' :: rest := by
      cases e <;> exact ⟨_, rfl⟩
    rcases hbrace with ⟨rest, hrest⟩
    rw [hrest]
    exact Json.stops_cons rest rfl

/-- The digested text splits into the words of the entries. -/
theorem scan_chars {es : List JournalEntry} (h : ∀ e ∈ es, e.Fits) :
    Json.Token.scan (chars es) = some (es.flatMap fun e => e.toJson.words) := by
  induction es with
  | nil =>
    show Json.Token.scan [] = _
    rw [Json.Token.scan]
    rfl
  | cons e es ih =>
    rw [List.forall_mem_cons] at h
    have hwritten := JournalEntry.codec.written h.1
    have hentry := Json.scan_chars e.toJson hwritten.sound hwritten.readable (stops_chars es)
    show Json.Token.scan (e.toJson.chars ++ chars es) = _
    rw [hentry, ih h.2]
    rfl

/-- The words of the entries determine the entries. -/
theorem words_inj {es fs : List JournalEntry} (hes : ∀ e ∈ es, e.Fits) (hfs : ∀ f ∈ fs, f.Fits)
    (h : (es.flatMap fun e => e.toJson.words) = fs.flatMap fun f => f.toJson.words) : es = fs := by
  have hwords (e : JournalEntry) : e.toJson.words ≠ [] := by
    cases e <;> exact List.cons_ne_nil _ _
  induction es generalizing fs with
  | nil =>
    cases fs with
    | nil => rfl
    | cons f fs =>
      have hnil := (List.append_eq_nil_iff.1 h.symm).1
      exact absurd hnil (hwords f)
  | cons e es ih =>
    cases fs with
    | nil =>
      have hnil := (List.append_eq_nil_iff.1 h).1
      exact absurd hnil (hwords e)
    | cons f fs =>
      rw [List.forall_mem_cons] at hes hfs
      rcases Json.words_append_inj h with ⟨hdocument, hrest⟩
      have hentry : some e = some f := by
        rw [← JournalEntry.codec.read_write hes.1, hdocument, JournalEntry.codec.read_write hfs.1]
      rw [Option.some_inj.1 hentry, ih hes.2 hfs.2 hrest]

/-- What is digested determines the entries: whatever stands in their names, two lists of entries
with the same bytes are the same. So journals with different entries share a fingerprint only where
two different inputs have the same digest. -/
theorem bytes_determine (es fs : List JournalEntry) (hes : ∀ e ∈ es, e.Fits)
    (hfs : ∀ f ∈ fs, f.Fits) :
    (bytes es = bytes fs → es = fs) ∧
      ∀ j k : Journal, j.entries.toList = es → k.entries.toList = fs → es ≠ fs →
        j.fingerprint = k.fingerprint →
          bytes es ≠ bytes fs ∧ Blake3.hex (bytes es) = Blake3.hex (bytes fs) := by
  have hinj : bytes es = bytes fs → es = fs := by
    intro h
    have htext : String.ofList (chars es) = String.ofList (chars fs) := String.toByteArray_inj.1 h
    have hchars : chars es = chars fs := String.ofList_injective htext
    have hscan := scan_chars hes
    rw [hchars, scan_chars hfs, Option.some_inj] at hscan
    exact words_inj hes hfs hscan.symm
  refine ⟨hinj, ?_⟩
  rintro j k rfl rfl hne hfingerprint
  rw [fingerprint_eq, fingerprint_eq] at hfingerprint
  exact ⟨fun h => hne (hinj h), hfingerprint⟩

/-- Two entries. -/
def pair : List JournalEntry :=
  [.issued 0.5 ⟨0⟩ (.client "ui") "web" "get", .settled 1.5 ⟨0⟩ .error (some (.timedOut 1.5))]

/-- One entry, with the text of another one in a name. -/
def impostor : List JournalEntry :=
  [.issued 0.5 ⟨0⟩ (.client "ui") "web" (String.ofList (['"', '\x7d'] ++ chars [pair[1]]))]

theorem impostor_bytes_determine :
    (bytes pair = bytes impostor → pair = impostor) ∧
      ∀ j k : Journal, j.entries.toList = pair → k.entries.toList = impostor → pair ≠ impostor →
        j.fingerprint = k.fingerprint →
          bytes pair ≠ bytes impostor ∧ Blake3.hex (bytes pair) = Blake3.hex (bytes impostor) := by
  have hfinite : Decimal.isFinite 0.5 = true ∧ Decimal.isFinite 1.5 = true := by decide +kernel
  have hword : (0 : ℕ) < Json.word64 := by decide
  have hpair : ∀ e ∈ pair, e.Fits := by
    simp only [pair, List.forall_mem_cons]
    refine ⟨⟨hfinite.1, hword⟩, ⟨hfinite.2, hword, ?_⟩, fun e he => absurd he List.not_mem_nil⟩
    intro f hf
    cases hf
    exact hfinite.2
  have himpostor : ∀ e ∈ impostor, e.Fits := by
    simp only [impostor, List.forall_mem_cons]
    exact ⟨⟨hfinite.1, hword⟩, fun e he => absurd he List.not_mem_nil⟩
  exact bytes_determine pair impostor hpair himpostor

end Journal
end Callflow
