import Callflow.Format.Request
import Callflow.Proofs.Json.Record

/-!
# Documents about requests survive

Every caller, status and failure is read back from its document, whether or not the document was
read ahead, and what is read out of any document fits its type.
-/

namespace Callflow

open Json (Codec)

/-! ## Numbers -/

/-- Whether the number is a word. -/
def RequestId.Fits (id : RequestId) : Prop := id.number < Json.word64

theorem RequestId.codec : Codec toJson ofJson? Fits :=
  Json.codec_word64.wrap (fun _ => rfl) fun _ => rfl

/-! ## Variants by their words -/

section Words

variable {α : Type} {all : List α} {word : α → String}

/-- Whether no two variants share a word. -/
def Json.Named (all : List α) (word : α → String) : Prop :=
  ∀ a : α, all.find? (fun b => word b == word a) = some a

/-- A variant without content is read back from its word. -/
theorem Json.codec_word (h : Json.Named all word) (ahead : Bool) :
    Codec (fun a => .str (word a)) (Json.bareVariant? ahead all word) fun _ => True where
  read_write {a} _ := h a
  written {a} _ := Json.written_str (word a)
  fits _ _ := trivial

end Words

theorem Status.named : Json.Named all word := by
  intro s
  cases s <;> rfl

theorem Status.codec (ahead : Bool) : Codec toJson (ofJson? ahead) fun _ => True :=
  Json.codec_word named ahead

/-! ## Callers -/

theorem Caller.codec (ahead : Bool) : Codec toJson (ofJson? ahead) fun _ => True where
  read_write {c} _ := by
    cases c with
    | host => rfl
    | client name => rfl
    | operation service name => rfl
  written {c} _ := by cases c <;> simp [toJson]
  fits _ _ := trivial

theorem Caller.height_toJson (c : Caller) : c.toJson.height ≤ 2 := by
  cases c <;> simp [toJson]

/-! ## Failures -/

theorem FailureVariant.named : Json.Named all word := by
  intro f
  cases f <;> rfl

theorem FailureVariant.distinct : Json.Distinct Failure.tag fieldNames := by
  intro k
  cases k <;> decide

namespace Failure

/-- Whether every number is finite or a word. -/
def Fits : Failure → Prop
  | .timedOut deadline => Decimal.isFinite deadline = true
  | .exhausted attempts => attempts < Json.word32
  | .rejected | .injected => True

/-- A failure is read from its variant and the values of its fields. -/
theorem ofJson?_zip (ahead : Bool) (k : FailureVariant) (vs : List Json)
    (hlength : k.fieldNames.length = vs.length) :
    ofJson? ahead (.obj ((tag, .str k.word) :: k.fieldNames.zip vs)) =
      ofContent? k (vs.map some) := by
  have hvariant : Json.variant? ahead FailureVariant.all FailureVariant.word (.str k.word) =
      some k := FailureVariant.named k
  simp only [ofJson?, Json.fields?, Json.content?_zip FailureVariant.distinct hvariant hlength,
    Option.bind_eq_bind, Option.bind_some]

theorem codec (ahead : Bool) : Codec toJson (ofJson? ahead) Fits where
  read_write {f} h := by
    cases f with
    | rejected => exact ofJson?_zip ahead .rejected [] rfl
    | injected => exact ofJson?_zip ahead .injected [] rfl
    | timedOut deadline =>
      apply (ofJson?_zip ahead .timedOut [.ofFloat deadline] rfl).trans
      show (Json.ofFloat deadline).float?.bind (fun d => some (timedOut d)) = _
      rw [Json.codec_float.read_write h]
      rfl
    | exhausted attempts =>
      apply (ofJson?_zip ahead .exhausted [.ofNat attempts] rfl).trans
      show ((Json.ofNat attempts).nat? Json.word32).bind (fun n => some (exhausted n)) = _
      rw [Json.codec_word32.read_write h]
      rfl
  written {f} h := by
    cases f with
    | rejected => simp [toJson]
    | injected => simp [toJson]
    | timedOut deadline => simp [toJson, Json.codec_float.written h]
    | exhausted attempts => simp [toJson, Json.codec_word32.written h]
  fits {v f} hv h := by
    simp only [ofJson?, Option.bind_eq_bind, Option.bind_eq_some_iff, Prod.exists] at h
    obtain ⟨fs, hfs, k, values, hvalues, h⟩ := h
    have hall := (hv.fields? hfs).content? hvalues
    unfold ofContent? at h
    split at h
    · cases h
      trivial
    · cases h
      trivial
    · simp only [List.forall_mem_cons, Option.mem_some_iff, forall_eq'] at hall
      rcases Option.bind_eq_some_iff.1 h with ⟨d, hd, hsome⟩
      cases hsome
      exact Json.codec_float.fits hall.1 hd
    · simp only [List.forall_mem_cons, Option.mem_some_iff, forall_eq'] at hall
      rcases Option.bind_eq_some_iff.1 h with ⟨n, hn, hsome⟩
      cases hsome
      exact Json.codec_word32.fits hall.1 hn
    · cases h

theorem toJson_ne_null (f : Failure) : f.toJson ≠ .null := by
  cases f <;> exact Json.noConfusion

theorem height_toJson (f : Failure) : f.toJson.height ≤ 1 := by
  cases f <;> simp [toJson]

end Failure
end Callflow
