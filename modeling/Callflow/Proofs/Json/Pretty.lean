import Callflow.Proofs.Json.Reading

/-!
# Indented documents are read back

Blanks between words are skipped, so an indented document splits into the same words as one without
blanks (`scan_pretty`), and is read back like it: `parse?_pretty`.
-/

namespace Callflow
namespace Json

/-! ## Blanks -/

theorem scan_space (rest : List Char) : Token.scan (' ' :: rest) = Token.scan rest := by
  rw [Token.scan]
  · rfl
  all_goals simp

theorem scan_spaces (n : ℕ) (rest : List Char) :
    Token.scan (List.replicate n ' ' ++ rest) = Token.scan rest := by
  induction n with
  | zero => rfl
  | succ n ih => rw [List.replicate_succ, List.cons_append, scan_space, ih]

theorem scan_newLine (depth : ℕ) (rest : List Char) :
    Token.scan (newLine depth ++ rest) = Token.scan rest := by
  rw [newLine, List.cons_append, Token.scan]
  · exact scan_spaces _ rest
  all_goals simp

theorem stops_newLine (depth : ℕ) (rest : List Char) :
    Stops isNumeric (newLine depth ++ rest) := stops_cons _ rfl

/-! ## Documents -/

theorem stops_prettyItems (depth : ℕ) (items : List Json) {rest : List Char}
    (h : Stops isNumeric rest) : Stops isNumeric (prettyChars.prettyItems depth items ++ rest) := by
  cases items with
  | nil => exact h
  | cons v items => exact stops_cons _ rfl

theorem stops_prettyFields (depth : ℕ) (fields : List (String × Json)) {rest : List Char}
    (h : Stops isNumeric rest) :
    Stops isNumeric (prettyChars.prettyFields depth fields ++ rest) := by
  cases fields with
  | nil => exact h
  | cons field fields => exact stops_cons _ rfl

mutual

/-- An indented document splits into the words of the document, whatever its depth. -/
theorem scan_pretty : ∀ (v : Json), v.Sound → v.readable = true → ∀ (depth : ℕ)
    {rest : List Char}, Stops isNumeric rest →
      Token.scan (prettyChars depth v ++ rest) = (Token.scan rest).map (v.words ++ ·)
  | .null, hsound, hreadable, _, _, hstop => scan_chars .null hsound hreadable hstop
  | .bool b, hsound, hreadable, _, _, hstop => scan_chars (.bool b) hsound hreadable hstop
  | .int n, hsound, hreadable, _, _, hstop => scan_chars (.int n) hsound hreadable hstop
  | .float x, hsound, hreadable, _, _, hstop => scan_chars (.float x) hsound hreadable hstop
  | .str s, hsound, hreadable, _, _, hstop => scan_chars (.str s) hsound hreadable hstop
  | .unreadable, _, hreadable, _, _, _ => absurd hreadable Bool.false_ne_true
  | .arr [], hsound, hreadable, _, _, hstop => scan_chars (.arr []) hsound hreadable hstop
  | .obj [], hsound, hreadable, _, _, hstop => scan_chars (.obj []) hsound hreadable hstop
  | .arr (v :: items), hsound, hreadable, depth, rest, _ => by
    have hreadable := Bool.and_eq_true_iff.1 hreadable
    have hend := stops_newLine depth (']' :: rest)
    have hvalue := scan_pretty v hsound.1 hreadable.1 (depth + 1)
      (stops_prettyItems (depth + 1) items hend)
    have hitems := scan_prettyItems items hsound.2 hreadable.2 (depth + 1) hend
    rw [scan_newLine, Token.scan] at hitems
    show Token.scan ('[' :: (newLine (depth + 1) ++ prettyChars (depth + 1) v ++
      prettyChars.prettyItems (depth + 1) items ++ newLine depth ++ [']'] ++ rest)) = _
    simp only [List.append_assoc, List.singleton_append]
    rw [Token.scan, scan_newLine, hvalue, hitems]
    simp [words, Function.comp_def]
  | .obj ((name, v) :: fields), hsound, hreadable, depth, rest, _ => by
    have hreadable := Bool.and_eq_true_iff.1 hreadable
    have hend := stops_newLine depth ('\x7d' :: rest)
    have hvalue := scan_pretty v hsound.1 hreadable.1 (depth + 1)
      (stops_prettyFields (depth + 1) fields hend)
    have hfields := scan_prettyFields fields hsound.2 hreadable.2 (depth + 1) hend
    rw [scan_newLine, Token.scan] at hfields
    show Token.scan ('\x7b' :: (newLine (depth + 1) ++ stringChars name ++ [':', ' '] ++
      prettyChars (depth + 1) v ++ prettyChars.prettyFields (depth + 1) fields ++ newLine depth ++
      ['\x7d'] ++ rest)) = _
    simp only [List.append_assoc, List.cons_append, List.nil_append]
    rw [Token.scan, scan_newLine, scan_string, Token.scan, scan_space, hvalue, hfields]
    simp [words, Function.comp_def]

theorem scan_prettyItems : ∀ (items : List Json), Sound.soundItems items →
    readable.readableItems items = true → ∀ (depth : ℕ) {rest : List Char},
      Stops isNumeric rest → Token.scan (prettyChars.prettyItems depth items ++ rest) =
        (Token.scan rest).map (words.wordsItems items ++ ·)
  | [], _, _, _, rest, _ => by simp [prettyChars.prettyItems, words.wordsItems]
  | v :: items, hsound, hreadable, depth, rest, hstop => by
    have hreadable := Bool.and_eq_true_iff.1 hreadable
    have hvalue := scan_pretty v hsound.1 hreadable.1 depth (stops_prettyItems depth items hstop)
    have hitems := scan_prettyItems items hsound.2 hreadable.2 depth hstop
    show Token.scan (',' :: (newLine depth ++ prettyChars depth v ++
      prettyChars.prettyItems depth items ++ rest)) = _
    simp only [List.append_assoc]
    rw [Token.scan, scan_newLine, hvalue, hitems]
    simp [words.wordsItems, Function.comp_def]

theorem scan_prettyFields : ∀ (fields : List (String × Json)), Sound.soundFields fields →
    readable.readableFields fields = true → ∀ (depth : ℕ) {rest : List Char},
      Stops isNumeric rest → Token.scan (prettyChars.prettyFields depth fields ++ rest) =
        (Token.scan rest).map (words.wordsFields fields ++ ·)
  | [], _, _, _, rest, _ => by simp [prettyChars.prettyFields, words.wordsFields]
  | (name, v) :: fields, hsound, hreadable, depth, rest, hstop => by
    have hreadable := Bool.and_eq_true_iff.1 hreadable
    have hvalue := scan_pretty v hsound.1 hreadable.1 depth (stops_prettyFields depth fields hstop)
    have hfields := scan_prettyFields fields hsound.2 hreadable.2 depth hstop
    show Token.scan (',' :: (newLine depth ++ stringChars name ++ [':', ' '] ++
      prettyChars depth v ++ prettyChars.prettyFields depth fields ++ rest)) = _
    simp only [List.append_assoc, List.cons_append, List.nil_append]
    rw [Token.scan, scan_newLine, scan_string, Token.scan, scan_space, hvalue, hfields]
    simp [words.wordsFields, Function.comp_def]

end

/-- An indented document is read back. -/
theorem parse?_pretty {v : Json} (hsound : v.Sound) (hreadable : v.readable = true) :
    parse? v.pretty = some v := by
  have hscan := scan_pretty v hsound hreadable 0 (stops_nil _)
  rw [List.append_nil, Token.scan, Option.map_some, List.append_nil] at hscan
  rw [parse?, pretty, String.toList_ofList]
  exact ofChars?_of_scan hscan

end Json
end Callflow
