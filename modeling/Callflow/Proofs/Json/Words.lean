import Callflow.Json.Writer
import Callflow.Proofs.Decimal.Numeral

/-!
# The words of a written document

A written document splits into the words that it was made of: `scan_chars`. Names and strings may
hold any characters, since a quote inside them is written with a backslash (`stringBody_string`);
a number ends where a character follows that no number has.
-/

namespace Callflow
namespace Json

/-! ## Strings -/

/-- Whether a piece of a string stands for a character. -/
def Spells (p : Piece) (c : Char) : Prop := p = .char c ∨ p = .unit c.toNat ∧ c.toNat < 0x20

section Escapes

variable {c e : Char} {rest after : List Char} {pieces : List Piece}

theorem stringBody_letter (h : stringBody rest = some (pieces, after)) (hu : e ≠ 'u')
    (he : escaped? e = some c) :
    stringBody ('\\' :: e :: rest) = some (.char c :: pieces, after) := by
  rw [stringBody, he, h]
  · rfl
  · intro _ _ _ _ _ heq
    exact absurd heq hu

theorem hexUnit?_hexDigit : ∀ n < 0x20,
    hexUnit? '0' '0' (hexDigit (n / 16)) (hexDigit (n % 16)) = some n := by
  decide

theorem stringBody_unit (h : stringBody rest = some (pieces, after)) {n : ℕ} (hn : n < 0x20) :
    stringBody ('\\' :: 'u' :: '0' :: '0' :: hexDigit (n / 16) :: hexDigit (n % 16) :: rest) =
      some (.unit n :: pieces, after) := by
  rw [stringBody, hexUnit?_hexDigit n hn, h]
  rfl

theorem stringBody_plain (h : stringBody rest = some (pieces, after)) (hquote : c ≠ '"')
    (hslash : c ≠ '\\') (hcontrol : ¬ c.toNat < 0x20) :
    stringBody (c :: rest) = some (.char c :: pieces, after) := by
  rw [stringBody, if_neg hcontrol, h]
  · rfl
  · exact hquote
  · intro _ _ _ _ _ heq
    exact absurd heq hslash
  · intro _ _ heq
    exact absurd heq hslash

/-- A written character is one piece of the string. -/
theorem stringBody_escapeChar (c : Char) (h : stringBody rest = some (pieces, after)) :
    ∃ p, Spells p c ∧ stringBody (escapeChar c ++ rest) = some (p :: pieces, after) := by
  unfold escapeChar
  split_ifs with hquote hslash hb ht hn hf hr hcontrol
  · exact ⟨.char c, Or.inl rfl, stringBody_letter h (by decide) (by rw [hquote]; rfl)⟩
  · exact ⟨.char c, Or.inl rfl, stringBody_letter h (by decide) (by rw [hslash]; rfl)⟩
  · exact ⟨.char c, Or.inl rfl, stringBody_letter h (by decide) (by rw [hb]; rfl)⟩
  · exact ⟨.char c, Or.inl rfl, stringBody_letter h (by decide) (by rw [ht]; rfl)⟩
  · exact ⟨.char c, Or.inl rfl, stringBody_letter h (by decide) (by rw [hn]; rfl)⟩
  · exact ⟨.char c, Or.inl rfl, stringBody_letter h (by decide) (by rw [hf]; rfl)⟩
  · exact ⟨.char c, Or.inl rfl, stringBody_letter h (by decide) (by rw [hr]; rfl)⟩
  · exact ⟨.unit c.toNat, Or.inr ⟨rfl, hcontrol⟩, stringBody_unit h hcontrol⟩
  · exact ⟨.char c, Or.inl rfl, stringBody_plain h hquote hslash hcontrol⟩

end Escapes

/-- A piece that stands for a character is joined with no other piece. -/
theorem joinPieces?_cons {p : Piece} {c : Char} (hp : Spells p c) {pieces : List Piece}
    {cs : List Char} (h : joinPieces? pieces = some cs) :
    joinPieces? (p :: pieces) = some (c :: cs) := by
  rcases hp with rfl | ⟨rfl, hcontrol⟩
  · rw [joinPieces?, h]
    rfl
  · have hjoined : joinPieces? (.unit c.toNat :: pieces) = some (Char.ofNat c.toNat :: cs) := by
      rcases pieces with _ | ⟨q | m, rest⟩
      · rw [joinPieces?, if_neg (by omega), h]
        · rfl
        · simp
      · rw [joinPieces?, if_neg (by omega), h]
        · rfl
        · simp
      · rw [joinPieces?, if_neg (by omega), if_neg (by omega), h]
        rfl
    rw [hjoined, Char.ofNat_toNat]

/-- A string ends at its closing quote and is read back. -/
theorem stringBody_string (cs rest : List Char) :
    ∃ pieces, joinPieces? pieces = some cs ∧
      stringBody (cs.flatMap escapeChar ++ '"' :: rest) = some (pieces, rest) := by
  induction cs with
  | nil =>
    refine ⟨[], rfl, ?_⟩
    rw [List.flatMap_nil, List.nil_append, stringBody]
  | cons c cs ih =>
    rcases ih with ⟨pieces, hjoined, hbody⟩
    rcases stringBody_escapeChar c hbody with ⟨p, hp, hchar⟩
    refine ⟨p :: pieces, joinPieces?_cons hp hjoined, ?_⟩
    rw [List.flatMap_cons, List.append_assoc]
    exact hchar

theorem scan_string (s : String) (rest : List Char) :
    Token.scan (stringChars s ++ rest) = (Token.scan rest).map (.string (some s) :: ·) := by
  rcases stringBody_string s.toList rest with ⟨pieces, hjoined, hbody⟩
  have hchars : stringChars s ++ rest = '"' :: (s.toList.flatMap escapeChar ++ '"' :: rest) := by
    unfold stringChars
    rw [List.cons_append, List.append_assoc]
    rfl
  rw [hchars, Token.scan]
  split
  · rename_i hnone
    rw [hbody] at hnone
    cases hnone
  · rename_i hsome
    rw [hbody] at hsome
    cases hsome
    rw [hjoined, Option.map_some, String.ofList_toList]

/-! ## Numbers -/

theorem scan_number {cs rest : List Char} {v : Json} (hcs : Numeric cs) (h : number? cs = some v)
    (hstop : Stops isNumeric rest) :
    Token.scan (cs ++ rest) = (Token.scan rest).map (.leaf v :: ·) := by
  cases cs with
  | nil => cases h
  | cons c cs =>
    have hc : isNumeric c = true := hcs c List.mem_cons_self
    have hspan := hstop.span fun d hd => hcs d (List.mem_cons_of_mem c hd)
    have hother (d : Char) (hd : isNumeric d = false) : c ≠ d := by
      intro heq
      rw [heq, hd] at hc
      cases hc
    have hblank : isBlank c = false := by
      simp only [isBlank, Bool.or_eq_false_iff, beq_eq_false_iff_ne]
      exact ⟨⟨⟨hother _ rfl, hother _ rfl⟩, hother _ rfl⟩, hother _ rfl⟩
    rw [List.cons_append, Token.scan]
    · simp only [hblank, hc, hspan.1, hspan.2, h, Bool.false_eq_true, if_false, if_true]
    all_goals first
      | exact hother _ rfl
      | exact fun _ heq => absurd heq (hother _ rfl)

/-! ## Documents -/

/-- Whether every number of a document is one that is written as itself: an integer that fits a
word, a finite double. -/
def Sound : Json → Prop
  | .int n => IsWord n
  | .float x => Decimal.isFinite x = true
  | .arr items => soundItems items
  | .obj fields => soundFields fields
  | _ => True
where
  -- Whether every item is sound.
  soundItems : List Json → Prop
    | [] => True
    | v :: rest => Sound v ∧ soundItems rest
  -- Whether every field is sound.
  soundFields : List (String × Json) → Prop
    | [] => True
    | (_, v) :: rest => Sound v ∧ soundFields rest

/-- The words of a document. -/
def words : Json → List Token
  | .arr [] => [.openArray, .closeArray]
  | .arr (v :: rest) => .openArray :: (words v ++ (wordsItems rest ++ [.closeArray]))
  | .obj [] => [.openObject, .closeObject]
  | .obj ((name, v) :: rest) =>
    .openObject :: .string (some name) :: .colon ::
      (words v ++ (wordsFields rest ++ [.closeObject]))
  | .str s => [.string (some s)]
  | leaf => [.leaf leaf]
where
  -- Further items, each after a comma.
  wordsItems : List Json → List Token
    | [] => []
    | v :: rest => .comma :: (words v ++ wordsItems rest)
  -- Further fields, each after a comma.
  wordsFields : List (String × Json) → List Token
    | [] => []
    | (name, v) :: rest =>
      .comma :: .string (some name) :: .colon :: (words v ++ wordsFields rest)

theorem stops_items (items : List Json) {rest : List Char} (h : Stops isNumeric rest) :
    Stops isNumeric (chars.charsItems items ++ rest) := by
  cases items with
  | nil => exact h
  | cons v items => exact stops_cons _ rfl

theorem stops_fields (fields : List (String × Json)) {rest : List Char} (h : Stops isNumeric rest) :
    Stops isNumeric (chars.charsFields fields ++ rest) := by
  cases fields with
  | nil => exact h
  | cons field fields => exact stops_cons _ rfl

/-- A value without parts is one word. -/
theorem scan_float {x : Float} (h : Decimal.isFinite x = true) {rest : List Char}
    (hstop : Stops isNumeric rest) :
    Token.scan (floatChars x ++ rest) = (Token.scan rest).map (.leaf (.float x) :: ·) := by
  unfold floatChars
  rw [if_pos h]
  exact scan_number (numeric_float h) (number?_float h) hstop

mutual

/-- A written document splits into its words. -/
theorem scan_chars : ∀ (v : Json), v.Sound → v.readable = true →
    ∀ {rest : List Char}, Stops isNumeric rest →
      Token.scan (v.chars ++ rest) = (Token.scan rest).map (v.words ++ ·)
  | .null, _, _, rest, _ => by
    show Token.scan ('n' :: 'u' :: 'l' :: 'l' :: rest) = _
    rw [Token.scan]
    rfl
  | .bool true, _, _, rest, _ => by
    show Token.scan ('t' :: 'r' :: 'u' :: 'e' :: rest) = _
    rw [Token.scan]
    rfl
  | .bool false, _, _, rest, _ => by
    show Token.scan ('f' :: 'a' :: 'l' :: 's' :: 'e' :: rest) = _
    rw [Token.scan]
    rfl
  | .int n, hsound, _, _, hstop => scan_number (numeric_intChars n) (number?_int hsound) hstop
  | .float _, hsound, _, _, hstop => scan_float hsound hstop
  | .str s, _, _, rest, _ => scan_string s rest
  | .unreadable, _, hreadable, _, _ => absurd hreadable Bool.false_ne_true
  | .arr [], _, _, rest, _ => by
    show Token.scan ('[' :: ']' :: rest) = _
    rw [Token.scan, Token.scan, Option.map_map]
    rfl
  | .obj [], _, _, rest, _ => by
    show Token.scan ('\x7b' :: '\x7d' :: rest) = _
    rw [Token.scan, Token.scan, Option.map_map]
    rfl
  | .arr (v :: items), hsound, hreadable, rest, _ => by
    have hreadable := Bool.and_eq_true_iff.1 hreadable
    have hclose : Stops isNumeric (']' :: rest) := stops_cons rest rfl
    have hvalue := scan_chars v hsound.1 hreadable.1 (stops_items items hclose)
    have hitems := scan_items items hsound.2 hreadable.2 hclose
    rw [Token.scan] at hitems
    show Token.scan ('[' :: (v.chars ++ (chars.charsItems items ++ [']']) ++ rest)) = _
    rw [Token.scan, List.append_assoc, List.append_assoc, List.singleton_append, hvalue, hitems]
    simp [words, Function.comp_def]
  | .obj ((name, v) :: fields), hsound, hreadable, rest, _ => by
    have hreadable := Bool.and_eq_true_iff.1 hreadable
    have hclose : Stops isNumeric ('\x7d' :: rest) := stops_cons rest rfl
    have hvalue := scan_chars v hsound.1 hreadable.1 (stops_fields fields hclose)
    have hfields := scan_fields fields hsound.2 hreadable.2 hclose
    rw [Token.scan] at hfields
    show Token.scan ('\x7b' :: (stringChars name ++ ':' ::
      (v.chars ++ (chars.charsFields fields ++ ['\x7d'])) ++ rest)) = _
    rw [Token.scan, List.append_assoc, scan_string, List.cons_append, Token.scan, List.append_assoc,
      List.append_assoc, List.singleton_append, hvalue, hfields]
    simp [words, Function.comp_def]

theorem scan_items : ∀ (items : List Json), Sound.soundItems items →
    readable.readableItems items = true → ∀ {rest : List Char}, Stops isNumeric rest →
      Token.scan (chars.charsItems items ++ rest) =
        (Token.scan rest).map (words.wordsItems items ++ ·)
  | [], _, _, rest, _ => by simp [chars.charsItems, words.wordsItems]
  | v :: items, hsound, hreadable, rest, hstop => by
    have hreadable := Bool.and_eq_true_iff.1 hreadable
    have hvalue := scan_chars v hsound.1 hreadable.1 (stops_items items hstop)
    have hitems := scan_items items hsound.2 hreadable.2 hstop
    show Token.scan (',' :: (v.chars ++ chars.charsItems items ++ rest)) = _
    rw [Token.scan, List.append_assoc, hvalue, hitems]
    simp [words.wordsItems, Function.comp_def]

theorem scan_fields : ∀ (fields : List (String × Json)), Sound.soundFields fields →
    readable.readableFields fields = true → ∀ {rest : List Char}, Stops isNumeric rest →
      Token.scan (chars.charsFields fields ++ rest) =
        (Token.scan rest).map (words.wordsFields fields ++ ·)
  | [], _, _, rest, _ => by simp [chars.charsFields, words.wordsFields]
  | (name, v) :: fields, hsound, hreadable, rest, hstop => by
    have hreadable := Bool.and_eq_true_iff.1 hreadable
    have hvalue := scan_chars v hsound.1 hreadable.1 (stops_fields fields hstop)
    have hfields := scan_fields fields hsound.2 hreadable.2 hstop
    show Token.scan (',' :: (stringChars name ++ ':' :: (v.chars ++ chars.charsFields fields) ++
      rest)) = _
    rw [Token.scan, List.append_assoc, scan_string, List.cons_append, Token.scan, List.append_assoc,
      hvalue, hfields]
    simp [words.wordsFields, Function.comp_def]

end

end Json
end Callflow
