import Callflow.Json.Reader
import Callflow.Proofs.Json.Words

/-!
# Written documents are read back

The reader, given the words of a document where a value must follow, completes that very document
(`run?_words`); after a complete document no further word is taken. So a written document is read
back (`parse?_compact`), and two documents in a row are told apart without anything between them
(`words_append_inj`). Conversely every document that is read is sound: `parse?_sound`.
-/

namespace Callflow
namespace Json

/-! ## Reading one by one -/

section Each

variable {α β : Type} {f g : α → Option β} {as : List α} {bs : List β}

theorem mapM_congr (h : ∀ a ∈ as, f a = g a) : as.mapM f = as.mapM g := by
  induction as with
  | nil => rfl
  | cons a as ih =>
    rw [List.forall_mem_cons] at h
    rw [List.mapM_cons, List.mapM_cons, h.1, ih h.2]

/-- What is read one by one has a property that every value read has. -/
theorem forall_of_mapM {P : β → Prop} (h : as.mapM f = some bs)
    (hf : ∀ a ∈ as, ∀ b, f a = some b → P b) : ∀ b ∈ bs, P b := by
  induction as generalizing bs with
  | nil =>
    cases h
    intro b hb
    cases hb
  | cons a as ih =>
    rw [List.mapM_cons] at h
    simp only [Option.bind_eq_bind, Option.bind_eq_some_iff, Option.pure_def, Option.some_inj] at h
    obtain ⟨b, hb, rest, hrest, rfl⟩ := h
    rw [List.forall_mem_cons] at hf ⊢
    exact ⟨hf.1 b hb, ih hrest hf.2⟩

end Each

/-! ## Reading words -/

namespace Reader

theorem run?_cons (r : Reader) (t : Token) (ts : List Token) :
    r.run? (t :: ts) = (r.step? t).bind fun r' => r'.run? ts := rfl

/-- Fields whose names are all texts make an object. -/
theorem objectOf_map (fields : List (String × Json)) :
    objectOf (fields.map fun f => (some f.1, f.2)) = .obj fields := by
  have hnames : (fields.map fun f => ((some f.1 : Option String), f.2)).mapM
      (fun f => f.1.map fun name => (name, f.2)) = some fields := by
    induction fields with
    | nil => rfl
    | cons field fields ih =>
      rw [List.map_cons, List.mapM_cons, ih]
      rfl
  unfold objectOf
  rw [hnames]

mutual

/-- Where a value must follow, the words of a document complete it. -/
theorem run?_words : ∀ (v : Json) (stack : List Container) (ts : List Token),
    run? ⟨stack, .value⟩ (v.words ++ ts) = run? ⟨stack, .complete v⟩ ts
  | .null, _, _ => rfl
  | .bool _, _, _ => rfl
  | .int _, _, _ => rfl
  | .float _, _, _ => rfl
  | .str _, _, _ => rfl
  | .unreadable, _, _ => rfl
  | .arr [], _, _ => rfl
  | .obj [], _, _ => rfl
  | .arr (v :: items), stack, ts => by
    have hfirst : run? ⟨.arr [] :: stack, .firstItem⟩ (v.words ++ (words.wordsItems items ++
        .closeArray :: ts)) = run? ⟨.arr [] :: stack, .value⟩ (v.words ++ (words.wordsItems items ++
        .closeArray :: ts)) := by
      rcases v with _ | _ | _ | _ | _ | (_ | _) | (_ | _) | _ <;> rfl
    show run? ⟨.arr [] :: stack, .firstItem⟩
      (v.words ++ (words.wordsItems items ++ [.closeArray]) ++ ts) = _
    rw [List.append_assoc, List.append_assoc, List.singleton_append, hfirst, run?_words v,
      run?_items]
    rfl
  | .obj ((name, v) :: fields), stack, ts => by
    show run? ⟨.obj [] (some name) :: stack, .value⟩ (v.words ++ (words.wordsFields fields ++
      [.closeObject]) ++ ts) = _
    rw [List.append_assoc, List.append_assoc, List.singleton_append, run?_words v, run?_fields]
    show run? ⟨stack, .complete (objectOf (((name, v) :: fields).map fun f => (some f.1, f.2)))⟩
      ts = _
    rw [objectOf_map]

theorem run?_items : ∀ (items : List Json) (v : Json) (before : List Json)
    (stack : List Container) (ts : List Token),
    run? ⟨.arr before :: stack, .complete v⟩ (words.wordsItems items ++ .closeArray :: ts) =
      run? ⟨stack, .complete (.arr ((v :: before).reverse ++ items))⟩ ts
  | [], v, before, stack, ts => by
    rw [List.append_nil]
    rfl
  | w :: items, v, before, stack, ts => by
    show run? ⟨.arr (v :: before) :: stack, .value⟩ (w.words ++ words.wordsItems items ++
      .closeArray :: ts) = _
    rw [List.append_assoc, run?_words w, run?_items, List.reverse_cons, List.append_assoc]
    rfl

theorem run?_fields : ∀ (fields : List (String × Json)) (v : Json) (name : Option String)
    (before : List (Option String × Json)) (stack : List Container) (ts : List Token),
    run? ⟨.obj before name :: stack, .complete v⟩ (words.wordsFields fields ++ .closeObject :: ts) =
      run? ⟨stack, .complete (objectOf (((name, v) :: before).reverse ++
        fields.map fun f => (some f.1, f.2)))⟩ ts
  | [], v, name, before, stack, ts => by
    rw [List.map_nil, List.append_nil]
    rfl
  | (name', w) :: fields, v, name, before, stack, ts => by
    show run? ⟨.obj ((name, v) :: before) (some name') :: stack, .value⟩ (w.words ++
      words.wordsFields fields ++ .closeObject :: ts) = _
    rw [List.append_assoc, run?_words w, run?_fields, List.reverse_cons, List.append_assoc]
    rfl

end

/-- The words of a document are read as that document, and no word after them is taken. -/
theorem start_words (v : Json) (ts : List Token) :
    start.run? (v.words ++ ts) = if ts = [] then some ⟨[], .complete v⟩ else none := by
  show run? ⟨[], .value⟩ _ = _
  rw [run?_words]
  cases ts with
  | nil => rfl
  | cons t ts => rfl

end Reader

/-- A text that splits into the words of a document holds that document. -/
theorem ofChars?_of_scan {cs : List Char} {v : Json} (h : Token.scan cs = some v.words) :
    ofChars? cs = some v := by
  have hread := Reader.start_words v []
  rw [List.append_nil] at hread
  simp only [ofChars?, h, hread, Option.bind_eq_bind, Option.bind_some, if_true]
  rfl

/-- A written document is read back. -/
theorem parse?_compact {v : Json} (hsound : v.Sound) (hreadable : v.readable = true) :
    parse? v.compact = some v := by
  have hscan := scan_chars v hsound hreadable (stops_nil _)
  rw [List.append_nil, Token.scan, Option.map_some, List.append_nil] at hscan
  rw [parse?, compact, String.toList_ofList]
  exact ofChars?_of_scan hscan

/-! ## Documents in a row -/

/-- Documents one after another are told apart. -/
theorem words_append_inj {v w : Json} {ts us : List Token}
    (h : v.words ++ ts = w.words ++ us) : v = w ∧ ts = us := by
  have hprefix {v w : Json} {ts : List Token} (h : v.words ++ ts = w.words) : v = w ∧ ts = [] := by
    have hv := Reader.start_words v ts
    have hw := Reader.start_words w []
    rw [List.append_nil, ← h, hv] at hw
    by_cases hts : ts = []
    · rw [if_pos hts, if_pos rfl] at hw
      cases hw
      exact ⟨rfl, hts⟩
    · rw [if_neg hts, if_pos rfl] at hw
      cases hw
  rcases List.append_eq_append_iff.1 h with ⟨more, hw, hts⟩ | ⟨more, hv, hus⟩
  · rcases hprefix hw.symm with ⟨rfl, rfl⟩
    exact ⟨rfl, hts⟩
  · rcases hprefix hv.symm with ⟨rfl, rfl⟩
    exact ⟨rfl, hus.symm⟩

/-! ## What can be read -/

theorem sound_numberOf (negative : Bool) (whole fraction : List Char) (exponent : ℤ) :
    (numberOf negative whole fraction exponent).Sound := by
  rw [numberOf_eq, nearest]
  split
  · rename_i h
    exact Decimal.isFinite_of_nearest? h
  · trivial

theorem sound_integerOf (negative : Bool) (whole : List Char) :
    (integerOf negative whole).Sound := by
  unfold integerOf
  simp only
  split_ifs
  · exact ⟨by omega, by omega⟩
  · exact sound_numberOf _ _ _ _
  · exact ⟨by omega, by omega⟩
  · exact sound_numberOf _ _ _ _

section Numbers

variable {negative : Bool} {whole fraction cs : List Char} {v : Json}

theorem sound_exponent {e : Option ℤ} (h : e.map (numberOf negative whole fraction) = some v) :
    v.Sound := by
  rcases Option.map_eq_some_iff.1 h with ⟨exponent, -, rfl⟩
  exact sound_numberOf _ _ _ _

theorem sound_afterFraction (h : afterFraction negative whole fraction cs = some v) : v.Sound := by
  unfold afterFraction at h
  split at h
  · rw [← Option.some_inj.1 h]
    exact sound_numberOf _ _ _ _
  · split_ifs at h
    exact sound_exponent h

theorem sound_afterWhole (h : afterWhole negative whole cs = some v) : v.Sound := by
  unfold afterWhole at h
  split at h
  · rw [← Option.some_inj.1 h]
    exact sound_integerOf _ _
  · simp only at h
    split_ifs at h
    exact sound_afterFraction h
  · split_ifs at h
    exact sound_exponent h

/-- A number that is read is sound. -/
theorem sound_number? (h : number? cs = some v) : v.Sound := by
  rcases number?_cases cs with ⟨negative, unsigned, hunsigned⟩
  rw [hunsigned, unsigned?] at h
  split at h
  · cases h
  · cases h
  · rw [if_neg (by decide)] at h
    exact sound_afterWhole h

end Numbers

/-- Whether a word holds a sound value. -/
def Token.Sound : Token → Prop
  | .leaf v => v.Sound
  | _ => True

theorem Token.sound_map {scanned : Option (List Token)} {t : Token} (ht : t.Sound)
    (ih : ∀ {ts}, scanned = some ts → ∀ t ∈ ts, t.Sound) {ts : List Token}
    (h : scanned.map (t :: ·) = some ts) : ∀ t ∈ ts, t.Sound := by
  rcases Option.map_eq_some_iff.1 h with ⟨us, hus, rfl⟩
  intro u hu
  rcases List.mem_cons.1 hu with rfl | hu
  · exact ht
  · exact ih hus u hu

/-- The words of a text are sound. -/
theorem scan_sound {cs : List Char} {ts : List Token} (h : Token.scan cs = some ts) :
    ∀ t ∈ ts, t.Sound := by
  fun_induction Token.scan cs generalizing ts with
  | case1 =>
    cases h
    intro t ht
    cases ht
  | case11 => cases h
  | case13 =>
    rename_i ih
    exact ih h
  | case14 => cases h
  | case15 =>
    rename_i v hnumber ih
    exact Token.sound_map (t := .leaf v) (sound_number? hnumber) ih h
  | case16 => cases h
  | _ =>
    rename_i ih
    refine Token.sound_map ?_ ih h
    trivial

theorem soundItems_iff {items : List Json} : Sound.soundItems items ↔ ∀ v ∈ items, v.Sound := by
  induction items with
  | nil => exact ⟨fun _ _ hv => absurd hv List.not_mem_nil, fun _ => trivial⟩
  | cons v items ih =>
    rw [List.forall_mem_cons, ← ih]
    exact Iff.rfl

theorem soundFields_iff {fields : List (String × Json)} :
    Sound.soundFields fields ↔ ∀ f ∈ fields, f.2.Sound := by
  induction fields with
  | nil => exact ⟨fun _ _ hf => absurd hf List.not_mem_nil, fun _ => trivial⟩
  | cons f fields ih =>
    rw [List.forall_mem_cons, ← ih]
    exact Iff.rfl

/-- Whether every value read so far of a container is sound. -/
def Container.Sound : Container → Prop
  | .arr before => ∀ v ∈ before, v.Sound
  | .obj before _ => ∀ f ∈ before, f.2.Sound

/-- Whether every value read so far at a place is sound. -/
def Place.Sound : Place → Prop
  | .name before | .colon before _ => ∀ f ∈ before, f.2.Sound
  | .complete v => v.Sound
  | _ => True

namespace Reader

/-- Whether every value read so far is sound. -/
structure Sound (r : Reader) : Prop where
  stack : ∀ c ∈ r.stack, c.Sound
  place : r.place.Sound

theorem sound_objectOf {fields : List (Option String × Json)} (h : ∀ f ∈ fields, f.2.Sound) :
    (objectOf fields).Sound := by
  unfold objectOf
  split
  · rename_i named hnamed
    refine soundFields_iff.2 (forall_of_mapM (P := fun f => f.2.Sound) hnamed fun f hf g hg => ?_)
    rcases Option.map_eq_some_iff.1 hg with ⟨name, -, rfl⟩
    exact h f hf
  · trivial

variable {r r' : Reader} {t : Token} {stack : List Container}

theorem sound_begin? (hstack : ∀ c ∈ r.stack, c.Sound) (ht : t.Sound) (h : r.begin? t = some r') :
    r'.Sound := by
  cases t with
  | openArray =>
    cases h
    exact ⟨List.forall_mem_cons.2 ⟨fun _ hv => absurd hv List.not_mem_nil, hstack⟩, trivial⟩
  | openObject =>
    cases h
    exact ⟨hstack, trivial⟩
  | string text =>
    cases h
    refine ⟨hstack, ?_⟩
    cases text <;> trivial
  | leaf v =>
    cases h
    exact ⟨hstack, ht⟩
  | _ => cases h

theorem sound_follow? {v : Json} (hv : v.Sound) (hstack : ∀ c ∈ stack, c.Sound)
    (h : follow? v stack t = some r') : r'.Sound := by
  unfold follow? at h
  split at h
  · cases h
    rw [List.forall_mem_cons] at hstack
    exact ⟨List.forall_mem_cons.2 ⟨List.forall_mem_cons.2 ⟨hv, hstack.1⟩, hstack.2⟩, trivial⟩
  · cases h
    rw [List.forall_mem_cons] at hstack
    refine ⟨hstack.2, soundItems_iff.2 fun w hw => ?_⟩
    exact List.forall_mem_cons.2 ⟨hv, hstack.1⟩ w (List.mem_reverse.1 hw)
  · cases h
    rw [List.forall_mem_cons] at hstack
    refine ⟨hstack.2, fun f hf => ?_⟩
    rcases List.mem_cons.1 hf with rfl | hf
    · exact hv
    · exact hstack.1 f hf
  · cases h
    rw [List.forall_mem_cons] at hstack
    refine ⟨hstack.2, sound_objectOf fun f hf => ?_⟩
    rcases List.mem_cons.1 (List.mem_reverse.1 hf) with rfl | hf
    · exact hv
    · exact hstack.1 f hf
  · cases h

/-- A word keeps what is read sound. -/
theorem Sound.step? (hr : r.Sound) (ht : t.Sound) (h : r.step? t = some r') : r'.Sound := by
  rcases r with ⟨stack, place⟩
  rcases hr with ⟨hstack, hplace⟩
  unfold Reader.step? at h
  split at h
  · exact sound_begin? hstack ht h
  · cases h
    exact ⟨fun c hc => hstack c (List.mem_of_mem_tail hc), trivial⟩
  · exact sound_begin? hstack ht h
  · cases h
    exact ⟨hstack, trivial⟩
  · cases h
    exact ⟨hstack, fun f hf => absurd hf List.not_mem_nil⟩
  · cases h
    rename_i hname
    cases hname
    exact ⟨hstack, hplace⟩
  · cases h
    rename_i hcolon
    cases hcolon
    exact ⟨List.forall_mem_cons.2 ⟨hplace, hstack⟩, trivial⟩
  · rename_i hcomplete
    cases hcomplete
    exact sound_follow? hplace hstack h
  · cases h

/-- Any words keep what is read sound. -/
theorem Sound.run? {ts : List Token} (hr : r.Sound) (hts : ∀ t ∈ ts, t.Sound)
    (h : r.run? ts = some r') : r'.Sound := by
  induction ts generalizing r with
  | nil =>
    cases h
    exact hr
  | cons t ts ih =>
    rw [run?_cons, Option.bind_eq_some_iff] at h
    rcases h with ⟨next, hstep, hrest⟩
    rw [List.forall_mem_cons] at hts
    exact ih (hr.step? hts.1 hstep) hts.2 hrest

end Reader

/-- A document that is read holds finite doubles and words only. -/
theorem parse?_sound {text : String} {v : Json} (h : parse? text = some v) : v.Sound := by
  simp only [parse?, ofChars?, Option.bind_eq_bind, Option.bind_eq_some_iff] at h
  obtain ⟨ts, hscan, r, hrun, hfinish⟩ := h
  have hstart : Reader.start.Sound := ⟨fun c hc => absurd hc List.not_mem_nil, trivial⟩
  have hsound := hstart.run? (scan_sound hscan) hrun
  rcases r with ⟨_ | ⟨c, stack⟩, place⟩ <;> cases place <;> cases hfinish
  exact hsound.place

end Json
end Callflow
