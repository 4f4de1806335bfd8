import Callflow.Format.Program
import Callflow.Proofs.Format.Request

/-!
# Documents that hold programs survive

A program is read back from its document, at every depth (`Activity.reads_toJson`). What is read
out of a document fits, and its own document is no higher than the one that was read
(`Activity.part_good`).
-/

namespace Callflow

open Json (Codec)

/-! ## Delays -/

theorem GrowthVariant.named : Json.Named all word := by
  intro k
  cases k <;> rfl

theorem GrowthVariant.distinct : Json.Distinct Growth.tag fieldNames := by
  intro k
  cases k <;> decide

namespace Growth

/-- Whether every number is finite. -/
def Fits : Growth → Prop
  | .constant => True
  | .exponential factor cap =>
    Decimal.isFinite factor = true ∧ Json.FitsOption (fun x => Decimal.isFinite x = true) cap

/-- A growth is read from its variant and the values of its fields. -/
theorem ofFields?_zip (ahead : Bool) (k : GrowthVariant) (vs : List Json)
    (hlength : k.fieldNames.length = vs.length) :
    ofFields? ahead (.named ((tag, .str k.word) :: k.fieldNames.zip vs)) =
      ofContent? k (vs.map some) := by
  have hvariant : Json.variant? ahead GrowthVariant.all GrowthVariant.word (.str k.word) = some k :=
    GrowthVariant.named k
  simp only [ofFields?, Json.content?_zip GrowthVariant.distinct hvariant hlength,
    Option.bind_eq_bind, Option.bind_some]

theorem ofFields?_toFields (ahead : Bool) {g : Growth} (h : g.Fits) :
    ofFields? ahead (.named g.toFields) = some g := by
  cases g with
  | constant => exact ofFields?_zip ahead .constant [] rfl
  | exponential factor cap =>
    have hcap := Json.codec_float.optional?_ofOption h.2 fun x hx => Json.ofFloat_ne_null (h.2 x hx)
    apply (ofFields?_zip ahead .exponential [.ofFloat factor, .ofOption .ofFloat cap] rfl).trans
    simp only [List.map_cons, List.map_nil, ofContent?, Json.codec_float.read_write h.1, hcap,
      Option.bind_eq_bind, Option.bind_some, Option.pure_def]

theorem fits_of_ofFields? {ahead : Bool} {fs : Json.Fields Json} (hfs : fs.All Json.Sound)
    {g : Growth} (h : ofFields? ahead fs = some g) : g.Fits := by
  simp only [ofFields?, Option.bind_eq_bind, Option.bind_eq_some_iff, Prod.exists] at h
  obtain ⟨k, values, hvalues, h⟩ := h
  have hall := hfs.content? hvalues
  unfold ofContent? at h
  split at h
  · cases h
    trivial
  · rw [List.forall_mem_cons, List.forall_mem_cons] at hall
    simp only [Option.bind_eq_bind, Option.bind_eq_some_iff, Option.pure_def, Option.some_inj] at h
    obtain ⟨factor, hfactor, cap, hcap, rfl⟩ := h
    exact ⟨Json.codec_float.fits (hall.1 _ rfl) hfactor, Json.codec_float.fits_option hall.2.1 hcap⟩
  · cases h

theorem written_fields (g : Growth) : ∀ f ∈ g.toFields, Json.Written f.2 := by
  cases g with
  | constant => simp [toFields]
  | exponential factor cap => simp [toFields, Json.written_ofOption Json.written_ofFloat cap]

theorem height_fields (g : Growth) : ∀ f ∈ g.toFields, f.2.height ≤ 0 := by
  cases g with
  | constant => simp [toFields]
  | exponential factor cap =>
    have hcap := Json.height_ofOption (fun x => (Json.height_ofFloat x).le) cap
    simpa [toFields] using hcap

theorem codec (ahead : Bool) : Codec toJson (ofJson? ahead) Fits where
  read_write h := ofFields?_toFields ahead h
  written _ := Json.written_obj.2 (written_fields _)
  fits hv h := by
    rcases Option.bind_eq_some_iff.1 h with ⟨fs, hfs, hg⟩
    exact fits_of_ofFields? (hv.fields? hfs) hg

theorem height_toJson (g : Growth) : g.toJson.height ≤ 1 := Json.height_obj_le.2 (height_fields g)

end Growth

namespace Delay

/-- Whether every number is finite. -/
def Fits (d : Delay) : Prop := Decimal.isFinite d.base = true ∧ d.growth.Fits

theorem written_toJson (d : Delay) : Json.Written d.toJson := by
  rw [toJson, Json.written_obj, List.forall_mem_cons]
  exact ⟨Json.written_ofFloat d.base, Growth.written_fields d.growth⟩

theorem codec : Codec toJson ofJson? Fits where
  read_write {d} h := by
    have hgrowth : ∀ f ∈ d.growth.toFields, f.1 ≠ "value" := by
      rcases d with ⟨base, growth⟩
      cases growth <;> simp [Growth.toFields, Growth.tag]
    simp only [toJson, ofJson?, Json.once?_cons_self hgrowth, Json.filter_cons_self hgrowth,
      Growth.ofFields?_toFields true h.2, Json.codec_float.read_write h.1, Option.bind_eq_bind,
      Option.bind_some, Option.pure_def]
  written {d} _ := d.written_toJson
  fits {v d} hv h := by
    unfold ofJson? at h
    split at h
    · rename_i fields
      have hfields := Json.soundFields_iff.1 hv
      simp only [Option.bind_eq_bind, Option.bind_eq_some_iff, Option.pure_def,
        Option.some_inj] at h
      obtain ⟨base, hbase, growth, hgrowth, v, rfl, x, hx, rfl⟩ := h
      have hrest : (Json.Fields.named (fields.filter fun f => f.1 != "value")).All Json.Sound :=
        fun f hf => hfields f (List.mem_of_mem_filter hf)
      exact ⟨Json.codec_float.fits (Json.forall_once? hfields hbase v rfl) hx,
        Growth.fits_of_ofFields? hrest hgrowth⟩
    · cases h

theorem height_toJson (d : Delay) : d.toJson.height ≤ 1 := by
  rw [toJson, Json.height_obj_le, List.forall_mem_cons]
  exact ⟨(Json.height_ofFloat d.base).le, Growth.height_fields d.growth⟩

end Delay

/-! ## Activities -/

theorem ActivityVariant.named : Json.Named all word := by
  intro k
  cases k <;> rfl

theorem ActivityVariant.distinct : Json.Distinct Activity.tag fieldNames := by
  intro k
  cases k <;> decide

namespace Activity

/-- Whether every number of a program, at any depth, is finite or a word. -/
def Fits : Activity → Prop
  | .defineService _ body => fitsAll body
  | .defineOperation _ body => Fits body
  | .defineClient _ period body => Decimal.isFinite period = true ∧ Fits body
  | .trigger _ _ => True
  | .query _ _ timeout => Json.FitsOption (fun x => Decimal.isFinite x = true) timeout
  | .sequence steps => fitsAll steps
  | .think duration => Decimal.isFinite duration = true
  | .retry body limit delay => Fits body ∧ limit < Json.word32 ∧ delay.Fits
  | .ignoreError body => Fits body
  | .fail => True
where
  -- Whether every number of some programs is finite or a word.
  fitsAll : List Activity → Prop
    | [] => True
    | a :: rest => Fits a ∧ fitsAll rest

theorem fitsAll_iff {as : List Activity} : Fits.fitsAll as ↔ ∀ a ∈ as, a.Fits := by
  induction as with
  | nil => exact ⟨fun _ _ ha => absurd ha List.not_mem_nil, fun _ => trivial⟩
  | cons a as ih =>
    rw [List.forall_mem_cons, ← ih]
    exact Iff.rfl

/-! ### Numbers -/

/-- A number in a program: one that must be there, one that may be missing, or the limit of a
retry. -/
inductive Number where
  | required (x : Float)
  | optional (x : Float)
  | limit (n : Nat)

def Number.Fits : Number → Prop
  | .required x | .optional x => Decimal.isFinite x = true
  | .limit n => n < Json.word32

/-- A number that may be missing, if it is there. -/
def optionalNumber (x : Option Float) : List Number := x.toList.map .optional

def delayNumbers (d : Delay) : List Number :=
  match d.growth with
  | .constant => [.required d.base]
  | .exponential factor cap => .required d.base :: .required factor :: optionalNumber cap

/-- All numbers of a program, at every depth. -/
def numbers : Activity → List Number
  | .defineService _ body => numbersOfAll body
  | .defineOperation _ body => numbers body
  | .defineClient _ period body => .required period :: numbers body
  | .trigger _ _ => []
  | .query _ _ timeout => optionalNumber timeout
  | .sequence steps => numbersOfAll steps
  | .think duration => [.required duration]
  | .retry body limit delay => .limit limit :: (delayNumbers delay ++ numbers body)
  | .ignoreError body => numbers body
  | .fail => []
where
  -- The numbers of some programs.
  numbersOfAll : List Activity → List Number
    | [] => []
    | a :: rest => numbers a ++ numbersOfAll rest

theorem forall_optionalNumber {P : Number → Prop} {x : Option Float} :
    (∀ n ∈ optionalNumber x, P n) ↔ ∀ y ∈ x, P (.optional y) := by
  cases x <;> simp [optionalNumber]

theorem delay_fits_iff (d : Delay) : d.Fits ↔ ∀ n ∈ delayNumbers d, n.Fits := by
  rcases d with ⟨base, growth⟩
  cases growth with
  | constant => simp [Delay.Fits, Growth.Fits, delayNumbers, Number.Fits]
  | exponential factor cap =>
    simp only [delayNumbers, List.forall_mem_cons, forall_optionalNumber]
    exact Iff.rfl

mutual

/-- A program fits if all of its numbers do. -/
theorem fits_iff : ∀ a : Activity, a.Fits ↔ ∀ n ∈ a.numbers, n.Fits
  | .defineService _ body => fitsAll_iff_numbers body
  | .defineOperation _ body => fits_iff body
  | .defineClient _ period body => by
    rw [numbers, List.forall_mem_cons, ← fits_iff body]
    exact Iff.rfl
  | .trigger _ _ => iff_of_true trivial fun _ hn => absurd hn List.not_mem_nil
  | .query _ _ _ => by
    rw [numbers, forall_optionalNumber]
    exact Iff.rfl
  | .sequence steps => fitsAll_iff_numbers steps
  | .think duration => by
    rw [numbers, List.forall_mem_singleton]
    exact Iff.rfl
  | .retry body limit delay => by
    rw [numbers, List.forall_mem_cons, List.forall_mem_append, ← fits_iff body, ← delay_fits_iff]
    exact and_rotate
  | .ignoreError body => fits_iff body
  | .fail => iff_of_true trivial fun _ hn => absurd hn List.not_mem_nil

theorem fitsAll_iff_numbers : ∀ as : List Activity,
    Fits.fitsAll as ↔ ∀ n ∈ numbers.numbersOfAll as, n.Fits
  | [] => iff_of_true trivial fun _ hn => absurd hn List.not_mem_nil
  | a :: rest => by
    rw [numbers.numbersOfAll, List.forall_mem_append, ← fits_iff a, ← fitsAll_iff_numbers rest]
    exact Iff.rfl

end

theorem mem_toItems {v : Json} {as : List Activity} (h : v ∈ toJson.toItems as) :
    ∃ a ∈ as, v = a.toJson := by
  induction as with
  | nil => cases h
  | cons a as ih =>
    rcases List.mem_cons.1 h with rfl | h
    · exact ⟨a, List.mem_cons_self, rfl⟩
    · rcases ih h with ⟨b, hb, hv⟩
      exact ⟨b, List.mem_cons_of_mem a hb, hv⟩

/-! ### Reading what was written -/

@[simp]
theorem value_part (v : Json) : (part v).value = v := by
  cases v <;> rfl

theorem fieldParts_zip (names : List String) (vs : List Json) :
    part.fieldParts (names.zip vs) = names.zip (vs.map part) := by
  induction names generalizing vs with
  | nil => rfl
  | cons name names ih =>
    cases vs with
    | nil => rfl
    | cons v vs => exact congrArg _ (ih vs)

/-- An activity is assembled from its variant and what the values of its fields stand for. -/
theorem assemble?_zip (ahead : Bool) (k : ActivityVariant) (vs : List Json)
    (hlength : k.fieldNames.length = vs.length) :
    assemble? ahead (.named (part.fieldParts ((tag, .str k.word) :: k.fieldNames.zip vs))) =
      ofContent? k ((vs.map part).map some) := by
  have hvariant : Json.variant? ahead ActivityVariant.all ActivityVariant.word
      (part (.str k.word)).value = some k := ActivityVariant.named k
  have hparts : part.fieldParts ((tag, .str k.word) :: k.fieldNames.zip vs) =
      (tag, part (.str k.word)) :: k.fieldNames.zip (vs.map part) :=
    congrArg _ (fieldParts_zip k.fieldNames vs)
  have hsize : k.fieldNames.length = (vs.map part).length := by
    rw [List.length_map]
    exact hlength
  have hcontent : Json.Fields.content? tag
      (fun p : Part => Json.variant? ahead ActivityVariant.all ActivityVariant.word p.value)
      ActivityVariant.fieldNames
      (.named ((tag, part (.str k.word)) :: k.fieldNames.zip (vs.map part))) =
        some (k, (vs.map part).map some) :=
    Json.content?_zip ActivityVariant.distinct hvariant hsize
  unfold assemble?
  rw [hparts, hcontent]
  rfl

/-- Whether a document is an object that is assembled to an activity. -/
def Reads (ahead : Bool) (v : Json) (a : Activity) : Prop :=
  ∃ fields, v = .obj fields ∧ assemble? ahead (.named (part.fieldParts fields)) = some a

theorem Reads.activity {v : Json} {a : Activity} (h : Reads true v a) :
    (part v).activity = some a := by
  rcases h with ⟨fields, rfl, hread⟩
  exact hread

theorem Reads.of_zip {ahead : Bool} (k : ActivityVariant) (vs : List Json)
    (hlength : k.fieldNames.length = vs.length) {a : Activity}
    (h : ofContent? k ((vs.map part).map some) = some a) :
    Reads ahead (.obj ((tag, .str k.word) :: k.fieldNames.zip vs)) a :=
  ⟨_, rfl, (assemble?_zip ahead k vs hlength).trans h⟩

mutual

/-- A program is read from its document. -/
theorem reads_toJson : ∀ (a : Activity) (ahead : Bool), a.Fits → Reads ahead a.toJson a
  | .defineService name body, ahead, h => by
    have hbody := activities_toItems body h
    apply Reads.of_zip .defineService [.str name, .arr (toJson.toItems body)] rfl
    simp [ofContent?, Json.string?, hbody]
  | .defineOperation name body, ahead, h => by
    have hbody := (reads_toJson body true h).activity
    apply Reads.of_zip .defineOperation [.str name, body.toJson] rfl
    simp [ofContent?, Json.string?, hbody]
  | .defineClient name period body, ahead, h => by
    have hbody := (reads_toJson body true h.2).activity
    have hperiod := Json.codec_float.read_write h.1
    apply Reads.of_zip .defineClient [.str name, .ofFloat period, body.toJson] rfl
    simp [ofContent?, Json.string?, hperiod, hbody]
  | .trigger target operation, ahead, _ => by
    apply Reads.of_zip .trigger [.str target, .str operation] rfl
    rfl
  | .query target operation timeout, ahead, h => by
    have htimeout := Json.codec_float.optional?_ofOption h fun x hx => Json.ofFloat_ne_null (h x hx)
    apply Reads.of_zip .query [.str target, .str operation, .ofOption .ofFloat timeout] rfl
    simp [ofContent?, Json.string?, htimeout]
  | .sequence steps, ahead, h => by
    have hsteps := activities_toItems steps h
    apply Reads.of_zip .sequence [.arr (toJson.toItems steps)] rfl
    simp [ofContent?, hsteps]
  | .think duration, ahead, h => by
    have hduration := Json.codec_float.read_write h
    apply Reads.of_zip .think [.ofFloat duration] rfl
    simp [ofContent?, hduration]
  | .retry body limit delay, ahead, h => by
    have hbody := (reads_toJson body true h.1).activity
    have hlimit := Json.codec_word32.read_write h.2.1
    have hdelay := Delay.codec.read_write h.2.2
    apply Reads.of_zip .retry [body.toJson, .ofNat limit, delay.toJson] rfl
    simp [ofContent?, hbody, hlimit, hdelay]
  | .ignoreError body, ahead, h => by
    have hbody := (reads_toJson body true h).activity
    apply Reads.of_zip .ignoreError [body.toJson] rfl
    simp [ofContent?, hbody]
  | .fail, ahead, _ => Reads.of_zip .fail [] rfl rfl

/-- Some programs are read from their documents in an array. -/
theorem activities_toItems : ∀ as : List Activity, Fits.fitsAll as →
    (part (.arr (toJson.toItems as))).activities = some as
  | [], _ => rfl
  | a :: as, h => by
    have ha := (reads_toJson a true h.1).activity
    have has : (part.itemParts (toJson.toItems as)).mapM Part.activity = some as :=
      activities_toItems as h.2
    show (part a.toJson :: part.itemParts (toJson.toItems as)).mapM Part.activity = _
    rw [List.mapM_cons, ha, has]
    rfl

end

mutual

/-- Of a program, only its limits can keep its document from being read as it is. -/
theorem written_toJson : ∀ a : Activity, (∀ n, .limit n ∈ a.numbers → n < Json.word32) →
    Json.Written a.toJson
  | .defineService name body, h => by
    simpa [toJson, tagged] using written_toItems body h
  | .defineOperation name body, h => by
    simpa [toJson, tagged] using written_toJson body h
  | .defineClient name period body, h => by
    have hbody := written_toJson body fun n hn => h n (List.mem_cons_of_mem _ hn)
    simpa [toJson, tagged] using hbody
  | .trigger target operation, _ => by simp [toJson, tagged]
  | .query target operation timeout, _ => by
    simpa [toJson, tagged] using Json.written_ofOption Json.written_ofFloat timeout
  | .sequence steps, h => by
    simpa [toJson, tagged] using written_toItems steps h
  | .think duration, _ => by simp [toJson, tagged]
  | .retry body limit delay, h => by
    have hlimit := Json.codec_word32.written (h limit List.mem_cons_self)
    have hbody := written_toJson body fun n hn =>
      h n (List.mem_cons_of_mem _ (List.mem_append_right _ hn))
    simpa [toJson, tagged, hlimit, delay.written_toJson] using hbody
  | .ignoreError body, h => by
    simpa [toJson, tagged] using written_toJson body h
  | .fail, _ => by simp [toJson, tagged]

theorem written_toItems : ∀ as : List Activity,
    (∀ n, .limit n ∈ numbers.numbersOfAll as → n < Json.word32) →
      ∀ v ∈ toJson.toItems as, Json.Written v
  | [], _ => fun _ hv => absurd hv List.not_mem_nil
  | a :: as, h => List.forall_mem_cons.2
    ⟨written_toJson a fun n hn => h n (List.mem_append_left _ hn),
      written_toItems as fun n hn => h n (List.mem_append_right _ hn)⟩

end

/-! ### What is read -/

/-- Whether what a part stands for fits, and is written no higher than some bound. -/
structure Part.Good (n : ℕ) (p : Part) : Prop where
  sound : p.value.Sound
  height : p.value.height ≤ n
  activity : ∀ a ∈ p.activity, a.Fits ∧ a.toJson.height ≤ n
  activities : ∀ as ∈ p.activities, Fits.fitsAll as ∧ (Json.arr (toJson.toItems as)).height ≤ n

theorem Part.Good.sound_option {n : ℕ} {o : Option Part} (h : ∀ p ∈ o, p.Good n) :
    ∀ v ∈ o.map Part.value, v.Sound := by
  intro v hv
  rcases Option.map_eq_some_iff.1 hv with ⟨p, hp, rfl⟩
  exact (h p hp).sound

/-- A delay is read out of an object only. -/
theorem height_of_delay {v : Json} {d : Delay} (h : Delay.ofJson? v = some d) : 1 ≤ v.height := by
  unfold Delay.ofJson? at h
  split at h
  · exact Nat.le_add_left 1 _
  · cases h

/-- An activity that is assembled is at most one higher than its parts. -/
theorem good_of_ofContent? {n : ℕ} {k : ActivityVariant} {values : List (Option Part)}
    {a : Activity} (hall : ∀ o ∈ values, ∀ p ∈ o, p.Good n) (h : ofContent? k values = some a) :
    a.Fits ∧ a.toJson.height ≤ n + 1 := by
  unfold ofContent? at h
  split at h
  all_goals
    simp only [List.forall_mem_cons, Option.mem_some_iff, forall_eq', Option.bind_eq_bind,
      Option.bind_eq_some_iff, Option.pure_def, Option.some_inj, reduceCtorEq] at hall h
  · obtain ⟨name, -, body, hbody, rfl⟩ := h
    have hgood := hall.2.1.activities body hbody
    exact ⟨hgood.1, by simpa [toJson, tagged] using hgood.2⟩
  · obtain ⟨name, -, body, hbody, rfl⟩ := h
    have hgood := hall.2.1.activity body hbody
    exact ⟨hgood.1, by simpa [toJson, tagged] using hgood.2⟩
  · obtain ⟨name, -, period, hperiod, body, hbody, rfl⟩ := h
    have hgood := hall.2.2.1.activity body hbody
    exact ⟨⟨Json.codec_float.fits hall.2.1.sound hperiod, hgood.1⟩,
      by simpa [toJson, tagged] using hgood.2⟩
  · obtain ⟨target, -, operation, -, rfl⟩ := h
    exact ⟨trivial, by simp [toJson, tagged]⟩
  · obtain ⟨target, -, operation, -, timeout, htimeout, rfl⟩ := h
    have hheight : (Json.ofOption Json.ofFloat timeout).height ≤ n :=
      Json.height_ofOption (fun x => (Json.height_ofFloat x).le.trans n.zero_le) timeout
    exact ⟨Json.codec_float.fits_option (Part.Good.sound_option hall.2.2.1) htimeout,
      by simpa [toJson, tagged] using hheight⟩
  · obtain ⟨steps, hsteps, rfl⟩ := h
    have hgood := hall.1.activities steps hsteps
    exact ⟨hgood.1, by simpa [toJson, tagged] using hgood.2⟩
  · obtain ⟨duration, hduration, rfl⟩ := h
    exact ⟨Json.codec_float.fits hall.1.sound hduration, by simp [toJson, tagged]⟩
  · obtain ⟨body, hbody, limit, hlimit, delay, hdelay, rfl⟩ := h
    have hgood := hall.1.activity body hbody
    have hheight := calc delay.toJson.height
        ≤ 1 := Delay.height_toJson delay
      _ ≤ _ := height_of_delay hdelay
      _ ≤ n := hall.2.2.1.height
    exact ⟨⟨hgood.1, Json.codec_word32.fits hall.2.1.sound hlimit,
      Delay.codec.fits hall.2.2.1.sound hdelay⟩,
      by simpa [toJson, tagged] using ⟨hgood.2, hheight⟩⟩
  · obtain ⟨body, hbody, rfl⟩ := h
    have hgood := hall.1.activity body hbody
    exact ⟨hgood.1, by simpa [toJson, tagged] using hgood.2⟩
  · cases h
    exact ⟨trivial, by simp [toJson, tagged]⟩

theorem good_of_assemble? {ahead : Bool} {n : ℕ} {fs : Json.Fields Part}
    (hfs : fs.All (Part.Good n)) {a : Activity} (h : assemble? ahead fs = some a) :
    a.Fits ∧ a.toJson.height ≤ n + 1 := by
  simp only [assemble?, Option.bind_eq_bind, Option.bind_eq_some_iff, Prod.exists] at h
  obtain ⟨k, values, hvalues, h⟩ := h
  exact good_of_ofContent? (hfs.content? hvalues) h

theorem Part.Good.mono {m n : ℕ} {p : Part} (h : p.Good m) (hle : m ≤ n) : p.Good n where
  sound := h.sound
  height := h.height.trans hle
  activity a ha := ⟨(h.activity a ha).1, (h.activity a ha).2.trans hle⟩
  activities as has := ⟨(h.activities as has).1, (h.activities as has).2.trans hle⟩

/-- A value that is neither an object nor an array stands for itself only. -/
theorem Part.Good.leaf {v : Json} (h : v.Sound) (hpart : part v = ⟨v, none, none⟩) :
    (part v).Good v.height := by
  rw [hpart]
  exact ⟨h, le_rfl, fun a ha => absurd ha (Option.not_mem_none a),
    fun as has => absurd has (Option.not_mem_none as)⟩

mutual

/-- What a sound value stands for fits, and is written no higher than the value. -/
theorem part_good : ∀ v : Json, v.Sound → (part v).Good v.height
  | .null, h => .leaf h rfl
  | .bool _, h => .leaf h rfl
  | .int _, h => .leaf h rfl
  | .float _, h => .leaf h rfl
  | .str _, h => .leaf h rfl
  | .unreadable, h => .leaf h rfl
  | .obj fields, h => by
    have hfields : (Json.Fields.named (part.fieldParts fields)).All
        (Part.Good (Json.height.heightFields fields)) := fieldParts_good fields h
    exact ⟨h, le_rfl, fun a ha => good_of_assemble? hfields ha,
      fun as has => absurd has (Option.not_mem_none as)⟩
  | .arr items, h => by
    have hitems := itemParts_good items h
    have hlisted : (Json.Fields.listed (part.itemParts items)).All
        (Part.Good (Json.height.heightItems items)) := hitems
    refine ⟨h, le_rfl, fun a ha => good_of_assemble? hlisted ha, ?_⟩
    intro as has
    have hgood : ∀ a ∈ as, a.Fits ∧ a.toJson.height ≤ Json.height.heightItems items :=
      Json.forall_of_mapM has fun p hp a ha => (hitems p hp).activity a ha
    refine ⟨fitsAll_iff.2 fun a ha => (hgood a ha).1, Json.height_arr_le.2 fun v hv => ?_⟩
    rcases mem_toItems hv with ⟨a, ha, rfl⟩
    exact (hgood a ha).2

theorem itemParts_good : ∀ items : List Json, Json.Sound.soundItems items →
    ∀ p ∈ part.itemParts items, p.Good (Json.height.heightItems items)
  | [], _ => fun _ hp => absurd hp List.not_mem_nil
  | v :: items, h => by
    intro p hp
    rcases List.mem_cons.1 hp with rfl | hp
    · exact (part_good v h.1).mono (Nat.le_max_left _ _)
    · exact (itemParts_good items h.2 p hp).mono (Nat.le_max_right _ _)

theorem fieldParts_good : ∀ fields : List (String × Json), Json.Sound.soundFields fields →
    ∀ f ∈ part.fieldParts fields, f.2.Good (Json.height.heightFields fields)
  | [], _ => fun _ hf => absurd hf List.not_mem_nil
  | (name, v) :: fields, h => by
    intro f hf
    rcases List.mem_cons.1 hf with rfl | hf
    · exact (part_good v h.1).mono (Nat.le_max_left _ _)
    · exact (fieldParts_good fields h.2 f hf).mono (Nat.le_max_right _ _)

end

/-- A program that is read fits, and is written no higher than it was read. -/
theorem good_of_ofJson? {v : Json} (hv : v.Sound) {a : Activity} (h : ofJson? v = some a) :
    a.Fits ∧ a.toJson.height ≤ v.height := by
  unfold ofJson? at h
  split at h
  · rename_i fields
    have hfields : (Json.Fields.named (part.fieldParts fields)).All
        (Part.Good (Json.height.heightFields fields)) := fieldParts_good fields hv
    exact good_of_assemble? hfields h
  · rename_i items
    have hlisted : (Json.Fields.listed (part.itemParts items)).All
        (Part.Good (Json.height.heightItems items)) := itemParts_good items hv
    exact good_of_assemble? hlisted h
  · cases h

theorem codec : Codec toJson ofJson? Fits where
  read_write {a} h := by
    rcases reads_toJson a false h with ⟨fields, hdoc, hread⟩
    rw [hdoc]
    exact hread
  written {a} h := written_toJson a fun n hn => (fits_iff a).1 h (.limit n) hn
  fits hv h := (good_of_ofJson? hv h).1

end Activity
end Callflow
