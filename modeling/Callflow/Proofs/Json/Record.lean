import Callflow.Json.Record
import Callflow.Proofs.Json.Reading

/-!
# Records that are written and read

What a type needs so that its values survive a text (`Codec`): its documents are read back, their
texts too (`Written`), and whatever is read fits the type again. A record whose names are distinct
gives back its values in the order of the names (`select?_zip`), and a tagged one its tag
(`tagged?_zip`); what is read out of fields has every property that all of them have
(`Fields.All.select?`).
-/

namespace Callflow
namespace Json

/-- Whether a document is read back from its text. -/
structure Written (v : Json) : Prop where
  sound : v.Sound
  readable : v.readable = true

@[simp]
theorem written_null : Written .null := ⟨trivial, rfl⟩

@[simp]
theorem written_bool (b : Bool) : Written (.bool b) := ⟨trivial, rfl⟩

@[simp]
theorem written_str (s : String) : Written (.str s) := ⟨trivial, rfl⟩

/-- Every double is written as something that is read back, if only as `null`. -/
@[simp]
theorem written_ofFloat (x : Float) : Written (ofFloat x) := by
  unfold ofFloat
  split
  · rename_i hfinite
    exact ⟨hfinite, rfl⟩
  · exact written_null

theorem written_ofOption {α : Type} {write : α → Json} (h : ∀ a, Written (write a))
    (o : Option α) : Written (ofOption write o) := by
  cases o with
  | none => exact written_null
  | some a => exact h a

theorem readableItems_iff {items : List Json} :
    readable.readableItems items = true ↔ ∀ v ∈ items, v.readable = true := by
  induction items with
  | nil => exact ⟨fun _ _ hv => absurd hv List.not_mem_nil, fun _ => rfl⟩
  | cons v items ih =>
    rw [List.forall_mem_cons, ← ih]
    exact Bool.and_eq_true_iff

theorem readableFields_iff {fields : List (String × Json)} :
    readable.readableFields fields = true ↔ ∀ f ∈ fields, f.2.readable = true := by
  induction fields with
  | nil => exact ⟨fun _ _ hf => absurd hf List.not_mem_nil, fun _ => rfl⟩
  | cons f fields ih =>
    rw [List.forall_mem_cons, ← ih]
    exact Bool.and_eq_true_iff

@[simp]
theorem written_arr {items : List Json} : Written (.arr items) ↔ ∀ v ∈ items, Written v := by
  constructor
  · intro h v hv
    exact ⟨soundItems_iff.1 h.sound v hv, readableItems_iff.1 h.readable v hv⟩
  · intro h
    exact ⟨soundItems_iff.2 fun v hv => (h v hv).sound,
      readableItems_iff.2 fun v hv => (h v hv).readable⟩

@[simp]
theorem written_obj {fields : List (String × Json)} :
    Written (.obj fields) ↔ ∀ f ∈ fields, Written f.2 := by
  constructor
  · intro h f hf
    exact ⟨soundFields_iff.1 h.sound f hf, readableFields_iff.1 h.readable f hf⟩
  · intro h
    exact ⟨soundFields_iff.2 fun f hf => (h f hf).sound,
      readableFields_iff.2 fun f hf => (h f hf).readable⟩

theorem heightItems_le {items : List Json} {n : ℕ} :
    height.heightItems items ≤ n ↔ ∀ v ∈ items, v.height ≤ n := by
  induction items with
  | nil => exact ⟨fun _ _ hv => absurd hv List.not_mem_nil, fun _ => Nat.zero_le n⟩
  | cons v items ih =>
    rw [List.forall_mem_cons, ← ih]
    exact Nat.max_le

theorem heightFields_le {fields : List (String × Json)} {n : ℕ} :
    height.heightFields fields ≤ n ↔ ∀ f ∈ fields, f.2.height ≤ n := by
  induction fields with
  | nil => exact ⟨fun _ _ hf => absurd hf List.not_mem_nil, fun _ => Nat.zero_le n⟩
  | cons f fields ih =>
    rw [List.forall_mem_cons, ← ih]
    exact Nat.max_le

@[simp]
theorem height_arr_le {items : List Json} {n : ℕ} :
    (arr items).height ≤ n + 1 ↔ ∀ v ∈ items, v.height ≤ n := by
  show height.heightItems items + 1 ≤ n + 1 ↔ _
  rw [Nat.add_le_add_iff_right, heightItems_le]

@[simp]
theorem height_obj_le {fields : List (String × Json)} {n : ℕ} :
    (obj fields).height ≤ n + 1 ↔ ∀ f ∈ fields, f.2.height ≤ n := by
  show height.heightFields fields + 1 ≤ n + 1 ↔ _
  rw [Nat.add_le_add_iff_right, heightFields_le]

@[simp]
theorem height_str (s : String) : (str s).height = 0 := rfl

@[simp]
theorem height_bool (b : Bool) : (bool b).height = 0 := rfl

@[simp]
theorem height_ofNat (n : ℕ) : (ofNat n).height = 0 := rfl

@[simp]
theorem height_ofFloat (x : Float) : (ofFloat x).height = 0 := by
  unfold ofFloat
  split <;> rfl

theorem height_ofOption {α : Type} {write : α → Json} {n : ℕ} (h : ∀ a, (write a).height ≤ n)
    (o : Option α) : (ofOption write o).height ≤ n := by
  cases o with
  | none => exact Nat.zero_le n
  | some a => exact h a

theorem ofFloat_ne_null {x : Float} (h : Decimal.isFinite x = true) : ofFloat x ≠ .null := by
  rw [ofFloat, if_pos h]
  exact Json.noConfusion

/-- A way to write the values of a type that fit, and to read them. -/
structure Codec {α : Type} (write : α → Json) (read? : Json → Option α) (Fits : α → Prop) :
    Prop where
  read_write : ∀ {a : α}, Fits a → read? (write a) = some a
  written : ∀ {a : α}, Fits a → Written (write a)
  fits : ∀ {v : Json} {a : α}, v.Sound → read? v = some a → Fits a

/-! ## Values -/

theorem codec_float : Codec ofFloat float? fun x => Decimal.isFinite x = true where
  read_write h := by
    rw [ofFloat, if_pos h]
    rfl
  written _ := written_ofFloat _
  fits hv h := by
    unfold float? at h
    split at h
    · exact Decimal.isFinite_of_nearest? h
    · cases h
      exact hv
    · cases h

theorem codec_nat {bound : ℕ} (hbound : bound ≤ word64) : Codec ofNat (nat? bound) (· < bound) where
  read_write h := by
    show (if 0 ≤ (_ : ℤ) ∧ _ then _ else _) = _
    rw [if_pos ⟨Int.natCast_nonneg _, by exact_mod_cast h⟩]
    rfl
  written {n} h := by
    have hword : IsWord n := by
      unfold word64 at hbound
      exact ⟨by omega, by omega⟩
    exact ⟨hword, rfl⟩
  fits _ h := by
    unfold nat? at h
    split at h
    · split_ifs at h
      cases h
      omega
    · cases h

theorem codec_word32 : Codec ofNat (nat? word32) (· < word32) := codec_nat (by decide)

theorem codec_word64 : Codec ofNat (nat? word64) (· < word64) := codec_nat le_rfl

/-- A type with one component is written and read as the component. -/
theorem Codec.wrap {α β : Type} {write : α → Json} {read? : Json → Option α} {Fits : α → Prop}
    (c : Codec write read? Fits) {mk : α → β} {component : β → α} (hmk : ∀ b, mk (component b) = b)
    (hcomponent : ∀ a, component (mk a) = a) :
    Codec (fun b => write (component b)) (fun v => (read? v).map mk)
      fun b => Fits (component b) where
  read_write {b} h := by
    rw [c.read_write h, Option.map_some, hmk]
  written h := c.written h
  fits {v b} hv h := by
    rcases Option.map_eq_some_iff.1 h with ⟨a, ha, rfl⟩
    rw [hcomponent]
    exact c.fits hv ha

/-- Whether a value that may be missing fits if it is there. -/
def FitsOption {α : Type} (Fits : α → Prop) (o : Option α) : Prop := ∀ a ∈ o, Fits a

section Optional

variable {α : Type} {write : α → Json} {read? : Json → Option α} {Fits : α → Prop}

theorem Codec.written_option (c : Codec write read? Fits) {o : Option α} (h : FitsOption Fits o) :
    Written (ofOption write o) := by
  cases o with
  | none => exact written_null
  | some a => exact c.written (h a rfl)

/-- A value that is never written as `null` may be missing. -/
theorem Codec.optional?_ofOption (c : Codec write read? Fits) {o : Option α}
    (h : FitsOption Fits o) (hnull : ∀ a ∈ o, write a ≠ .null) :
    optional? read? (some (ofOption write o)) = some o := by
  cases o with
  | none => rfl
  | some a =>
    have hread : optional? read? (some (write a)) = (read? (write a)).map some := by
      unfold optional?
      split
      · rename_i hnone
        cases hnone
      · rename_i hsome
        exact absurd (Option.some_inj.1 hsome) (hnull a rfl)
      · rename_i v hv hsome
        rw [Option.some_inj.1 hsome]
    show optional? read? (some (write a)) = _
    rw [hread, c.read_write (h a rfl)]
    rfl

theorem Codec.fits_option (c : Codec write read? Fits) {v : Option Json} {o : Option α}
    (hv : ∀ w ∈ v, w.Sound) (h : optional? read? v = some o) : FitsOption Fits o := by
  unfold optional? at h
  split at h
  · cases h
    intro a ha
    cases ha
  · cases h
    intro a ha
    cases ha
  · rename_i w _
    rcases Option.map_eq_some_iff.1 h with ⟨a, ha, rfl⟩
    intro b hb
    cases hb
    exact c.fits (hv w rfl) ha

end Optional

/-! ## Fields that are written -/

section Written

variable {α : Type} {names : List String} {vs : List α}

theorem once?_cons_self {fields : List (String × α)} {name : String} {v : α}
    (h : ∀ f ∈ fields, f.1 ≠ name) : once? ((name, v) :: fields) name = some (some v) := by
  have hfilter : ((name, v) :: fields).filter (fun f => f.1 == name) = [(name, v)] := by
    rw [List.filter_cons, if_pos (beq_self_eq_true name), List.cons_inj_right,
      List.filter_eq_nil_iff]
    intro f hf heq
    exact h f hf (beq_iff_eq.1 heq)
  unfold once?
  rw [hfilter]

theorem once?_cons_of_ne {fields : List (String × α)} {name other : String} {v : α}
    (h : other ≠ name) : once? ((other, v) :: fields) name = once? fields name := by
  unfold once?
  rw [List.filter_cons_of_neg (by simpa using h)]

theorem ne_of_mem_zip {name : String} (h : name ∉ names) : ∀ f ∈ names.zip vs, f.1 ≠ name := by
  intro f hf heq
  exact h (heq ▸ (List.of_mem_zip hf).1)

/-- Distinct names give back the values written under them. -/
theorem select?_zip (hnames : names.Nodup) (hlength : names.length = vs.length) :
    (Fields.named (names.zip vs)).select? names = some (vs.map some) := by
  show names.mapM (once? (names.zip vs)) = _
  induction names generalizing vs with
  | nil =>
    cases vs with
    | nil => rfl
    | cons v vs => cases hlength
  | cons name names ih =>
    cases vs with
    | nil => cases hlength
    | cons v vs =>
      rcases List.nodup_cons.1 hnames with ⟨hname, hrest⟩
      have hothers : names.mapM (once? ((name, v) :: names.zip vs)) =
          names.mapM (once? (names.zip vs)) := by
        apply mapM_congr
        intro other hother
        apply once?_cons_of_ne
        intro heq
        exact hname (heq ▸ hother)
      rw [List.zip_cons_cons, List.mapM_cons, once?_cons_self (ne_of_mem_zip hname), hothers,
        ih hrest (Nat.succ.inj hlength)]
      rfl

/-- The other fields of a record whose first name is not repeated. -/
theorem filter_cons_self {fields : List (String × α)} {name : String} {v : α}
    (h : ∀ f ∈ fields, f.1 ≠ name) :
    ((name, v) :: fields).filter (fun f => f.1 != name) = fields := by
  rw [List.filter_cons_of_neg (by simp), List.filter_eq_self]
  intro f hf
  exact bne_iff_ne.2 (h f hf)

/-- The tag in front of a record whose names differ from it. -/
theorem tagged?_zip {tag : String} (htag : tag ∉ names) (t : α) :
    (Fields.named ((tag, t) :: names.zip vs)).tagged? tag = some (t, .named (names.zip vs)) := by
  have hothers : ∀ f ∈ names.zip vs, f.1 ≠ tag := ne_of_mem_zip htag
  simp only [Fields.tagged?, once?_cons_self hothers, filter_cons_self hothers]

/-- Whether the tag and the names of a record are distinct, whatever its variant. -/
def Distinct {V : Type} (tag : String) (fieldNames : V → List String) : Prop :=
  ∀ k, tag ∉ fieldNames k ∧ (fieldNames k).Nodup

/-- A tagged record gives back the variant that its tag names, with the values of its fields. -/
theorem content?_zip {V : Type} {tag : String} {fieldNames : V → List String}
    (hnames : Distinct tag fieldNames) {variant? : α → Option V} {t : α} {k : V}
    (ht : variant? t = some k) (hlength : (fieldNames k).length = vs.length) :
    (Fields.named ((tag, t) :: (fieldNames k).zip vs)).content? tag variant? fieldNames =
      some (k, vs.map some) := by
  simp only [Fields.content?, tagged?_zip (hnames k).1, ht, select?_zip (hnames k).2 hlength,
    Option.bind_eq_bind, Option.bind_some, Option.pure_def]

end Written

/-! ## Fields that are read -/

section Read

variable {α : Type} {P : α → Prop} {fs rest : Fields α}

/-- Whether the values of all fields have a property. -/
def Fields.All (P : α → Prop) : Fields α → Prop
  | .named fields => ∀ f ∈ fields, P f.2
  | .listed items => ∀ v ∈ items, P v

theorem forall_once? {fields : List (String × α)} {name : String} {o : Option α}
    (h : ∀ f ∈ fields, P f.2) (ho : once? fields name = some o) : ∀ v ∈ o, P v := by
  unfold once? at ho
  split at ho
  · cases ho
    intro v hv
    cases hv
  · rename_i v hfilter
    cases ho
    intro w hw
    cases hw
    exact h (_, v) (List.mem_of_mem_filter (hfilter ▸ List.mem_singleton.2 rfl))
  · cases ho

/-- Every value selected is the value of a field. -/
theorem Fields.All.select? (h : fs.All P) {names : List String} {vs : List (Option α)}
    (hvs : fs.select? names = some vs) : ∀ o ∈ vs, ∀ v ∈ o, P v := by
  cases fs with
  | named fields =>
    refine forall_of_mapM (P := fun o => ∀ v ∈ o, P v) hvs fun name _ o ho => ?_
    exact forall_once? h ho
  | listed items =>
    simp only [Fields.select?] at hvs
    split_ifs at hvs
    cases hvs
    intro o ho v hv
    rcases List.mem_map.1 ho with ⟨w, hw, rfl⟩
    cases hv
    exact h v hw

/-- A tag is the value of a field, and the other fields are fields. -/
theorem Fields.All.tagged? (h : fs.All P) {tag : String} {t : α}
    (ht : fs.tagged? tag = some (t, rest)) : P t ∧ rest.All P := by
  unfold Fields.tagged? at ht
  split at ht
  · split at ht
    · rename_i honce
      cases ht
      exact ⟨forall_once? h honce t rfl, fun f hf => h f (List.mem_of_mem_filter hf)⟩
    · cases ht
  · cases ht
    exact List.forall_mem_cons.1 h
  · cases ht

/-- Every value of the content is the value of a field. -/
theorem Fields.All.content? (h : fs.All P) {V : Type} {tag : String} {variant? : α → Option V}
    {fieldNames : V → List String} {k : V} {vs : List (Option α)}
    (hvs : fs.content? tag variant? fieldNames = some (k, vs)) : ∀ o ∈ vs, ∀ v ∈ o, P v := by
  simp only [Fields.content?, Option.bind_eq_bind, Option.bind_eq_some_iff, Option.pure_def,
    Option.some_inj, Prod.mk.injEq] at hvs
  obtain ⟨⟨t, others⟩, ht, variant, -, values, hvalues, -, rfl⟩ := hvs
  exact (h.tagged? ht).2.select? hvalues

end Read

theorem Sound.fields? {v : Json} (h : v.Sound) {fs : Fields Json} (hfs : v.fields? = some fs) :
    fs.All Sound := by
  unfold Json.fields? at hfs
  split at hfs
  · cases hfs
    exact soundFields_iff.1 h
  · cases hfs
    exact soundItems_iff.1 h
  · cases hfs

end Json
end Callflow
