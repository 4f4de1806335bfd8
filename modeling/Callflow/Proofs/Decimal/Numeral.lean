import Callflow.Decimal.Layout
import Callflow.Json.Token
import Callflow.Proofs.Decimal.Shortest

/-!
# Numbers as texts

A number is written with a sign, its whole digits, a fraction and an exponent, of which all but the
whole digits may be missing. `Json.number?` finds these parts again (`number?_fraction`,
`number?_exponent`, `number?_whole`), however a `Layout` has arranged the digits. So a finite double
is read back from its text, `number?_float`, and so is a word, `number?_int`.
-/

namespace Callflow
namespace Json

open Decimal (Layout digitChars intChars)

/-! ## Digits -/

/-- Whether every character is a decimal digit. -/
def Digits (ds : List Char) : Prop := ∀ c ∈ ds, c.isDigit = true

theorem Digits.append {ds es : List Char} (h : Digits ds) (k : Digits es) : Digits (ds ++ es) := by
  intro c hc
  rcases List.mem_append.1 hc with hc | hc
  · exact h c hc
  · exact k c hc

theorem digits_zeros (n : ℕ) : Digits (List.replicate n '0') := by
  intro c hc
  rw [List.eq_of_mem_replicate hc]
  rfl

theorem digits_digitChars (n : ℕ) : Digits (digitChars n) := by
  intro c hc
  exact Nat.isDigit_of_mem_toDigits (by norm_num) (by norm_num) hc

theorem Digits.all {ds : List Char} (h : Digits ds) : ds.all Char.isDigit = true := by
  rw [List.all_eq_true]
  exact h

theorem natOfDigits_eq (ds : List Char) : natOfDigits ds = Nat.ofDigitChars 10 ds 0 := rfl

@[simp]
theorem natOfDigits_digitChars (n : ℕ) : natOfDigits (digitChars n) = n := by
  rw [natOfDigits_eq]
  exact Nat.ofDigitChars_toDigits (by norm_num) (by norm_num)

theorem natOfDigits_zeros_append (n : ℕ) (ds : List Char) :
    natOfDigits (List.replicate n '0' ++ ds) = natOfDigits ds := by
  rw [natOfDigits_eq, Nat.ofDigitChars_append, Nat.ofDigitChars_replicate_zero, mul_zero]
  rfl

theorem natOfDigits_append_zeros (ds : List Char) (n : ℕ) :
    natOfDigits (ds ++ List.replicate n '0') = natOfDigits ds * 10 ^ n := by
  rw [natOfDigits_eq, Nat.ofDigitChars_append, Nat.ofDigitChars_replicate_zero, mul_comm]
  rfl

theorem toNat_of_isDigit {c : Char} (h : c.isDigit = true) : c.toNat - '0'.toNat < 10 := by
  simp only [Char.isDigit, Bool.and_eq_true, decide_eq_true_eq] at h
  have hle : c.toNat ≤ 57 := h.2
  show c.toNat - 48 < 10
  omega

theorem ofDigitChars_lt {ds : List Char} (h : Digits ds) (init : ℕ) :
    Nat.ofDigitChars 10 ds init < (init + 1) * 10 ^ ds.length := by
  induction ds generalizing init with
  | nil =>
    rw [Nat.ofDigitChars_nil, List.length_nil, pow_zero, mul_one]
    exact Nat.lt_succ_self init
  | cons c rest ih =>
    have hc := toNat_of_isDigit (h c List.mem_cons_self)
    have hrest := ih (fun d hd => h d (List.mem_cons_of_mem c hd))
      (10 * init + (c.toNat - '0'.toNat))
    rw [Nat.ofDigitChars_cons]
    calc Nat.ofDigitChars 10 rest (10 * init + (c.toNat - '0'.toNat))
        < (10 * init + (c.toNat - '0'.toNat) + 1) * 10 ^ rest.length := hrest
      _ ≤ ((init + 1) * 10) * 10 ^ rest.length := Nat.mul_le_mul_right _ (by omega)
      _ = (init + 1) * 10 ^ (c :: rest).length := by rw [List.length_cons, pow_succ]; ring

theorem natOfDigits_lt {ds : List Char} (h : Digits ds) : natOfDigits ds < 10 ^ ds.length := by
  have hlt := ofDigitChars_lt h 0
  rw [zero_add, one_mul] at hlt
  exact hlt

/-- Digits as the whole part of a number: there is one, and no zero leads. -/
structure Whole (ds : List Char) : Prop where
  digits : Digits ds
  nonempty : ds ≠ []
  lead : ds.head? = some '0' → ds.length = 1

theorem whole_digitChars (n : ℕ) : Whole (digitChars n) := by
  refine ⟨digits_digitChars n, Nat.toDigits_ne_nil, ?_⟩
  intro hhead
  cases hn : digitChars n with
  | nil => exact absurd hn Nat.toDigits_ne_nil
  | cons c rest =>
    rw [hn, List.head?_cons, Option.some_inj] at hhead
    subst hhead
    -- With a leading zero the number would have fewer digits.
    have hvalue := natOfDigits_digitChars n
    have hdigits := digits_digitChars n
    rw [hn] at hvalue hdigits
    have hlt := natOfDigits_lt fun c hc => hdigits c (List.mem_cons_of_mem _ hc)
    have hsame : natOfDigits ('0' :: rest) = natOfDigits rest :=
      natOfDigits_zeros_append 1 rest
    rw [hsame] at hvalue
    rw [hvalue] at hlt
    rcases Nat.eq_zero_or_pos rest.length with hzero | hpos
    · rw [List.length_cons, hzero]
    · have hlength := (Nat.length_toDigits_le_iff (by norm_num) hpos).2 hlt
      rw [show Nat.toDigits 10 n = '0' :: rest from hn, List.length_cons] at hlength
      omega

/-! ## The parts of a number -/

/-- Whether a text does not go on with a character of some kind. -/
def Stops (p : Char → Bool) (cs : List Char) : Prop := ∀ c, cs.head? = some c → p c = false

theorem stops_nil (p : Char → Bool) : Stops p [] := by
  intro c hc
  cases hc

theorem stops_cons {p : Char → Bool} {c : Char} (rest : List Char) (h : p c = false) :
    Stops p (c :: rest) := by
  intro d hd
  rw [List.head?_cons, Option.some_inj] at hd
  rw [← hd]
  exact h

/-- Characters of one kind are taken up to where a text stops being of that kind. -/
theorem Stops.span {p : Char → Bool} {cs rest : List Char} (hstop : Stops p rest)
    (h : ∀ c ∈ cs, p c = true) :
    (cs ++ rest).takeWhile p = cs ∧ (cs ++ rest).dropWhile p = rest := by
  have hnone : rest.takeWhile p = [] ∧ rest.dropWhile p = rest := by
    cases rest with
    | nil => exact ⟨rfl, rfl⟩
    | cons c rest =>
      have hc := hstop c rfl
      simp [hc]
  rw [List.takeWhile_append_of_pos h, List.dropWhile_append_of_pos h, hnone.1, hnone.2,
    List.append_nil]
  exact ⟨rfl, rfl⟩

/-- The sign of a number. -/
def signChars (negative : Bool) : List Char := if negative then ['-'] else []

/-- What a number is after its fraction. -/
def afterFraction (negative : Bool) (whole fraction : List Char) : List Char → Option Json
  | [] => some (numberOf negative whole fraction 0)
  | e :: rest =>
    if e = 'e' ∨ e = 'E' then (exponentOf? rest).map (numberOf negative whole fraction) else none

/-- What a number is after its whole part. -/
def afterWhole (negative : Bool) (whole : List Char) : List Char → Option Json
  | [] => some (integerOf negative whole)
  | '.' :: rest =>
    let fraction := rest.takeWhile Char.isDigit
    if fraction.isEmpty then none
    else afterFraction negative whole fraction (rest.dropWhile Char.isDigit)
  | e :: rest =>
    if e = 'e' ∨ e = 'E' then (exponentOf? rest).map (numberOf negative whole []) else none

theorem afterWhole_point (negative : Bool) (whole : List Char) {fraction rest : List Char}
    (hf : Digits fraction) (hne : fraction ≠ []) (hstop : Stops Char.isDigit rest) :
    afterWhole negative whole ('.' :: (fraction ++ rest)) =
      afterFraction negative whole fraction rest := by
  have hspan := hstop.span hf
  have hempty : fraction.isEmpty = false := by
    rw [List.isEmpty_eq_false_iff]
    exact hne
  simp only [afterWhole, hspan.1, hspan.2, hempty, Bool.false_eq_true, if_false]

/-- A number without its sign. -/
def unsigned? (negative : Bool) (cs : List Char) : Option Json :=
  let whole := cs.takeWhile Char.isDigit
  let wholeOk := match whole with
    | [] => false
    | '0' :: _ :: _ => false
    | _ => true
  if !wholeOk then none else afterWhole negative whole (cs.dropWhile Char.isDigit)

theorem number?_eq (negative : Bool) {cs : List Char} (h : negative = false → cs.head? ≠ some '-') :
    number? (signChars negative ++ cs) = unsigned? negative cs := by
  cases negative with
  | true => rfl
  | false =>
    cases cs with
    | nil => rfl
    | cons c rest =>
      have hc : c ≠ '-' := fun heq => h rfl (by rw [heq]; rfl)
      show number? (c :: rest) = _
      unfold number?
      split
      rename_i heq
      split at heq
      · rename_i hcons
        exact absurd (List.cons.inj hcons).1 hc
      · cases heq
        rfl

/-- A number is one without its sign. -/
theorem number?_cases (cs : List Char) :
    ∃ negative unsigned, number? cs = unsigned? negative unsigned := by
  cases cs with
  | nil => exact ⟨false, [], rfl⟩
  | cons c rest =>
    by_cases hc : c = '-'
    · subst hc
      exact ⟨true, rest, rfl⟩
    · refine ⟨false, c :: rest, number?_eq false fun _ hhead => hc ?_⟩
      exact Option.some_inj.1 hhead

theorem number?_sign (negative : Bool) {whole rest : List Char} (h : Whole whole)
    (hstop : Stops Char.isDigit rest) :
    number? (signChars negative ++ (whole ++ rest)) = afterWhole negative whole rest := by
  have hspan := hstop.span h.digits
  rw [number?_eq]
  · unfold unsigned?
    rw [hspan.1, hspan.2]
    simp only
    split
    · exact absurd rfl h.nonempty
    · exact absurd (h.lead rfl) (by simp)
    · rfl
  · intro _ hhead
    cases whole with
    | nil => exact h.nonempty rfl
    | cons c whole =>
      rw [List.cons_append, List.head?_cons, Option.some_inj] at hhead
      subst hhead
      exact absurd (h.digits '-' List.mem_cons_self) (by decide)

/-- A number without a fraction and an exponent. -/
theorem number?_whole (negative : Bool) {whole : List Char} (h : Whole whole) :
    number? (signChars negative ++ whole) = some (integerOf negative whole) := by
  have hnumber := number?_sign negative h (stops_nil _)
  rw [List.append_nil] at hnumber
  exact hnumber

/-- A number with a fraction. -/
theorem number?_fraction (negative : Bool) {whole fraction : List Char} (h : Whole whole)
    (hf : Digits fraction) (hne : fraction ≠ []) :
    number? (signChars negative ++ (whole ++ '.' :: fraction)) =
      some (numberOf negative whole fraction 0) := by
  have hpoint := afterWhole_point negative whole hf hne (stops_nil _)
  rw [List.append_nil] at hpoint
  rw [number?_sign negative h (stops_cons _ rfl)]
  exact hpoint

/-- A number with an exponent. -/
theorem number?_exponent (negative : Bool) {whole fraction : List Char} (h : Whole whole)
    (hf : Digits fraction) (exponent : List Char) :
    number? (signChars negative ++
      (whole ++ ((if fraction = [] then [] else '.' :: fraction) ++ 'e' :: exponent))) =
        (exponentOf? exponent).map (numberOf negative whole fraction) := by
  by_cases hne : fraction = []
  · rw [if_pos hne, List.nil_append, number?_sign negative h (stops_cons _ rfl), hne]
    rfl
  · rw [if_neg hne, List.cons_append, number?_sign negative h (stops_cons _ rfl)]
    exact afterWhole_point negative whole hf hne (stops_cons _ rfl)

/-! ## Words -/

theorem integerOf_digitChars (negative : Bool) (n : ℕ) :
    integerOf negative (digitChars n) =
      if negative then
        if n ≠ 0 ∧ n ≤ 0x8000000000000000 then .int (-n) else numberOf true (digitChars n) [] 0
      else if n < 0x10000000000000000 then .int n
      else numberOf false (digitChars n) [] 0 := by
  unfold integerOf
  rw [natOfDigits_digitChars]

/-- An integer that fits a word, with a sign or without. -/
def IsWord (n : ℤ) : Prop := -0x8000000000000000 ≤ n ∧ n < 0x10000000000000000

/-- A word is read back. -/
theorem number?_int {n : ℤ} (h : IsWord n) : number? (intChars n) = some (.int n) := by
  unfold IsWord at h
  unfold intChars
  by_cases hneg : n < 0
  · have hnumber := number?_whole true (whole_digitChars n.natAbs)
    rw [if_pos hneg]
    rw [integerOf_digitChars, if_pos rfl, if_pos (by omega)] at hnumber
    have habs : -(n.natAbs : ℤ) = n := by omega
    rw [habs] at hnumber
    exact hnumber
  · have hnumber := number?_whole false (whole_digitChars n.natAbs)
    rw [if_neg hneg]
    rw [integerOf_digitChars, if_neg Bool.false_ne_true, if_pos (by omega)] at hnumber
    have habs : (n.natAbs : ℤ) = n := by omega
    rw [habs] at hnumber
    exact hnumber

/-! ## Doubles -/

theorem digitChars_head {n : ℕ} (h : 0 < n) : (digitChars n).head? ≠ some '0' := by
  intro hhead
  have hlength := (whole_digitChars n).lead hhead
  have hvalue := natOfDigits_digitChars n
  cases hn : digitChars n with
  | nil => exact Nat.toDigits_ne_nil hn
  | cons c rest =>
    rw [hn, List.length_cons] at hlength
    rw [hn, List.head?_cons, Option.some_inj] at hhead
    rw [hn, hhead, List.eq_nil_of_length_eq_zero (Nat.succ.inj hlength)] at hvalue
    rw [← hvalue] at h
    exact absurd h (by decide)

/-- Digits without a leading zero are a whole part. -/
theorem Whole.of_head {ds : List Char} (h : Digits ds) {c : Char} (hhead : ds.head? = some c)
    (hc : c ≠ '0') : Whole ds := by
  refine ⟨h, ?_, ?_⟩
  · intro hnil
    rw [hnil] at hhead
    cases hhead
  · intro hzero
    exact absurd (Option.some_inj.1 (hhead.symm.trans hzero)) hc

/-- What stands for `± digits * 10 ^ exponent`. -/
def nearest (negative : Bool) (digits : ℕ) (exponent : ℤ) : Json :=
  match Decimal.nearest? negative digits exponent with
  | some x => .float x
  | none => .unreadable

theorem numberOf_eq (negative : Bool) (whole fraction : List Char) (exponent : ℤ) :
    numberOf negative whole fraction exponent =
      nearest negative (natOfDigits (whole ++ fraction)) (exponent - fraction.length) := rfl

/-- An exponent is read back. -/
theorem exponentOf?_intChars (e : ℤ) :
    exponentOf? ((if 0 ≤ e then ['+'] else []) ++ intChars e) = some e := by
  have hdigits : (digitChars e.natAbs ≠ [] ∧ (digitChars e.natAbs).all Char.isDigit) :=
    ⟨Nat.toDigits_ne_nil, (digits_digitChars e.natAbs).all⟩
  unfold intChars
  by_cases hneg : e < 0
  · rw [if_neg (by omega), if_pos hneg]
    simp only [List.nil_append, exponentOf?, if_pos hdigits, natOfDigits_digitChars,
      Option.map_some, Int.ofNat_eq_natCast]
    congr 1
    omega
  · rw [if_pos (by omega), if_neg hneg]
    simp only [List.cons_append, List.nil_append, exponentOf?, if_pos hdigits,
      natOfDigits_digitChars, Option.map_some, Int.ofNat_eq_natCast]
    congr 1
    omega

section Layouts

variable (negative : Bool) {ds rest : List Char} {c : Char}

/-- The point stands among the digits. -/
theorem number?_among (hds : Digits (c :: rest)) (hc : c ≠ '0') {z : ℕ}
    (hz : z + 1 < (c :: rest).length) :
    number? (signChars negative ++
      ((c :: rest).take (z + 1) ++ '.' :: (c :: rest).drop (z + 1))) =
        some (nearest negative (natOfDigits (c :: rest)) (z + 1 - (c :: rest).length)) := by
  have hsplit := List.take_append_drop (z + 1) (c :: rest)
  have hhead : ((c :: rest).take (z + 1)).head? = some c := rfl
  have hlength : ((c :: rest).drop (z + 1)).length = (c :: rest).length - (z + 1) :=
    List.length_drop
  generalize (c :: rest).take (z + 1) = before at hsplit hhead ⊢
  generalize (c :: rest).drop (z + 1) = after at hsplit hlength ⊢
  rw [← hsplit] at hds
  have hbefore : Digits before := fun d hd => hds d (List.mem_append_left after hd)
  have hafter : Digits after := fun d hd => hds d (List.mem_append_right before hd)
  have hne : after ≠ [] := List.ne_nil_of_length_pos (by omega)
  have hexponent : (0 : ℤ) - after.length = z + 1 - (c :: rest).length := by omega
  have hnumber := number?_fraction negative (.of_head hbefore hhead hc) hafter hne
  rw [numberOf_eq, hsplit, hexponent] at hnumber
  exact hnumber

/-- Zeros stand between the point and the digits. -/
theorem number?_below (hds : Digits ds) (hne : ds ≠ []) (z : ℕ) :
    number? (signChars negative ++ '0' :: '.' :: (List.replicate z '0' ++ ds)) =
      some (nearest negative (natOfDigits ds) (-(z + ds.length : ℕ))) := by
  have hnumber := number?_fraction negative (whole_digitChars 0) ((digits_zeros z).append hds)
    (List.append_ne_nil_of_right_ne_nil _ hne)
  have hdigits : natOfDigits (digitChars 0 ++ (List.replicate z '0' ++ ds)) = natOfDigits ds :=
    (natOfDigits_zeros_append 1 _).trans (natOfDigits_zeros_append z ds)
  rw [numberOf_eq, hdigits, List.length_append, List.length_replicate, zero_sub] at hnumber
  exact hnumber

/-- The digits are filled up to the point. -/
theorem number?_filled (hds : Digits (c :: rest)) (hc : c ≠ '0') (z : ℕ) :
    number? (signChars negative ++ (c :: rest ++ List.replicate z '0' ++ ['.', '0'])) =
      some (nearest negative (natOfDigits (c :: rest) * 10 ^ (z + 1)) (-1)) := by
  have hwhole : Whole (c :: rest ++ List.replicate z '0') :=
    .of_head (hds.append (digits_zeros z)) rfl hc
  have hnumber := number?_fraction negative hwhole (digits_zeros 1) (by decide)
  have hdigits : natOfDigits (c :: rest ++ List.replicate z '0' ++ List.replicate 1 '0') =
      natOfDigits (c :: rest) * 10 ^ (z + 1) := by
    rw [List.append_assoc, List.replicate_append_replicate, natOfDigits_append_zeros]
  rw [numberOf_eq, hdigits] at hnumber
  exact hnumber

/-- All digits but the first stand behind the point. -/
theorem number?_scientific (hds : Digits (c :: rest)) (hc : c ≠ '0') (e : ℤ) :
    number? (signChars negative ++ (c :: ((if rest = [] then [] else '.' :: rest) ++
      'e' :: ((if 0 ≤ e then ['+'] else []) ++ intChars e)))) =
        some (nearest negative (natOfDigits (c :: rest)) (e - rest.length)) := by
  have hfirst : Digits [c] := by
    intro d hd
    rw [List.mem_singleton.1 hd]
    exact hds c List.mem_cons_self
  have hrest : Digits rest := fun d hd => hds d (List.mem_cons_of_mem c hd)
  have hnumber := number?_exponent negative (.of_head hfirst rfl hc) hrest
    ((if 0 ≤ e then ['+'] else []) ++ intChars e)
  rw [exponentOf?_intChars, Option.map_some, numberOf_eq] at hnumber
  exact hnumber

end Layouts

/-- Whichever way digits are laid out, a number of the same value is read. -/
theorem number?_place (negative : Bool) {n : ℕ} (pos : 0 < n) (e : ℤ) :
    ∃ (digits : ℕ) (k : ℤ),
      number? (signChars negative ++ Layout.exchange.place (digitChars n) e) =
        some (nearest negative digits k) ∧
      (digits : ℚ) * 10 ^ k = n * 10 ^ (e + 1 - (digitChars n).length) := by
  have hdigits := digits_digitChars n
  have hvalue := natOfDigits_digitChars n
  obtain ⟨c, rest, hcons⟩ := List.exists_cons_of_ne_nil (whole_digitChars n).nonempty
  have hc : c ≠ '0' := by
    intro heq
    apply digitChars_head pos
    rw [hcons, heq]
    rfl
  have hplace : Layout.exchange.positional e = (decide (-5 ≤ e) && decide (e < 16)) := rfl
  rw [hcons] at hdigits hvalue ⊢
  unfold Layout.place
  simp only [hplace, Bool.and_eq_true, decide_eq_true_eq]
  by_cases hpositional : -5 ≤ e ∧ e < 16
  · rw [if_pos hpositional]
    by_cases hneg : e < 0
    · rw [if_pos hneg]
      have hexponent : -(((-e).toNat - 1 + (c :: rest).length : ℕ) : ℤ) =
          e + 1 - (c :: rest).length := by omega
      refine ⟨n, e + 1 - (c :: rest).length, ?_, rfl⟩
      rw [number?_below negative hdigits (List.cons_ne_nil c rest), hexponent, hvalue]
    · rw [if_neg hneg]
      by_cases hsize : ((c :: rest).length : ℤ) ≤ e + 1
      · rw [if_pos hsize]
        obtain ⟨z, hz⟩ := Int.eq_ofNat_of_zero_le (Int.sub_nonneg.2 hsize)
        refine ⟨n * 10 ^ (z + 1), -1, ?_, ?_⟩
        · rw [hz, ← hvalue]
          exact number?_filled negative hdigits hc z
        · rw [hz, zpow_natCast, pow_succ]
          push_cast
          rw [zpow_neg_one]
          field_simp
      · rw [if_neg hsize]
        have hexponent : (e.toNat : ℤ) + 1 - (c :: rest).length = e + 1 - (c :: rest).length := by
          omega
        refine ⟨n, e + 1 - (c :: rest).length, ?_, rfl⟩
        rw [number?_among negative hdigits hc (by omega), hexponent, hvalue]
  · rw [if_neg hpositional]
    have hexponent : e - rest.length = e + 1 - (c :: rest).length := by
      rw [List.length_cons]
      omega
    refine ⟨n, e + 1 - (c :: rest).length, ?_, rfl⟩
    rw [← hexponent, ← hvalue, ← number?_scientific negative hdigits hc e]
    cases rest with
    | nil => simp [Layout.exchange]
    | cons d rest => simp [Layout.exchange]

theorem chars_of_reading {x : Float} {negative : Bool} {b : Decimal.Binary}
    (h : Decimal.Reading.ofFloat x = .finite negative b) :
    Layout.exchange.chars x = signChars negative ++ Layout.exchange.magnitude b := by
  unfold Layout.chars
  rw [h]
  cases negative <;> rfl

/-- A finite double is read back from its text. -/
theorem number?_float {x : Float} (h : Decimal.isFinite x = true) :
    number? (Layout.exchange.chars x) = some (.float x) := by
  rcases Decimal.reading_of_isFinite h with
    ⟨negative, hreading, hx⟩ | ⟨negative, b, pos, hreading, canonical, hx⟩
  · have hnumber : number? (signChars negative ++ ['0', '.', '0']) =
        some (.float (if negative then -0.0 else 0.0)) := by
      cases negative <;> rfl
    rw [chars_of_reading hreading, hx]
    exact hnumber
  · have hpos := Decimal.shortest_pos canonical pos .toEven
    have hcovers := Decimal.covers_shortest canonical pos .toEven
    have hmagnitude : Layout.exchange.magnitude b =
        Layout.exchange.place (digitChars (Decimal.shortest .toEven b).digits)
          ((Decimal.shortest .toEven b).exponent +
            ((digitChars (Decimal.shortest .toEven b).digits).length : ℤ) - 1) := by
      unfold Layout.magnitude
      rw [if_neg pos.ne']
      rfl
    generalize Decimal.shortest .toEven b = s at hpos hcovers hmagnitude
    rcases number?_place negative hpos
      (s.exponent + ((digitChars s.digits).length : ℤ) - 1) with ⟨digits, k, hnumber, hvalue⟩
    have hexponent : s.exponent + ((digitChars s.digits).length : ℤ) - 1 + 1 -
        (digitChars s.digits).length = s.exponent := by omega
    rw [hexponent] at hvalue
    have hdigits : 0 < digits := by
      by_contra hnot
      have hzero : digits = 0 := by omega
      have hs : (0 : ℚ) < s.digits * 10 ^ s.exponent := by positivity
      rw [← hvalue, hzero, Nat.cast_zero, zero_mul] at hs
      exact lt_irrefl _ hs
    rw [← hvalue] at hcovers
    rw [chars_of_reading hreading, hmagnitude, hnumber, nearest,
      Decimal.nearest?_of_covers canonical pos negative hdigits hcovers, hx]

/-! ## The characters of numbers -/

/-- Whether every character may stand in a number. -/
def Numeric (cs : List Char) : Prop := ∀ c ∈ cs, isNumeric c = true

theorem numeric_nil : Numeric [] := by
  intro c hc
  cases hc

theorem Numeric.cons {c : Char} {cs : List Char} (hc : isNumeric c = true) (h : Numeric cs) :
    Numeric (c :: cs) := by
  intro d hd
  rcases List.mem_cons.1 hd with rfl | hd
  · exact hc
  · exact h d hd

theorem Numeric.append {cs ds : List Char} (h : Numeric cs) (k : Numeric ds) :
    Numeric (cs ++ ds) := by
  intro c hc
  rcases List.mem_append.1 hc with hc | hc
  · exact h c hc
  · exact k c hc

theorem Digits.numeric {ds : List Char} (h : Digits ds) : Numeric ds := by
  intro c hc
  unfold isNumeric
  rw [h c hc]
  rfl

theorem numeric_intChars (n : ℤ) : Numeric (intChars n) := by
  unfold intChars
  split
  · exact (digits_digitChars _).numeric.cons rfl
  · exact (digits_digitChars _).numeric

theorem Numeric.place {ds : List Char} (h : Numeric ds) (e : ℤ) :
    Numeric (Layout.exchange.place ds e) := by
  have htake (n : ℕ) : Numeric (ds.take n) := fun c hc => h c (List.mem_of_mem_take hc)
  have hdrop (n : ℕ) : Numeric (ds.drop n) := fun c hc => h c (List.mem_of_mem_drop hc)
  unfold Layout.place
  simp only
  split
  · split
    · exact .cons rfl (.cons rfl ((digits_zeros _).numeric.append h))
    · split
      · exact (h.append (digits_zeros _).numeric).append (.cons rfl (.cons rfl numeric_nil))
      · exact (htake _).append (.cons rfl (hdrop _))
  · refine Numeric.append ?_ (.cons rfl (.append ?_ (numeric_intChars e)))
    · split
      · rename_i d d' rest
        exact .cons (h d (by simp)) (.cons rfl fun c hc => h c (List.mem_cons_of_mem d hc))
      · exact h
    · split
      · exact .cons rfl numeric_nil
      · exact numeric_nil

theorem numeric_float {x : Float} (h : Decimal.isFinite x = true) :
    Numeric (Layout.exchange.chars x) := by
  have hmagnitude (b : Decimal.Binary) : Numeric (Layout.exchange.magnitude b) := by
    unfold Layout.magnitude
    split
    · exact (digits_digitChars 0).numeric.place 0
    · exact (digits_digitChars _).numeric.place _
  have hsign (negative : Bool) : Numeric (signChars negative) := by
    cases negative with
    | true => exact numeric_nil.cons rfl
    | false => exact numeric_nil
  rcases Decimal.reading_of_isFinite h with ⟨negative, hreading, -⟩ | ⟨negative, b, -, hreading, -⟩
  · rw [chars_of_reading hreading]
    exact (hsign negative).append (hmagnitude _)
  · rw [chars_of_reading hreading]
    exact (hsign negative).append (hmagnitude b)

end Json
end Callflow
