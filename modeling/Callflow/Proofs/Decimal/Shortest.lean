import Callflow.Decimal.Literal
import Callflow.Proofs.Decimal.Nearest

/-!
# The shortest digits read back

The digits that `shortest` finds for a double lie in its interval (`covers_shortest`), so they are
read as the same double again. That digits are always found rests on one inequality for each binary
exponent, `grid_fine`: seventeen digits of the leading power of two are finer than half a unit in
the last place.
-/

namespace Callflow
namespace Decimal

open Float.Model (UnpackedFloat)
open Float.Model.UnpackedFloat (Sign)
open Time (Canonical)

/-! ## Grid points -/

/-- The factor that makes everything in a scale whole. -/
def Binary.factor (b : Binary) (grid : ℤ) : ℕ :=
  2 ^ (b.exponent - 2).toNat * 10 ^ (-grid).toNat

theorem factor_pos (b : Binary) (grid : ℤ) : 0 < b.factor grid := by
  unfold Binary.factor
  positivity

/-- The common unit of a scale cancels out. -/
theorem scale_units (b : Binary) (grid : ℤ) (point : ℕ) :
    (point : ℚ) * 10 ^ grid / 2 ^ b.exponent =
      (point * (Scale.of b grid).step : ℕ) / (4 * b.factor grid : ℕ) := by
  have hgrid : grid = grid.toNat - (-grid).toNat := by omega
  have hunit : b.exponent = (b.exponent - 2).toNat - (-(b.exponent - 2)).toNat + 2 := by omega
  have hten : (10 : ℚ) ^ grid = 10 ^ grid.toNat / 10 ^ (-grid).toNat := by
    rw [← zpow_natCast, ← zpow_natCast, ← zpow_sub₀ (by norm_num), ← hgrid]
  have htwo : (2 : ℚ) ^ b.exponent =
      4 * 2 ^ (b.exponent - 2).toNat / 2 ^ (-(b.exponent - 2)).toNat := by
    rw [← zpow_natCast, ← zpow_natCast, mul_div_assoc, ← zpow_sub₀ (by norm_num)]
    nth_rewrite 1 [hunit]
    rw [zpow_add₀ (by norm_num), mul_comm]
    norm_num
  rw [hten, htwo]
  show _ = ((point * (2 ^ (-(b.exponent - 2)).toNat * 10 ^ grid.toNat) : ℕ) : ℚ) /
    (4 * (2 ^ (b.exponent - 2).toNat * 10 ^ (-grid).toNat) : ℕ)
  push_cast
  field_simp

/-- The ends of the interval in the unit of a scale. -/
theorem scale_ends {b : Binary} (pos : 0 < b.mantissa) (grid : ℤ) :
    ((Scale.of b grid).lower : ℚ) = (b.mantissa - b.reach) * (4 * b.factor grid : ℕ) ∧
    ((Scale.of b grid).upper : ℚ) = (b.mantissa + 1 / 2) * (4 * b.factor grid : ℕ) := by
  have hlower : (Scale.of b grid).lower =
      (4 * b.mantissa - if b.mantissa = hiddenBit ∧ minExponent < b.exponent then 1 else 2) *
        b.factor grid := rfl
  have hupper : (Scale.of b grid).upper = (4 * b.mantissa + 2) * b.factor grid := rfl
  rw [hlower, hupper, Nat.cast_mul, Nat.cast_sub (by split_ifs <;> omega), Binary.reach]
  constructor
  · split_ifs <;> push_cast <;> ring
  · push_cast
    ring

/-- A grid point that holds lies in the interval. -/
theorem covers_of_holds {b : Binary} (pos : 0 < b.mantissa) {grid : ℤ} {point : ℕ}
    (h : (Scale.of b grid).holds point = true) : b.Covers (point * 10 ^ grid) := by
  have hfactor : (0 : ℚ) < (4 * b.factor grid : ℕ) := by
    exact_mod_cast Nat.mul_pos (by norm_num) (factor_pos b grid)
  have hclosed : (Scale.of b grid).closed = decide (b.mantissa % 2 = 0) := rfl
  unfold Binary.Covers Binary.CoversUnits
  rw [scale_units, le_div_iff₀ hfactor, div_le_iff₀ hfactor, lt_div_iff₀ hfactor,
    div_lt_iff₀ hfactor, ← (scale_ends pos grid).1, ← (scale_ends pos grid).2]
  unfold Scale.holds at h
  rw [hclosed] at h
  by_cases heven : b.mantissa % 2 = 0
  · rw [decide_eq_true heven, if_pos rfl, Bool.and_eq_true, decide_eq_true_eq,
      decide_eq_true_eq] at h
    rw [if_pos heven]
    exact_mod_cast h
  · rw [decide_eq_false heven, if_neg Bool.false_ne_true, Bool.and_eq_true, decide_eq_true_eq,
      decide_eq_true_eq] at h
    rw [if_neg heven]
    exact_mod_cast h

theorem holds_of_lt {s : Scale} {point : ℕ} (hlow : s.lower < point * s.step)
    (hhigh : point * s.step < s.upper) : s.holds point = true := by
  unfold Scale.holds
  cases s.closed <;> simp only [Bool.false_eq_true, if_true, if_false, Bool.and_eq_true,
    decide_eq_true_eq] <;> omega

/-! ## The closest point -/

theorem holds_of_pick? {s : Scale} {tie : Tie} {point : ℕ} (h : s.pick? tie = some point) :
    s.holds point = true := by
  cases hdown : s.holds (s.value / s.step) <;> cases hup : s.holds (s.value / s.step + 1) <;>
    simp only [Scale.pick?, hdown, hup] at h
  · cases h
  · rw [← Option.some_inj.1 h]
    exact hup
  · rw [← Option.some_inj.1 h]
    exact hdown
  · -- Both of them hold, so it does not matter which one is taken.
    have hcases : point = s.value / s.step ∨ point = s.value / s.step + 1 := by
      cases tie <;> split_ifs at h <;> have hpoint := Option.some_inj.1 h <;> omega
    rcases hcases with rfl | rfl
    · exact hdown
    · exact hup

theorem pick?_isSome_of_holds {s : Scale} (tie : Tie)
    (h : s.holds (s.value / s.step) = true ∨ s.holds (s.value / s.step + 1) = true) :
    (s.pick? tie).isSome = true := by
  cases hdown : s.holds (s.value / s.step) <;> cases hup : s.holds (s.value / s.step + 1) <;>
    simp only [Scale.pick?, hdown, hup]
  · rw [hdown, hup] at h
    exact absurd h (by simp)
  · rfl
  · rfl
  · cases tie <;> split_ifs <;> rfl

/-- A grid that is at least as fine as half a unit in the last place has a point that holds. -/
theorem pick?_isSome {b : Binary} (pos : 0 < b.mantissa) {grid : ℤ} (tie : Tie)
    (h : (Scale.of b grid).step ≤ 2 * b.factor grid) :
    ((Scale.of b grid).pick? tie).isSome = true := by
  have hfactor := factor_pos b grid
  have hvalue : (Scale.of b grid).value = 4 * b.mantissa * b.factor grid := rfl
  have hupper : (Scale.of b grid).upper = (4 * b.mantissa + 2) * b.factor grid := rfl
  have hlower : (Scale.of b grid).lower < (Scale.of b grid).value := by
    show (4 * b.mantissa - if b.mantissa = hiddenBit ∧ minExponent < b.exponent then 1 else 2) *
      b.factor grid < 4 * b.mantissa * b.factor grid
    apply Nat.mul_lt_mul_of_pos_right _ hfactor
    split_ifs <;> omega
  have hstep : 0 < (Scale.of b grid).step := by
    show 0 < 2 ^ (-(b.exponent - 2)).toNat * 10 ^ grid.toNat
    positivity
  generalize Scale.of b grid = s at h hvalue hupper hlower hstep ⊢
  have htop : s.value + 2 * b.factor grid = s.upper := by
    rw [hvalue, hupper, add_mul]
  apply pick?_isSome_of_holds
  have hsplit := Nat.div_add_mod' s.value s.step
  have hrest := Nat.mod_lt s.value hstep
  by_cases hwhole : s.value % s.step = 0
  · exact Or.inl (holds_of_lt (by omega) (by omega))
  · refine Or.inr (holds_of_lt ?_ ?_) <;> rw [add_mul, one_mul] <;> omega

/-! ## The grids -/

/-- Seventeen digits of a power of two reach below its 53rd bit, and one bit further. -/
theorem grid_fine : ∀ i : ℕ, i < 2098 →
    2 * (2 ^ (1126 - i) * 10 ^ (((i : ℤ) - 1074) * 30103 / 100000 - 16).toNat) ≤
      2 ^ (i - 1126) * 10 ^ (16 - ((i : ℤ) - 1074) * 30103 / 100000).toNat := by
  decide +kernel

/-- The seventeenth grid is fine enough. -/
theorem step_le_factor {b : Binary} (c : Canonical b.mantissa b.exponent)
    (pos : 0 < b.mantissa) :
    (Scale.of b (leadingExponent b - 16)).step ≤ 2 * b.factor (leadingExponent b - 16) := by
  rcases c with ⟨hm, hmin, hmax, hfull⟩
  have hlog : b.mantissa.log2 ≤ 52 := by
    have hlt := (Nat.log2_lt pos.ne').2 hm
    omega
  -- `i` counts the binary exponents of leading bits from the least one on.
  obtain ⟨i, hi⟩ : ∃ i : ℕ, (i : ℤ) = b.mantissa.log2 + b.exponent + 1074 :=
    ⟨(b.mantissa.log2 + b.exponent + 1074).toNat, Int.toNat_of_nonneg (by omega)⟩
  have hfine := grid_fine i (by omega)
  have hleading : leadingExponent b = ((i : ℤ) - 1074) * 30103 / 100000 := by
    unfold leadingExponent
    rw [hi]
    congr 2
    omega
  rw [← hleading] at hfine
  show 2 ^ (-(b.exponent - 2)).toNat * 10 ^ (leadingExponent b - 16).toNat ≤
    2 * (2 ^ (b.exponent - 2).toNat * 10 ^ (-(leadingExponent b - 16)).toNat)
  have hneg : -(leadingExponent b - 16) = 16 - leadingExponent b := by omega
  rw [hneg]
  generalize 10 ^ (leadingExponent b - 16).toNat = ten at hfine ⊢
  generalize 10 ^ (16 - leadingExponent b).toNat = tenth at hfine ⊢
  apply Nat.le_of_mul_le_mul_left _ (Nat.mul_pos (by norm_num : 0 < 2) (Nat.two_pow_pos (1126 - i)))
  calc 2 * 2 ^ (1126 - i) * (2 ^ (-(b.exponent - 2)).toNat * ten)
      = 2 ^ (-(b.exponent - 2)).toNat * (2 * (2 ^ (1126 - i) * ten)) := by ring
    _ ≤ 2 ^ (-(b.exponent - 2)).toNat * (2 ^ (i - 1126) * tenth) := Nat.mul_le_mul_left _ hfine
    _ = 2 ^ ((-(b.exponent - 2)).toNat + (i - 1126)) * tenth := by ring
    _ ≤ 2 ^ (2 + (1126 - i) + (b.exponent - 2).toNat) * tenth :=
        Nat.mul_le_mul_right _ (Nat.pow_le_pow_right (by norm_num) (by omega))
    _ = 2 * 2 ^ (1126 - i) * (2 * (2 ^ (b.exponent - 2).toNat * tenth)) := by ring

/-! ## Trailing zeros -/

theorem trim_value (fuel : ℕ) (s : Scientific) :
    ((s.trim fuel).digits : ℚ) * 10 ^ (s.trim fuel).exponent = s.digits * 10 ^ s.exponent := by
  induction fuel generalizing s with
  | zero => rfl
  | succ fuel ih =>
    rw [Scientific.trim]
    by_cases h : s.digits % 10 = 0 ∧ s.digits ≠ 0
    · have hdigits : (s.digits : ℚ) = (s.digits / 10 : ℕ) * 10 := by
        exact_mod_cast (Nat.div_mul_cancel (Nat.dvd_of_mod_eq_zero h.1)).symm
      rw [if_pos h, ih, hdigits, zpow_add₀ (by norm_num), zpow_one]
      ring
    · rw [if_neg h]

/-! ## The digits found -/

/-- The shortest digits of a double lie in its interval. -/
theorem covers_shortest {b : Binary} (c : Canonical b.mantissa b.exponent)
    (pos : 0 < b.mantissa) (tie : Tie) :
    b.Covers ((shortest tie b).digits * 10 ^ (shortest tie b).exponent) := by
  have hfound : ((List.range maxDigits).findSome? fun (n : ℕ) =>
      ((Scale.of b (leadingExponent b + 1 - n)).pick? tie).map fun digits =>
        (⟨digits, leadingExponent b + 1 - n⟩ : Scientific)).isSome = true := by
    rw [List.findSome?_isSome_iff]
    refine ⟨17, by decide, ?_⟩
    have hgrid : leadingExponent b + 1 - (17 : ℕ) = leadingExponent b - 16 := by omega
    rw [Option.isSome_map, hgrid]
    exact pick?_isSome pos tie (step_le_factor c pos)
  rcases Option.isSome_iff_exists.1 hfound with ⟨s, hs⟩
  have hshortest : shortest tie b = s.trim maxDigits := by
    unfold shortest
    simp only [hs]
  rcases List.exists_of_findSome?_eq_some hs with ⟨n, -, hn⟩
  rcases Option.map_eq_some_iff.1 hn with ⟨point, hpick, rfl⟩
  rw [hshortest, trim_value]
  exact covers_of_holds pos (holds_of_pick? hpick)

theorem shortest_pos {b : Binary} (c : Canonical b.mantissa b.exponent) (pos : 0 < b.mantissa)
    (tie : Tie) : 0 < (shortest tie b).digits := by
  by_contra hnot
  have hzero : (shortest tie b).digits = 0 := by omega
  have hcovers := covers_shortest c pos tie
  have hlow := (hcovers.range c pos).1
  rw [hzero, Nat.cast_zero, zero_mul] at hlow
  exact absurd hlow (not_le.2 (by positivity))

/-! ## What the bits of a double say -/

theorem ofFloat_eq (x : Float) :
    Reading.ofFloat x =
      if Time.place x / 2 ^ 52 % 2048 = 2047 then
        if Time.place x % 2 ^ 52 = 0 then .infinite (decide (2 ^ 63 ≤ Time.place x))
        else .notANumber
      else if Time.place x / 2 ^ 52 % 2048 = 0 then
        .finite (decide (2 ^ 63 ≤ Time.place x)) ⟨Time.place x % 2 ^ 52, minExponent⟩
      else .finite (decide (2 ^ 63 ≤ Time.place x))
        ⟨2 ^ 52 + Time.place x % 2 ^ 52,
          minExponent + ((Time.place x / 2 ^ 52 % 2048 : ℕ) : ℤ) - 1⟩ := rfl

/-- A double with its sign. -/
theorem neg_toFloat {b : Binary} (c : Canonical b.mantissa b.exponent) (pos : 0 < b.mantissa) :
    -b.toFloat pos = .ofModel (.pack (.finite .negative b.mantissa b.exponent pos)) := by
  show Float.ofModel (.pack (UnpackedFloat.neg (b.toFloat pos).toModel.unpack)) = _
  have hunpack : (b.toFloat pos).toModel.unpack = _ := unpack_pack c pos
  rw [hunpack]
  rfl

/-- A finite double is a zero or has a mantissa, and it is made of what is read off its bits. -/
theorem reading_of_isFinite {x : Float} (h : isFinite x = true) :
    (∃ negative, Reading.ofFloat x = .finite negative ⟨0, minExponent⟩ ∧
      x = if negative then -0.0 else 0.0) ∨
    ∃ negative b, ∃ pos : 0 < b.mantissa, Reading.ofFloat x = .finite negative b ∧
      Canonical b.mantissa b.exponent ∧
      x = if negative then -b.toFloat pos else b.toFloat pos := by
  have hnumber : (!x.toModel.unpack.isNaN && !x.toModel.unpack.isInf) = true := h
  have f := Time.form x
  have hbits : Time.place x < 2 ^ 64 := x.toBits.toBitVec.isLt
  have hminExponent : minExponent = -1074 := rfl
  rw [ofFloat_eq]
  generalize hn : Time.place x = n at f hbits ⊢
  generalize x.toModel.unpack = u at f hnumber
  cases f with
  | zero hz =>
    left
    have hzero : n % 2 ^ 52 = 0 := by omega
    refine ⟨decide (2 ^ 63 ≤ n), ?_, ?_⟩
    · rw [if_neg (by omega), if_pos (by omega), hzero]
    · apply Time.place_inj
      by_cases hsign : 2 ^ 63 ≤ n
      · rw [decide_eq_true hsign, hn]
        show n = 2 ^ 63
        omega
      · rw [decide_eq_false hsign, hn]
        show n = 0
        omega
  | @finite m e pos c hm =>
    right
    have hplace := Time.place_pack_signed (Time.signOf n) pos c.rounded
    rw [if_pos c.2.2.1] at hplace
    have hx : x = .ofModel (.pack (.finite (Time.signOf n) m e pos)) := by
      apply Time.place_inj
      have hsign : ((Time.signOf n).toBitVec.toNat : ℤ) = if n < 2 ^ 63 then 0 else 1 := by
        unfold Time.signOf
        split_ifs <;> rfl
      rw [hsign] at hplace
      generalize Time.place (.ofModel (.pack (.finite (Time.signOf n) m e pos))) = place
        at hplace ⊢
      split_ifs at hplace <;> omega
    refine ⟨decide (2 ^ 63 ≤ n), ⟨m, e⟩, pos, ?_, c, ?_⟩
    · rcases c with ⟨hmant, hmin, hmax, hfull⟩
      by_cases hnormal : 2 ^ 52 ≤ m
      · rw [if_neg (by omega), if_neg (by omega)]
        congr 2 <;> omega
      · rw [if_neg (by omega), if_pos (by omega)]
        congr 2 <;> omega
    · by_cases hsign : 2 ^ 63 ≤ n
      · have hnegative : Time.signOf n = .negative := if_neg (by omega)
        rw [decide_eq_true hsign, if_pos rfl, neg_toFloat c pos, hx, hnegative]
      · have hpositive : Time.signOf n = .positive := if_pos (by omega)
        rw [decide_eq_false hsign, if_neg Bool.false_ne_true, hx, hpositive]
        rfl
  | infinity hi => cases hnumber
  | notANumber hi => cases hnumber

theorem isFinite_iff (x : Float) : isFinite x = true ↔ Time.place x / 2 ^ 52 % 2048 ≠ 2047 := by
  show (!x.toModel.unpack.isNaN && !x.toModel.unpack.isInf) = true ↔ _
  have f := Time.form x
  have hlast : Time.lastPlace = 2047 * 2 ^ 52 := rfl
  generalize Time.place x = n at f ⊢
  generalize x.toModel.unpack = u at f ⊢
  cases f with
  | zero hz => exact ⟨fun _ => by omega, fun _ => rfl⟩
  | @finite m e pos c hm =>
    rcases c with ⟨hmant, hmin, hmax, hfull⟩
    exact ⟨fun _ => by omega, fun _ => rfl⟩
  | infinity hi => exact ⟨fun h => absurd h Bool.false_ne_true, fun h => absurd (by omega) h⟩
  | notANumber hi => exact ⟨fun h => absurd h Bool.false_ne_true, fun h => absurd (by omega) h⟩

theorem isFinite_neg {x : Float} (h : isFinite x = true) : isFinite (-x) = true := by
  have hneg : -x = .ofModel (.pack x.toModel.unpack.neg) := rfl
  have hnumber : (!x.toModel.unpack.isNaN && !x.toModel.unpack.isInf) = true := h
  have f := Time.form x
  rw [hneg, isFinite_iff]
  generalize Time.place x = n at f
  generalize x.toModel.unpack = u at f hnumber
  cases f with
  | zero hz => cases Time.signOf n <;> decide
  | @finite m e pos c hm =>
    have hplace := Time.place_pack_signed (-Time.signOf n) pos c.rounded
    rcases c with ⟨hmant, hmin, hmax, hfull⟩
    show Time.place (.ofModel (.pack (.finite (-Time.signOf n) m e pos))) / _ % _ ≠ _
    rw [if_pos hmax] at hplace
    omega
  | infinity hi => cases hnumber
  | notANumber hi => cases hnumber

theorem isFinite_zero : isFinite 0.0 = true := by
  have hplace : Time.place 0.0 = 0 := rfl
  rw [isFinite_iff, hplace]
  decide

/-- A decimal is read as a finite double. -/
theorem isFinite_of_nearest? {negative : Bool} {digits : ℕ} {exponent : ℤ} {x : Float}
    (h : nearest? negative digits exponent = some x) : isFinite x = true := by
  unfold nearest? at h
  cases negative with
  | true =>
    simp only [if_true] at h
    split_ifs at h with hzero hlarge hneg hfinite hfinite
    all_goals rw [← Option.some_inj.1 h]
    · exact isFinite_neg isFinite_zero
    · exact isFinite_neg hfinite
    · exact isFinite_neg hfinite
  | false =>
    simp only [Bool.false_eq_true, if_false] at h
    split_ifs at h with hzero hlarge hneg hfinite hfinite
    all_goals rw [← Option.some_inj.1 h]
    · exact isFinite_zero
    · exact hfinite
    · exact hfinite

end Decimal
end Callflow
