import Callflow.Proofs.Decimal.Rounding
import Mathlib.Tactic.IntervalCases

/-!
# The nearest double

`Decimal.nearest?` reads a decimal as the double in whose interval it lies: `nearest?_of_covers`.
Small decimals are computed as a product or quotient of two doubles and all others by exact integer
arithmetic; both ways round one number once.
-/

namespace Callflow
namespace Decimal

open Float.Model (Format UnpackedFloat totalExponent)
open Float.Model.UnpackedFloat
open Time (Double Canonical Rounded)

/-! ## Products and quotients -/

/-- A quotient of natural numbers, with what is left over as its rest. -/
theorem represents_quotient (n : ℕ) {d : ℕ} (hd : 0 < d) :
    Represents (ExtendedMantissa.ofMantissaAndAccuracy (n / d) (accuracyOfFraction (n % d) d))
      ((n : ℚ) / d) := by
  have hd' : (0 : ℚ) < d := by exact_mod_cast hd
  have hsplit : (n : ℚ) / d = (n / d : ℕ) + (n % d : ℕ) / d := by
    rw [eq_comm, ← eq_sub_iff_add_eq', div_eq_iff hd'.ne', sub_mul, div_mul_cancel₀ _ hd'.ne',
      eq_sub_iff_add_eq']
    exact_mod_cast Nat.div_add_mod' n d
  have hrest : ((n % d : ℕ) : ℚ) < d := by exact_mod_cast Nat.mod_lt n hd
  have hone : ((n % d : ℕ) : ℚ) / d < 1 := by rwa [div_lt_one₀ hd']
  rw [hsplit]
  by_cases hzero : n % d = 0
  · rw [accuracyOfFraction, if_pos hzero, hzero]
    show ((n / d : ℕ) : ℚ) + (0 : ℕ) / d = (n / d : ℕ)
    simp
  · have hpos : (0 : ℚ) < (n % d : ℕ) / d := by
      apply div_pos _ hd'
      exact_mod_cast Nat.pos_of_ne_zero hzero
    rw [accuracyOfFraction, if_neg hzero]
    rcases Nat.lt_trichotomy (2 * (n % d)) d with hside | hside | hside
    · have hhalf : ((n % d : ℕ) : ℚ) / d < 1 / 2 := by
        rw [div_lt_iff₀ hd']
        have hcast : (2 : ℚ) * (n % d : ℕ) < d := by exact_mod_cast hside
        linarith
      rw [Nat.compare_eq_lt.2 hside]
      show ((n / d : ℕ) : ℚ) < _ ∧ _ < ((n / d : ℕ) : ℚ) + 1 / 2
      constructor <;> linarith
    · have hhalf : ((n % d : ℕ) : ℚ) / d = 1 / 2 := by
        rw [div_eq_iff hd'.ne']
        have hcast : (2 : ℚ) * (n % d : ℕ) = d := by exact_mod_cast hside
        linarith
      rw [Nat.compare_eq_eq.2 hside, hhalf]
      rfl
    · have hhalf : (1 : ℚ) / 2 < (n % d : ℕ) / d := by
        rw [lt_div_iff₀ hd']
        have hcast : (d : ℚ) < 2 * (n % d : ℕ) := by exact_mod_cast hside
        linarith
      rw [Nat.compare_eq_gt.2 hside]
      show ((n / d : ℕ) : ℚ) + 1 / 2 < _ ∧ _ < ((n / d : ℕ) : ℚ) + 1
      constructor <;> linarith

/-- The leading bit of a quotient. -/
theorem log2_le_div {n d : ℕ} (hn : 0 < n) (hd : 0 < d) :
    n.log2 ≤ (n / d).log2 + d.log2 + 1 := by
  by_contra hnot
  have hpow : 2 ^ (n.log2 - d.log2 - 1) ≤ n / d := by
    rw [Nat.le_div_iff_mul_le hd]
    calc 2 ^ (n.log2 - d.log2 - 1) * d
        ≤ 2 ^ (n.log2 - d.log2 - 1) * 2 ^ (d.log2 + 1) :=
          Nat.mul_le_mul_left _ Nat.lt_log2_self.le
      _ = 2 ^ n.log2 := by
          rw [← pow_add]
          congr 1
          omega
      _ ≤ n := Nat.log2_self_le hn.ne'
  have hlog := (Nat.le_log2 (by have := Nat.two_pow_pos (n.log2 - d.log2 - 1); omega)).2 hpow
  omega

theorem targetExponent_mono {t u : ℤ} (h : t ≤ u) :
    Double.targetExponent t ≤ Double.targetExponent u := by
  rw [Time.targetExponent_eq, Time.targetExponent_eq]
  omega

theorem div_of_covers {b : Binary} (c : Canonical b.mantissa b.exponent) (pos : 0 < b.mantissa)
    (s s' : Sign) {m m' : ℕ} {e e' : ℤ} (hm : 0 < m) (hm' : 0 < m')
    (hv : b.Covers (m * 2 ^ e / (m' * 2 ^ e'))) :
    UnpackedFloat.div Double (.finite s m e hm) (.finite s' m' e' hm') =
      .finite (s / s') b.mantissa b.exponent pos := by
  generalize ht : min (e - e') (Double.targetExponent (totalExponent m e - totalExponent m' e')) = t
  have hsteps : ((e - e' - t).toNat : ℤ) = e - e' - t := Int.toNat_of_nonneg (by omega)
  generalize hn : m <<< (e - e' - t).toNat = n
  rw [Nat.shiftLeft_eq] at hn
  have hdiv : UnpackedFloat.div Double (.finite s m e hm) (.finite s' m' e' hm') =
      roundWithAccuracy Double (s / s') (n / m') t (accuracyOfFraction (n % m') m') := by
    rw [← hn, ← ht, ← Nat.shiftLeft_eq]
    rfl
  have hpos : 0 < n := by
    rw [← hn]
    exact Nat.mul_pos hm (Nat.two_pow_pos _)
  have hunits : (m : ℚ) * 2 ^ e / (m' * 2 ^ e') / 2 ^ t = n / m' := by
    rw [← hn]
    push_cast
    rw [← zpow_natCast, hsteps, zpow_sub₀ (by norm_num), zpow_sub₀ (by norm_num)]
    have hm'' : (m' : ℚ) ≠ 0 := by exact_mod_cast hm'.ne'
    field_simp
  rw [hdiv]
  apply roundWithAccuracy_of_covers c pos _ (v := (m : ℚ) * 2 ^ e / (m' * 2 ^ e')) _ _ hv
  · rw [hunits]
    exact represents_quotient n hm'
  · -- The quotient has at least as many bits as its target was chosen for.
    have hlead : m.log2 + (e - e' - t).toNat ≤ (n / m').log2 + m'.log2 + 1 := by
      refine le_trans ?_ (log2_le_div hpos hm')
      rw [Nat.le_log2 hpos.ne', ← hn, pow_add]
      exact Nat.mul_le_mul_right _ (Nat.log2_self_le hm.ne')
    have hwidth : totalExponent m e - totalExponent m' e' ≤ totalExponent (n / m') t := by
      unfold totalExponent
      omega
    have hmono := targetExponent_mono hwidth
    omega

theorem mul_of_covers {b : Binary} (c : Canonical b.mantissa b.exponent) (pos : 0 < b.mantissa)
    (s s' : Sign) {m m' : ℕ} {e e' : ℤ} (hm : 0 < m) (hm' : 0 < m') (hwide : 2 ^ 52 ≤ m * m')
    (hv : b.Covers (m * 2 ^ e * (m' * 2 ^ e'))) :
    UnpackedFloat.mul Double (.finite s m e hm) (.finite s' m' e' hm') =
      .finite (s * s') b.mantissa b.exponent pos := by
  have hunits : (m : ℚ) * 2 ^ e * (m' * 2 ^ e') / 2 ^ (e + e') = (m * m' : ℕ) := by
    rw [zpow_add₀ (by norm_num)]
    push_cast
    field_simp
  show roundWithAccuracy Double (s * s') (m * m') (e + e') .exact = _
  apply roundWithAccuracy_of_covers c pos _ (v := (m : ℚ) * 2 ^ e * (m' * 2 ^ e')) _ _ hv
  · rw [hunits]
    rfl
  · have hlog : 52 ≤ (m * m').log2 := (Nat.le_log2 (by omega)).2 hwide
    rw [Time.targetExponent_eq, totalExponent]
    omega

/-! ## Whole numbers and powers of ten -/

/-- A double lies in its own interval. -/
theorem Binary.covers_value (b : Binary) : b.Covers (b.mantissa * 2 ^ b.exponent) := by
  have hreach : 0 < b.reach := by
    unfold Binary.reach
    split_ifs <;> norm_num
  have hunits : (b.mantissa : ℚ) * 2 ^ b.exponent / 2 ^ b.exponent = b.mantissa := by
    rw [mul_div_assoc, div_self (by positivity), mul_one]
  unfold Binary.Covers Binary.CoversUnits
  rw [hunits]
  split_ifs <;> constructor <;> linarith

/-- What is packed is unpacked again. -/
theorem unpack_pack {m : ℕ} {e : ℤ} (c : Canonical m e) (pos : 0 < m) :
    (Float.Model.pack (.finite .positive m e pos)).unpack = .finite .positive m e pos := by
  have hplace := Time.place_pack pos c.rounded
  rw [if_pos c.2.2.1] at hplace
  have hreading := (Time.place_rounded c c.rounded pos le_rfl).2
  rcases c with ⟨hm, hmin, hmax, hfull⟩
  have hlast : Time.lastPlace = 0x7FF0000000000000 := rfl
  rcases hreading.unpack with ⟨hp, -⟩ | ⟨hp, -⟩ | ⟨m', e', pos', hu, c', hp⟩
  · omega
  · omega
  · rcases c' with ⟨hm', hmin', hmax', hfull'⟩
    have he : e' = e := by omega
    have hmant : m' = m := by omega
    subst he
    subst hmant
    exact hu

/-- A whole number of at most 53 bits is a double. -/
theorem unpack_toFloat {n : ℕ} (hn : 0 < n) (h : n < 2 ^ 53) :
    ∃ m e pos, (n.toUInt64.toFloat).toModel.unpack = .finite .positive m e pos ∧
      (m : ℚ) * 2 ^ e = n := by
  have hlow : 2 ^ n.log2 ≤ n := Nat.log2_self_le hn.ne'
  have hhigh : n < 2 ^ (n.log2 + 1) := Nat.lt_log2_self
  have hlog : n.log2 < 53 := (Nat.log2_lt hn.ne').2 h
  -- The mantissa has all of its 53 bits.
  have c : Canonical (n * 2 ^ (52 - n.log2)) ((n.log2 : ℤ) - 52) := by
    have hfull : 2 ^ 52 ≤ n * 2 ^ (52 - n.log2) := by
      calc 2 ^ 52 = 2 ^ n.log2 * 2 ^ (52 - n.log2) := by
            rw [← pow_add]
            congr 1
            omega
        _ ≤ n * 2 ^ (52 - n.log2) := Nat.mul_le_mul_right _ hlow
    have hfits : n * 2 ^ (52 - n.log2) < 2 ^ 53 := by
      calc n * 2 ^ (52 - n.log2) < 2 ^ (n.log2 + 1) * 2 ^ (52 - n.log2) :=
            Nat.mul_lt_mul_of_pos_right hhigh (Nat.two_pow_pos _)
        _ = 2 ^ 53 := by
            rw [← pow_add]
            congr 1
            omega
    exact ⟨hfits, by omega, by omega, Or.inl hfull⟩
  have pos : 0 < n * 2 ^ (52 - n.log2) := Nat.mul_pos hn (Nat.two_pow_pos _)
  have hvalue : ((n * 2 ^ (52 - n.log2) : ℕ) : ℚ) * 2 ^ ((n.log2 : ℤ) - 52) = n := by
    push_cast
    rw [← zpow_natCast, mul_assoc, ← zpow_add₀ (by norm_num)]
    have hzero : ((52 - n.log2 : ℕ) : ℤ) + (n.log2 - 52) = 0 := by omega
    rw [hzero, zpow_zero, mul_one]
  refine ⟨_, _, pos, ?_, hvalue⟩
  have hword : n.toUInt64.toNat = n := by
    rw [Nat.toUInt64, UInt64.toNat_ofNat']
    omega
  have hround : UnpackedFloat.ofNat Double n =
      .finite .positive (n * 2 ^ (52 - n.log2)) ((n.log2 : ℤ) - 52) pos := by
    have htarget := Time.targetExponent_eq (totalExponent n 0)
    rw [totalExponent] at htarget
    have hsteps : (0 - Double.targetExponent ((n.log2 : ℤ) + 1 + 0)).toNat = 52 - n.log2 := by omega
    have hofNat : UnpackedFloat.ofNat Double n = UnpackedFloat.round Double .positive n 0 := by
      show UnpackedFloat.normalize Double n 0 .positive = _
      rw [UnpackedFloat.normalize, Int.compare_eq_gt.2 (by omega)]
      rfl
    rw [hofNat]
    show roundWithAccuracy Double .positive
      (n <<< (0 - Double.targetExponent ((n.log2 : ℤ) + 1 + 0)).toNat)
      (0 - ((0 - Double.targetExponent ((n.log2 : ℤ) + 1 + 0)).toNat : ℤ)) .exact = _
    rw [hsteps, Nat.shiftLeft_eq]
    have hexp : (0 : ℤ) - ((52 - n.log2 : ℕ) : ℤ) = n.log2 - 52 := by omega
    rw [hexp]
    refine roundWithAccuracy_of_covers (b := ⟨_, _⟩) c pos _ ?_ ?_ (Binary.covers_value ⟨_, _⟩)
    · show _ = _
      rw [mul_div_assoc, div_self (by positivity), mul_one]
    · have hlead : 52 ≤ (n * 2 ^ (52 - n.log2)).log2 :=
        (Nat.le_log2 pos.ne').2 (by rcases c with ⟨-, -, -, hc⟩; omega)
      rw [Time.targetExponent_eq, totalExponent]
      omega
  show (Float.Model.pack (UnpackedFloat.ofNat Double n.toUInt64.toNat)).unpack = _
  rw [hword, hround, unpack_pack c pos]

/-- The places of the powers of ten that are doubles. -/
theorem place_powerOfTen : ∀ k : Fin 23,
    2 ^ 52 ≤ Time.place Float.exactlyRepresentablePowersOfTen[k] ∧
    Time.place Float.exactlyRepresentablePowersOfTen[k] < Time.lastPlace ∧
    (2 ^ 52 + Time.place Float.exactlyRepresentablePowersOfTen[k] % 2 ^ 52) *
        2 ^ (Time.place Float.exactlyRepresentablePowersOfTen[k] / 2 ^ 52 - 1075) =
      10 ^ k.val * 2 ^ (1075 - Time.place Float.exactlyRepresentablePowersOfTen[k] / 2 ^ 52) := by
  decide +kernel

theorem unpack_powerOfTen {k : ℕ} (h : k < Float.exactlyRepresentablePowersOfTen.size) :
    ∃ m e pos, (Float.exactlyRepresentablePowersOfTen[k]).toModel.unpack =
      .finite .positive m e pos ∧ 2 ^ 52 ≤ m ∧ (m : ℚ) * 2 ^ e = 10 ^ k := by
  have hplace := place_powerOfTen ⟨k, h⟩
  simp only [Fin.getElem_fin] at hplace
  generalize Float.exactlyRepresentablePowersOfTen[k] = x at hplace ⊢
  rcases hplace with ⟨hlow, hhigh, hcode⟩
  have hreading : Time.IsReading x := hhigh.le
  rcases hreading.unpack with ⟨hp, -⟩ | ⟨hp, -⟩ | ⟨m, e, pos, hu, c, hp⟩
  · omega
  · omega
  · rcases c with ⟨hm, hmin, hmax, hfull⟩
    have hmant : 2 ^ 52 + Time.place x % 2 ^ 52 = m := by omega
    have hup : Time.place x / 2 ^ 52 - 1075 = e.toNat := by omega
    have hdown : 1075 - Time.place x / 2 ^ 52 = (-e).toNat := by omega
    rw [hmant, hup, hdown] at hcode
    have hcast : (m : ℚ) * 2 ^ e.toNat = 10 ^ k * 2 ^ (-e).toNat := by exact_mod_cast hcode
    have hexp : e = e.toNat - (-e).toNat := by omega
    refine ⟨m, e, pos, hu, by omega, ?_⟩
    rw [hexp, zpow_sub₀ (by norm_num), zpow_natCast, zpow_natCast, ← mul_div_assoc, hcast,
      mul_div_assoc, div_self (by positivity), mul_one]

/-! ## Decimals -/

/-- The exact way to read a decimal. -/
theorem unpacked_of_covers {b : Binary} (c : Canonical b.mantissa b.exponent)
    (pos : 0 < b.mantissa) {d : ℕ} (hd : 0 < d) {k : ℤ} (hlow : -(2048 + (d.log2 : ℤ)) ≤ k)
    (hhigh : k ≤ 2048) (hv : b.Covers (d * 10 ^ k)) :
    UnpackedFloat.ofScientific Double d k = .finite .positive b.mantissa b.exponent pos := by
  have hbits : ((2 : ℤ) ^ Double.exponentBits) = 2048 := rfl
  have hwide : Double.mantissaBits = 53 := rfl
  delta UnpackedFloat.ofScientific
  show dite (d = 0) _ _ = _
  rw [dif_neg hd.ne', if_neg (by rw [hbits]; omega), if_neg (by rw [hbits]; omega)]
  by_cases hk : 0 ≤ k
  · rw [if_pos hk]
    have hten : 0 < 10 ^ k.toNat := by positivity
    have hshift : 2 ^ 52 ≤ (d <<< Double.mantissaBits) * 10 ^ k.toNat := by
      rw [hwide, Nat.shiftLeft_eq, mul_assoc]
      calc 2 ^ 52 ≤ 1 * (2 ^ 53 * 1) := by norm_num
        _ ≤ d * (2 ^ 53 * 10 ^ k.toNat) :=
          Nat.mul_le_mul hd (Nat.mul_le_mul_left _ hten)
    refine mul_of_covers c pos .positive .positive _ _ hshift ?_
    have hvalue : ((d <<< Double.mantissaBits : ℕ) : ℚ) * 2 ^ (-(Double.mantissaBits : ℤ)) *
        ((10 ^ k.toNat : ℕ) * 2 ^ (0 : ℤ)) = d * 10 ^ k := by
      have hshift : ((2 : ℚ) ^ 53) * 2 ^ (-53 : ℤ) = 1 := by norm_num
      rw [hwide, Nat.shiftLeft_eq, Nat.cast_mul, Nat.cast_pow, Nat.cast_pow, ← zpow_natCast 
        ((10 : ℕ) : ℚ), Int.toNat_of_nonneg hk, zpow_zero, mul_one, mul_assoc (d : ℚ)]
      push_cast
      rw [hshift, mul_one]
    rw [hvalue]
    exact hv
  · rw [if_neg hk]
    refine div_of_covers c pos .positive .positive _ _ ?_
    have hvalue : (d : ℚ) * 2 ^ (0 : ℤ) / ((10 ^ (-k).toNat : ℕ) * 2 ^ (0 : ℤ)) = d * 10 ^ k := by
      have hneg : ((-k).toNat : ℤ) = -k := Int.toNat_of_nonneg (by omega)
      push_cast
      rw [← zpow_natCast, hneg, mul_one, mul_one, zpow_neg, div_inv_eq_mul]
    rw [hvalue]
    exact hv

/-- The quick way to read a decimal: both of its parts are doubles. -/
theorem quick_of_covers {b : Binary} (c : Canonical b.mantissa b.exponent)
    (pos : 0 < b.mantissa) {d : ℕ} (hd : 0 < d) (hfits : d < 2 ^ 53) {k : ℤ}
    (hk : k.natAbs < Float.exactlyRepresentablePowersOfTen.size) (hv : b.Covers (d * 10 ^ k)) :
    (if k < 0 then d.toUInt64.toFloat / Float.exactlyRepresentablePowersOfTen[k.natAbs]
      else d.toUInt64.toFloat * Float.exactlyRepresentablePowersOfTen[k.natAbs]) =
      .ofModel (.pack (.finite .positive b.mantissa b.exponent pos)) := by
  rcases unpack_toFloat hd hfits with ⟨m, e, hm, hu, hvalue⟩
  rcases unpack_powerOfTen hk with ⟨m', e', hm', hu', hwide, hten⟩
  by_cases hneg : k < 0
  · rw [if_pos hneg]
    show Float.ofModel (.pack (UnpackedFloat.div Double (d.toUInt64.toFloat).toModel.unpack
      (Float.exactlyRepresentablePowersOfTen[k.natAbs]).toModel.unpack)) = _
    rw [hu, hu', div_of_covers c pos .positive .positive hm hm']
    · rfl
    · have habs : (k.natAbs : ℤ) = -k := by omega
      rw [hvalue, hten, ← zpow_natCast, habs, zpow_neg, div_inv_eq_mul]
      exact hv
  · rw [if_neg hneg]
    show Float.ofModel (.pack (UnpackedFloat.mul Double (d.toUInt64.toFloat).toModel.unpack
      (Float.exactlyRepresentablePowersOfTen[k.natAbs]).toModel.unpack)) = _
    have hwider := le_trans hwide (Nat.le_mul_of_pos_left _ hm)
    rw [hu, hu', mul_of_covers c pos .positive .positive hm hm' hwider]
    · rfl
    · have habs : (k.natAbs : ℤ) = k := by omega
      rw [hvalue, hten, ← zpow_natCast, habs]
      exact hv

theorem ofScientific_of_covers {b : Binary} (c : Canonical b.mantissa b.exponent)
    (pos : 0 < b.mantissa) {d : ℕ} (hd : 0 < d) {k : ℤ} (hlow : -(2048 + (d.log2 : ℤ)) ≤ k)
    (hhigh : k ≤ 2048) (hv : b.Covers (d * 10 ^ k)) :
    Float.ofScientific d (decide (k < 0)) k.natAbs =
      .ofModel (.pack (.finite .positive b.mantissa b.exponent pos)) := by
  delta Float.ofScientific
  show dite (d < 2 ^ 53 ∧ k.natAbs ≤ 22) _ _ = _
  by_cases hquick : d < 2 ^ 53 ∧ k.natAbs ≤ 22
  · have hk : k.natAbs < Float.exactlyRepresentablePowersOfTen.size := Nat.lt_succ_of_le hquick.2
    rw [dif_pos hquick, ← quick_of_covers c pos hd hquick.1 hk hv]
    simp only [decide_eq_true_eq]
  · have hexp :
        (if decide (k < 0) = true then Int.negOfNat k.natAbs else Int.ofNat k.natAbs) = k := by
      simp only [decide_eq_true_eq, Int.negOfNat_eq, Int.ofNat_eq_natCast]
      split_ifs <;> omega
    rw [dif_neg hquick, ← unpacked_of_covers c pos hd hlow hhigh hv]
    show Float.ofModel (.pack (UnpackedFloat.ofScientific Double d
      (if decide (k < 0) = true then Int.negOfNat k.natAbs else Int.ofNat k.natAbs))) = _
    rw [hexp]

/-! ## The range of doubles -/

theorem Binary.Covers.range {b : Binary} (c : Canonical b.mantissa b.exponent)
    (pos : 0 < b.mantissa) {v : ℚ} (hv : b.Covers v) :
    (2 : ℚ) ^ (-1075 : ℤ) ≤ v ∧ v < 2 ^ (1024 : ℤ) := by
  rcases c with ⟨hm, hmin, hmax, -⟩
  have hbounds := hv.bounds
  have hreach := b.reach_le
  have hunit : (0 : ℚ) < 2 ^ b.exponent := by positivity
  constructor
  · have hone : (1 : ℚ) ≤ b.mantissa := by exact_mod_cast pos
    have hhalf : (1 : ℚ) / 2 ≤ v / 2 ^ b.exponent := by linarith [hbounds.1]
    rw [le_div_iff₀ hunit] at hhalf
    calc (2 : ℚ) ^ (-1075 : ℤ) = 1 / 2 * 2 ^ (-1074 : ℤ) := by
          rw [show (-1075 : ℤ) = -1 + -1074 by norm_num, zpow_add₀ (by norm_num)]
          norm_num
      _ ≤ 1 / 2 * 2 ^ b.exponent := by
          apply mul_le_mul_of_nonneg_left _ (by norm_num)
          exact zpow_le_zpow_right₀ (by norm_num) hmin
      _ ≤ v := hhalf
  · have htop : (b.mantissa : ℚ) + 1 ≤ 2 ^ 53 := by exact_mod_cast hm
    have hlt : v / 2 ^ b.exponent < 2 ^ 53 := by linarith [hbounds.2]
    rw [div_lt_iff₀ hunit] at hlt
    calc v < 2 ^ 53 * 2 ^ b.exponent := hlt
      _ ≤ 2 ^ 53 * 2 ^ (971 : ℤ) := by
          apply mul_le_mul_of_nonneg_left _ (by norm_num)
          exact zpow_le_zpow_right₀ (by norm_num) hmax
      _ = 2 ^ (1024 : ℤ) := by
          rw [show (1024 : ℤ) = (53 : ℕ) + 971 by norm_num, zpow_add₀ (by norm_num), zpow_natCast]

/-- The number of digits. -/
theorem ten_pow_le_of_digits {d : ℕ} (hd : 0 < d) :
    10 ^ ((Nat.toDigits 10 d).length - 1) ≤ d ∧ d < 10 ^ (Nat.toDigits 10 d).length := by
  have hpos : 0 < (Nat.toDigits 10 d).length := Nat.length_toDigits_pos
  constructor
  · rcases Nat.eq_or_lt_of_le hpos with hone | hmore
    · rw [← hone]
      exact hd
    · by_contra hnot
      have hle := (Nat.length_toDigits_le_iff (by norm_num) (by omega)).2 (Nat.lt_of_not_le hnot)
      omega
  · exact (Nat.length_toDigits_le_iff (by norm_num) hpos).1 le_rfl

theorem two_pow_lt_ten_pow : (2 : ℚ) ^ 1075 < 10 ^ 400 := by
  calc (2 : ℚ) ^ 1075 < 2 ^ (3 * 400) := pow_lt_pow_right₀ (by norm_num) (by norm_num)
    _ = (2 ^ 3) ^ 400 := pow_mul _ _ _
    _ ≤ 10 ^ 400 := pow_le_pow_left₀ (by norm_num) (by norm_num) _

/-- A decimal in the range of doubles is of no extreme magnitude. -/
theorem magnitude_bounds {d : ℕ} (hd : 0 < d) {k : ℤ} (hlow : (2 : ℚ) ^ (-1075 : ℤ) ≤ d * 10 ^ k)
    (hhigh : (d : ℚ) * 10 ^ k < 2 ^ (1024 : ℤ)) :
    -400 ≤ ((Nat.toDigits 10 d).length : ℤ) + k ∧ ((Nat.toDigits 10 d).length : ℤ) + k ≤ 400 := by
  have hdigits := ten_pow_le_of_digits hd
  have hpos : 0 < (Nat.toDigits 10 d).length := Nat.length_toDigits_pos
  generalize (Nat.toDigits 10 d).length = l at hdigits hpos
  have hunit : (0 : ℚ) < 10 ^ k := by positivity
  constructor
  · by_contra hnot
    have hsmall : (d : ℚ) * 10 ^ k < 10 ^ (-400 : ℤ) := by
      calc (d : ℚ) * 10 ^ k < 10 ^ l * 10 ^ k := by
            apply mul_lt_mul_of_pos_right _ hunit
            exact_mod_cast hdigits.2
        _ = 10 ^ (l + k) := by rw [zpow_add₀ (by norm_num), zpow_natCast]
        _ ≤ 10 ^ (-400 : ℤ) := zpow_le_zpow_right₀ (by norm_num) (by omega)
    have hgap : (10 : ℚ) ^ (-400 : ℤ) < 2 ^ (-1075 : ℤ) := by
      rw [zpow_neg, zpow_neg]
      exact inv_strictAnti₀ (by positivity) two_pow_lt_ten_pow
    exact absurd (hsmall.trans hgap) hlow.not_gt
  · by_contra hnot
    have hlarge : (10 : ℚ) ^ (400 : ℤ) ≤ d * 10 ^ k := by
      calc (10 : ℚ) ^ (400 : ℤ) ≤ 10 ^ (((l - 1 : ℕ) : ℤ) + k) :=
            zpow_le_zpow_right₀ (by norm_num) (by omega)
        _ = 10 ^ (l - 1) * 10 ^ k := by rw [zpow_add₀ (by norm_num), zpow_natCast]
        _ ≤ d * 10 ^ k := by
            apply mul_le_mul_of_nonneg_right _ hunit.le
            exact_mod_cast hdigits.1
    have hgap : (2 : ℚ) ^ (1024 : ℤ) < 10 ^ (400 : ℤ) :=
      lt_trans (zpow_lt_zpow_right₀ (by norm_num) (by norm_num : (1024 : ℤ) < (1075 : ℕ)))
        two_pow_lt_ten_pow
    exact absurd (hgap.trans_le hlarge) hhigh.not_gt

/-! ## Reading a decimal -/

/-- The double with a mantissa and an exponent. -/
def Binary.toFloat (b : Binary) (pos : 0 < b.mantissa) : Float :=
  .ofModel (.pack (.finite .positive b.mantissa b.exponent pos))

theorem isFinite_toFloat {b : Binary} (c : Canonical b.mantissa b.exponent)
    (pos : 0 < b.mantissa) : isFinite (b.toFloat pos) = true := by
  have hunpack : (b.toFloat pos).toModel.unpack = _ := unpack_pack c pos
  show (!(b.toFloat pos).toModel.unpack.isNaN && !(b.toFloat pos).toModel.unpack.isInf) = true
  rw [hunpack]
  rfl

/-- A decimal is read as the double in whose interval it lies. -/
theorem nearest?_of_covers {b : Binary} (c : Canonical b.mantissa b.exponent)
    (pos : 0 < b.mantissa) (negative : Bool) {d : ℕ} (hd : 0 < d) {k : ℤ}
    (hv : b.Covers (d * 10 ^ k)) :
    nearest? negative d k = some (if negative then -b.toFloat pos else b.toFloat pos) := by
  have hrange := hv.range c pos
  have hmagnitude := magnitude_bounds hd hrange.1 hrange.2
  have hpos : 0 < (Nat.toDigits 10 d).length := Nat.length_toDigits_pos
  have hlog : (Nat.toDigits 10 d).length - 1 ≤ d.log2 := by
    rw [Nat.le_log2 hd.ne']
    exact le_trans (Nat.pow_le_pow_left (by norm_num) _) (ten_pow_le_of_digits hd).1
  have hread : Float.ofScientific d (decide (k < 0)) k.natAbs = b.toFloat pos :=
    ofScientific_of_covers c pos hd (by omega) (by omega) hv
  have hchoice : (if k < 0 then Float.ofScientific d true k.natAbs
      else Float.ofScientific d false k.natAbs) = b.toFloat pos := by
    rw [← hread]
    by_cases hneg : k < 0
    · rw [if_pos hneg, decide_eq_true hneg]
    · rw [if_neg hneg, decide_eq_false hneg]
  unfold nearest?
  simp only
  rw [if_neg (by omega), if_neg (by omega), hchoice, if_pos (isFinite_toFloat c pos)]

end Decimal
end Callflow
