import Callflow.Decimal.Shortest
import Callflow.Proofs.Time.Sum
import Mathlib.Algebra.Order.Field.Power
import Mathlib.Tactic.FieldSimp
import Mathlib.Tactic.Ring

/-!
# Rounding to a double

The numbers that round to a double form an interval around it (`Binary.Covers`), closed where its
mantissa is even. Products and quotients of doubles are computed with a mantissa and two bits that
tell on which side of the middle the rest lies (`Represents`); such a number is rounded to the
double whose interval it lies in: `roundWithAccuracy_of_covers`.
-/

namespace Callflow
namespace Decimal

open Float.Model (Format UnpackedFloat totalExponent)
open Float.Model.UnpackedFloat
open Time (Double Canonical Rounded)

/-! ## The interval of a double -/

/-- How far the interval reaches below the mantissa, in units of the last place: half a unit, but
only a quarter where the units below are half as large. -/
def Binary.reach (b : Binary) : ℚ :=
  if b.mantissa = hiddenBit ∧ minExponent < b.exponent then 1 / 4 else 1 / 2

/-- Whether a number, in units of the last place, lies in the interval of a double. -/
def Binary.CoversUnits (b : Binary) (x : ℚ) : Prop :=
  if b.mantissa % 2 = 0 then (b.mantissa : ℚ) - b.reach ≤ x ∧ x ≤ b.mantissa + 1 / 2
  else (b.mantissa : ℚ) - b.reach < x ∧ x < b.mantissa + 1 / 2

/-- Whether a number lies in the interval of a double. -/
def Binary.Covers (b : Binary) (v : ℚ) : Prop := b.CoversUnits (v / 2 ^ b.exponent)

theorem Binary.reach_le (b : Binary) : b.reach ≤ 1 / 2 := by
  unfold Binary.reach
  split_ifs <;> norm_num

/-- The interval with its ends. -/
theorem Binary.CoversUnits.bounds {b : Binary} {x : ℚ} (h : b.CoversUnits x) :
    (b.mantissa : ℚ) - b.reach ≤ x ∧ x ≤ b.mantissa + 1 / 2 := by
  unfold Binary.CoversUnits at h
  by_cases heven : b.mantissa % 2 = 0
  · rw [if_pos heven] at h
    exact h
  · rw [if_neg heven] at h
    exact ⟨h.1.le, h.2.le⟩

/-! ## Mantissas with a rest -/

/-- What a mantissa with its two further bits stands for. -/
def Represents (em : ExtendedMantissa) (x : ℚ) : Prop :=
  match em with
  | ⟨m, false, false⟩ => x = m
  | ⟨m, false, true⟩ => (m : ℚ) < x ∧ x < m + 1 / 2
  | ⟨m, true, false⟩ => x = m + 1 / 2
  | ⟨m, true, true⟩ => (m : ℚ) + 1 / 2 < x ∧ x < m + 1

theorem Represents.bounds {em : ExtendedMantissa} {x : ℚ} (h : Represents em x) :
    (em.mantissa : ℚ) ≤ x ∧ x < em.mantissa + 1 := by
  rcases em with ⟨m, half, rest⟩
  cases half <;> cases rest <;> simp only [Represents] at h ⊢ <;> constructor <;> linarith

/-- Halving keeps the side of the middle on which the rest lies. -/
theorem Represents.shiftRightOne {em : ExtendedMantissa} {x : ℚ} (h : Represents em x) :
    Represents em.shiftRightOne (x / 2) := by
  rcases em with ⟨m, half, rest⟩
  have hsplit : (m : ℚ) = 2 * (m / 2 : ℕ) + (m % 2 : ℕ) := by
    exact_mod_cast (Nat.div_add_mod m 2).symm
  rcases Nat.mod_two_eq_zero_or_one m with hm | hm <;> rw [hm] at hsplit <;>
    cases half <;> cases rest <;>
    simp only [Represents, ExtendedMantissa.shiftRightOne, hm, Nat.reduceBNe, Bool.or_false,
      Bool.or_true] at h ⊢ <;> push_cast at hsplit <;>
    first | linarith | (constructor <;> linarith)

theorem Represents.shiftRight {em : ExtendedMantissa} {x : ℚ} (h : Represents em x) (n : ℕ) :
    Represents (em >>> n) (x / 2 ^ n) := by
  show Represents (n.repeat ExtendedMantissa.shiftRightOne em) _
  induction n with
  | zero =>
    rw [pow_zero, div_one]
    exact h
  | succ n ih =>
    rw [pow_succ, ← div_div]
    exact ih.shiftRightOne

/-- The nearest whole number, and of two the even one. -/
theorem Represents.rounded {em : ExtendedMantissa} {x : ℚ} {k : ℕ} (h : Represents em x)
    (hlow : (k : ℚ) - 1 / 2 ≤ x) (hhigh : x ≤ k + 1 / 2)
    (htie : k % 2 = 1 → (k : ℚ) - 1 / 2 < x ∧ x < k + 1 / 2) : em.roundedMantissa = k := by
  rcases em with ⟨m, half, rest⟩
  have hbounds := h.bounds
  have hle : m ≤ k := by
    by_contra hnot
    have hfar : (k : ℚ) + 1 ≤ m := by exact_mod_cast Nat.lt_of_not_le hnot
    simp only at hbounds
    linarith [hbounds.1]
  have hge : k ≤ m + 1 := by
    by_contra hnot
    have hfar : (m : ℚ) + 1 + 1 ≤ k := by exact_mod_cast Nat.lt_of_not_le hnot
    simp only at hbounds
    linarith [hbounds.2]
  rcases (by omega : k = m ∨ k = m + 1) with rfl | rfl
  · cases half <;> cases rest <;>
      simp only [Represents, ExtendedMantissa.roundedMantissa, ExtendedMantissa.accuracy,
        Accuracy.roundToNearestEven] at h ⊢
    · -- A tie below an odd number would be rounded up.
      rcases Nat.mod_two_eq_zero_or_one k with heven | hodd
      · rw [heven, Nat.add_zero]
      · exact absurd h (htie hodd).2.ne
    · linarith [h.1]
  · push_cast at hlow hhigh htie
    cases half <;> cases rest <;>
      simp only [Represents, ExtendedMantissa.roundedMantissa, ExtendedMantissa.accuracy,
        Accuracy.roundToNearestEven] at h ⊢
    · linarith
    · linarith [h.2]
    · rcases Nat.mod_two_eq_zero_or_one m with heven | hodd
      · have hstrict := (htie (by omega)).1
        linarith
      · rw [hodd]

/-! ## Rounding -/

theorem mantissa_ofAccuracy (n : ℕ) (a : Accuracy) :
    (ExtendedMantissa.ofMantissaAndAccuracy n a).mantissa = n := by
  cases a with
  | exact => rfl
  | inexact side => cases side <;> rfl

/-- The first shift of a rounding. -/
theorem represents_shift {n : ℕ} {e t : ℤ} {a : Accuracy} {v : ℚ}
    (h : Represents (ExtendedMantissa.ofMantissaAndAccuracy n a) (v / 2 ^ e))
    (ht : Double.targetExponent (totalExponent n e) = t) (het : e ≤ t) :
    ∃ em, shiftToTargetExponent Double n e a = (em, t) ∧ Represents em (v / 2 ^ t) := by
  have hsteps : ((t - e).toNat : ℤ) = t - e := Int.toNat_of_nonneg (by omega)
  have hunits : v / 2 ^ e / 2 ^ (t - e).toNat = v / 2 ^ t := by
    rw [div_div, ← zpow_natCast, ← zpow_add₀ (by norm_num), hsteps, add_sub_cancel]
  have hshift := h.shiftRight (t - e).toNat
  rw [hunits] at hshift
  refine ⟨_, ?_, hshift⟩
  simp only [shiftToTargetExponent, shiftToExponent, ht, hsteps, add_sub_cancel]

/-- The number is below the power of two that its mantissa and exponent stay below. -/
theorem lt_two_zpow_totalExponent {n : ℕ} {e : ℤ} {x : ℚ} (h : x / 2 ^ e < n + 1) :
    x < 2 ^ totalExponent n e := by
  have hn : (n : ℚ) + 1 ≤ 2 ^ (n.log2 + 1) := by exact_mod_cast Nat.lt_log2_self
  have hscale : x / 2 ^ e < 2 ^ (n.log2 + 1) := lt_of_lt_of_le h hn
  rw [div_lt_iff₀ (by positivity)] at hscale
  calc x < 2 ^ (n.log2 + 1) * 2 ^ e := hscale
    _ = 2 ^ totalExponent n e := by
      rw [← zpow_natCast, ← zpow_add₀ (by norm_num), totalExponent]
      norm_cast

/-- Above the least exponent, the leading bit stands at the full width of a mantissa. -/
theorem two_zpow_le_of_target {n : ℕ} {e t : ℤ} {x : ℚ} (h : (n : ℚ) ≤ x / 2 ^ e)
    (ht : Double.targetExponent (totalExponent n e) = t) (het : e ≤ t) (hmin : -1074 < t) :
    (2 : ℚ) ^ (t + 52) ≤ x := by
  have htotal := Time.targetExponent_eq (totalExponent n e)
  rw [ht, totalExponent] at htotal
  have hpos : n ≠ 0 := by
    rintro rfl
    rw [Nat.log2_zero] at htotal
    omega
  have hlead : (2 : ℚ) ^ n.log2 ≤ n := by exact_mod_cast Nat.log2_self_le hpos
  have hexp : t + 52 = n.log2 + e := by omega
  have hscale := hlead.trans h
  rw [le_div_iff₀ (by positivity)] at hscale
  calc (2 : ℚ) ^ (t + 52) = 2 ^ n.log2 * 2 ^ e := by
        rw [hexp, zpow_add₀ (by norm_num), zpow_natCast]
    _ ≤ x := hscale

/-- The exponent of a number in the interval of a double is that of the double, or one less just
below a power of two. -/
theorem target_of_covers {b : Binary} (c : Canonical b.mantissa b.exponent) {n : ℕ} {e t : ℤ}
    {v : ℚ} (hlow : (n : ℚ) ≤ v / 2 ^ e) (hhigh : v / 2 ^ e < n + 1)
    (ht : Double.targetExponent (totalExponent n e) = t) (het : e ≤ t) (hv : b.Covers v) :
    t = b.exponent ∨
      t + 1 = b.exponent ∧ b.mantissa = hiddenBit ∧ b.reach = 1 / 4 ∧ v / 2 ^ t < 2 ^ 53 := by
  rcases b with ⟨m, x⟩
  rcases c with ⟨hm, hmin, hmax, hfull⟩
  simp only at hm hmin hmax hfull ⊢
  have hbounds := hv.bounds
  simp only at hbounds
  have htotal := Time.targetExponent_eq (totalExponent n e)
  rw [ht] at htotal
  have hpow : (0 : ℚ) < 2 ^ x := by positivity
  have hreach := Binary.reach_le ⟨m, x⟩
  have hbelow : v < 2 ^ (x + 53) := by
    have hunits : v / 2 ^ x < 2 ^ 53 := by
      have hm' : (m : ℚ) + 1 ≤ 2 ^ 53 := by exact_mod_cast hm
      linarith [hbounds.2]
    rw [div_lt_iff₀ hpow, ← zpow_natCast, ← zpow_add₀ (by norm_num)] at hunits
    rw [add_comm]
    exact hunits
  have hle : t ≤ x := by
    by_contra hnot
    have hlead := two_zpow_le_of_target hlow ht het (by omega)
    have hexp := (zpow_lt_zpow_iff_right₀ (by norm_num)).1 (hlead.trans_lt hbelow)
    omega
  rcases Int.lt_or_eq_of_le hle with hlt | heq
  · right
    have hlarge : 2 ^ 52 ≤ m := by omega
    have hsmall : v < 2 ^ (t + 53) :=
      lt_of_lt_of_le (lt_two_zpow_totalExponent hhigh)
        (zpow_le_zpow_right₀ (by norm_num) (by omega))
    have habove : ((m : ℚ) - 1 / 2) * 2 ^ x ≤ v := by
      rw [← le_div_iff₀ hpow]
      linarith [hbounds.1]
    have hhidden : m = 2 ^ 52 := by
      by_contra hnot
      have hnext : (2 : ℚ) ^ 52 + 1 ≤ m := by exact_mod_cast lt_of_le_of_ne hlarge (Ne.symm hnot)
      have hscale : (2 : ℚ) ^ (x + 52) ≤ v := by
        calc (2 : ℚ) ^ (x + 52) = 2 ^ 52 * 2 ^ x := by
              rw [add_comm, zpow_add₀ (by norm_num)]
              norm_cast
          _ ≤ ((m : ℚ) - 1 / 2) * 2 ^ x := by
              apply mul_le_mul_of_nonneg_right _ hpow.le
              linarith
          _ ≤ v := habove
      have hexp := (zpow_lt_zpow_iff_right₀ (by norm_num)).1 (hscale.trans_lt hsmall)
      omega
    have hnext : t + 1 = x := by
      have hscale : (2 : ℚ) ^ (x + 51) ≤ v := by
        calc (2 : ℚ) ^ (x + 51) = 2 ^ 51 * 2 ^ x := by
              rw [add_comm, zpow_add₀ (by norm_num)]
              norm_cast
          _ ≤ ((m : ℚ) - 1 / 2) * 2 ^ x := by
              apply mul_le_mul_of_nonneg_right _ hpow.le
              rw [hhidden]
              norm_num
          _ ≤ v := habove
      have hexp := (zpow_lt_zpow_iff_right₀ (by norm_num)).1 (hscale.trans_lt hsmall)
      omega
    have hnormal : minExponent < x := by
      show -1074 < x
      omega
    refine ⟨hnext, hhidden, if_pos ⟨hhidden, hnormal⟩, ?_⟩
    rw [div_lt_iff₀ (by positivity), ← zpow_natCast, ← zpow_add₀ (by norm_num), add_comm]
    exact hsmall
  · exact Or.inl heq

theorem finite_congr (s : Sign) {m m' : ℕ} {e e' : ℤ} (pos : 0 < m) (pos' : 0 < m') (hm : m = m')
    (he : e = e') : UnpackedFloat.finite s m e pos = .finite s m' e' pos' := by
  subst hm he
  rfl

/-- A number is rounded to the double whose interval it lies in. -/
theorem roundWithAccuracy_of_covers {b : Binary} (c : Canonical b.mantissa b.exponent)
    (pos : 0 < b.mantissa) (s : Sign) {n : ℕ} {e : ℤ} {a : Accuracy} {v : ℚ}
    (h : Represents (ExtendedMantissa.ofMantissaAndAccuracy n a) (v / 2 ^ e))
    (he : e ≤ Double.targetExponent (totalExponent n e)) (hv : b.Covers v) :
    roundWithAccuracy Double s n e a = .finite s b.mantissa b.exponent pos := by
  have hfloor := h.bounds
  rw [mantissa_ofAccuracy] at hfloor
  rcases represents_shift h rfl he with ⟨em, hshift, hem⟩
  have htarget := target_of_covers c hfloor.1 hfloor.2 rfl he hv
  have hleast : -1074 ≤ Double.targetExponent (totalExponent n e) := by
    rw [Time.targetExponent_eq]
    exact le_max_right _ _
  generalize Double.targetExponent (totalExponent n e) = t at he hshift hem htarget hleast
  have hbounds := hv.bounds
  -- The mantissa after the first shift, and its code.
  have hround : em.roundedMantissa ≤ 2 ^ 53 ∧ -1074 ≤ t ∧ 0 < em.roundedMantissa ∧
      (2 ^ 52 ≤ em.roundedMantissa ∨ t = -1074) ∧
      (em.roundedMantissa : ℤ) + (t + 1074) * 2 ^ 52 =
        b.mantissa + (b.exponent + 1074) * 2 ^ 52 := by
    rcases c with ⟨hm, hmin, -, hfull⟩
    rcases htarget with rfl | ⟨hnext, hhidden, hreach, hbelow⟩
    · have hreach := b.reach_le
      have hsame : em.roundedMantissa = b.mantissa := by
        refine hem.rounded (by linarith [hbounds.1]) hbounds.2 ?_
        intro hodd
        unfold Binary.Covers Binary.CoversUnits at hv
        rw [if_neg (by omega)] at hv
        exact ⟨by linarith [hv.1], hv.2⟩
      rw [hsame]
      exact ⟨hm.le, hmin, pos, hfull, rfl⟩
    · -- Just below a power of two the mantissa is rounded up into a further bit.
      have hcarry : em.roundedMantissa = 2 ^ 53 := by
        have hdouble : v / 2 ^ t = 2 * (v / 2 ^ b.exponent) := by
          rw [← hnext, zpow_add₀ (by norm_num), zpow_one]
          field_simp
        have hbottom : (2 : ℚ) ^ 53 - 1 / 2 ≤ v / 2 ^ t := by
          rw [hdouble]
          have hlow := hbounds.1
          rw [hhidden, hreach, hiddenBit] at hlow
          norm_num at hlow ⊢
          linarith
        refine hem.rounded (by push_cast; exact hbottom) (by push_cast; linarith) ?_
        intro hodd
        omega
      have hmantissa : b.mantissa = 2 ^ 52 := hhidden
      rw [hcarry, hmantissa]
      omega
  rcases Time.shift_carry hround.2.2.1 hround.1 hround.2.1 hround.2.2.2.1 with
    ⟨em', x, hcarry, pos', hrounded, hcode⟩
  rcases c with ⟨hm, hmin, -, hfull⟩
  rcases hrounded with ⟨hm', hmin', hfull'⟩
  rw [Time.roundWithAccuracy_eq s hshift hcarry pos']
  have hexp : x = b.exponent := by omega
  have hmant : em'.mantissa = b.mantissa := by omega
  exact finite_congr s pos' pos hmant hexp

end Decimal
end Callflow
