import Callflow.Proofs.Decimal.Rounding
import Callflow.Proofs.Time.Size

/-!
# Products of doubles

The size of a double is its place without its sign (`Time.size`): zero comes first, then the finite
doubles by their magnitude, infinity, and at last what is not a number. A product is rounded once
(`Decimal.Rounding`), and rounding is monotone: so the size of a product grows with those of its
factors, whatever their signs are (`size_mul_le`). The sign of a product follows from those of its
factors, unless it is too small to have one (`not_lt_zero_mul`, `mul_lt_zero`).
-/

namespace Callflow

open Float.Model (Format UnpackedFloat totalExponent)
open Float.Model.UnpackedFloat

/-! ## Rounding is monotone -/

namespace Decimal

/-- A mantissa with a rest is rounded to the nearest whole number; from the middle, to an even one. -/
theorem Represents.rounded_spec {em : ExtendedMantissa} {x : ℚ} (h : Represents em x) :
    (em.roundedMantissa : ℚ) - 1 / 2 ≤ x ∧ x ≤ em.roundedMantissa + 1 / 2 ∧
      (em.roundedMantissa % 2 = 1 →
        (em.roundedMantissa : ℚ) - 1 / 2 < x ∧ x < em.roundedMantissa + 1 / 2) := by
  rcases em with ⟨m, half, rest⟩
  cases half <;> cases rest <;>
    simp only [Represents, ExtendedMantissa.roundedMantissa, ExtendedMantissa.accuracy,
      Accuracy.roundToNearestEven] at h ⊢
  · refine ⟨by linarith, by linarith, fun _ => ⟨by linarith, by linarith⟩⟩
  · refine ⟨by linarith, by linarith, fun _ => ⟨by linarith, by linarith⟩⟩
  · rcases Nat.mod_two_eq_zero_or_one m with heven | hodd
    · rw [heven]
      refine ⟨by push_cast; linarith, by push_cast; linarith, fun hodd => ?_⟩
      omega
    · rw [hodd]
      refine ⟨by push_cast; linarith, by push_cast; linarith, fun heven => ?_⟩
      omega
  · refine ⟨by push_cast; linarith, by push_cast; linarith, fun _ => ⟨?_, ?_⟩⟩ <;>
      push_cast <;> linarith

theorem Represents.rounded_mono {em em' : ExtendedMantissa} {x x' : ℚ} (h : Represents em x)
    (h' : Represents em' x') (hle : x ≤ x') : em.roundedMantissa ≤ em'.roundedMantissa := by
  rcases h.rounded_spec with ⟨hlow, -, htie⟩
  rcases h'.rounded_spec with ⟨-, hhigh, htie'⟩
  by_contra hnot
  -- Only a middle between two neighbours could be rounded both ways, and one of them is odd.
  have hnext : (em'.roundedMantissa : ℚ) + 1 ≤ em.roundedMantissa := by
    exact_mod_cast Nat.lt_of_not_le hnot
  have hsame : em.roundedMantissa = em'.roundedMantissa + 1 := by
    have hclose : (em.roundedMantissa : ℚ) ≤ em'.roundedMantissa + 1 := by linarith
    have hnat : em.roundedMantissa ≤ em'.roundedMantissa + 1 := by exact_mod_cast hclose
    omega
  rcases Nat.mod_two_eq_zero_or_one em'.roundedMantissa with heven | hodd
  · have hstrict := (htie (by omega)).1
    linarith
  · have hstrict := (htie' hodd).2
    linarith

/-- A number rounds to a mantissa `k` with the exponent `t`. Below the least exponent all numbers are
in the same units; above it, the leading bit decides about the exponent. -/
structure Rounding (v : ℚ) (k : ℕ) (t : ℤ) : Prop where
  least : -1074 ≤ t
  below : v < 2 ^ (t + 53)
  lead : t = -1074 ∨ (2 : ℚ) ^ (t + 52) ≤ v
  near : ∃ em, Represents em (v / 2 ^ t) ∧ em.roundedMantissa = k

namespace Rounding

variable {v v' : ℚ} {k k' : ℕ} {t t' : ℤ}

theorem fits (h : Rounding v k t) : k ≤ 2 ^ 53 := by
  rcases h.near with ⟨em, hem, rfl⟩
  have hbelow : v / 2 ^ t < 2 ^ 53 := by
    rw [div_lt_iff₀ (by positivity), ← zpow_natCast, ← zpow_add₀ (by norm_num), add_comm]
    exact h.below
  have hrounded := hem.rounded_spec.1
  have hless : (em.roundedMantissa : ℚ) < 2 ^ 53 + 1 := by linarith
  exact Nat.le_of_lt_succ (by exact_mod_cast hless)

theorem full (h : Rounding v k t) : 2 ^ 52 ≤ k ∨ t = -1074 := by
  rcases h.lead with hleast | hlead
  · exact Or.inr hleast
  · left
    rcases h.near with ⟨em, hem, rfl⟩
    have habove : 2 ^ 52 ≤ v / 2 ^ t := by
      rw [le_div_iff₀ (by positivity), ← zpow_natCast, ← zpow_add₀ (by norm_num), add_comm]
      exact hlead
    have hrounded := hem.rounded_spec.2.1
    have hmore : (2 : ℚ) ^ 52 < em.roundedMantissa + 1 := by linarith
    exact Nat.le_of_lt_succ (by exact_mod_cast hmore)

/-- A greater number does not round to a smaller code. -/
theorem mono (h : Rounding v k t) (h' : Rounding v' k' t') (hle : v ≤ v') :
    (k : ℤ) + (t + 1074) * 2 ^ 52 ≤ k' + (t' + 1074) * 2 ^ 52 := by
  have hfits := h.fits
  have hfull := h'.full
  have hleast := h.least
  have hexp : t ≤ t' := by
    rcases h.lead with hmin | hlead
    · have hleast' := h'.least
      omega
    · have hpow := (zpow_lt_zpow_iff_right₀ (by norm_num)).1
        ((hlead.trans hle).trans_lt h'.below)
      omega
  rcases Int.lt_or_eq_of_le hexp with hless | rfl
  · -- The greater exponent has a full mantissa.
    omega
  · rcases h.near with ⟨em, hem, rfl⟩
    rcases h'.near with ⟨em', hem', rfl⟩
    have hmono := hem.rounded_mono hem' (div_le_div_of_nonneg_right hle (by positivity))
    omega

/-- Only one code is the result of a rounding. -/
theorem code_eq (h : Rounding v k t) (h' : Rounding v k' t') :
    (k : ℤ) + (t + 1074) * 2 ^ 52 = k' + (t' + 1074) * 2 ^ 52 :=
  le_antisymm (h.mono h' le_rfl) (h'.mono h le_rfl)

/-- A double needs no rounding. -/
theorem of_canonical {m : ℕ} {e : ℤ} (c : Time.Canonical m e) : Rounding (m * 2 ^ e) m e := by
  rcases c with ⟨hm, hmin, -, hfull⟩
  have hpow : (0 : ℚ) < 2 ^ e := by positivity
  refine ⟨hmin, ?_, ?_, ⟨m, false, false⟩, ?_, rfl⟩
  · rw [add_comm, zpow_add₀ (by norm_num)]
    have hless : (m : ℚ) < 2 ^ (53 : ℤ) := by exact_mod_cast hm
    exact mul_lt_mul_of_pos_right hless hpow
  · rcases hfull with hfull | hleast
    · right
      rw [add_comm, zpow_add₀ (by norm_num)]
      have hmore : (2 : ℚ) ^ (52 : ℤ) ≤ m := by exact_mod_cast hfull
      exact mul_le_mul_of_nonneg_right hmore hpow.le
    · exact Or.inl hleast
  · show (m : ℚ) * 2 ^ e / 2 ^ e = m
    rw [mul_div_assoc, div_self hpow.ne', mul_one]

end Rounding

end Decimal

namespace Time

open Decimal (Represents Binary)

/-! ## Rounded products -/

theorem roundWithAccuracy_zero (s : Sign) {n : Nat} {e t : Int} {a : Accuracy}
    {em : ExtendedMantissa} (hshift : shiftToTargetExponent Double n e a = (em, t))
    (hzero : em.roundedMantissa = 0) : roundWithAccuracy Double s n e a = .zero s := by
  delta roundWithAccuracy
  rw [hshift]
  show (match shiftToTargetExponent Double em.roundedMantissa t .exact with
    | (f, y) => if h : f.mantissa = 0 then UnpackedFloat.zero s
      else UnpackedFloat.finite s f.mantissa y (Nat.pos_of_ne_zero h)) = _
  rw [hzero]
  refine dif_pos ?_
  show ((ExtendedMantissa.mk 0 false false >>> _ : ExtendedMantissa)).mantissa = 0
  rw [mantissa_shift, Nat.zero_div]

/-- The place of a packed number: its sign, and a size. -/
theorem place_round (s : Sign) {n : Nat} {e : Int}
    (he : e ≤ Double.targetExponent (totalExponent n e)) :
    ∃ k t, Decimal.Rounding (n * 2 ^ e) k t ∧
      (place (.ofModel (.pack (roundWithAccuracy Double s n e .exact))) : Int) =
        s.toBitVec.toNat * 2 ^ 63 + min (k + (t + 1074) * 2 ^ 52) (lastPlace : Int) := by
  have hlast : lastPlace = 0x7FF0000000000000 := rfl
  have hunits : (n : ℚ) * 2 ^ e / 2 ^ e = n := by
    rw [mul_div_assoc, div_self (by positivity), mul_one]
  have hrest : Represents (ExtendedMantissa.ofMantissaAndAccuracy n .exact) (n * 2 ^ e / 2 ^ e) :=
    hunits
  rcases Decimal.represents_shift hrest rfl he with ⟨em, hshift, hem⟩
  have htarget := targetExponent_eq (totalExponent n e)
  have hbelow : (n : ℚ) * 2 ^ e < 2 ^ totalExponent n e :=
    Decimal.lt_two_zpow_totalExponent (hunits.trans_lt (lt_add_one _))
  have hlead := Decimal.two_zpow_le_of_target hunits.ge rfl he
  generalize Double.targetExponent (totalExponent n e) = t at he hshift hem htarget hlead
  have hrounding : Decimal.Rounding (n * 2 ^ e) em.roundedMantissa t := by
    refine ⟨by omega, hbelow.trans_le ?_, ?_, em, hem, rfl⟩
    · exact zpow_le_zpow_right₀ (by norm_num) (by omega)
    · by_cases hmin : t = -1074
      · exact Or.inl hmin
      · exact Or.inr (hlead (by omega))
  refine ⟨_, t, hrounding, ?_⟩
  rcases Nat.eq_zero_or_pos em.roundedMantissa with hzero | hpos
  · have hmin : t = -1074 := by
      have hfull := hrounding.full
      omega
    rw [roundWithAccuracy_zero s hshift hzero, hzero, hmin]
    cases s <;> rfl
  · rcases shift_carry hpos hrounding.fits hrounding.least hrounding.full with
      ⟨em', x, hcarry, pos, hrounded, hcode⟩
    rw [roundWithAccuracy_eq s hshift hcarry pos, place_pack_signed s pos hrounded]
    unfold Rounded at hrounded
    by_cases hx : x ≤ 971
    · rw [if_pos hx]
      omega
    · rw [if_neg hx]
      omega

theorem mul_eq (t u : Time) :
    t * u = .ofModel (.pack (UnpackedFloat.mul Double t.toModel.unpack u.toModel.unpack)) := rfl

theorem place_pack_infinity (s : Sign) :
    place (.ofModel (.pack (.infinity s))) = s.toBitVec.toNat * 2 ^ 63 + lastPlace := by
  cases s <;> rfl

theorem size_pack_zero (s : Sign) : size (.ofModel (.pack (.zero s))) = 0 := by
  cases s <;> rfl

theorem size_pack_infinity (s : Sign) : size (.ofModel (.pack (.infinity s))) = lastPlace := by
  cases s <;> rfl

/-- The product of two finite doubles is their exact product, rounded once. -/
theorem mul_finite (s s' : Sign) {m m' : Nat} {e e' : Int} (pos : 0 < m) (pos' : 0 < m')
    (c : Canonical m e) (c' : Canonical m' e') {t : Time}
    (ht : t = .ofModel (.pack (UnpackedFloat.mul Double (.finite s m e pos)
      (.finite s' m' e' pos')))) :
    t.place = (s * s').toBitVec.toNat * 2 ^ 63 + t.size ∧
      ∃ k x, Decimal.Rounding (m * 2 ^ e * (m' * 2 ^ e')) k x ∧
        (t.size : Int) = min (k + (x + 1074) * 2 ^ 52) (lastPlace : Int) := by
  have hlast : lastPlace = 0x7FF0000000000000 := rfl
  have htarget : e + e' ≤ Double.targetExponent (totalExponent (m * m') (e + e')) := by
    rw [targetExponent_eq, totalExponent]
    unfold Canonical at c c'
    by_cases hwide : 2 ^ 52 ≤ m * m'
    · have hlog : 52 ≤ (m * m').log2 := (Nat.le_log2 (by omega)).2 hwide
      omega
    · -- Two doubles with less bits are both below the normal ones.
      have hfirst : ¬ 2 ^ 52 ≤ m := fun h => hwide (le_trans h (Nat.le_mul_of_pos_right _ pos'))
      have hsecond : ¬ 2 ^ 52 ≤ m' := fun h => hwide (le_trans h (Nat.le_mul_of_pos_left _ pos))
      omega
  have hvalue : ((m * m' : Nat) : ℚ) * 2 ^ (e + e') = m * 2 ^ e * (m' * 2 ^ e') := by
    rw [zpow_add₀ (by norm_num)]
    push_cast
    ring
  rcases place_round (s * s') htarget with ⟨k, x, hrounding, hplace⟩
  rw [hvalue] at hrounding
  have hround : (t.place : Int) =
      (s * s').toBitVec.toNat * 2 ^ 63 + min (k + (x + 1074) * 2 ^ 52) (lastPlace : Int) := by
    rw [ht]
    exact hplace
  have hleast := hrounding.least
  have hsize : (t.size : Int) = min (k + (x + 1074) * 2 ^ 52) (lastPlace : Int) := by
    unfold size
    omega
  exact ⟨by omega, k, x, hrounding, hsize⟩

theorem Canonical.value_mono {m m' : Nat} {e e' : Int} (c : Canonical m e) (c' : Canonical m' e')
    (h : (m : Int) + (e + 1074) * 2 ^ 52 ≤ m' + (e' + 1074) * 2 ^ 52) :
    (m : ℚ) * 2 ^ e ≤ m' * 2 ^ e' := by
  unfold Canonical at c c'
  rcases Int.lt_trichotomy e e' with hless | rfl | hmore
  · have hm : (m : ℚ) ≤ 2 ^ (53 : Int) := by exact_mod_cast c.1.le
    have hm' : (2 : ℚ) ^ (52 : Int) ≤ m' := by
      have hfull : 2 ^ 52 ≤ m' := by omega
      exact_mod_cast hfull
    calc (m : ℚ) * 2 ^ e ≤ 2 ^ (53 : Int) * 2 ^ e :=
          mul_le_mul_of_nonneg_right hm (by positivity)
      _ = 2 ^ (53 + e) := (zpow_add₀ (by norm_num) _ _).symm
      _ ≤ 2 ^ (52 + e') := zpow_le_zpow_right₀ (by norm_num) (by omega)
      _ = 2 ^ (52 : Int) * 2 ^ e' := zpow_add₀ (by norm_num) _ _
      _ ≤ m' * 2 ^ e' := mul_le_mul_of_nonneg_right hm' (by positivity)
  · have hm : (m : ℚ) ≤ m' := by exact_mod_cast (by omega : m ≤ m')
    exact mul_le_mul_of_nonneg_right hm (by positivity)
  · omega

/-- Doubles whose sizes do not fall. -/
inductive Within : UnpackedFloat → UnpackedFloat → Prop where
  | zero (s : Sign) (u : UnpackedFloat) : Within (.zero s) u
  | finite (s s' : Sign) {m m' : Nat} {e e' : Int} (pos : 0 < m) (pos' : 0 < m') :
      Canonical m e → Canonical m' e' → (m : ℚ) * 2 ^ e ≤ m' * 2 ^ e' →
        Within (.finite s m e pos) (.finite s' m' e' pos')
  | overflow (s s' : Sign) {m : Nat} {e : Int} (pos : 0 < m) : Canonical m e →
      Within (.finite s m e pos) (.infinity s')
  | infinity (s s' : Sign) : Within (.infinity s) (.infinity s')
  | notANumber (u : UnpackedFloat) : Within u .notANumber

theorem Sized.within {n n' : Nat} {u u' : UnpackedFloat} (h : Sized n u) (h' : Sized n' u')
    (hle : n ≤ n') : Within u u' := by
  have hlast : lastPlace = 0x7FF0000000000000 := rfl
  cases h with
  | zero s => exact .zero s u'
  | finite s pos c hn =>
    cases h' with
    | finite s' pos' c' hn' =>
      exact .finite s s' pos pos' c c' (c.value_mono c' (by omega))
    | infinity s' => exact .overflow s s' pos c
    | notANumber => exact .notANumber _
    | zero s' =>
      have hbounds := c.size_bounds pos hn
      omega
  | infinity s =>
    cases h' with
    | infinity s' => exact .infinity s s'
    | notANumber => exact .notANumber _
    | zero s' => omega
    | finite s' pos' c' hn' =>
      have hbounds := c'.size_bounds pos' hn'
      omega
  | notANumber =>
    cases h' with
    | notANumber => exact .notANumber _
    | zero s' => omega
    | infinity s' => omega
    | finite s' pos' c' hn' =>
      have hbounds := c'.size_bounds pos' hn'
      omega

/-- The size of a product grows with that of a factor. The product of a zero with infinity is an
exception: it is not a number. -/
theorem size_mul_le {x x' y : Time} (h : x.size ≤ x'.size)
    (hy : 0 < x.size ∨ y.size < lastPlace) : (x * y).size ≤ (x' * y).size := by
  have hall := size_le (x * y)
  have hwithin := (sized x).within (sized x') h
  have hx := sized x
  have hy' := sized y
  rw [mul_eq] at hall
  rw [mul_eq, mul_eq]
  generalize x.size = n at hx hy
  generalize y.size = p at hy' hy
  generalize x.toModel.unpack = u at *
  generalize x'.toModel.unpack = u' at *
  generalize y.toModel.unpack = v at *
  cases hwithin with
  | notANumber => exact hall
  | zero s =>
    cases hy' with
    | zero s' => exact (size_pack_zero _).trans_le (Nat.zero_le _)
    | finite s' pos c hp => exact (size_pack_zero _).trans_le (Nat.zero_le _)
    | infinity s' =>
      cases hx
      omega
    | notANumber => cases u' <;> exact hall
  | finite s s' pos pos' c c' hle =>
    cases hy' with
    | zero s'' => exact (size_pack_zero _).trans_le (Nat.zero_le _)
    | infinity s'' => exact ((size_pack_infinity _).trans (size_pack_infinity _).symm).le
    | notANumber => exact hall
    | finite s'' pos'' c'' hp =>
      rcases mul_finite s s'' pos pos'' c c'' rfl with ⟨-, k, t, hround, hsize⟩
      rcases mul_finite s' s'' pos' pos'' c' c'' rfl with ⟨-, k', t', hround', hsize'⟩
      have hcode := hround.mono hround' (mul_le_mul_of_nonneg_right hle (by positivity))
      omega
  | overflow s s' pos c =>
    cases hy' with
    | zero s'' => exact (size_pack_zero _).trans_le (Nat.zero_le _)
    | infinity s'' => exact ((size_pack_infinity _).trans (size_pack_infinity _).symm).le
    | notANumber => exact hall
    | finite s'' pos'' c'' hp =>
      rcases mul_finite s s'' pos pos'' c c'' rfl with ⟨-, k, t, -, hsize⟩
      have hinfinity := size_pack_infinity (s' * s'')
      refine le_trans ?_ hinfinity.ge
      omega
  | infinity s s' =>
    cases hy' with
    | zero s'' => exact hall
    | infinity s'' => exact ((size_pack_infinity _).trans (size_pack_infinity _).symm).le
    | notANumber => exact hall
    | finite s'' pos'' c'' hp =>
      exact ((size_pack_infinity _).trans (size_pack_infinity _).symm).le

theorem mul_comm (t u : Time) : t * u = u * t := by
  rw [mul_eq, mul_eq]
  congr 2
  generalize t.toModel.unpack = x
  generalize u.toModel.unpack = y
  have hsign (s s' : Sign) : s * s' = s' * s := by cases s <;> cases s' <;> rfl
  cases x with
  | notANumber => cases y <;> rfl
  | infinity s =>
    cases y with
    | zero s' => rfl
    | notANumber => rfl
    | _ => exact congrArg UnpackedFloat.infinity (hsign s _)
  | zero s =>
    cases y with
    | infinity s' => rfl
    | notANumber => rfl
    | _ => exact congrArg UnpackedFloat.zero (hsign s _)
  | finite s m e pos =>
    cases y with
    | notANumber => rfl
    | infinity s' => exact congrArg UnpackedFloat.infinity (hsign s s')
    | zero s' => exact congrArg UnpackedFloat.zero (hsign s s')
    | finite s' m' e' pos' =>
      show roundWithAccuracy Double (s * s') (m * m') (e + e') .exact =
        roundWithAccuracy Double (s' * s) (m' * m) (e' + e) .exact
      rw [hsign, Nat.mul_comm, Int.add_comm]

theorem size_mul_le_right {x y y' : Time} (h : y.size ≤ y'.size)
    (hx : 0 < y.size ∨ x.size < lastPlace) : (x * y).size ≤ (x * y').size := by
  rw [mul_comm x y, mul_comm x y']
  exact size_mul_le h hx

theorem size_mul_one (t : Time) : (t * 1.0).size = t.size := by
  have hone : ((1.0 : Time).toModel.unpack) = .finite .positive (2 ^ 52) (-52) (by decide) := rfl
  have ht := sized t
  rw [mul_eq, hone]
  generalize t.size = n at ht
  generalize t.toModel.unpack = u at ht
  cases ht with
  | zero s => exact size_pack_zero _
  | infinity s => exact size_pack_infinity _
  | notANumber => rfl
  | @finite _ m e s pos c hn =>
    have c' : Canonical (2 ^ 52) (-52) := by
      unfold Canonical
      omega
    rcases mul_finite s .positive pos (by decide) c c' rfl with ⟨-, k, x, hround, hsize⟩
    have hvalue : (m : ℚ) * 2 ^ e * ((2 ^ 52 : Nat) * 2 ^ (-52 : ℤ)) = m * 2 ^ e := by
      norm_num
    rw [hvalue] at hround
    have hcode := hround.code_eq (.of_canonical c)
    have hbounds := c.size_bounds pos hn
    omega

theorem size_one_mul (t : Time) : (1.0 * t).size = t.size := by
  rw [mul_comm, size_mul_one]

/-! ## Signs -/

/-- The product of a zero is a zero, or not a number. -/
theorem size_zero_mul {t : Time} (h : t.size = 0) (u : Time) :
    (t * u).size = 0 ∨ (t * u).size = lastPlace + 1 := by
  have ht := sized t
  rw [mul_eq]
  rw [h] at ht
  generalize t.toModel.unpack = x at ht
  generalize u.toModel.unpack = y
  cases ht with
  | zero s =>
    cases y with
    | zero s' => exact Or.inl (size_pack_zero _)
    | finite s' m e pos => exact Or.inl (size_pack_zero _)
    | infinity s' => exact Or.inr rfl
    | notANumber => exact Or.inr rfl
  | finite s pos c hn =>
    have hbounds := c.size_bounds pos hn
    omega

theorem size_notANumber_mul {t : Time} (h : t.size = lastPlace + 1) (u : Time) :
    (t * u).size = lastPlace + 1 := by
  have ht := sized t
  rw [mul_eq]
  rw [h] at ht
  generalize t.toModel.unpack = x at ht
  cases ht with
  | notANumber => rfl
  | finite s pos c hn =>
    have hbounds := c.size_bounds pos hn
    omega

/-- The place of a product of doubles with signs. -/
theorem Signed.place_mul {t u : Time} {s s' : Sign} (ht : Signed s t.toModel.unpack)
    (hu : Signed s' u.toModel.unpack) :
    (t * u).place = (s * s').toBitVec.toNat * 2 ^ 63 + (t * u).size ∧ (t * u).size ≤ lastPlace := by
  have hinfinity (v : Time) (hv : v = .ofModel (.pack (.infinity (s * s')))) :
      v.place = (s * s').toBitVec.toNat * 2 ^ 63 + v.size ∧ v.size ≤ lastPlace := by
    rw [hv, place_pack_infinity, size_pack_infinity]
    exact ⟨rfl, le_rfl⟩
  have hproduct := mul_eq t u
  generalize t.toModel.unpack = x at ht hproduct
  generalize u.toModel.unpack = y at hu hproduct
  cases ht with
  | infinity => cases hu <;> exact hinfinity _ hproduct
  | finite pos c =>
    cases hu with
    | infinity => exact hinfinity _ hproduct
    | finite pos' c' =>
      rcases mul_finite s s' pos pos' c c' hproduct with ⟨hplace, k, e, -, hsize⟩
      exact ⟨hplace, by omega⟩

/-- The sign of a product, unless it is too small to have one. -/
theorem Signed.mul {t u : Time} {s s' : Sign} (ht : Signed s t.toModel.unpack)
    (hu : Signed s' u.toModel.unpack) :
    (t * u).size = 0 ∨ Signed (s * s') (t * u).toModel.unpack := by
  have hlast : lastPlace = 0x7FF0000000000000 := rfl
  rcases ht.place_mul hu with ⟨hplace, hsize⟩
  have hsign : signOf (t * u).place = s * s' := by
    rw [hplace]
    cases s * s' with
    | positive =>
      refine if_pos ?_
      show 0 * 2 ^ 63 + (t * u).size < 2 ^ 63
      omega
    | negative =>
      refine if_neg ?_
      show ¬ 1 * 2 ^ 63 + (t * u).size < 2 ^ 63
      omega
  have f := form (t * u)
  unfold size at hsize ⊢
  rw [← hsign]
  generalize (t * u).toModel.unpack = x at f
  cases f with
  | zero hz => exact Or.inl (by omega)
  | finite pos c hm => exact Or.inr (.finite pos c)
  | infinity hi => exact Or.inr .infinity
  | notANumber hn => omega

theorem not_lt_zero_mul {t u : Time} (ht : ¬ t < 0.0) (hu : ¬ u < 0.0) : ¬ t * u < 0.0 := by
  rw [lt_zero_iff] at ht hu
  rcases sign_cases t with hzero | hnan | hplus | hminus
  · exact not_lt_zero_of_size (size_zero_mul hzero u)
  · exact not_lt_zero_of_size (Or.inr (size_notANumber_mul hnan u))
  · rcases sign_cases u with hzero' | hnan' | hplus' | hminus'
    · rw [mul_comm]
      exact not_lt_zero_of_size (size_zero_mul hzero' t)
    · rw [mul_comm]
      exact not_lt_zero_of_size (Or.inr (size_notANumber_mul hnan' t))
    · rcases hplus.mul hplus' with hnone | hsign
      · exact not_lt_zero_of_size (Or.inl hnone)
      · rw [lt_zero_iff]
        intro hneg
        generalize (t * u).toModel.unpack = x at hsign hneg
        cases hsign <;> cases hneg
    · exact absurd hminus' hu
  · exact absurd hminus ht

/-- A finite number that is not negative makes a negative one zero or negative. -/
theorem mul_lt_zero {t u : Time} (hfinite : t.size < lastPlace) (ht : ¬ t < 0.0) (hu : u < 0.0) :
    t.size = 0 ∨ (t * u).size = 0 ∨ t * u < 0.0 := by
  rw [lt_zero_iff] at ht hu ⊢
  rcases sign_cases t with hzero | hnan | hplus | hminus
  · exact Or.inl hzero
  · omega
  · exact Or.inr (hplus.mul hu)
  · exact absurd hminus ht

end Time
end Callflow
