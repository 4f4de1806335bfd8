import Callflow.Proofs.Time.Product

/-!
# Spans of time that a clock notices

The greater the doubles are, the farther apart they lie (`spacing`). A sum is rounded to the nearest
of them, so a clock moves on by a span of time only if the span is longer than half the way to the
next reading; just half the way suffices where the last bit of the clock is set, for a tie goes to
the even one of the two (`Notices`). `IsReading.lt_add_iff` says that these are the spans after which
a clock shows a later time, and `Notices.of_le` that it is enough to know this of a later clock, ties
apart.
-/

namespace Callflow

/-! ## Rounding a mantissa with a rest -/

namespace Decimal

/-- Two further bits tell every rest. -/
theorem exists_represents {m : ℕ} {x : ℚ} (hlow : (m : ℚ) ≤ x) (hhigh : x < m + 1) :
    ∃ em, Represents em x := by
  rcases hlow.eq_or_lt with hexact | hrest
  · exact ⟨⟨m, false, false⟩, hexact.symm⟩
  · rcases lt_trichotomy x (m + 1 / 2) with hless | hmiddle | hmore
    · exact ⟨⟨m, false, true⟩, hrest, hless⟩
    · exact ⟨⟨m, true, false⟩, hmiddle⟩
    · exact ⟨⟨m, true, true⟩, hmore, hhigh⟩

namespace Rounding

variable {m k : ℕ} {e x : ℤ} {span : ℚ}

/-- Between two neighbours, a number rounds to the nearer one, and in the middle to the even one. -/
theorem of_near {u : ℚ} (c : Time.Canonical m e) (hlow : (m : ℚ) ≤ u) (hhigh : u < m + 1)
    (habove : (k : ℚ) - 1 / 2 ≤ u) (hbelow : u ≤ k + 1 / 2)
    (htie : k % 2 = 1 → (k : ℚ) - 1 / 2 < u ∧ u < k + 1 / 2) : Rounding (u * 2 ^ e) k e := by
  rcases c with ⟨hm, hmin, -, hfull⟩
  have hpow : (0 : ℚ) < 2 ^ e := by positivity
  rcases exists_represents hlow hhigh with ⟨em, hem⟩
  refine ⟨hmin, ?_, ?_, em, ?_, hem.rounded habove hbelow htie⟩
  · have hnext : (m : ℚ) + 1 ≤ 2 ^ (53 : ℤ) := by exact_mod_cast hm
    rw [add_comm, zpow_add₀ (by norm_num)]
    exact mul_lt_mul_of_pos_right (hhigh.trans_le hnext) hpow
  · rcases hfull with hfull | hleast
    · right
      have hlead : (2 : ℚ) ^ (52 : ℤ) ≤ m := by exact_mod_cast hfull
      rw [add_comm, zpow_add₀ (by norm_num)]
      exact mul_le_mul_of_nonneg_right (hlead.trans hlow) hpow.le
    · exact Or.inl hleast
  · rw [mul_div_assoc, div_self hpow.ne', mul_one]
    exact hem

/-- What is added to a double is lost if it does not reach beyond the middle to the next one. -/
theorem code_eq_of_short (h : Rounding (m * 2 ^ e + span) k x) (c : Time.Canonical m e)
    (hspan : 0 < span) (hshort : 2 * span ≤ 2 ^ e) (htie : 2 * span = 2 ^ e → m % 2 = 0) :
    (k : ℤ) + (x + 1074) * 2 ^ 52 = m + (e + 1074) * 2 ^ 52 := by
  have hpow : (0 : ℚ) < 2 ^ e := by positivity
  have hunits : ((m : ℚ) + span / 2 ^ e) * 2 ^ e = m * 2 ^ e + span := by
    rw [add_mul, div_mul_cancel₀ _ hpow.ne']
  have hrest : 0 < span / 2 ^ e := div_pos hspan hpow
  have hhalf : span / 2 ^ e ≤ 1 / 2 := by
    rw [div_le_iff₀ hpow]
    linarith
  have hself : Rounding ((m + span / 2 ^ e) * 2 ^ e) m e := by
    refine .of_near c (by linarith) (by linarith) (by linarith) (by linarith) fun hodd => ?_
    have hnot : span / 2 ^ e ≠ 1 / 2 := by
      intro hmiddle
      rw [div_eq_iff hpow.ne'] at hmiddle
      have heven := htie (by linarith)
      omega
    have hless := lt_of_le_of_ne hhalf hnot
    exact ⟨by linarith, by linarith⟩
  rw [hunits] at hself
  exact h.code_eq hself

/-- What reaches beyond the middle makes a difference. -/
theorem lt_code_of_long (h : Rounding (m * 2 ^ e + span) k x) (c : Time.Canonical m e)
    (hlong : 2 ^ e < 2 * span ∨ 2 ^ e = 2 * span ∧ m % 2 = 1) :
    (m : ℤ) + (e + 1074) * 2 ^ 52 < k + (x + 1074) * 2 ^ 52 := by
  have hpow : (0 : ℚ) < 2 ^ e := by positivity
  have hhalf : 1 / 2 ≤ span / 2 ^ e := by
    rw [le_div_iff₀ hpow]
    rcases hlong with hless | ⟨hsame, -⟩ <;> linarith
  -- Short of the next double, but beyond the middle, a number rounds to that one.
  generalize hrest : min (span / 2 ^ e) (3 / 4) = rest
  have hleast : 1 / 2 ≤ rest := hrest ▸ le_min hhalf (by norm_num)
  have hmost : rest ≤ 3 / 4 := hrest ▸ min_le_right _ _
  have hnext : Rounding ((m + rest) * 2 ^ e) (m + 1) e := by
    refine .of_near c (by linarith) (by linarith) (by push_cast; linarith)
      (by push_cast; linarith) fun hodd => ?_
    have hstrict : 1 / 2 < rest := by
      rw [← hrest]
      refine lt_min ?_ (by norm_num)
      rw [lt_div_iff₀ hpow]
      rcases hlong with hless | ⟨-, hset⟩
      · linarith
      · omega
    exact ⟨by push_cast; linarith, by push_cast; linarith⟩
  have hbelow : ((m : ℚ) + rest) * 2 ^ e ≤ m * 2 ^ e + span := by
    have hless : rest * 2 ^ e ≤ span := by
      rw [← le_div_iff₀ hpow, ← hrest]
      exact min_le_left _ _
    rw [add_mul]
    linarith
  have hcode := hnext.mono h hbelow
  push_cast at hcode
  omega

/-- Whether it makes a difference to add something to a double. -/
theorem lt_code_iff (h : Rounding (m * 2 ^ e + span) k x) (c : Time.Canonical m e)
    (hspan : 0 < span) :
    (m : ℤ) + (e + 1074) * 2 ^ 52 < k + (x + 1074) * 2 ^ 52 ↔
      2 ^ e < 2 * span ∨ 2 ^ e = 2 * span ∧ m % 2 = 1 := by
  constructor
  · intro hless
    by_contra hnot
    rw [not_or, not_lt] at hnot
    have hsame := h.code_eq_of_short c hspan hnot.1 fun htie => by
      have hodd : m % 2 ≠ 1 := fun hodd => hnot.2 ⟨htie.symm, hodd⟩
      omega
    omega
  · exact h.lt_code_of_long c

end Rounding

end Decimal

namespace Time

open Float.Model (UnpackedFloat totalExponent)
open Float.Model.UnpackedFloat

variable {t u span : Time}

/-! ## Spacing -/

/-- The size of the double at a place, in units of the smallest one. -/
def magnitude (place : Nat) : Nat :=
  (place - (place / 2 ^ 52 - 1) * 2 ^ 52) * 2 ^ (place / 2 ^ 52 - 1)

/-- The way from the double at a place to the next one, in units of the smallest one. -/
def spacing (place : Nat) : Nat := magnitude (place + 1) - magnitude place

/-- Whether a clock moves on by a span of time: by more than half the way to the next reading, or by
just half the way where the last bit of the clock is set. -/
def Notices (clock span : Time) : Prop :=
  spacing clock.place < 2 * magnitude span.place ∨
    spacing clock.place = 2 * magnitude span.place ∧ clock.place % 2 = 1

instance (clock span : Time) : Decidable (clock.Notices span) :=
  inferInstanceAs (Decidable (_ ∨ _ ∧ _))

theorem spacing_eq (place : Nat) : spacing place = 2 ^ (place / 2 ^ 52 - 1) := by
  unfold spacing magnitude
  rcases (by omega : (place + 1) / 2 ^ 52 - 1 = place / 2 ^ 52 - 1 ∨
      (place + 1) / 2 ^ 52 - 1 = place / 2 ^ 52 - 1 + 1) with hsame | hnext
  · rw [hsame]
    generalize hk : place / 2 ^ 52 - 1 = k
    have hsub : place + 1 - k * 2 ^ 52 = place - k * 2 ^ 52 + 1 := by omega
    rw [hsub, Nat.add_mul, Nat.one_mul, Nat.add_sub_cancel_left]
  · -- At a power of two the mantissa starts anew, in units twice as large.
    rw [hnext]
    generalize hk : place / 2 ^ 52 - 1 = k at hnext ⊢
    have hlast : place - k * 2 ^ 52 = 2 ^ 53 - 1 := by omega
    have hfirst : place + 1 - (k + 1) * 2 ^ 52 = 2 ^ 52 := by omega
    rw [hlast, hfirst, pow_succ]
    omega

/-- A clock notices more than half of a later clock's way to its next reading. -/
theorem Notices.of_le (hle : t.place ≤ u.place)
    (h : spacing u.place < 2 * magnitude span.place) : t.Notices span := by
  left
  refine lt_of_le_of_lt ?_ h
  rw [spacing_eq, spacing_eq]
  exact Nat.pow_le_pow_right (by decide) (by omega)

namespace Canonical

variable {n m m' : Nat} {e e' : Int}

theorem place_div (c : Canonical m e) (hn : (n : Int) = m + (e + 1074) * 2 ^ 52) :
    ((n / 2 ^ 52 - 1 : Nat) : Int) = e + 1074 := by
  unfold Canonical at c
  omega

theorem spacing_eq (c : Canonical m e) (hn : (n : Int) = m + (e + 1074) * 2 ^ 52) :
    (spacing n : ℚ) = 2 ^ e * 2 ^ (1074 : ℤ) := by
  rw [Time.spacing_eq, Nat.cast_pow, Nat.cast_ofNat, ← zpow_natCast, c.place_div hn,
    zpow_add₀ (by norm_num)]

theorem magnitude_eq (c : Canonical m e) (hn : (n : Int) = m + (e + 1074) * 2 ^ 52) :
    (magnitude n : ℚ) = m * 2 ^ e * 2 ^ (1074 : ℤ) := by
  have hexponent := c.place_div hn
  have hmantissa : n - (n / 2 ^ 52 - 1) * 2 ^ 52 = m := by omega
  rw [magnitude, hmantissa, Nat.cast_mul, Nat.cast_pow, Nat.cast_ofNat, ← zpow_natCast, hexponent,
    zpow_add₀ (by norm_num), mul_assoc]

/-- What a clock notices, by the mantissas and exponents. -/
theorem notices_iff (c : Canonical m e) (c' : Canonical m' e')
    (ht : (t.place : Int) = m + (e + 1074) * 2 ^ 52)
    (hspan : (span.place : Int) = m' + (e' + 1074) * 2 ^ 52) :
    t.Notices span ↔
      (2 : ℚ) ^ e < 2 * (m' * 2 ^ e') ∨ (2 : ℚ) ^ e = 2 * (m' * 2 ^ e') ∧ m % 2 = 1 := by
  have hpow : (0 : ℚ) < 2 ^ (1074 : ℤ) := by positivity
  have hway : ((spacing t.place : Nat) : ℚ) = 2 ^ e * 2 ^ (1074 : ℤ) := c.spacing_eq ht
  have htwice : ((2 * magnitude span.place : Nat) : ℚ) =
      2 * (m' * 2 ^ e') * 2 ^ (1074 : ℤ) := by
    rw [Nat.cast_mul, Nat.cast_two, c'.magnitude_eq hspan, mul_assoc 2]
  have hless : spacing t.place < 2 * magnitude span.place ↔ (2 : ℚ) ^ e < 2 * (m' * 2 ^ e') := by
    rw [← Nat.cast_lt (α := ℚ), hway, htwice]
    exact mul_lt_mul_iff_left₀ hpow
  have hsame : spacing t.place = 2 * magnitude span.place ↔
      (2 : ℚ) ^ e = 2 * (m' * 2 ^ e') := by
    rw [← Nat.cast_inj (R := ℚ), hway, htwice]
    exact mul_left_inj' hpow.ne'
  have hodd : t.place % 2 = 1 ↔ m % 2 = 1 := by
    have hleast := c.2.1
    omega
  rw [Notices, hless, hsame, hodd]

end Canonical

/-! ## Sums -/

/-- A number whose exponent is not above the target is rounded as it is. -/
theorem round_eq (s : Sign) {n : Nat} {e : Int}
    (he : e ≤ Double.targetExponent (totalExponent n e)) :
    round Double s n e = roundWithAccuracy Double s n e .exact := by
  generalize ht : Double.targetExponent (totalExponent n e) = t at he
  have hdec : decreaseExponent n e t = (n, e) := by
    have hz : (e - t).toNat = 0 := by omega
    simp [decreaseExponent, hz]
  rw [UnpackedFloat.round]
  simp only [ht, hdec]

/-- The sum of two positive finite doubles is their exact sum, rounded once. -/
theorem place_add_finite {m m' : Nat} {e e' : Int} (pos : 0 < m) (pos' : 0 < m')
    (c : Canonical m e) (c' : Canonical m' e') :
    ∃ k x, Decimal.Rounding (m * 2 ^ e + m' * 2 ^ e') k x ∧
      (place (.ofModel (.pack (UnpackedFloat.add Double (.finite .positive m e pos)
        (.finite .positive m' e' pos')))) : Int) =
          min (k + (x + 1074) * 2 ^ 52) (lastPlace : Int) := by
  have hadd : UnpackedFloat.add Double (.finite .positive m e pos) (.finite .positive m' e' pos') =
      UnpackedFloat.normalize Double ((m <<< (e - min e e').toNat : Nat) +
        (m' <<< (e' - min e e').toNat : Nat) : Int) (min e e') .positive := rfl
  rw [hadd]
  -- Both mantissas are given in units of the smaller exponent.
  generalize hleast : min e e' = least
  have hvalue : ((m <<< (e - least).toNat + m' <<< (e' - least).toNat : Nat) : ℚ) * 2 ^ least =
      m * 2 ^ e + m' * 2 ^ e' := by
    have hsteps : ((e - least).toNat : ℤ) = e - least := Int.toNat_of_nonneg (by omega)
    have hsteps' : ((e' - least).toNat : ℤ) = e' - least := Int.toNat_of_nonneg (by omega)
    rw [Nat.shiftLeft_eq, Nat.shiftLeft_eq]
    push_cast
    rw [← zpow_natCast, ← zpow_natCast, hsteps, hsteps', add_mul, mul_assoc, mul_assoc,
      ← zpow_add₀ (by norm_num), ← zpow_add₀ (by norm_num), sub_add_cancel, sub_add_cancel]
  have hmore : m ≤ m <<< (e - least).toNat + m' <<< (e' - least).toNat := by
    rw [Nat.shiftLeft_eq m]
    exact (Nat.le_mul_of_pos_right m (Nat.two_pow_pos _)).trans (Nat.le_add_right _ _)
  rw [← Int.natCast_add]
  generalize m <<< (e - least).toNat + m' <<< (e' - least).toNat = n at hvalue hmore
  have htarget : least ≤ Double.targetExponent (totalExponent n least) := by
    rw [targetExponent_eq, totalExponent]
    unfold Canonical at c c'
    by_cases hmin : least = -1074
    · omega
    · -- Neither is below the normal doubles, so the sum has all the bits of a mantissa.
      have hlog : 52 ≤ n.log2 := (Nat.le_log2 (by omega)).2 (by omega)
      omega
  have hround : UnpackedFloat.normalize Double (n : Int) least .positive =
      roundWithAccuracy Double .positive n least .exact := by
    rw [UnpackedFloat.normalize, Int.compare_eq_gt.2 (by omega)]
    exact round_eq .positive htarget
  have hsign : Sign.positive.toBitVec.toNat = 0 := rfl
  rcases place_round .positive htarget with ⟨k, x, hrounding, hplace⟩
  rw [hsign] at hplace
  rw [hvalue] at hrounding
  refine ⟨k, x, hrounding, ?_⟩
  rw [hround]
  omega

/-- A period is a positive reading. -/
theorem isReading_of_isPeriod (h : isPeriod span = true) : span.IsReading ∧ 0 < span.place := by
  rw [isPeriod, Bool.and_eq_true, Bool.not_eq_true', decide_eq_false_iff_not] at h
  have hnumber : span.isNaN = false := by
    by_contra hnan
    rw [Bool.not_eq_false] at hnan
    cases h.1.symm.trans (not_isFinite_of_isNaN hnan)
  have hlater : 0.0 < span := by
    by_contra hnot
    exact h.2 ((isReading_zero.not_lt_iff hnumber).1 hnot)
  have hread := isReading_zero.of_lt hlater
  exact ⟨hread, Nat.zero_lt_of_lt ((lt_iff isReading_zero hread).1 hlater)⟩

/-- The sum of a finite reading and a period is their exact sum, rounded once. -/
theorem IsReading.place_add (ht : t.IsReading) (hfinite : Decimal.isFinite t = true)
    (hspan : isPeriod span = true) :
    ∃ (m m' : Nat) (e e' : Int), Canonical m e ∧ Canonical m' e' ∧ 0 < m' ∧
      (t.place : Int) = m + (e + 1074) * 2 ^ 52 ∧ (span.place : Int) = m' + (e' + 1074) * 2 ^ 52 ∧
      ∃ k x, Decimal.Rounding (m * 2 ^ e + m' * 2 ^ e') k x ∧
        ((t + span).place : Int) = min (k + (x + 1074) * 2 ^ 52) (lastPlace : Int) := by
  have hlast : lastPlace = 0x7FF0000000000000 := rfl
  rcases isReading_of_isPeriod hspan with ⟨hread, hpos⟩
  have hbelow := hread.isFinite_iff.1 (Bool.and_eq_true _ _ ▸ hspan).1
  rw [ht.isFinite_iff] at hfinite
  have hsum : t + span =
      .ofModel (.pack (UnpackedFloat.add Double t.toModel.unpack span.toModel.unpack)) := rfl
  rcases hread.unpack with ⟨hq, -⟩ | ⟨hq, -⟩ | ⟨m', e', pos', hv, c', hq⟩
  · omega
  · omega
  · rcases ht.unpack with ⟨hp, hu⟩ | ⟨hp, -⟩ | ⟨m, e, pos, hu, c, hp⟩
    · -- Added to zero, the period is not rounded.
      have hzero : Canonical 0 (-1074) := by
        unfold Canonical
        omega
      have hpack := place_pack pos' c'.rounded
      rw [if_pos c'.2.2.1, ← hq] at hpack
      refine ⟨0, m', -1074, e', hzero, c', pos', by omega, hq, m', e', ?_, ?_⟩
      · rw [Nat.cast_zero, zero_mul, zero_add]
        exact .of_canonical c'
      · rw [hsum, hu, hv]
        show (place (.ofModel (.pack (.finite .positive m' e' pos'))) : Int) = _
        omega
    · omega
    · rcases place_add_finite pos pos' c c' with ⟨k, x, hround, hplace⟩
      rw [← hu, ← hv, ← hsum] at hplace
      exact ⟨m, m', e, e', c, c', pos', hp, hq, k, x, hround, hplace⟩

/-- A clock shows a later time after a period exactly if it notices the period. -/
theorem IsReading.lt_add_iff (ht : t.IsReading) (hfinite : Decimal.isFinite t = true)
    (hspan : isPeriod span = true) : t < t + span ↔ t.Notices span := by
  have hbelow := ht.isFinite_iff.1 hfinite
  have hlater := (place_le_add ht (checkDelay_of_isPeriod hspan)).2
  rcases ht.place_add hfinite hspan with
    ⟨m, m', e, e', c, c', pos', hp, hq, k, x, hround, hplace⟩
  rw [lt_iff ht hlater, c.notices_iff c' hp hq, ← hround.lt_code_iff c (by positivity)]
  omega

end Time
end Callflow
