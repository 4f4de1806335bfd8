import Callflow.Proofs.Time.Form

/-!
# Later readings of the clock

The sum of two doubles is rounded to a double. Rounding is monotone where it matters: a number that
is at least a double still is one after it has been rounded (`round_form`). So an accepted delay
never takes the clock back: `place_le_add`.
-/

namespace Callflow
namespace Time

open Float.Model (Format UnpackedFloat totalExponent)
open Float.Model.UnpackedFloat

/-! ## Shifts -/

theorem mantissa_shift (em : ExtendedMantissa) (n : Nat) :
    (em >>> n).mantissa = em.mantissa / 2 ^ n := by
  show (n.repeat ExtendedMantissa.shiftRightOne em).mantissa = _
  induction n with
  | zero => simp [Nat.repeat]
  | succ n ih =>
    rw [Nat.repeat]
    show (n.repeat ExtendedMantissa.shiftRightOne em).mantissa / 2 = _
    rw [ih, Nat.div_div_eq_div_mul, pow_succ]

/-- Rounding keeps a mantissa or takes the next one. -/
theorem rounded_cases (em : ExtendedMantissa) :
    em.roundedMantissa = em.mantissa ∨ em.roundedMantissa = em.mantissa + 1 := by
  show em.accuracy.roundToNearestEven em.mantissa = em.mantissa ∨
    em.accuracy.roundToNearestEven em.mantissa = em.mantissa + 1
  cases em.accuracy with
  | exact => exact Or.inl rfl
  | inexact side =>
    cases side with
    | lt => exact Or.inl rfl
    | eq =>
      -- A tie goes to the even one of the two.
      show em.mantissa + em.mantissa % 2 = _ ∨ em.mantissa + em.mantissa % 2 = _
      omega
    | gt => exact Or.inr rfl

theorem targetExponent_eq (t : Int) : Double.targetExponent t = max (t - 53) (-1074) := by
  have hmin : Double.minExponent = -1074 := by decide
  have hbits : Double.mantissaBits = 53 := rfl
  simp [Format.targetExponent, hmin, hbits]

theorem shiftToTarget_eq {m : Nat} {e t : Int}
    (h : Double.targetExponent (totalExponent m e) = t) (het : e ≤ t) :
    ∃ em : ExtendedMantissa, shiftToTargetExponent Double m e .exact = (em, t) ∧
      em.mantissa = m / 2 ^ (t - e).toNat := by
  refine ⟨_, ?_, mantissa_shift ⟨m, false, false⟩ _⟩
  simp only [shiftToTargetExponent, shiftToExponent, h]
  refine Prod.ext rfl ?_
  show e + ((t - e).toNat : Int) = t
  omega

theorem log2_bounds {m : Nat} (h : 0 < m) : 2 ^ m.log2 ≤ m ∧ m < 2 ^ (m.log2 + 1) :=
  ⟨(Nat.le_log2 (by omega)).1 le_rfl, (Nat.log2_lt (by omega)).1 (by omega)⟩

/-! ## Rounding -/

/-- A mantissa and an exponent that need no further rounding; the exponent may be too large for a
finite double. -/
def Rounded (m : Nat) (e : Int) : Prop := m < 2 ^ 53 ∧ -1074 ≤ e ∧ (2 ^ 52 ≤ m ∨ e = -1074)

theorem Canonical.rounded {m : Nat} {e : Int} (c : Canonical m e) : Rounded m e :=
  ⟨c.1, c.2.1, c.2.2.2⟩

/-- The second shift of a rounding: rounding up may have carried into a further bit. -/
theorem shift_carry {m : Nat} {e : Int} (pos : 0 < m) (hm : m ≤ 2 ^ 53) (he : -1074 ≤ e)
    (hn : 2 ^ 52 ≤ m ∨ e = -1074) :
    ∃ em e', shiftToTargetExponent Double m e .exact = (em, e') ∧ 0 < em.mantissa ∧
      Rounded em.mantissa e' ∧
      (em.mantissa : Int) + (e' + 1074) * 2 ^ 52 = m + (e + 1074) * 2 ^ 52 := by
  have htarget := targetExponent_eq (totalExponent m e)
  unfold totalExponent at htarget
  rcases Nat.lt_or_ge m (2 ^ 53) with hsmall | hlarge
  · have hlog : m.log2 < 53 := (Nat.log2_lt (by omega)).2 hsmall
    have hlog' : 2 ^ 52 ≤ m → 52 ≤ m.log2 := (Nat.le_log2 (by omega)).2
    rcases shiftToTarget_eq (m := m) (e := e) (t := e) (by unfold totalExponent; omega) le_rfl with
      ⟨em, hshift, hmant⟩
    have hsame : em.mantissa = m := by simpa using hmant
    exact ⟨em, e, hshift, by omega, ⟨by omega, he, by omega⟩, by omega⟩
  · have hfull : m = 2 ^ 53 := by omega
    subst hfull
    have hlog : (2 ^ 53 : Nat).log2 = 53 := by decide
    rcases shiftToTarget_eq (m := 2 ^ 53) (e := e) (t := e + 1)
      (by unfold totalExponent; omega) (by omega) with ⟨em, hshift, hmant⟩
    have hone : (e + 1 - e).toNat = 1 := by omega
    rw [hone] at hmant
    have hhalf : em.mantissa = 2 ^ 52 := by
      rw [hmant]
      decide
    exact ⟨em, e + 1, hshift, by omega, ⟨by omega, by omega, by omega⟩, by omega⟩

theorem roundWithAccuracy_eq (s : Sign) {n : Nat} {e t x : Int} {a : Accuracy}
    {em em' : ExtendedMantissa} (hshift : shiftToTargetExponent Double n e a = (em, t))
    (hcarry : shiftToTargetExponent Double em.roundedMantissa t .exact = (em', x))
    (pos : 0 < em'.mantissa) :
    roundWithAccuracy Double s n e a = .finite s em'.mantissa x pos := by
  delta roundWithAccuracy
  rw [hshift]
  show (match shiftToTargetExponent Double em.roundedMantissa t .exact with
    | (f, y) => if h : f.mantissa = 0 then UnpackedFloat.zero s
      else UnpackedFloat.finite s f.mantissa y (Nat.pos_of_ne_zero h)) = _
  rw [hcarry]
  exact dif_neg pos.ne'

/-- A number that is at least a double still is one after it has been rounded. -/
theorem round_form (s : Sign) {m n : Nat} {x e : Int} (c : Canonical m x) (pos : 0 < m)
    (hex : e ≤ x) (h : m * 2 ^ (x - e).toNat ≤ n) :
    ∃ m' e' pos', round Double s n e = .finite s m' e' pos' ∧ Rounded m' e' ∧
      (m : Int) + (x + 1074) * 2 ^ 52 ≤ m' + (e' + 1074) * 2 ^ 52 := by
  unfold Canonical at c
  have hn : 0 < n := lt_of_lt_of_le (Nat.mul_pos pos (Nat.two_pow_pos _)) h
  have hlog := log2_bounds hn
  have htotal := targetExponent_eq (totalExponent n e)
  generalize ht : Double.targetExponent (totalExponent n e) = t at htotal
  unfold totalExponent at htotal
  have hxt : x ≤ t := by
    rcases c.2.2.2 with hm | hx
    · have hpow : 2 ^ (52 + (x - e).toNat) < 2 ^ (n.log2 + 1) := by
        rw [pow_add]
        exact lt_of_le_of_lt (Nat.mul_le_mul_right _ hm) (lt_of_le_of_lt h hlog.2)
      have hexp := (Nat.pow_lt_pow_iff_right (by omega : 1 < 2)).1 hpow
      omega
    · omega
  have hdec : decreaseExponent n e t = (n, e) := by
    have hz : (e - t).toNat = 0 := by omega
    simp [decreaseExponent, hz]
  rcases shiftToTarget_eq ht (by omega) with ⟨em, hshift, hmant⟩
  have hfits : em.mantissa < 2 ^ 53 := by
    rw [hmant, Nat.div_lt_iff_lt_mul (Nat.two_pow_pos _), ← pow_add]
    exact lt_of_lt_of_le hlog.2 (Nat.pow_le_pow_right (by omega) (by omega))
  have hfull : 2 ^ 52 ≤ em.mantissa ∨ t = -1074 := by
    by_cases hmin : t = -1074
    · exact Or.inr hmin
    · left
      rw [hmant, Nat.le_div_iff_mul_le (Nat.two_pow_pos _), ← pow_add]
      exact le_trans (Nat.pow_le_pow_right (by omega) (by omega)) hlog.1
  -- Where the exponent stays, so does at least the mantissa; where it grows, the mantissa is full.
  have hkept : x = t → m ≤ em.mantissa := by
    intro hx
    rw [hmant, Nat.le_div_iff_mul_le (Nat.two_pow_pos _), ← hx]
    exact h
  have hcases := rounded_cases em
  rcases shift_carry (m := em.roundedMantissa) (e := t) (by omega) (by omega) (by omega)
    (by omega) with ⟨em', e', hcarry, pos', hrounded, hcode⟩
  refine ⟨em'.mantissa, e', pos', ?_, hrounded, by omega⟩
  rw [← roundWithAccuracy_eq s hshift hcarry pos', UnpackedFloat.round]
  simp only [ht, hdec]

/-! ## Packing -/

theorem toNat_packComponents (s : Sign) (e : BitVec Double.exponentBits)
    (m : BitVec Double.mantissaBitsWithoutImplicit) :
    (packComponents Double s e m).toNat =
      s.toBitVec.toNat * 2 ^ 63 + e.toNat * 2 ^ 52 + m.toNat := by
  have he : e.toNat < 2 ^ 11 := e.isLt
  have hm : m.toNat < 2 ^ 52 := m.isLt
  simp only [packComponents]
  rw [BitVec.toNat_append, BitVec.toNat_append, ← Nat.shiftLeft_add_eq_or_of_lt e.isLt,
    ← Nat.shiftLeft_add_eq_or_of_lt m.isLt, Nat.shiftLeft_eq, Nat.shiftLeft_eq]
  show (_ * 2 ^ 11 + _) * 2 ^ 52 + _ = _
  omega

/-- The bits of a rounded number: its sign, then those of its mantissa and exponent, or infinity. -/
theorem place_pack_signed (s : Sign) {m : Nat} {e : Int} (pos : 0 < m) (r : Rounded m e) :
    (place (.ofModel (.pack (.finite s m e pos))) : Int) = s.toBitVec.toNat * 2 ^ 63 +
      if e ≤ 971 then (m : Int) + (e + 1074) * 2 ^ 52 else (lastPlace : Int) := by
  unfold Rounded at r
  have hbias : ((Double.exponentBias : Nat) : Int) = 1023 := rfl
  have hlarge : 2 ^ Double.exponentBits ≤
      (e + (Double.exponentBias : Nat) + (Double.mantissaBitsWithoutImplicit : Nat)).toNat + 1 ↔
        ¬ e ≤ 971 := by
    rw [hbias]
    show 2048 ≤ (e + 1023 + (52 : Nat)).toNat + 1 ↔ _
    omega
  have hnormal : m.log2 + 1 = Double.mantissaBits ↔ 2 ^ 52 ≤ m := by
    show m.log2 + 1 = 53 ↔ _
    have hlow := Nat.le_log2 (n := m) (k := 52) (by omega)
    have hhigh := (Nat.log2_lt (n := m) (k := 53) (by omega)).2 r.1
    omega
  show ((UnpackedFloat.pack Double (.finite s m e pos)).toNat : Int) = _
  have hpack : UnpackedFloat.pack Double (.finite s m e pos) =
      if 2 ^ Double.exponentBits ≤ (e + (Double.exponentBias : Nat) +
          (Double.mantissaBitsWithoutImplicit : Nat)).toNat + 1 then packedInfinity Double s
      else if m.log2 + 1 = Double.mantissaBits then packComponents Double s
        (BitVec.ofNat _ (e + (Double.exponentBias : Nat) +
          (Double.mantissaBitsWithoutImplicit : Nat)).toNat) (BitVec.ofNat _ m)
      else packComponents Double s 0#_ (BitVec.ofNat _ m) := rfl
  rw [hpack]
  by_cases he : e ≤ 971
  · rw [if_neg (fun h => hlarge.1 h he), if_pos he]
    by_cases hm : 2 ^ 52 ≤ m
    · rw [if_pos (hnormal.2 hm), toNat_packComponents, BitVec.toNat_ofNat, BitVec.toNat_ofNat,
        hbias]
      have hexp : (e + 1023 + ((52 : Nat) : Int)).toNat % 2 ^ 11 = (e + 1075).toNat := by omega
      show ((s.toBitVec.toNat * 2 ^ 63 + (e + 1023 + ((52 : Nat) : Int)).toNat % 2 ^ 11 * 2 ^ 52 +
        m % 2 ^ 52 : Nat) : Int) = _
      rw [hexp]
      omega
    · rw [if_neg (fun h => hm (hnormal.1 h)), toNat_packComponents, BitVec.toNat_ofNat,
        BitVec.toNat_ofNat, Nat.zero_mod]
      show ((s.toBitVec.toNat * 2 ^ 63 + 0 * 2 ^ 52 + m % 2 ^ 52 : Nat) : Int) = _
      omega
  · rw [if_pos (hlarge.2 he), if_neg he]
    cases s <;> rfl

theorem place_pack {m : Nat} {e : Int} (pos : 0 < m) (r : Rounded m e) :
    (place (.ofModel (.pack (.finite .positive m e pos))) : Int) =
      if e ≤ 971 then (m : Int) + (e + 1074) * 2 ^ 52 else (lastPlace : Int) := by
  have hsign : Sign.positive.toBitVec.toNat = 0 := rfl
  rw [place_pack_signed .positive pos r, hsign]
  omega

theorem place_rounded {m m' : Nat} {e e' : Int} (c : Canonical m e) (r : Rounded m' e')
    (pos : 0 < m') (h : (m : Int) + (e + 1074) * 2 ^ 52 ≤ m' + (e' + 1074) * 2 ^ 52) :
    (m : Int) + (e + 1074) * 2 ^ 52 ≤
        (place (.ofModel (.pack (.finite .positive m' e' pos))) : Int) ∧
      IsReading (.ofModel (.pack (.finite .positive m' e' pos))) := by
  have hp := place_pack pos r
  have hlast : lastPlace = 0x7FF0000000000000 := rfl
  unfold Canonical at c
  unfold Rounded at r
  unfold IsReading
  by_cases he : e' ≤ 971
  · rw [if_pos he] at hp
    omega
  · rw [if_neg he] at hp
    omega

/-! ## Sums -/

theorem checkDelay_eq_ok {d : Time} :
    checkDelay d = .ok () ↔ Decimal.isFinite d = true ∧ ¬ d < 0.0 := by
  unfold checkDelay
  cases Decimal.isFinite d <;> by_cases h : d < 0.0 <;> simp [h]

/-- A valid period is a valid delay. -/
theorem checkDelay_of_isPeriod {period : Time} (h : isPeriod period = true) :
    checkDelay period = .ok () := by
  rw [isPeriod, Bool.and_eq_true, Bool.not_eq_true', decide_eq_false_iff_not] at h
  refine checkDelay_eq_ok.2 ⟨h.1, fun hneg => h.2 ?_⟩
  rw [lt_iff_compare] at hneg
  rw [le_iff_compare, hneg]
  rfl

/-- An accepted delay is a zero of either sign or a positive number. -/
theorem unpack_of_checkDelay {d : Time} (h : checkDelay d = .ok ()) :
    (∃ s, d.toModel.unpack = .zero s) ∨
      ∃ m e pos, d.toModel.unpack = .finite .positive m e pos ∧ Canonical m e := by
  rcases checkDelay_eq_ok.1 h with ⟨hfin, hneg⟩
  rw [lt_iff_compare, unpack_zero] at hneg
  have hnum : d.toModel.unpack.isNaN = false ∧ d.toModel.unpack.isInf = false := by
    simpa [Decimal.isFinite, Float.isNaN, Float.isInf, Float.Model.isNaN, Float.Model.isInf]
      using hfin
  have f := form d
  generalize d.toModel.unpack = x at f hneg hnum
  cases f with
  | zero _ => exact Or.inl ⟨_, rfl⟩
  | finite pos c _ =>
    by_cases hs : d.place < 2 ^ 63
    · have hpos : signOf d.place = .positive := if_pos hs
      rw [hpos]
      exact Or.inr ⟨_, _, pos, rfl, c⟩
    · have hminus : signOf d.place = .negative := if_neg hs
      rw [hminus] at hneg
      exact absurd rfl hneg
  | infinity _ => cases hnum.2
  | notANumber _ => cases hnum.1

theorem add_finite {m m' : Nat} {e e' : Int} (pos : 0 < m) (pos' : 0 < m') (c : Canonical m e) :
    ∃ n x hn, UnpackedFloat.add Double (.finite .positive m e pos) (.finite .positive m' e' pos') =
        .finite .positive n x hn ∧ Rounded n x ∧
      (m : Int) + (e + 1074) * 2 ^ 52 ≤ n + (x + 1074) * 2 ^ 52 := by
  have hle : m * 2 ^ (e - min e e').toNat ≤
      m <<< (e - min e e').toNat + m' <<< (e' - min e e').toNat := by
    rw [Nat.shiftLeft_eq]
    exact Nat.le_add_right _ _
  rcases round_form .positive c pos (by omega) hle with ⟨n, x, hn, hround, hr, hcode⟩
  refine ⟨n, x, hn, ?_, hr, hcode⟩
  rw [← hround]
  have hpos : 0 < m <<< (e - min e e').toNat := by
    rw [Nat.shiftLeft_eq]
    exact Nat.mul_pos pos (Nat.two_pow_pos _)
  have hadd : UnpackedFloat.add Double (.finite .positive m e pos) (.finite .positive m' e' pos') =
      UnpackedFloat.normalize Double ((m <<< (e - min e e').toNat : Nat) +
        (m' <<< (e' - min e e').toNat : Nat) : Int) (min e e') .positive := rfl
  rw [hadd, UnpackedFloat.normalize, Int.compare_eq_gt.2 (by omega)]
  rfl

/-- After an accepted delay the clock shows a reading that is not earlier. -/
theorem place_le_add {t d : Time} (ht : t.IsReading) (hd : checkDelay d = .ok ()) :
    t.place ≤ (t + d).place ∧ (t + d).IsReading := by
  have hsum : t + d =
      .ofModel (.pack (UnpackedFloat.add Double t.toModel.unpack d.toModel.unpack)) := rfl
  rw [hsum]
  rcases ht.unpack with ⟨hp, hu⟩ | ⟨hp, hu⟩ | ⟨m, e, pos, hu, c, hp⟩ <;>
    rcases unpack_of_checkDelay hd with ⟨s, hs⟩ | ⟨m', e', pos', hs, c'⟩ <;>
    rw [hu, hs]
  · rw [hp]
    cases s <;> exact ⟨Nat.zero_le _, Nat.zero_le _⟩
  · rw [hp]
    exact ⟨Nat.zero_le _, (place_rounded c' c'.rounded pos' le_rfl).2⟩
  · rw [hp]
    exact ⟨le_rfl, le_rfl⟩
  · rw [hp]
    exact ⟨le_rfl, le_rfl⟩
  · have hsame := place_rounded c c.rounded pos le_rfl
    rw [← hp] at hsame
    exact ⟨Int.ofNat_le.1 hsame.1, hsame.2⟩
  · rcases @add_finite m m' e e' pos pos' c with ⟨n, x, hn, hadd, hr, hcode⟩
    rw [hadd]
    have hlater := place_rounded c hr hn hcode
    rw [← hp] at hlater
    exact ⟨Int.ofNat_le.1 hlater.1, hlater.2⟩

/-- A zero of either sign takes the clock nowhere. -/
theorem IsReading.add_of_zero {t d : Time} {s : Sign} (ht : t.IsReading)
    (hd : d.toModel.unpack = .zero s) : t + d = t := by
  have hsum : t + d =
      .ofModel (.pack (UnpackedFloat.add Double t.toModel.unpack d.toModel.unpack)) := rfl
  apply place_inj
  rw [hsum, hd]
  rcases ht.unpack with ⟨hp, hu⟩ | ⟨hp, hu⟩ | ⟨m, e, pos, hu, c, hp⟩
  · rw [hu, hp]
    cases s <;> rfl
  · rw [hu, hp]
    rfl
  · rw [hu]
    have hpack := place_pack pos c.rounded
    have hexponent : e ≤ 971 := c.2.2.1
    rw [if_pos hexponent, ← hp] at hpack
    exact Int.ofNat_inj.1 hpack

/-- Without a delay the clock stays where it is. -/
theorem IsReading.add_zero {t : Time} (ht : t.IsReading) : t + 0.0 = t :=
  ht.add_of_zero unpack_zero

end Time
end Callflow
