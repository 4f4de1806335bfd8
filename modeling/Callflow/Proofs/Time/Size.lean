import Callflow.Proofs.Time.Sum

/-!
# Sizes and signs of doubles

The size of a double is its place without its sign (`size`): zero comes first, then the finite
doubles by their magnitude, infinity, and at last what is not a number. A double of any other size
than the first and the last has a sign (`Signed`); those with a minus sign are below zero
(`lt_zero_iff`) and below everything else that is a number (`lt_of_lt_zero`). So a capped delay is
valid when neither the delay nor the cap is below zero and one of them is finite:
`checkDelay_capped`.
-/

namespace Callflow
namespace Time

open Float.Model (UnpackedFloat)
open Float.Model.UnpackedFloat

variable {t u : Time}

/-! ## Sizes -/

/-- The place of a double among all of them when the signs are left out. -/
def size (t : Time) : Nat := min (t.place % 2 ^ 63) (lastPlace + 1)

/-- What a double of some size stands for. -/
inductive Sized : Nat → UnpackedFloat → Prop where
  | zero (s : Sign) : Sized 0 (.zero s)
  | finite {n m : Nat} {e : Int} (s : Sign) (pos : 0 < m) : Canonical m e →
      (n : Int) = m + (e + 1074) * 2 ^ 52 → Sized n (.finite s m e pos)
  | infinity (s : Sign) : Sized lastPlace (.infinity s)
  | notANumber : Sized (lastPlace + 1) .notANumber

theorem sized (t : Time) : Sized t.size t.toModel.unpack := by
  have f := form t
  have hlast : lastPlace = 0x7FF0000000000000 := rfl
  unfold size
  generalize t.toModel.unpack = x at f
  cases f with
  | zero hz =>
    rw [hz]
    exact .zero _
  | finite pos c hm =>
    refine .finite _ pos c ?_
    unfold Canonical at c
    omega
  | infinity hi =>
    rw [hi, min_eq_left (Nat.le_succ _)]
    exact .infinity _
  | notANumber hn =>
    rw [min_eq_right hn]
    exact .notANumber

/-- The finite doubles lie between zero and infinity. -/
theorem Canonical.size_bounds {n m : Nat} {e : Int} (c : Canonical m e) (pos : 0 < m)
    (hn : (n : Int) = m + (e + 1074) * 2 ^ 52) : 0 < n ∧ n < lastPlace := by
  have hlast : lastPlace = 0x7FF0000000000000 := rfl
  unfold Canonical at c
  omega

theorem size_le (t : Time) : t.size ≤ lastPlace + 1 := min_le_right _ _

theorem isFinite_iff : Decimal.isFinite t = true ↔ t.size < lastPlace := by
  show (!t.toModel.unpack.isNaN && !t.toModel.unpack.isInf) = true ↔ _
  have hlast : lastPlace = 0x7FF0000000000000 := rfl
  have ht := sized t
  generalize t.size = n at ht
  generalize t.toModel.unpack = u at ht
  cases ht with
  | zero s => exact iff_of_true rfl (by omega)
  | finite s pos c hn => exact iff_of_true rfl (c.size_bounds pos hn).2
  | infinity s => exact iff_of_false nofun (Nat.lt_irrefl _)
  | notANumber => exact iff_of_false nofun (by omega)

theorem isNaN_iff : t.isNaN = true ↔ t.size = lastPlace + 1 := by
  show t.toModel.unpack.isNaN = true ↔ _
  have ht := sized t
  generalize t.size = n at ht
  generalize t.toModel.unpack = x at ht
  cases ht with
  | zero s => exact iff_of_false nofun (by omega)
  | infinity s => exact iff_of_false nofun (by omega)
  | notANumber => exact iff_of_true rfl rfl
  | finite s pos c hn =>
    have hbounds := c.size_bounds pos hn
    exact iff_of_false nofun (by omega)

theorem not_isFinite_of_isNaN (h : t.isNaN = true) : Decimal.isFinite t = false := by
  rw [← Bool.not_eq_true, isFinite_iff]
  rw [isNaN_iff] at h
  omega

/-- Of the readings, all but the last are finite. -/
theorem IsReading.isFinite_iff (h : t.IsReading) :
    Decimal.isFinite t = true ↔ t.place < lastPlace := by
  have hlast : lastPlace = 0x7FF0000000000000 := rfl
  unfold IsReading at h
  rw [Time.isFinite_iff, size]
  omega

theorem IsReading.isFinite_of_ne (h : t.IsReading) (hne : t ≠ 1.0 / 0.0) :
    Decimal.isFinite t = true := by
  have hlast : (1.0 / 0.0 : Time).place = lastPlace := by decide
  have hplace : t.place ≠ lastPlace := fun hsame => hne (place_inj (hsame.trans hlast.symm))
  exact h.isFinite_iff.2 (lt_of_le_of_ne h hplace)

/-- What comes no later than something other than infinity is finite. -/
theorem IsReading.isFinite_of_le (ht : t.IsReading) (hle : t ≤ u) (hu : u ≠ 1.0 / 0.0) :
    Decimal.isFinite t = true := by
  rw [ht.isFinite_iff]
  rcases Nat.eq_zero_or_pos t.place with hzero | hpos
  · rw [hzero]
    decide
  · have hread := ht.of_le hle hpos
    calc t.place
        ≤ u.place := (le_iff ht hread).1 hle
      _ < lastPlace := hread.isFinite_iff.1 (hread.isFinite_of_ne hu)

/-! ## Signs -/

/-- A double that is neither zero nor without a value has a sign. -/
inductive Signed (s : Sign) : UnpackedFloat → Prop where
  | finite {m : Nat} {e : Int} (pos : 0 < m) : Canonical m e → Signed s (.finite s m e pos)
  | infinity : Signed s (.infinity s)

theorem sign_cases (t : Time) :
    t.size = 0 ∨ t.size = lastPlace + 1 ∨ Signed .positive t.toModel.unpack ∨
      Signed .negative t.toModel.unpack := by
  have ht := sized t
  generalize t.size = n at ht
  generalize t.toModel.unpack = u at ht
  cases ht with
  | zero s => exact Or.inl rfl
  | notANumber => exact Or.inr (Or.inl rfl)
  | finite s pos c hn =>
    cases s with
    | positive => exact Or.inr (Or.inr (Or.inl (.finite pos c)))
    | negative => exact Or.inr (Or.inr (Or.inr (.finite pos c)))
  | infinity s =>
    cases s with
    | positive => exact Or.inr (Or.inr (Or.inl .infinity))
    | negative => exact Or.inr (Or.inr (Or.inr .infinity))

theorem Signed.size_pos {s : Sign} (h : Signed s t.toModel.unpack) :
    0 < t.size ∧ t.size ≤ lastPlace := by
  have hlast : lastPlace = 0x7FF0000000000000 := rfl
  have ht := sized t
  generalize t.size = n at ht ⊢
  generalize t.toModel.unpack = u at ht h
  cases h with
  | infinity =>
    cases ht
    omega
  | finite pos c =>
    cases ht with
    | finite _ _ _ hn =>
      have hbounds := c.size_bounds pos hn
      omega

theorem lt_zero_iff : t < 0.0 ↔ Signed .negative t.toModel.unpack := by
  rw [lt_iff_compare, unpack_zero]
  have ht := sized t
  generalize t.size = n at ht
  generalize t.toModel.unpack = u at ht
  cases ht with
  | zero s => exact iff_of_false nofun nofun
  | notANumber => exact iff_of_false nofun nofun
  | finite s pos c hn =>
    cases s with
    | positive => exact iff_of_false nofun nofun
    | negative => exact iff_of_true rfl (.finite pos c)
  | infinity s =>
    cases s with
    | positive => exact iff_of_false nofun nofun
    | negative => exact iff_of_true rfl .infinity

theorem not_lt_zero_of_size (h : t.size = 0 ∨ t.size = lastPlace + 1) : ¬ t < 0.0 := by
  intro hneg
  have hsize := (lt_zero_iff.1 hneg).size_pos
  omega

/-! ## Comparison of signs -/

/-- What is below a negative number is negative. -/
theorem lt_zero_of_lt (h : t < u) (hu : u < 0.0) : t < 0.0 := by
  rw [lt_zero_iff] at hu ⊢
  rw [lt_iff_compare] at h
  have ht := sized t
  generalize t.size = n at ht
  generalize t.toModel.unpack = x at h ht
  generalize u.toModel.unpack = y at h hu
  cases ht with
  | zero s => cases hu <;> cases h
  | notANumber => cases hu <;> cases h
  | finite s pos c hn =>
    cases s with
    | positive => cases hu <;> cases h
    | negative => exact .finite pos c
  | infinity s =>
    cases s with
    | positive => cases hu <;> cases h
    | negative => exact .infinity

/-- A negative number is below every other number. -/
theorem lt_of_lt_zero (ht : t < 0.0) (hu : ¬ u < 0.0) (hnum : u.isNaN = false) : t < u := by
  rw [lt_zero_iff] at ht hu
  rw [lt_iff_compare]
  have hsign := sized u
  have hnum' : u.toModel.unpack.isNaN = false := hnum
  generalize u.size = n at hsign
  generalize u.toModel.unpack = y at hu hsign hnum'
  generalize t.toModel.unpack = x at ht
  cases hsign with
  | notANumber => cases hnum'
  | zero s => cases ht <;> rfl
  | finite s pos c hn =>
    cases s with
    | positive => cases ht <;> rfl
    | negative => exact absurd (.finite pos c) hu
  | infinity s =>
    cases s with
    | positive => cases ht <;> rfl
    | negative => exact absurd .infinity hu

/-- What is neither finite nor negative is above everything finite. -/
theorem lt_of_isFinite (ht : Decimal.isFinite t = true) (hu : Decimal.isFinite u = false)
    (hneg : ¬ u < 0.0) (hnum : u.isNaN = false) : t < u ∧ ¬ u < t := by
  have hfin : (!t.toModel.unpack.isNaN && !t.toModel.unpack.isInf) = true := ht
  have hinf : (!u.toModel.unpack.isNaN && !u.toModel.unpack.isInf) = false := hu
  have hnum' : u.toModel.unpack.isNaN = false := hnum
  rw [lt_zero_iff] at hneg
  rw [lt_iff_compare, lt_iff_compare]
  generalize t.toModel.unpack = x at hfin
  generalize u.toModel.unpack = y at hinf hneg hnum'
  cases y with
  | zero s => cases hinf
  | finite s m e pos => cases hinf
  | notANumber => cases hnum'
  | infinity s =>
    cases s with
    | negative => exact absurd .infinity hneg
    | positive =>
      cases x with
      | infinity s => cases hfin
      | notANumber => cases hfin
      | zero s => exact ⟨rfl, nofun⟩
      | finite s m e pos => cases s <;> exact ⟨rfl, nofun⟩

/-! ## Caps -/

/-- When a capped delay is valid. -/
theorem checkDelay_capped (t u : Time) :
    checkDelay (capped t u) = .ok () ↔
      ¬ t < 0.0 ∧ ¬ u < 0.0 ∧ (Decimal.isFinite t = true ∨ Decimal.isFinite u = true) := by
  rw [checkDelay_eq_ok]
  unfold capped
  cases hnan : t.isNaN with
  | true =>
    have ht : ¬ t < 0.0 := not_lt_zero_of_size (Or.inr (isNaN_iff.1 hnan))
    simp [not_isFinite_of_isNaN hnan, ht, and_comm]
  | false =>
    cases hnan' : u.isNaN with
    | true =>
      have hu : ¬ u < 0.0 := not_lt_zero_of_size (Or.inr (isNaN_iff.1 hnan'))
      simp [not_isFinite_of_isNaN hnan', hu, and_comm]
    | false =>
      rw [if_neg Bool.false_ne_true, if_neg Bool.false_ne_true]
      by_cases hless : u < t
      · rw [if_pos hless]
        constructor
        · rintro ⟨hfin, hu⟩
          exact ⟨fun ht => hu (lt_zero_of_lt hless ht), hu, Or.inr hfin⟩
        · rintro ⟨ht, hu, hfin⟩
          refine ⟨?_, hu⟩
          by_contra hnot
          have hinf : Decimal.isFinite u = false := Bool.not_eq_true _ ▸ hnot
          exact (lt_of_isFinite (hfin.resolve_right hnot) hinf hu hnan').2 hless
      · rw [if_neg hless]
        constructor
        · rintro ⟨hfin, ht⟩
          exact ⟨ht, fun hu => hless (lt_of_lt_zero hu ht hnan), Or.inl hfin⟩
        · rintro ⟨ht, hu, hfin⟩
          refine ⟨?_, ht⟩
          by_contra hnot
          have hinf : Decimal.isFinite t = false := Bool.not_eq_true _ ▸ hnot
          exact hless (lt_of_isFinite (hfin.resolve_left hnot) hinf ht hnan).1

end Time
end Callflow
