import Callflow.Program.Delay
import Callflow.Proofs.Time.Product
import Mathlib.Data.Nat.EvenOddRec

/-!
# The waits of a retry

A growing wait is the base times a power of the factor, each product rounded to a double, with an
optional cap. The sizes of the powers rise or fall all the way, in spite of the rounding
(`power_size_mono`, `power_size_le`), and a negative factor shows already in the second wait
(`not_lt_zero_wait`). So two of the waits decide about all of them: `Delay.waits_ok_iff`.
-/

namespace Callflow

open Time (size size_mul_le size_mul_le_right size_mul_one size_one_mul lastPlace)

/-! ## Powers -/

namespace power

variable {x y a : Float}

theorem go_zero (x a : Float) : go x a 0 = x := by
  rw [go]
  rfl

theorem go_eq (x a : Float) (n : ℕ) :
    go x a n = go (if n % 2 = 1 then x * a else x) (a * a) (n / 2) := by
  rw [go]
  by_cases hlast : n / 2 = 0
  · rw [dif_pos hlast, hlast, go_zero]
  · rw [dif_neg hlast]

theorem go_even (x a : Float) (n : ℕ) : go x a (2 * n) = go x (a * a) n := by
  rw [go_eq, if_neg (by omega), Nat.mul_div_cancel_left n (by decide)]

theorem go_odd (x a : Float) (n : ℕ) : go x a (2 * n + 1) = go (x * a) (a * a) n := by
  rw [go_eq, if_pos (by omega)]
  congr 1
  omega

/-- No power of a number that is not negative is. -/
theorem not_lt_zero_go (hx : ¬ x < 0.0) (ha : ¬ a < 0.0) (n : ℕ) : ¬ go x a n < 0.0 := by
  -- The induction takes the digits of the exponent as the squaring does.
  induction n using Nat.evenOddRec generalizing x a with
  | h0 =>
    rw [go_zero]
    exact hx
  | h_even n ih =>
    rw [go_even]
    exact ih hx (Time.not_lt_zero_mul ha ha)
  | h_odd n ih =>
    rw [go_odd]
    exact ih (Time.not_lt_zero_mul hx ha) (Time.not_lt_zero_mul ha ha)

/-! ### Factors of at most one -/

/-- A factor of at most one makes no finite double greater. -/
theorem size_mul_le_self (ha : size a ≤ size 1.0) (hx : size x < lastPlace) :
    size (x * a) ≤ size x := by
  calc size (x * a) ≤ size (x * 1.0) := size_mul_le_right ha (Or.inr hx)
    _ = size x := size_mul_one x

theorem size_square_le (ha : size a ≤ size 1.0) : size (a * a) ≤ size a :=
  size_mul_le_self ha (ha.trans_lt (by decide))

theorem size_go_le (ha : size a ≤ size 1.0) (hx : size x < lastPlace) (n : ℕ) :
    size (go x a n) ≤ size x := by
  induction n using Nat.evenOddRec generalizing x a with
  | h0 => rw [go_zero]
  | h_even n ih =>
    rw [go_even]
    exact ih ((size_square_le ha).trans ha) hx
  | h_odd n ih =>
    rw [go_odd]
    have hless := size_mul_le_self ha hx
    exact (ih ((size_square_le ha).trans ha) (hless.trans_lt hx)).trans hless

/-- So the first power has the greatest size. -/
theorem size_go_le_mul (ha : size a ≤ size 1.0) (hx : size x < lastPlace) {n : ℕ} (hn : 1 ≤ n) :
    size (go x a n) ≤ size (x * a) := by
  induction n using Nat.evenOddRec generalizing x a with
  | h0 => omega
  | h_even n ih =>
    rw [go_even]
    exact (ih ((size_square_le ha).trans ha) hx (by omega)).trans
      (size_mul_le_right (size_square_le ha) (Or.inr hx))
  | h_odd n ih =>
    rw [go_odd]
    have hless := size_mul_le_self ha hx
    exact size_go_le ((size_square_le ha).trans ha) (hless.trans_lt hx) n

/-! ### Factors of at least one -/

/-- A factor of at least one makes no double smaller. -/
theorem size_self_le_mul (ha : size 1.0 ≤ size a) : size x ≤ size (x * a) := by
  calc size x = size (x * 1.0) := (size_mul_one x).symm
    _ ≤ size (x * a) := size_mul_le_right ha (Or.inl (by decide))

theorem size_go_mono (ha : size 1.0 ≤ size a) (hx : 0 < size x) (h : size x ≤ size y) (n : ℕ) :
    size (go x a n) ≤ size (go y a n) := by
  induction n using Nat.evenOddRec generalizing x y a with
  | h0 =>
    rw [go_zero, go_zero]
    exact h
  | h_even n ih =>
    rw [go_even, go_even]
    exact ih (ha.trans (size_self_le_mul ha)) hx h
  | h_odd n ih =>
    rw [go_odd, go_odd]
    exact ih (ha.trans (size_self_le_mul ha)) (hx.trans_le (size_self_le_mul ha))
      (size_mul_le h (Or.inl hx))

/-- The next power is not smaller: what one of the two multiplies with `a` once more, the other
multiplies with some `y` that is not greater than `a`. -/
theorem size_go_succ (ha : size 1.0 ≤ size a) (hy : 0 < size y) (h : size y ≤ size a) (n : ℕ) :
    size (go y a n) ≤ size (go 1.0 a (n + 1)) := by
  induction n using Nat.evenOddRec generalizing y a with
  | h0 =>
    rw [go_zero, go_odd 1.0 a 0, go_zero]
    exact h.trans (size_one_mul a).ge
  | h_even n ih =>
    rw [go_even, go_odd]
    exact size_go_mono (ha.trans (size_self_le_mul ha)) hy (h.trans (size_one_mul a).ge) n
  | h_odd n ih =>
    have hnext : 2 * n + 1 + 1 = 2 * (n + 1) := by omega
    rw [go_odd, hnext, go_even]
    exact ih (ha.trans (size_self_le_mul ha)) (hy.trans_le (size_self_le_mul ha))
      (size_mul_le h (Or.inl hy))

end power

variable {base factor : Float}

theorem power_zero (factor : Float) : power factor 0 = 1.0 := power.go_zero 1.0 factor

theorem power_one (factor : Float) : power factor 1 = 1.0 * factor := by
  rw [power, power.go_odd 1.0 factor 0, power.go_zero]

theorem size_power_one (factor : Float) : size (power factor 1) = size factor := by
  rw [power_one, size_one_mul]

theorem power_one_lt_zero (hf : factor < 0.0) : power factor 1 < 0.0 := by
  have hpos := (Time.lt_zero_iff.1 hf).size_pos
  rw [power_one]
  rcases Time.mul_lt_zero (t := 1.0) (by decide) (by decide) hf with hzero | hnone | hminus
  · exact absurd hzero (by decide)
  · rw [size_one_mul] at hnone
    omega
  · exact hminus

theorem size_power_le (hf : size factor ≤ size 1.0) {n : ℕ} (hn : 1 ≤ n) :
    size (power factor n) ≤ size (power factor 1) := by
  rw [power_one]
  exact power.size_go_le_mul hf (by decide) hn

theorem size_power_mono (hf : size 1.0 ≤ size factor) :
    Monotone fun n => size (power factor n) :=
  monotone_nat_of_le_succ fun n => power.size_go_succ hf (by decide) hf n

/-! ## Growing waits -/

section

variable (hfinite : size base < lastPlace) (hbase : ¬ base < 0.0)

include hfinite

/-- If one of the waits is finite, so are those before it. -/
theorem size_wait_lt {i n : ℕ} (h : i ≤ n) (hlast : size (base * power factor n) < lastPlace) :
    size (base * power factor i) < lastPlace := by
  rcases Nat.le_total (size factor) (size 1.0) with hsmall | hlarge
  · calc size (base * power factor i) ≤ size (base * 1.0) :=
          size_mul_le_right (power.size_go_le hsmall (by decide) i) (Or.inr hfinite)
      _ = size base := size_mul_one base
      _ < lastPlace := hfinite
  · exact (size_mul_le_right (size_power_mono hlarge h) (Or.inr hfinite)).trans_lt hlast

include hbase

/-- If the wait after the second attempt is not negative, none is: either the factor is not, or the
base times the factor is too small to have a sign, and then so is every later wait. -/
theorem not_lt_zero_wait (hsecond : ¬ base * power factor 1 < 0.0) (n : ℕ) :
    ¬ base * power factor n < 0.0 := by
  by_cases hf : factor < 0.0
  · rcases Nat.eq_zero_or_pos n with rfl | hn
    · rw [power_zero]
      exact Time.not_lt_zero_mul hbase (by decide)
    · rcases Time.mul_lt_zero hfinite hbase (power_one_lt_zero hf) with hzero | hnone | hminus
      · exact Time.not_lt_zero_of_size (Time.size_zero_mul hzero _)
      · rcases Nat.le_total (size factor) (size 1.0) with hsmall | hlarge
        · have hless := size_mul_le_right (size_power_le hsmall hn) (Or.inr hfinite)
          exact Time.not_lt_zero_of_size (Or.inl (by omega))
        · -- A factor of at least one would not have made the base smaller.
          have hmore : size base ≤ size (base * power factor 1) := by
            calc size base = size (base * 1.0) := (size_mul_one base).symm
              _ ≤ size (base * power factor 1) :=
                size_mul_le_right (hlarge.trans (size_power_one factor).ge) (Or.inr hfinite)
          exact Time.not_lt_zero_of_size (Time.size_zero_mul (by omega) _)
      · exact absurd hminus hsecond
  · exact Time.not_lt_zero_mul hbase (power.not_lt_zero_go (by decide) hf n)

end

/-! ## All waits -/

namespace Delay

/-- The waits after the second and after the last but one of the attempts are valid. -/
structure Sustains (d : Delay) (limit : ℕ) : Prop where
  second : 2 < limit → Time.checkDelay (d.waitAfter 2) = .ok ()
  last : 1 < limit → Time.checkDelay (d.waitAfter (limit - 1)) = .ok ()

/-- When a growing wait is valid. -/
theorem checkDelay_waitAfter (base factor : Float) (cap : Option Time) (i : ℕ) :
    Time.checkDelay ((⟨base, .exponential factor cap⟩ : Delay).waitAfter i) = .ok () ↔
      ¬ base * power factor (min (i - 1) maxExponent) < 0.0 ∧ (∀ c ∈ cap, ¬ c < 0.0) ∧
      (Decimal.isFinite (base * power factor (min (i - 1) maxExponent)) = true ∨
        ∃ c ∈ cap, Decimal.isFinite c = true) := by
  cases cap with
  | none =>
    show Time.checkDelay (base * power factor (min (i - 1) maxExponent)) = .ok () ↔ _
    rw [Time.checkDelay_eq_ok]
    simp [and_comm]
  | some c =>
    show Time.checkDelay (Time.capped (base * power factor (min (i - 1) maxExponent)) c) = _ ↔ _
    rw [Time.checkDelay_capped]
    simp

/-- These two decide about all waits between attempts, whatever the factor and the cap are. -/
theorem waits_ok_iff {d : Delay} (hbase : Time.checkDelay d.base = .ok ()) (limit : ℕ) :
    (∀ i, 1 ≤ i → i < limit → Time.checkDelay (d.waitAfter i) = .ok ()) ↔ d.Sustains limit := by
  constructor
  · intro h
    exact ⟨fun hlimit => h 2 (by decide) hlimit, fun hlimit => h _ (by omega) (by omega)⟩
  · rintro ⟨hsecond, hlast⟩ i hi hlimit
    rcases d with ⟨base, growth⟩
    cases growth with
    | constant => exact hbase
    | exponential factor cap =>
      rcases Time.checkDelay_eq_ok.1 hbase with ⟨hfinite, hneg⟩
      rw [Time.isFinite_iff] at hfinite
      simp only [checkDelay_waitAfter, Time.isFinite_iff] at hsecond hlast ⊢
      rcases hlast (by omega) with ⟨hneglast, hcap, hfin⟩
      refine ⟨?_, hcap, hfin.imp_left (size_wait_lt hfinite (by omega))⟩
      rcases Nat.lt_or_ge 2 limit with hmore | hfew
      · exact not_lt_zero_wait hfinite hneg (hsecond hmore).1 _
      · have hsame : limit - 1 = i := by omega
        rw [hsame] at hneglast
        exact hneglast

end Delay
end Callflow
