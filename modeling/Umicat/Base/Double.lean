import Mathlib.Data.Int.Log
import Mathlib.Data.Rat.Floor
import Umicat.Base.Word

/-!
# Doubles

The binary64 numbers without NaN, as rational numbers, and the rounding of a rational number to the
nearest of them. The two zeros are one.
-/

namespace Umicat.Base

inductive Double
  | finite (q : ℚ)
  | infinite (neg : Bool)
deriving DecidableEq

/-- The nearest integer, and the even one of two. -/
def halfEven (q : ℚ) : ℤ :=
  if q - ⌊q⌋ < 1 / 2 then ⌊q⌋
  else if 1 / 2 < q - ⌊q⌋ then ⌊q⌋ + 1
  else if ⌊q⌋ % 2 = 0 then ⌊q⌋
  else ⌊q⌋ + 1

/-- The exponent of the last of the 53 bits of `q`, which is no smaller than that of the subnormal
numbers. -/
def ulp (q : ℚ) : ℤ := max (Int.log 2 |q| - 52) (-1074)

namespace Double

def ofRat (q : ℚ) : Double :=
  let r : ℚ := halfEven (q / 2 ^ ulp q) * 2 ^ ulp q
  if |r| < 2 ^ 1024 then finite r else infinite (decide (q < 0))

end Double

theorem halfEven_intCast (n : ℤ) : halfEven (n : ℚ) = n := by
  simp [halfEven]

theorem ulp_nonpos {n : ℤ} (h : |n| < 2 ^ 53) : ulp (n : ℚ) ≤ 0 := by
  have hlog : Int.log 2 |(n : ℚ)| ≤ 52 := by
    rcases eq_or_ne n 0 with rfl | hn
    · simp
    · have hpos : 0 < |(n : ℚ)| := abs_pos.mpr (Int.cast_ne_zero.mpr hn)
      have hlt : |(n : ℚ)| < ((2 : ℕ) : ℚ) ^ (53 : ℤ) := by
        rw [← Int.cast_abs]
        exact_mod_cast h
      have := (Int.lt_zpow_iff_log_lt (by decide) hpos).mp hlt
      omega
  unfold ulp
  omega

/-- Integers of up to 53 bits are doubles. -/
theorem Double.ofRat_intCast {n : ℤ} (h : |n| < 2 ^ 53) : ofRat (n : ℚ) = finite n := by
  obtain ⟨k, hk⟩ := Int.eq_ofNat_of_zero_le (neg_nonneg.mpr (ulp_nonpos h))
  have hulp : ulp (n : ℚ) = -(k : ℤ) := by omega
  have hscale : (n : ℚ) / 2 ^ ulp (n : ℚ) = ((n * 2 ^ k : ℤ) : ℚ) := by
    rw [hulp, zpow_neg, div_inv_eq_mul, zpow_natCast]
    norm_cast
  have hround : (halfEven ((n : ℚ) / 2 ^ ulp (n : ℚ)) : ℚ) * 2 ^ ulp (n : ℚ) = n := by
    rw [hscale, halfEven_intCast, ← hscale]
    exact div_mul_cancel₀ _ (zpow_ne_zero _ two_ne_zero)
  have hlt : |(n : ℚ)| < 2 ^ 1024 := by
    have hq : |(n : ℚ)| < 2 ^ 53 := by
      rw [← Int.cast_abs]
      exact_mod_cast h
    exact hq.trans (pow_lt_pow_right₀ one_lt_two (by decide))
  simp only [ofRat, hround, hlt, ↓reduceIte]

end Umicat.Base
