import Mathlib.Algebra.BigOperators.Ring.Finset
import Mathlib.Algebra.Order.BigOperators.Group.Finset
import Mathlib.Data.Fintype.BigOperators
import Mathlib.Data.Int.Order.Basic
import Mathlib.Tactic.Linarith
import Mathlib.Tactic.Ring

/-!
# Sharing by credit

Each round every index is credited its weight and one index, whose credit is then positive, pays
the sum of all weights. Credits count how far an index is behind its share, so bounds on the
credits are bounds on the shares.
-/

namespace Umicat.Base

variable {ι : Type*} [Fintype ι] [DecidableEq ι]

/-- Credits after a round with weights `w` in which `b` pays. -/
def charge (w c : ι → ℤ) (b : ι) : ι → ℤ :=
  fun i => c i + w i - if i = b then ∑ j, w j else 0

/-- `Shared w bs c`: from no credit at all, the rounds `bs` lead to the credits `c`. -/
inductive Shared (w : ι → ℤ) : List ι → (ι → ℤ) → Prop
  | start : Shared w [] 0
  | round {bs c b} : Shared w bs c → 0 < c b + w b → Shared w (bs ++ [b]) (charge w c b)

variable {w : ι → ℤ} {bs : List ι} {c : ι → ℤ}

theorem sum_charge (w c : ι → ℤ) (b : ι) : ∑ i, charge w c b i = ∑ i, c i := by
  simp [charge, Finset.sum_sub_distrib, Finset.sum_add_distrib]

/-- One more round keeps the account: what was there, plus the shares, less what was paid. -/
theorem charge_eq {w c : ι → ℤ} {i : ι} {a : ℤ} {bs : List ι}
    (h : c i = a + bs.length * w i - (∑ j, w j) * bs.count i) (b : ι) :
    charge w c b i = a + (bs ++ [b]).length * w i - (∑ j, w j) * (bs ++ [b]).count i := by
  simp only [charge, h, List.length_append, List.count_append, List.count_singleton]
  by_cases hb : i = b
  · subst hb; simp; ring
  · have hb' : ¬ b = i := fun h => hb h.symm
    simp [hb, hb']; ring

namespace Shared

/-- The credit of an index is its share of the rounds so far, less what it has paid. -/
theorem credit_eq (h : Shared w bs c) (i : ι) :
    c i = bs.length * w i - (∑ j, w j) * bs.count i := by
  induction h with
  | start => simp
  | @round bs c b _ _ ih =>
      have := charge_eq (a := 0) (by rw [zero_add]; exact ih) b
      rwa [zero_add] at this

theorem sum_eq_zero (h : Shared w bs c) : ∑ i, c i = 0 := by
  induction h with
  | start => simp
  | round _ _ ih => rw [sum_charge, ih]

/-- An index pays only out of a positive credit, so no debt reaches the whole sum. -/
theorem neg_sum_lt (hw : ∀ i, 0 ≤ w i) (hW : 0 < ∑ j, w j) (h : Shared w bs c) (i : ι) :
    -(∑ j, w j) < c i := by
  induction h with
  | start => simpa using hW
  | @round bs c b _ hb ih =>
      have := hw i
      by_cases hi : i = b
      · subst hi; simp only [charge, ↓reduceIte]; linarith
      · simp only [charge, hi, ↓reduceIte]; linarith

/-- After a whole number of cycles all credits are back at zero. -/
theorem eq_zero (hw : ∀ i, 0 ≤ w i) (hW : 0 < ∑ j, w j) (h : Shared w bs c)
    (hk : (∑ j, w j) ∣ (bs.length : ℤ)) : c = 0 := by
  have hdvd (i : ι) : (∑ j, w j) ∣ c i := by
    rw [h.credit_eq i]
    exact dvd_sub (hk.mul_right _) (dvd_mul_right _ _)
  have hnonneg (i : ι) : 0 ≤ c i := by
    -- a negative multiple of the sum would be at most minus the sum
    by_contra hneg
    have := Int.le_of_dvd (by omega) ((dvd_neg).mpr (hdvd i))
    have := h.neg_sum_lt hw hW i
    omega
  funext i
  exact (Finset.sum_eq_zero_iff_of_nonneg fun j _ => hnonneg j).mp h.sum_eq_zero i (Finset.mem_univ i)

end Shared

end Umicat.Base
