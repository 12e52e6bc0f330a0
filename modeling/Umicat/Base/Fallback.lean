import Umicat.Base.Credit

/-!
# Sharing by credit with a default payer

Only the indices of `E` have weight. A round is paid by an index of `E` whose credit is then
positive; when there is none, index `z` pays, whether it is in `E` or not. The credits may start
anywhere. What they start with is a bound on how far the payments ever get from the shares.
-/

namespace Umicat.Base

variable {ι : Type*} [Fintype ι] [DecidableEq ι]

/-- Index `b` pays the round that starts from the credits `c`. -/
def Pays (w : ι → ℤ) (E : Finset ι) (z : ι) (c : ι → ℤ) (b : ι) : Prop :=
  b ∈ E ∧ 0 < c b + w b ∨ b = z ∧ ∀ i ∈ E, c i + w i ≤ 0

/-- `Defaulted w E z c₀ bs c`: from the credits `c₀`, the rounds `bs` lead to the credits `c`. -/
inductive Defaulted (w : ι → ℤ) (E : Finset ι) (z : ι) (c₀ : ι → ℤ) : List ι → (ι → ℤ) → Prop
  | start : Defaulted w E z c₀ [] c₀
  | round {bs c b} : Defaulted w E z c₀ bs c → Pays w E z c b →
      Defaulted w E z c₀ (bs ++ [b]) (charge w c b)

/-- What a start from the credits `c₀` can be off by in one credit. -/
def slack (w c₀ : ι → ℤ) : ℤ := ∑ i, |c₀ i| + ∑ i, w i

variable {w : ι → ℤ} {E : Finset ι} {z b : ι} {c₀ c : ι → ℤ} {bs : List ι}

/-! ## The credit of the eligible indices -/

omit [DecidableEq ι] in
theorem sum_eligible (hw : ∀ i ∉ E, w i = 0) : ∑ i ∈ E, w i = ∑ i, w i :=
  Finset.sum_subset (Finset.subset_univ E) fun i _ hi => hw i hi

theorem sum_charge_eligible (hw : ∀ i ∉ E, w i = 0) (c : ι → ℤ) (b : ι) :
    ∑ i ∈ E, charge w c b i = ∑ i ∈ E, c i + if b ∈ E then 0 else ∑ i, w i := by
  simp only [charge, Finset.sum_sub_distrib, Finset.sum_add_distrib, sum_eligible hw,
    Finset.sum_ite_eq']
  split <;> ring

omit [DecidableEq ι] in
theorem abs_sum_eligible_le (c : ι → ℤ) (E : Finset ι) : |∑ i ∈ E, c i| ≤ ∑ i, |c i| :=
  (Finset.abs_sum_le_sum_abs c E).trans
    (Finset.sum_le_sum_of_subset_of_nonneg (Finset.subset_univ E) fun _ _ _ => abs_nonneg _)

namespace Defaulted

theorem credit_eq (h : Defaulted w E z c₀ bs c) (i : ι) :
    c i = c₀ i + bs.length * w i - (∑ j, w j) * bs.count i := by
  induction h with
  | start => simp
  | round _ _ ih => exact charge_eq ih _

/-- Payments from outside are what the eligible credits gain together. -/
theorem sum_mul_outside (hw : ∀ i ∉ E, w i = 0) (h : Defaulted w E z c₀ bs c) :
    (∑ i, w i) * bs.countP (· ∉ E) = ∑ i ∈ E, c i - ∑ i ∈ E, c₀ i := by
  induction h with
  | start => simp
  | @round bs c b _ _ ih =>
      rw [sum_charge_eligible hw, List.countP_append, List.countP_singleton, Nat.cast_add, mul_add,
        ih]
      by_cases hb : b ∈ E
      · simp [hb]
      · simp [hb]; ring

/-- The default payer comes in from outside only while the eligible credits are in debt. -/
theorem sum_le (hw : ∀ i ∉ E, w i = 0) (h : Defaulted w E z c₀ bs c) :
    ∑ i ∈ E, c i ≤ max (∑ i ∈ E, c₀ i) 0 := by
  induction h with
  | start => exact le_max_left _ _
  | @round bs c b _ hb ih =>
      rw [sum_charge_eligible hw]
      by_cases hmem : b ∈ E
      · simpa [hmem] using ih
      · rcases hb with ⟨hin, _⟩ | ⟨_, hno⟩
        · exact absurd hin hmem
        · have hneg : ∑ i ∈ E, (c i + w i) ≤ 0 := Finset.sum_nonpos hno
          rw [Finset.sum_add_distrib, sum_eligible hw] at hneg
          simpa [hmem] using Or.inr hneg

/-- Indices outside `E` pay only a bounded number of rounds. -/
theorem outside_le (hw : ∀ i ∉ E, w i = 0) (hW : 0 < ∑ i, w i) (h : Defaulted w E z c₀ bs c) :
    (bs.countP (· ∉ E) : ℤ) ≤ slack w c₀ := by
  have houtside := h.sum_mul_outside hw
  have hsum := h.sum_le hw
  have habs := abs_le.mp (abs_sum_eligible_le c₀ E)
  have hgain : ∑ i ∈ E, c i - ∑ i ∈ E, c₀ i ≤ ∑ i, |c₀ i| := by
    rcases max_cases (∑ i ∈ E, c₀ i) 0 with hmax | hmax <;> rw [hmax.1] at hsum <;> linarith
  have hone : 1 * (bs.countP (· ∉ E) : ℤ) ≤ (∑ i, w i) * bs.countP (· ∉ E) :=
    mul_le_mul_of_nonneg_right (by linarith) (Int.natCast_nonneg _)
  simp only [slack]
  linarith

section
variable (hpos : ∀ i, 0 ≤ w i) (hw : ∀ i ∉ E, w i = 0)
include hpos hw

theorem sum_ge (h : Defaulted w E z c₀ bs c) : ∑ i ∈ E, c₀ i ≤ ∑ i ∈ E, c i := by
  have houtside := h.sum_mul_outside hw
  have : 0 ≤ (∑ i, w i) * (bs.countP (· ∉ E) : ℤ) :=
    mul_nonneg (Finset.sum_nonneg fun i _ => hpos i) (Int.natCast_nonneg _)
  linarith

/-- No eligible index gets deeper into debt than the start and one payment allow. -/
theorem neg_slack_le (h : Defaulted w E z c₀ bs c) : ∀ i ∈ E, -slack w c₀ ≤ c i := by
  have hW : 0 ≤ ∑ j, w j := Finset.sum_nonneg fun j _ => hpos j
  have hstart : 0 ≤ ∑ i, |c₀ i| := Finset.sum_nonneg fun i _ => abs_nonneg (c₀ i)
  induction h with
  | start =>
      intro i _
      have := Finset.single_le_sum (f := fun i => |c₀ i|) (fun i _ => abs_nonneg _)
        (Finset.mem_univ i)
      have := neg_abs_le (c₀ i)
      simp only [slack] at *
      linarith
  | @round bs c b h hb ih =>
      intro i hi
      have hwi := hpos i
      by_cases hib : i = b
      · subst hib
        rcases hb with ⟨_, hcredit⟩ | ⟨_, hno⟩
        · simp only [charge, ↓reduceIte, slack]
          linarith
        · -- all others are at most 0 as well, so this credit is at least their sum
          have hsum := sum_charge_eligible hw c i
          rw [if_pos hi, add_zero, ← Finset.add_sum_erase E _ hi] at hsum
          have hrest : ∑ j ∈ E.erase i, charge w c i j ≤ 0 := by
            refine Finset.sum_nonpos fun j hj => ?_
            obtain ⟨hne, hj⟩ := Finset.mem_erase.mp hj
            simpa [charge, hne] using hno j hj
          have hge := h.sum_ge hpos hw
          have habs := neg_le_of_abs_le (abs_sum_eligible_le c₀ E)
          simp only [slack]
          linarith
      · have := ih i hi
        simp only [charge, hib, ↓reduceIte]
        linarith

theorem le_slack (h : Defaulted w E z c₀ bs c) : ∀ i ∈ E, c i ≤ Fintype.card ι * slack w c₀ := by
  intro i hi
  have hsum := h.sum_le hw
  rw [← Finset.add_sum_erase E _ hi] at hsum
  have hW : 0 ≤ ∑ j, w j := Finset.sum_nonneg fun j _ => hpos j
  have hstart : 0 ≤ ∑ i, |c₀ i| := Finset.sum_nonneg fun i _ => abs_nonneg (c₀ i)
  have hslack : 0 ≤ slack w c₀ := add_nonneg hstart hW
  have hmax : max (∑ i ∈ E, c₀ i) 0 ≤ slack w c₀ := by
    have := le_of_abs_le (abs_sum_eligible_le c₀ E)
    simp only [slack] at *
    exact max_le (by linarith) hslack
  have hrest : (E.erase i).card • -slack w c₀ ≤ ∑ j ∈ E.erase i, c j :=
    Finset.card_nsmul_le_sum _ _ _ fun j hj => h.neg_slack_le hpos hw j (Finset.mem_of_mem_erase hj)
  have hcard : ((E.erase i).card : ℤ) + 1 ≤ Fintype.card ι := by
    have h1 := Finset.card_erase_add_one hi
    have h2 := Finset.card_le_univ E
    omega
  simp only [nsmul_eq_mul] at hrest
  nlinarith

/-- The payments of an eligible index stay close to its share of the rounds. -/
theorem abs_share_le (h : Defaulted w E z c₀ bs c) {i : ι} (hi : i ∈ E) :
    |(∑ j, w j) * bs.count i - bs.length * w i| ≤ (Fintype.card ι + 1) * slack w c₀ := by
  have hcredit := h.credit_eq i
  have hlow := h.neg_slack_le hpos hw i hi
  have hhigh := h.le_slack hpos hw i hi
  have hstart : Defaulted w E z c₀ [] c₀ := Defaulted.start
  have hlow₀ := hstart.neg_slack_le hpos hw i hi
  have hhigh₀ := hstart.le_slack hpos hw i hi
  have hdiff : (∑ j, w j) * bs.count i - bs.length * w i = c₀ i - c i := by rw [hcredit]; ring
  rw [hdiff, abs_le]
  constructor <;> linarith

end

end Defaulted

end Umicat.Base
