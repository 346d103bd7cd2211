import Mathlib.Analysis.SpecialFunctions.Log.Deriv

/-! # The logarithm from a truncated series

`log m` is twice the inverse hyperbolic tangent of `(m - 1) / (m + 1)`, whose series
has only odd powers.  For `m` between 1 and 2 the argument is at most `1 / 3`, so each
term is less than a ninth of the one before, and what is cut off is at most nine eighths
of the first term that is missing.
-/
namespace LogSeries
open Finset

/-- The first `n` terms of the series of `log ((1 + z) / (1 - z))`. -/
noncomputable def partialSum (z : ℝ) (n : Nat) : ℝ := 2 * ∑ j ∈ range n, z ^ (2 * j + 1) / (2 * j + 1)

/-- **What is cut off** after `n` terms. -/
theorem log_sub_partialSum_mem {z : ℝ} (h0 : 0 ≤ z) (h1 : z < 1) (n : Nat) :
    0 ≤ Real.log (1 + z) - Real.log (1 - z) - partialSum z n ∧
      Real.log (1 + z) - Real.log (1 - z) - partialSum z n ≤
        2 / (2 * n + 1) * z ^ (2 * n + 1) * (1 - z ^ 2)⁻¹ := by
  have hsum := Real.hasSum_log_sub_log_of_abs_lt_one (by rwa [abs_of_nonneg h0] : |z| < 1)
  have htail := (hasSum_nat_add_iff' n).mpr hsum
  have hhead : ∑ k ∈ range n, 2 * (1 / (2 * (k : ℝ) + 1)) * z ^ (2 * k + 1) = partialSum z n := by
    rw [partialSum, mul_sum]
    refine sum_congr rfl fun k _ => ?_
    ring
  rw [hhead] at htail
  have hsq : z ^ 2 < 1 := by nlinarith
  have hgeom := (hasSum_geometric_of_lt_one (sq_nonneg z) hsq).mul_left
    (2 / (2 * (n : ℝ) + 1) * z ^ (2 * n + 1))
  have hterm : ∀ k : ℕ, 2 * (1 / (2 * ((k + n : ℕ) : ℝ) + 1)) * z ^ (2 * (k + n) + 1) ≤
      2 / (2 * (n : ℝ) + 1) * z ^ (2 * n + 1) * (z ^ 2) ^ k := by
    intro k
    have hden : 2 / (2 * ((k + n : ℕ) : ℝ) + 1) ≤ 2 / (2 * (n : ℝ) + 1) := by
      refine div_le_div_of_nonneg_left zero_le_two (by positivity) ?_
      push_cast
      linarith [(Nat.cast_nonneg k : (0 : ℝ) ≤ k)]
    calc 2 * (1 / (2 * ((k + n : ℕ) : ℝ) + 1)) * z ^ (2 * (k + n) + 1)
        = 2 / (2 * ((k + n : ℕ) : ℝ) + 1) * (z ^ (2 * n + 1) * (z ^ 2) ^ k) := by ring
      _ ≤ 2 / (2 * (n : ℝ) + 1) * (z ^ (2 * n + 1) * (z ^ 2) ^ k) :=
          mul_le_mul_of_nonneg_right hden (by positivity)
      _ = 2 / (2 * (n : ℝ) + 1) * z ^ (2 * n + 1) * (z ^ 2) ^ k := by ring
  exact ⟨htail.nonneg fun k => by positivity, hasSum_le hterm htail hgeom⟩

/-- **The series of a number between one and two.** -/
theorem log_sub_partialSum_bounds {m : ℝ} (h1 : 1 ≤ m) (h2 : m ≤ 2) (n : Nat) :
    0 ≤ Real.log m - partialSum ((m - 1) / (m + 1)) n ∧
      Real.log m - partialSum ((m - 1) / (m + 1)) n ≤
        9 / 4 / (2 * n + 1) * (1 / 3) ^ (2 * n + 1) := by
  have hm : 0 < m + 1 := by linarith
  have h0 : 0 ≤ (m - 1) / (m + 1) := div_nonneg (by linarith) hm.le
  have hthird : (m - 1) / (m + 1) ≤ 1 / 3 := by
    rw [div_le_iff₀ hm]
    linarith
  have hlog : Real.log (1 + (m - 1) / (m + 1)) - Real.log (1 - (m - 1) / (m + 1)) = Real.log m := by
    rw [show 1 + (m - 1) / (m + 1) = m * (2 / (m + 1)) by field_simp; ring,
      show 1 - (m - 1) / (m + 1) = 2 / (m + 1) by field_simp; ring,
      Real.log_mul (by linarith) (by positivity), add_sub_cancel_right]
  obtain ⟨hlow, hhigh⟩ := log_sub_partialSum_mem h0 (by linarith) n
  rw [hlog] at hlow hhigh
  refine ⟨hlow, hhigh.trans ?_⟩
  have hpow : ((m - 1) / (m + 1)) ^ (2 * n + 1) ≤ (1 / 3) ^ (2 * n + 1) :=
    pow_le_pow_left₀ h0 hthird _
  have hinv : (1 - ((m - 1) / (m + 1)) ^ 2)⁻¹ ≤ 9 / 8 := by
    rw [inv_le_comm₀ (by nlinarith) (by norm_num)]
    nlinarith
  calc 2 / (2 * (n : ℝ) + 1) * ((m - 1) / (m + 1)) ^ (2 * n + 1) *
        (1 - ((m - 1) / (m + 1)) ^ 2)⁻¹
      ≤ 2 / (2 * (n : ℝ) + 1) * (1 / 3) ^ (2 * n + 1) * (9 / 8) := by
        refine mul_le_mul (mul_le_mul_of_nonneg_left hpow (by positivity)) hinv ?_ (by positivity)
        exact inv_nonneg.mpr (by nlinarith)
    _ = 9 / 4 / (2 * n + 1) * (1 / 3) ^ (2 * n + 1) := by ring

end LogSeries
