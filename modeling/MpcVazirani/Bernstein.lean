import Mathlib.Analysis.SpecialFunctions.Exponential
import Mathlib.Analysis.SpecialFunctions.Log.Basic
import MpcVazirani.SampleMean

/-! # Bernstein's bound for a finite sample

`SampleMean` bounds the fraction of bad samples by one over their number.  For
quantities of `[0, 1]` it also falls exponentially.  The sum of the exponentials of
`K` draws is the product of the sums over one draw, and the exponential of a centred
quantity of at most one is below a quadratic (`exp_le_quadratic`), so its sum is
governed by the variance.  The draws need not be alike: each has its own quantity,
and what counts is the sum of the means and a bound `V` on the sum of the variances.

For a quantity of `[x, 1]` with mean `m` the variance is at most `(1 - m) * (m - x)`.
-/
namespace Bernstein
open Finset SampleMean

/-! ## The exponential below a quadratic -/

/-- For a nonnegative argument every term of the series from the third on is at most that of
a geometric one. -/
theorem exp_le_of_nonneg {y : ℝ} (h0 : 0 ≤ y) (h3 : y < 3) :
    Real.exp y ≤ 1 + y + y ^ 2 / 2 * (1 - y / 3)⁻¹ := by
  have hexp : HasSum (fun n => y ^ n / n.factorial) (Real.exp y) := by
    rw [Real.exp_eq_exp_ℝ]
    exact NormedSpace.expSeries_div_hasSum_exp y
  have htail := (hasSum_nat_add_iff' 2).mpr hexp
  have hgeom := (hasSum_geometric_of_lt_one (div_nonneg h0 zero_le_three)
    ((div_lt_one three_pos).mpr h3)).mul_left (y ^ 2 / 2)
  have hterm : ∀ n : ℕ, y ^ (n + 2) / (n + 2).factorial ≤ y ^ 2 / 2 * (y / 3) ^ n := by
    intro n
    have hfact : (2 * 3 ^ n : ℝ) ≤ (n + 2).factorial := by
      have h := Nat.factorial_mul_pow_le_factorial (m := 2) (n := n)
      rw [Nat.add_comm 2 n] at h
      exact_mod_cast h
    calc y ^ (n + 2) / (n + 2).factorial ≤ y ^ (n + 2) / (2 * 3 ^ n) :=
          div_le_div_of_nonneg_left (pow_nonneg h0 _) (by positivity) hfact
      _ = y ^ 2 / 2 * (y / 3) ^ n := by
          rw [div_pow]
          field_simp
          ring
  have hle := hasSum_le hterm htail hgeom
  rw [sum_range_succ, sum_range_one] at hle
  simp only [pow_zero, Nat.factorial_zero, Nat.cast_one, div_one, pow_one, Nat.factorial_one] at hle
  linarith

theorem exp_le_of_nonpos {y : ℝ} (h : y ≤ 0) : Real.exp y ≤ 1 + y + y ^ 2 / 2 := by
  have hquad : 1 + -y + (-y) ^ 2 / 2 ≤ Real.exp (-y) :=
    Real.quadratic_le_exp_of_nonneg (neg_nonneg.mpr h)
  have hone : Real.exp y * Real.exp (-y) = 1 := by rw [← Real.exp_add, add_neg_cancel, Real.exp_zero]
  have hpos := Real.exp_pos y
  nlinarith [sq_nonneg (y ^ 2)]

/-- **The exponential below a quadratic**, for arguments of at most `l`. -/
theorem exp_le_quadratic {l y : ℝ} (hl : 0 ≤ l) (hl3 : l < 3) (hy : y ≤ l) :
    Real.exp y ≤ 1 + y + y ^ 2 * (2 * (1 - l / 3))⁻¹ := by
  have hden : 0 < 1 - l / 3 := by linarith
  rw [mul_inv, ← mul_assoc, ← div_eq_mul_inv (y ^ 2)]
  rcases le_total 0 y with h0 | h0
  · refine (exp_le_of_nonneg h0 (hy.trans_lt hl3)).trans ?_
    have hinv : (1 - y / 3)⁻¹ ≤ (1 - l / 3)⁻¹ := inv_anti₀ hden (by linarith)
    have hsq : 0 ≤ y ^ 2 / 2 := by positivity
    linarith [mul_le_mul_of_nonneg_left hinv hsq]
  · refine (exp_le_of_nonpos h0).trans ?_
    have hinv : 1 ≤ (1 - l / 3)⁻¹ := (one_le_inv₀ hden).mpr (by linarith)
    have hsq : 0 ≤ y ^ 2 / 2 := by positivity
    linarith [mul_le_mul_of_nonneg_left hinv hsq]

/-! ## The moments of one draw and of all -/

section Moments
variable {Ω : Type*} {s : Finset Ω} {K : Nat} {l : ℝ}

/-- The exponential moment of a centred quantity of at most one. -/
theorem sum_exp_le {X : Ω → ℝ} {v : ℝ} (hl : 0 ≤ l) (hl3 : l < 3) (hX : ∀ ω ∈ s, X ω ≤ 1)
    (hcentred : ∑ ω ∈ s, X ω = 0) (hvar : ∑ ω ∈ s, X ω ^ 2 ≤ #s * v) :
    ∑ ω ∈ s, Real.exp (l * X ω) ≤ #s * Real.exp (l ^ 2 * (2 * (1 - l / 3))⁻¹ * v) := by
  have hg : 0 ≤ l ^ 2 * (2 * (1 - l / 3))⁻¹ := by
    have hden : 0 < 1 - l / 3 := by linarith
    positivity
  calc ∑ ω ∈ s, Real.exp (l * X ω)
      ≤ ∑ ω ∈ s, (1 + l * X ω + l ^ 2 * (2 * (1 - l / 3))⁻¹ * X ω ^ 2) := by
        refine sum_le_sum fun ω hω => ?_
        have hle : l * X ω ≤ l := mul_le_of_le_one_right hl (hX ω hω)
        refine (exp_le_quadratic hl hl3 hle).trans (le_of_eq ?_)
        ring
    _ = #s + l ^ 2 * (2 * (1 - l / 3))⁻¹ * ∑ ω ∈ s, X ω ^ 2 := by
        rw [sum_add_distrib, sum_add_distrib, ← mul_sum, ← mul_sum, hcentred, sum_const,
          nsmul_eq_mul]
        ring
    _ ≤ #s + l ^ 2 * (2 * (1 - l / 3))⁻¹ * (#s * v) := by
        linarith [mul_le_mul_of_nonneg_left hvar hg]
    _ = #s * (l ^ 2 * (2 * (1 - l / 3))⁻¹ * v + 1) := by ring
    _ ≤ #s * Real.exp (l ^ 2 * (2 * (1 - l / 3))⁻¹ * v) :=
        mul_le_mul_of_nonneg_left (Real.add_one_le_exp _) (Nat.cast_nonneg _)

/-- **The exponential moment of a sum of draws** is the product of theirs. -/
theorem sum_exp_tuples_le {X : Fin K → Ω → ℝ} {v : Fin K → ℝ} {V : ℝ} (hl : 0 ≤ l) (hl3 : l < 3)
    (hX : ∀ k, ∀ ω ∈ s, X k ω ≤ 1) (hcentred : ∀ k, ∑ ω ∈ s, X k ω = 0)
    (hvar : ∀ k, ∑ ω ∈ s, X k ω ^ 2 ≤ #s * v k) (hV : ∑ k, v k ≤ V) :
    ∑ t ∈ tuples s K, Real.exp (l * ∑ k, X k (t k)) ≤
      #(tuples s K) * Real.exp (l ^ 2 * (2 * (1 - l / 3))⁻¹ * V) := by
  have hg : 0 ≤ l ^ 2 * (2 * (1 - l / 3))⁻¹ := by
    have hden : 0 < 1 - l / 3 := by linarith
    positivity
  calc ∑ t ∈ tuples s K, Real.exp (l * ∑ k, X k (t k))
      = ∑ t ∈ tuples s K, ∏ k, Real.exp (l * X k (t k)) := by
        refine sum_congr rfl fun t _ => ?_
        rw [mul_sum, Real.exp_sum]
    _ = ∏ k, ∑ ω ∈ s, Real.exp (l * X k ω) := sum_prod_tuples s fun k ω => Real.exp (l * X k ω)
    _ ≤ ∏ k, (#s * Real.exp (l ^ 2 * (2 * (1 - l / 3))⁻¹ * v k)) := by
        refine prod_le_prod (fun k _ => sum_nonneg fun ω _ => (Real.exp_pos _).le) fun k _ => ?_
        exact sum_exp_le hl hl3 (hX k) (hcentred k) (hvar k)
    _ = #(tuples s K) * Real.exp (l ^ 2 * (2 * (1 - l / 3))⁻¹ * ∑ k, v k) := by
        rw [prod_mul_distrib, prod_const, card_univ, Fintype.card_fin, ← Real.exp_sum, ← mul_sum,
          card_tuples, Nat.cast_pow]
    _ ≤ #(tuples s K) * Real.exp (l ^ 2 * (2 * (1 - l / 3))⁻¹ * V) := by
        refine mul_le_mul_of_nonneg_left (Real.exp_le_exp.mpr ?_) (Nat.cast_nonneg _)
        exact mul_le_mul_of_nonneg_left hV hg

/-- **Bernstein's inequality**: the tuples whose sum is `c` or more above its mean. -/
theorem card_upper_le {X : Fin K → Ω → ℝ} {v : Fin K → ℝ} {V c : ℝ} (hc : 0 ≤ c) (hV0 : 0 < V)
    (hX : ∀ k, ∀ ω ∈ s, X k ω ≤ 1) (hcentred : ∀ k, ∑ ω ∈ s, X k ω = 0)
    (hvar : ∀ k, ∑ ω ∈ s, X k ω ^ 2 ≤ #s * v k) (hV : ∑ k, v k ≤ V) :
    (#{t ∈ tuples s K | c ≤ ∑ k, X k (t k)} : ℝ) ≤
      #(tuples s K) * Real.exp (-(c ^ 2 / (2 * (V + c / 3)))) := by
  -- the choice of `l` that makes the exponent smallest
  let l := c / (V + c / 3)
  have hden : 0 < V + c / 3 := by positivity
  have hl : 0 ≤ l := div_nonneg hc hden.le
  have hl3 : l < 3 := (div_lt_iff₀ hden).mpr (by linarith)
  have hone : 1 - l / 3 = V / (V + c / 3) := by
    simp only [l]
    field_simp
    ring
  have hexponent : l ^ 2 * (2 * (1 - l / 3))⁻¹ * V - l * c = -(c ^ 2 / (2 * (V + c / 3))) := by
    rw [hone]
    simp only [l]
    field_simp
    ring
  have hmarkov : (#{t ∈ tuples s K | c ≤ ∑ k, X k (t k)} : ℝ) * Real.exp (l * c) ≤
      ∑ t ∈ tuples s K, Real.exp (l * ∑ k, X k (t k)) := by
    rw [← nsmul_eq_mul]
    calc #{t ∈ tuples s K | c ≤ ∑ k, X k (t k)} • Real.exp (l * c)
        ≤ ∑ t ∈ tuples s K with c ≤ ∑ k, X k (t k), Real.exp (l * ∑ k, X k (t k)) := by
          refine card_nsmul_le_sum _ _ _ fun t ht => Real.exp_le_exp.mpr ?_
          exact mul_le_mul_of_nonneg_left (mem_filter.mp ht).2 hl
      _ ≤ ∑ t ∈ tuples s K, Real.exp (l * ∑ k, X k (t k)) :=
          sum_le_sum_of_subset_of_nonneg (filter_subset _ _) fun t _ _ => (Real.exp_pos _).le
  refine le_of_mul_le_mul_right ?_ (Real.exp_pos (l * c))
  calc (#{t ∈ tuples s K | c ≤ ∑ k, X k (t k)} : ℝ) * Real.exp (l * c)
      ≤ #(tuples s K) * Real.exp (l ^ 2 * (2 * (1 - l / 3))⁻¹ * V) :=
        hmarkov.trans (sum_exp_tuples_le hl hl3 hX hcentred hvar hV)
    _ = #(tuples s K) * Real.exp (-(c ^ 2 / (2 * (V + c / 3)))) * Real.exp (l * c) := by
        rw [← hexponent, mul_assoc (#(tuples s K) : ℝ), ← Real.exp_add, sub_add_cancel]

end Moments

/-! ## Quantities between zero and one -/

section Bounded
variable {Ω : Type*} {s : Finset Ω} {K : Nat}

/-- **The variance of a quantity of `[x, 1]`**, from its mean alone. -/
theorem sum_sq_sub_le {f : Ω → ℝ} {m x : ℝ} (hx : ∀ ω ∈ s, x ≤ f ω) (h1 : ∀ ω ∈ s, f ω ≤ 1)
    (hm : ∑ ω ∈ s, f ω = #s * m) : ∑ ω ∈ s, (f ω - m) ^ 2 ≤ #s * ((1 - m) * (m - x)) := by
  have hterm : ∀ ω ∈ s, (f ω - m) ^ 2 ≤ (1 + x - 2 * m) * f ω + (m ^ 2 - x) := by
    intro ω hω
    nlinarith [mul_nonneg (sub_nonneg.mpr (hx ω hω)) (sub_nonneg.mpr (h1 ω hω))]
  refine (sum_le_sum hterm).trans (le_of_eq ?_)
  rw [sum_add_distrib, ← mul_sum, hm, sum_const, nsmul_eq_mul]
  ring

theorem sum_sub_mean {f : Ω → ℝ} {m : ℝ} (hm : ∑ ω ∈ s, f ω = #s * m) :
    ∑ ω ∈ s, (f ω - m) = 0 := by
  rw [sum_sub_distrib, hm, sum_const, nsmul_eq_mul, sub_self]

/-- The mean of a quantity of `[x, 1]` is one. -/
theorem mean_mem {f : Ω → ℝ} {m x : ℝ} (hs : s.Nonempty) (hx : ∀ ω ∈ s, x ≤ f ω)
    (h1 : ∀ ω ∈ s, f ω ≤ 1) (hm : ∑ ω ∈ s, f ω = #s * m) : x ≤ m ∧ m ≤ 1 := by
  have hcard : (0 : ℝ) < #s := Nat.cast_pos.mpr (card_pos.mpr hs)
  constructor
  · refine le_of_mul_le_mul_left ?_ hcard
    rw [← hm, ← nsmul_eq_mul]
    exact card_nsmul_le_sum _ _ _ hx
  · refine le_of_mul_le_mul_left ?_ hcard
    rw [← hm, ← nsmul_eq_mul]
    exact sum_le_card_nsmul _ _ _ h1

/-- **The samples off by more than `c`**, for quantities of `[x, 1]` whose variances add up to
at most `V`. -/
theorem card_deviation_le {f : Fin K → Ω → ℝ} {m : Fin K → ℝ} {x V c : ℝ} (hs : s.Nonempty)
    (hx0 : 0 ≤ x) (hx : ∀ k, ∀ ω ∈ s, x ≤ f k ω) (h1 : ∀ k, ∀ ω ∈ s, f k ω ≤ 1)
    (hm : ∀ k, ∑ ω ∈ s, f k ω = #s * m k) (hV0 : 0 < V)
    (hV : ∑ k, (1 - m k) * (m k - x) ≤ V) (hc : 0 ≤ c) :
    (#{t ∈ tuples s K | c < |∑ k, f k (t k) - ∑ k, m k|} : ℝ) ≤
      #(tuples s K) * (2 * Real.exp (-(c ^ 2 / (2 * (V + c / 3))))) := by
  classical
  have hbounds := fun k => mean_mem hs (hx k) (h1 k) (hm k)
  have hvar := fun k => sum_sq_sub_le (hx k) (h1 k) (hm k)
  have hcentred := fun k => sum_sub_mean (hm k)
  have hupper := card_upper_le (X := fun k ω => f k ω - m k) hc hV0
    (fun k ω hω => by linarith [h1 k ω hω, (hbounds k).1]) hcentred hvar hV
  have hlower := card_upper_le (X := fun k ω => m k - f k ω) (s := s) hc hV0
    (fun k ω hω => by linarith [hx k ω hω, (hbounds k).2])
    (fun k => by
      rw [← neg_eq_zero, ← sum_neg_distrib, ← hcentred k]
      exact sum_congr rfl fun ω _ => neg_sub _ _)
    (fun k => by
      refine le_trans (le_of_eq ?_) (hvar k)
      exact sum_congr rfl fun ω _ => by ring) hV
  simp only [sum_sub_distrib] at hupper hlower
  have hsubset : {t ∈ tuples s K | c < |∑ k, f k (t k) - ∑ k, m k|} ⊆
      {t ∈ tuples s K | c ≤ ∑ k, f k (t k) - ∑ k, m k} ∪
        {t ∈ tuples s K | c ≤ ∑ k, m k - ∑ k, f k (t k)} := by
    intro t ht
    obtain ⟨hmem, hlt⟩ := mem_filter.mp ht
    rcases lt_abs.mp hlt with h | h
    · exact mem_union_left _ (mem_filter.mpr ⟨hmem, h.le⟩)
    · exact mem_union_right _ (mem_filter.mpr ⟨hmem, by linarith⟩)
  have hcard : (#{t ∈ tuples s K | c < |∑ k, f k (t k) - ∑ k, m k|} : ℝ) ≤
      #{t ∈ tuples s K | c ≤ ∑ k, f k (t k) - ∑ k, m k} +
        #{t ∈ tuples s K | c ≤ ∑ k, m k - ∑ k, f k (t k)} := by
    exact_mod_cast (card_le_card hsubset).trans (card_union_le _ _)
  linarith

/-- The same for a relative error, in terms of the mean of the sum. -/
theorem card_relative_error_le {f : Fin K → Ω → ℝ} {m : Fin K → ℝ} {ε : ℝ} (hs : s.Nonempty)
    (h0 : ∀ k, ∀ ω ∈ s, 0 ≤ f k ω) (h1 : ∀ k, ∀ ω ∈ s, f k ω ≤ 1)
    (hm : ∀ k, ∑ ω ∈ s, f k ω = #s * m k) (hpos : 0 < ∑ k, m k) (hε0 : 0 ≤ ε) (hε1 : ε ≤ 1) :
    (#{t ∈ tuples s K | ε * ∑ k, m k < |∑ k, f k (t k) - ∑ k, m k|} : ℝ) ≤
      #(tuples s K) * (2 * Real.exp (-(3 / 8 * ε ^ 2 * ∑ k, m k))) := by
  have hV : ∑ k, (1 - m k) * (m k - 0) ≤ ∑ k, m k := by
    refine sum_le_sum fun k _ => ?_
    obtain ⟨hk0, -⟩ := mean_mem hs (h0 k) (h1 k) (hm k)
    nlinarith
  refine (card_deviation_le hs (le_refl 0) h0 h1 hm hpos hV (by positivity)).trans ?_
  refine mul_le_mul_of_nonneg_left ?_ (Nat.cast_nonneg _)
  refine mul_le_mul_of_nonneg_left (Real.exp_le_exp.mpr (neg_le_neg ?_)) zero_le_two
  rw [le_div_iff₀ (by positivity)]
  nlinarith [mul_nonneg (sq_nonneg (ε * ∑ k, m k)) (sub_nonneg.mpr hε1)]

end Bounded

/-! ## Enough draws

`K` draws of one quantity of `[x, 1]` with mean `m`, whose variance is at most `R` times the
square of the mean.  Either bound on their number is enough. -/

section Draws
variable {Ω : Type*} {s : Finset Ω} {K : Nat} {f : Ω → ℝ} {m x R ε δ : ℝ}

/-- **Enough draws by Chebyshev's inequality.** -/
theorem card_le_of_chebyshev (hs : s.Nonempty) (hx : ∀ ω ∈ s, x ≤ f ω) (h1 : ∀ ω ∈ s, f ω ≤ 1)
    (hm : ∑ ω ∈ s, f ω = #s * m) (hpos : 0 < m) (hvar : (1 - m) * (m - x) ≤ R * m ^ 2)
    (hε : 0 < ε) (hK : 0 < K) (hdraws : R ≤ K * δ * ε ^ 2) :
    (#{t ∈ tuples s K | ε * (K * m) < |∑ k, f (t k) - K * m|} : ℝ) ≤ δ * #(tuples s K) := by
  have hK' : (0 : ℝ) < K := Nat.cast_pos.mpr hK
  have hcard : (0 : ℝ) < #s := Nat.cast_pos.mpr (card_pos.mpr hs)
  have hcheb := card_deviation_mul_sq_le (K := K) s (sum_sub_mean hm)
    (by positivity : 0 ≤ ε * (K * m))
  have hpow : (#s : ℝ) ^ (K - 1) * #s = #(tuples s K) := by
    rw [card_tuples, Nat.cast_pow, ← pow_succ, Nat.sub_add_cancel hK]
  refine le_of_mul_le_mul_right (hcheb.trans ?_) (by positivity : 0 < (ε * (K * m)) ^ 2)
  calc (K : ℝ) * #s ^ (K - 1) * ∑ ω ∈ s, (f ω - m) ^ 2
      ≤ K * #s ^ (K - 1) * (#s * (R * m ^ 2)) := by
        refine mul_le_mul_of_nonneg_left ((sum_sq_sub_le hx h1 hm).trans ?_) (by positivity)
        exact mul_le_mul_of_nonneg_left hvar hcard.le
    _ = #(tuples s K) * (K * m ^ 2) * R := by
        rw [← hpow]
        ring
    _ ≤ #(tuples s K) * (K * m ^ 2) * (K * δ * ε ^ 2) := by
        refine mul_le_mul_of_nonneg_left hdraws ?_
        positivity
    _ = δ * #(tuples s K) * (ε * (K * m)) ^ 2 := by ring

/-- **Enough draws by Bernstein's inequality**: three times the logarithm for each unit of
`R / ε ^ 2`, and a little less where the mean is not too small for `R`. -/
theorem card_le_of_bernstein {L : ℝ} (hs : s.Nonempty) (h0 : 0 ≤ x) (hx : ∀ ω ∈ s, x ≤ f ω)
    (h1 : ∀ ω ∈ s, f ω ≤ 1) (hm : ∑ ω ∈ s, f ω = #s * m) (hpos : 0 < m)
    (hvar : (1 - m) * (m - x) ≤ R * m ^ 2) (hR : 7 / 10 ≤ R * m) (hε : 0 < ε) (hε1 : ε ≤ 1)
    (hδ : 0 < δ) (hK : 0 < K) (hL0 : 0 ≤ L) (hL : Real.log (2 / δ) ≤ 63 / 62 * L)
    (hdraws : 3 * L * R ≤ K * ε ^ 2) :
    (#{t ∈ tuples s K | ε * (K * m) < |∑ k, f (t k) - K * m|} : ℝ) ≤ δ * #(tuples s K) := by
  have hK' : (0 : ℝ) < K := Nat.cast_pos.mpr hK
  have hsum : ∑ _k : Fin K, m = K * m := by rw [sum_const, card_univ, Fintype.card_fin, nsmul_eq_mul]
  have hV0 : 0 < K * m * (R * m) := by positivity
  have hV : ∑ _k : Fin K, (1 - m) * (m - x) ≤ K * m * (R * m) := by
    rw [sum_const, card_univ, Fintype.card_fin, nsmul_eq_mul]
    calc (K : ℝ) * ((1 - m) * (m - x)) ≤ K * (R * m ^ 2) := mul_le_mul_of_nonneg_left hvar hK'.le
      _ = K * m * (R * m) := by ring
  have hdev := card_deviation_le (f := fun _ : Fin K => f) (m := fun _ => m) hs h0 (fun _ => hx)
    (fun _ => h1) (fun _ => hm) hV0 hV (by positivity : 0 ≤ ε * (K * m))
  rw [hsum] at hdev
  have hexponent : Real.log (2 / δ) ≤
      (ε * (K * m)) ^ 2 / (2 * (K * m * (R * m) + ε * (K * m) / 3)) := by
    have hcancel : (ε * (K * m)) ^ 2 / (2 * (K * m * (R * m) + ε * (K * m) / 3)) =
        K * ε ^ 2 * m / (2 * (R * m + ε / 3)) := by
      have hden : 0 < R * m + ε / 3 := by positivity
      field_simp
    rw [hcancel, le_div_iff₀ (by positivity)]
    have hdraws' : 3 * L * R * m ≤ K * ε ^ 2 * m := mul_le_mul_of_nonneg_right hdraws hpos.le
    have hden : 2 * (R * m + ε / 3) ≤ 2 * (R * m + 1 / 3) := by linarith
    have hmain : 63 / 62 * L * (2 * (R * m + 1 / 3)) ≤ 3 * L * R * m := by nlinarith
    calc Real.log (2 / δ) * (2 * (R * m + ε / 3))
        ≤ 63 / 62 * L * (2 * (R * m + ε / 3)) := mul_le_mul_of_nonneg_right hL (by positivity)
      _ ≤ 63 / 62 * L * (2 * (R * m + 1 / 3)) := mul_le_mul_of_nonneg_left hden (by positivity)
      _ ≤ K * ε ^ 2 * m := hmain.trans hdraws'
  refine hdev.trans ?_
  rw [mul_comm δ]
  refine mul_le_mul_of_nonneg_left ?_ (Nat.cast_nonneg _)
  calc 2 * Real.exp (-((ε * (K * m)) ^ 2 / (2 * (K * m * (R * m) + ε * (K * m) / 3))))
      ≤ 2 * Real.exp (-Real.log (2 / δ)) :=
        mul_le_mul_of_nonneg_left (Real.exp_le_exp.mpr (neg_le_neg hexponent)) zero_le_two
    _ = δ := by
        rw [Real.exp_neg, Real.exp_log (by positivity)]
        field_simp

end Draws

end Bernstein
