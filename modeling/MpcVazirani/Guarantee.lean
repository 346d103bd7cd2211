import MpcVazirani.Accuracy
import MpcVazirani.Bernstein
import MpcVazirani.ConstLog

/-! # The documented guarantee

`coverage_trials` sizes the trial loop of both pipelines so that the estimate is within a
relative `epsilon` of the true count except with probability `delta`.  Of its two forms
one is Chebyshev's inequality, the other is called multiplicative Chernoff in its comment;
three times the logarithm for each unit of the bound on the variance is enough by
Bernstein's inequality, which has the variance in it (`card_le_of_coverageTrials`).  The number
of trials is the one of `TrialCount.lean`, computed over the rationals.

For Karp-Luby that is the guarantee.  Vazirani's contributions are rounded: they lie
between three quarters of the least exact one and one, which keeps their variance within
the same bound up to `2 ^ 15` pairs of cubes, and shifts what they are centred at by at
most a fraction `cubes ^ 2 / 2 ^ 17`.
-/
namespace MpcVazirani
open Finset SampleMean

variable {Ctx : BooleanContext} {N K : Nat}

section Draws
variable {cubes : Int} {ε δ : ℚ} (hcubes : 2 ≤ cubes) (hε : 0 < ε) (hδ : 0 < δ) (hδ1 : δ < 1)
  {fuel : Nat} (hK : coverageTrials fuel cubes ε δ = some (K : Int))
include hcubes hε hδ hδ1 hK

/-- What the number of trials is enough for. -/
theorem draws_of_coverageTrials :
    1 ≤ K ∧ ((cubes : ℝ) ^ 2 - 1 ≤ K * δ * (ε : ℝ) ^ 2 ∨
      ∃ L : ℝ, 0 ≤ L ∧ Real.log (2 / δ) ≤ 63 / 62 * L ∧
        3 * L * ((cubes : ℝ) ^ 2 - 1) ≤ K * (ε : ℝ) ^ 2) := by
  obtain ⟨fuel₀, log, hlog, hpos, herror⟩ := constLog_two_div hδ hδ1
  have hceil := eq_ceil_of_coverageTrials hδ (by omega) hε hK hlog hpos
  have hbound : trialBound log cubes ε δ ≤ K := by
    have h := Int.le_ceil (trialBound log cubes ε δ)
    rw [← hceil] at h
    exact_mod_cast h
  have hone : (1 : Int) ≤ K := (trials_bounds hε hδ hδ1 hcubes hK).1
  refine ⟨by exact_mod_cast hone, ?_⟩
  rw [trialBound, div_le_iff₀ (by positivity)] at hbound
  rcases le_total (1 / δ) (3 * log) with hform | hform
  · left
    rw [min_eq_left hform, div_mul_eq_mul_div, one_mul, div_le_iff₀ hδ] at hbound
    have h : ((cubes : ℝ) ^ 2 - 1) ≤ K * (ε : ℝ) ^ 2 * δ := by exact_mod_cast hbound
    linarith
  · right
    rw [min_eq_right hform] at hbound
    refine ⟨log, by exact_mod_cast hpos.le, ?_, by exact_mod_cast hbound⟩
    obtain ⟨hlow, -⟩ := abs_le.mp herror
    have hpos' : (0 : ℝ) < log := by exact_mod_cast hpos
    norm_num at hlow
    linarith

/-- **As many draws as `coverage_trials` asks for are enough** for every quantity of `[x, 1]`
whose variance is at most `R` times the square of its mean: for `epsilon` where `R` is at most
`cubes ^ 2 - 1`, and else for a larger error. -/
theorem card_le_of_coverageTrials {Ω : Type*} {s : Finset Ω} {f : Ω → ℝ} {m x R ε' : ℝ}
    (hε0 : 0 < ε') (hε1 : ε' ≤ 1) (hratio : (ε : ℝ) ^ 2 * R ≤ ε' ^ 2 * ((cubes : ℝ) ^ 2 - 1))
    (hs : s.Nonempty) (h0 : 0 ≤ x) (hx : ∀ ω ∈ s, x ≤ f ω) (h1 : ∀ ω ∈ s, f ω ≤ 1)
    (hm : ∑ ω ∈ s, f ω = #s * m) (hpos : 0 < m) (hvar : (1 - m) * (m - x) ≤ R * m ^ 2)
    (hR : 7 / 10 ≤ R * m) :
    (#{t ∈ tuples s K | ε' * (K * m) < |∑ k, f (t k) - K * m|} : ℝ) ≤ δ * #(tuples s K) := by
  have hε' : (0 : ℝ) < (ε : ℝ) ^ 2 := by
    have h : (0 : ℝ) < ε := by exact_mod_cast hε
    positivity
  have hδ' : (0 : ℝ) < δ := by exact_mod_cast hδ
  obtain ⟨hone, hdraws | ⟨L, hL0, hL, hdraws⟩⟩ := draws_of_coverageTrials hcubes hε hδ hδ1 hK
  · refine Bernstein.card_le_of_chebyshev hs hx h1 hm hpos hvar hε0 hone
      (le_of_mul_le_mul_left ?_ hε')
    calc (ε : ℝ) ^ 2 * R ≤ ε' ^ 2 * ((cubes : ℝ) ^ 2 - 1) := hratio
      _ ≤ ε' ^ 2 * (K * δ * (ε : ℝ) ^ 2) := mul_le_mul_of_nonneg_left hdraws (sq_nonneg ε')
      _ = (ε : ℝ) ^ 2 * (K * δ * ε' ^ 2) := by ring
  · refine Bernstein.card_le_of_bernstein hs h0 hx h1 hm hpos hvar hR hε0 hε1 hδ' hone hL0 hL
      (le_of_mul_le_mul_left ?_ hε')
    calc (ε : ℝ) ^ 2 * (3 * L * R) = 3 * L * ((ε : ℝ) ^ 2 * R) := by ring
      _ ≤ 3 * L * (ε' ^ 2 * ((cubes : ℝ) ^ 2 - 1)) := mul_le_mul_of_nonneg_left hratio (by positivity)
      _ = ε' ^ 2 * (3 * L * ((cubes : ℝ) ^ 2 - 1)) := by ring
      _ ≤ ε' ^ 2 * (K * (ε : ℝ) ^ 2) := mul_le_mul_of_nonneg_left hdraws (sq_nonneg ε')
      _ = (ε : ℝ) ^ 2 * (K * ε' ^ 2) := by ring

end Draws

/-! ## Karp-Luby -/

section Cover
variable {M : Nat} [NeZero M] [NeZero N] {cubes : Fin M → CircuitCube Ctx N}
  (bob_r : Ctx.BitVecT N) (hwf : (dnfValue cubes).WellFormed)
  (hS : 0 < (dnfValue cubes).totalWeight)
include hwf hS

/-- The mean of the canonical bit. -/
theorem sum_canonicalOn_eq :
    let T := Icc 1 (dnfValue cubes).totalWeight ×ˢ (univ : Finset (Fin N → Bool))
    ∑ p ∈ T, (if canonicalOn cubes bob_r p.1 p.2 = true then (1 : ℝ) else 0) =
      #T * (#(dnfValue cubes).models / (dnfValue cubes).totalWeight) := by
  intro T
  have hS' : ((dnfValue cubes).totalWeight : ℝ) ≠ 0 := Nat.cast_ne_zero.mpr hS.ne'
  have hcard : (#T : ℝ) = (dnfValue cubes).totalWeight * 2 ^ N := by simp [T, card_product]
  rw [sum_boole, card_canonicalOn bob_r hwf, hcard]
  push_cast
  field_simp

omit [NeZero N] [NeZero M] hwf in
/-- It is at least one in `M`. -/
theorem one_le_mul_mean :
    1 ≤ (M : ℝ) * (#(dnfValue cubes).models / (dnfValue cubes).totalWeight) := by
  have hS' : (0 : ℝ) < (dnfValue cubes).totalWeight := Nat.cast_pos.mpr hS
  rw [← mul_div_assoc, le_div_iff₀ hS', one_mul]
  exact_mod_cast (dnfValue cubes).totalWeight_le

end Cover

/-- A common factor of the sum and its mean does not matter to a relative error. -/
theorem scaled_error_iff {S : ℝ} (hS : 0 < S) (ε m x : ℝ) :
    ε * (K * (S * m)) < |S * x - K * (S * m)| ↔ ε * (K * m) < |x - K * m| := by
  have hfactor : S * x - K * (S * m) = S * (x - K * m) := by ring
  rw [hfactor, abs_mul, abs_of_pos hS, show ε * (K * (S * m)) = S * (ε * (K * m)) by ring,
    mul_lt_mul_iff_right₀ hS]

/-- **The guarantee of the Karp-Luby estimate.**  With the number of trials that
`karp_luby_trials` returns for `ε` and `δ`, at most a fraction `δ` of all sequences of
samples and strings make the estimate differ from `K` times the number of common satisfying
assignments by more than a relative `ε`. -/
theorem karpLuby_guarantee [NeZero N] {CUBES : Nat} [NeZero CUBES] (hcubes : 2 ≤ CUBES)
    (alice : Fin CUBES → CircuitCube Ctx N) {bob : Fin CUBES → CircuitCube Ctx N}
    (hb : (dnfValue bob).WellFormed)
    (hU : ((dnfValue alice).models ∩ (dnfValue bob).models).Nonempty)
    (bob_r : Ctx.BitVecT N) {ε δ : ℚ} (hε : 0 < ε) (hε1 : ε ≤ 1) (hδ : 0 < δ) (hδ1 : δ < 1)
    {fuel : Nat} (hK : karpLubyTrials fuel CUBES ε δ = some (K : Int)) :
    let C := conjoinDnf alice bob
    let S := dnfWeight (cubeWeights C)
    let U := (dnfValue alice).models ∩ (dnfValue bob).models
    let T := Icc 1 (Ctx.val S) ×ˢ (univ : Finset (Fin N → Bool))
    let estimate := fun p : Fin K → Nat × (Fin N → Bool) =>
      Ctx.val (karpLubyEstimate S fun t => isCanonicalSample
        (trialOn C bob_r (p t).1 (p t).2).index (trialOn C bob_r (p t).1 (p t).2).assignment C)
    (#{p ∈ tuples T K | ε * (K * #U) < |(estimate p : ℚ) - K * #U|} : ℚ) ≤
      δ * #(tuples T K) := by
  intro C S U T estimate
  have hwf : (dnfValue C).WellFormed := conjoinDnf_wellFormed alice hb
  have hUC : (dnfValue C).models = U := conjoinDnf_models alice
  have hS : Ctx.val S = (dnfValue C).totalWeight := val_dnfWeight_cubeWeights C
  have hmodels : (dnfValue C).models.Nonempty := by rwa [hUC]
  have hpos : 0 < Ctx.val S := by
    rw [hS]
    exact (Dnf.totalWeight_pos_iff _).mpr hmodels
  have hpos' : (0 : ℝ) < Ctx.val S := Nat.cast_pos.mpr hpos
  have hne : T.Nonempty := ⟨(1, fun _ => false), by simp [T]; omega⟩
  let m : ℝ := #U / Ctx.val S
  have hU' : (#U : ℝ) = Ctx.val S * m := (mul_div_cancel₀ _ hpos'.ne').symm
  have hM : (1 : ℝ) ≤ ((CUBES * CUBES : Nat) : ℝ) *
      (#(dnfValue C).models / (dnfValue C).totalWeight) := one_le_mul_mean (by rwa [← hS])
  have hmean := sum_canonicalOn_eq bob_r hwf (by rwa [← hS])
  rw [hUC, ← hS] at hM hmean
  push_cast at hM
  have hm : 0 < m := div_pos (Nat.cast_pos.mpr (card_pos.mpr hU)) hpos'
  have hM' : 1 ≤ (CUBES : ℝ) ^ 2 * m := by rwa [sq]
  have hfour : (4 : ℝ) ≤ (CUBES : ℝ) ^ 2 := by
    have htwo : (2 : ℝ) ≤ CUBES := by exact_mod_cast hcubes
    nlinarith
  have hvar : (1 - m) * (m - 0) ≤ (((CUBES : Int) : ℝ) ^ 2 - 1) * m ^ 2 := by
    push_cast
    nlinarith
  have hR : 7 / 10 ≤ (((CUBES : Int) : ℝ) ^ 2 - 1) * m := by
    push_cast
    nlinarith
  have hbad := card_le_of_coverageTrials (by exact_mod_cast hcubes) hε hδ hδ1 hK
    (by exact_mod_cast hε) (by exact_mod_cast hε1) (le_refl _) hne (le_refl 0)
    (fun p _ => by split_ifs <;> norm_num) (fun p _ => by split_ifs <;> norm_num) hmean hm hvar hR
  refine (Rat.cast_le (K := ℝ)).mp ?_
  push_cast
  refine le_trans (le_of_eq ?_) hbad
  congr 2
  refine filter_congr fun p _ => ?_
  -- the estimate is the total times the number of canonical trials
  have hest : (estimate p : ℝ) = Ctx.val S *
      ∑ t, if canonicalOn C bob_r (p t).1 (p t).2 = true then (1 : ℝ) else 0 := by
    rw [sum_boole]
    exact_mod_cast val_karpLubyEstimate _ _
  rw [← scaled_error_iff hpos', ← hest, ← hU']
  exact_mod_cast Iff.rfl

/-! ## Vazirani -/

/-- What the mean of the rounded contributions has to do with the number of pairs of cubes. -/
theorem vazirani_variance {M m : ℝ} (h4 : 4 ≤ M) (hM : M ≤ 2 ^ 15) (hm : 1 / M - 1 / 2 ^ 17 ≤ m) :
    (1 - m) * (m - 3 / (4 * M)) ≤ (M - 1) * m ^ 2 ∧ 7 / 10 ≤ (M - 1) * m := by
  have hpos : 0 < M := by linarith
  have hx : 3 / (4 * M) ≤ 3 / 16 := by
    rw [div_le_div_iff₀ (by positivity) (by norm_num)]
    linarith
  have hx0 : 0 ≤ 3 / (4 * M) := by positivity
  have hMx : M * (3 / (4 * M)) = 3 / 4 := by field_simp
  constructor
  · -- a quadratic in `M * m` without real roots
    refine le_of_mul_le_mul_left ?_ hpos
    have hquad : 0 ≤ (M * m) ^ 2 - (1 + 3 / (4 * M)) * (M * m) + 3 / 4 := by
      nlinarith [sq_nonneg (M * m - (1 + 3 / (4 * M)) / 2)]
    have hexpand : M * ((M - 1) * m ^ 2) - M * ((1 - m) * (m - 3 / (4 * M))) =
        (M * m) ^ 2 - (1 + 3 / (4 * M)) * (M * m) + M * (3 / (4 * M)) := by ring
    linarith
  · have hends : 1 / M + M / 2 ^ 17 ≤ 1 / 4 + 1 / 2 ^ 15 := by
      rw [div_add_div _ _ hpos.ne' (by norm_num), div_le_iff₀ (by positivity)]
      nlinarith
    have hprod : (M - 1) * (1 / M - 1 / 2 ^ 17) ≤ (M - 1) * m :=
      mul_le_mul_of_nonneg_left hm (by linarith)
    have hexpand : (M - 1) * (1 / M - 1 / 2 ^ 17) = 1 + 1 / 2 ^ 17 - (1 / M + M / 2 ^ 17) := by
      field_simp
      ring
    norm_num at hends hexpand hprod ⊢
    linarith

section Rounded
variable {M : Nat} [NeZero M] [NeZero N] {cubes : Fin M → CircuitCube Ctx N}
  (bob_r : Ctx.BitVecT N) (hwf : (dnfValue cubes).WellFormed)
include hwf

/-- A contribution lies between the exact one of all cubes, rounded, and one. -/
theorem reciprocalOn_bounds {p : Nat × (Fin N → Bool)}
    (hp : p ∈ Icc 1 (dnfValue cubes).totalWeight ×ˢ (univ : Finset (Fin N → Bool))) :
    1 / (M : ℝ) - 1 / 2 ^ 17 ≤ reciprocalOn cubes bob_r p.1 p.2 / 65536 ∧
      (reciprocalOn cubes bob_r p.1 p.2 : ℝ) / 65536 ≤ 1 := by
  obtain ⟨hlow, hhigh⟩ := mem_Icc.mp (mem_product.mp hp).1
  obtain ⟨j, hj⟩ := PrefixSums.exists_inBlock _ hlow hhigh
  have hpos := countOn_pos bob_r hwf hj p.2
  rw [reciprocalOn_eq bob_r hwf hj]
  constructor
  · have hround : (2 : ℝ) * 65536 ≤ 2 * (countOn cubes bob_r p.1 p.2 *
        entry (countOn cubes bob_r p.1 p.2)) + countOn cubes bob_r p.1 p.2 := by
      exact_mod_cast (entry_bounds hpos).1
    have hle : (countOn cubes bob_r p.1 p.2 : ℝ) ≤ M := by
      rw [countOn_eq bob_r hwf hj]
      exact_mod_cast Dnf.satisfiedCount_le _
    have hpos' : (0 : ℝ) < countOn cubes bob_r p.1 p.2 := Nat.cast_pos.mpr hpos
    have hinv : 1 / (M : ℝ) ≤ 1 / countOn cubes bob_r p.1 p.2 := one_div_le_one_div_of_le hpos' hle
    have hentry : 1 / (countOn cubes bob_r p.1 p.2 : ℝ) - 1 / 2 ^ 17 ≤
        entry (countOn cubes bob_r p.1 p.2) / 65536 := by
      rw [div_sub_div _ _ hpos'.ne' (by norm_num), div_le_div_iff₀ (by positivity) (by norm_num)]
      nlinarith
    linarith
  · rw [div_le_one (by norm_num)]
    exact_mod_cast entry_le _

/-- Rounding moves the mean by at most `2 ^ -17`. -/
theorem abs_mean_reciprocalOn_sub_le (hS : 0 < (dnfValue cubes).totalWeight) :
    let T := Icc 1 (dnfValue cubes).totalWeight ×ˢ (univ : Finset (Fin N → Bool))
    |(∑ p ∈ T, (reciprocalOn cubes bob_r p.1 p.2 : ℝ) / 65536) / #T -
        #(dnfValue cubes).models / (dnfValue cubes).totalWeight| ≤ 1 / 2 ^ 17 := by
  intro T
  have hS' : (0 : ℝ) < (dnfValue cubes).totalWeight := Nat.cast_pos.mpr hS
  have hcard : (#T : ℝ) = (dnfValue cubes).totalWeight * 2 ^ N := by simp [T, card_product]
  have hsum : |∑ p ∈ T, (reciprocalOn cubes bob_r p.1 p.2 : ℝ) -
      65536 * 2 ^ N * #(dnfValue cubes).models| ≤ (dnfValue cubes).totalWeight * 2 ^ N / 2 := by
    have h := abs_sum_reciprocalOn_sub_le bob_r hwf
    rw [← sum_product (Icc 1 (dnfValue cubes).totalWeight) univ
      fun p => (reciprocalOn cubes bob_r p.1 p.2 : ℚ)] at h
    have h' := (Rat.cast_le (K := ℝ)).mpr h
    push_cast at h'
    exact h'
  have hscale : (0 : ℝ) < 65536 * ((dnfValue cubes).totalWeight * 2 ^ N) := by positivity
  have hdiff : (∑ p ∈ T, (reciprocalOn cubes bob_r p.1 p.2 : ℝ) / 65536) / #T -
      #(dnfValue cubes).models / (dnfValue cubes).totalWeight =
      (∑ p ∈ T, (reciprocalOn cubes bob_r p.1 p.2 : ℝ) - 65536 * 2 ^ N * #(dnfValue cubes).models) /
        (65536 * ((dnfValue cubes).totalWeight * 2 ^ N)) := by
    rw [← sum_div, hcard]
    field_simp
  rw [hdiff, abs_div, abs_of_pos hscale, div_le_iff₀ hscale]
  refine hsum.trans (le_of_eq ?_)
  ring

end Rounded

/-- The error of the sum and that of its mean add up. -/
theorem rounded_error_le {S U M m x ε : ℝ} (hS : 0 < S) (hSU : S ≤ M * U) (hε : 0 ≤ ε)
    (hround : |m - U / S| ≤ 1 / 2 ^ 17) (h : |x - K * m| ≤ ε * (K * m)) :
    |S * 65536 * x - K * 65536 * U| ≤ (ε + (1 + ε) * M / 2 ^ 17) * (K * 65536 * U) := by
  have hK : (0 : ℝ) ≤ K := Nat.cast_nonneg K
  have hmean : |S * m - U| ≤ S / 2 ^ 17 := by
    have hfactor : S * m - U = S * (m - U / S) := by
      rw [mul_sub, mul_div_cancel₀ _ hS.ne']
    rw [hfactor, abs_mul, abs_of_pos hS]
    refine (mul_le_mul_of_nonneg_left hround hS.le).trans (le_of_eq ?_)
    ring
  have hSm : S * m ≤ U + S / 2 ^ 17 := by linarith [(abs_le.mp hmean).2]
  have hsplit : S * 65536 * x - K * 65536 * U = 65536 * (S * (x - K * m) + K * (S * m - U)) := by ring
  rw [hsplit, abs_mul, abs_of_pos (by norm_num : (0 : ℝ) < 65536)]
  calc 65536 * |S * (x - K * m) + K * (S * m - U)|
      ≤ 65536 * (|S * (x - K * m)| + |K * (S * m - U)|) :=
        mul_le_mul_of_nonneg_left (abs_add_le _ _) (by norm_num)
    _ = 65536 * (S * |x - K * m| + K * |S * m - U|) := by
        rw [abs_mul, abs_mul, abs_of_pos hS, abs_of_nonneg hK]
    _ ≤ 65536 * (S * (ε * (K * m)) + K * (S / 2 ^ 17)) := by
        refine mul_le_mul_of_nonneg_left (add_le_add ?_ ?_) (by norm_num)
        · exact mul_le_mul_of_nonneg_left h hS.le
        · exact mul_le_mul_of_nonneg_left hmean hK
    _ = 65536 * (K * (ε * (S * m) + S / 2 ^ 17)) := by ring
    _ ≤ 65536 * (K * (ε * (U + S / 2 ^ 17) + S / 2 ^ 17)) := by
        refine mul_le_mul_of_nonneg_left (mul_le_mul_of_nonneg_left ?_ hK) (by norm_num)
        exact add_le_add (mul_le_mul_of_nonneg_left hSm hε) (le_refl _)
    _ = 65536 * (K * (ε * U + (1 + ε) * (S / 2 ^ 17))) := by ring
    _ ≤ 65536 * (K * (ε * U + (1 + ε) * (M * U / 2 ^ 17))) := by
        refine mul_le_mul_of_nonneg_left (mul_le_mul_of_nonneg_left ?_ hK) (by norm_num)
        refine add_le_add (le_refl _) (mul_le_mul_of_nonneg_left ?_ (by linarith))
        exact div_le_div_of_nonneg_right hSU (by positivity)
    _ = (ε + (1 + ε) * M / 2 ^ 17) * (K * 65536 * U) := by ring

/-- **The guarantee of the Vazirani estimate.**  With the number of trials that
`vazirani_trials` returns for `ε` and `δ`, and up to `2 ^ 15` pairs of cubes, at most a
fraction `δ` of all sequences of samples and strings make the estimate differ from `K` times
the scale times the number of common satisfying assignments by more than a relative `ε`,
and what the rounding of the table adds to that. -/
theorem vazirani_guarantee [NeZero N] {CUBES : Nat} [NeZero CUBES] (hcubes : 2 ≤ CUBES)
    (hpairs : CUBES ^ 2 ≤ 2 ^ 15) (alice : Fin CUBES → CircuitCube Ctx N)
    {bob : Fin CUBES → CircuitCube Ctx N} (hb : (dnfValue bob).WellFormed)
    (hU : ((dnfValue alice).models ∩ (dnfValue bob).models).Nonempty)
    (bob_r : Ctx.BitVecT N) {ε δ : ℚ} (hε : 0 < ε) (hε1 : ε ≤ 1) (hδ : 0 < δ) (hδ1 : δ < 1)
    {fuel : Nat} (hK : vaziraniTrials fuel CUBES ε δ = some (K : Int)) :
    let C := conjoinDnf alice bob
    let S := dnfWeight (cubeWeights C)
    let U := (dnfValue alice).models ∩ (dnfValue bob).models
    let T := Icc 1 (Ctx.val S) ×ˢ (univ : Finset (Fin N → Bool))
    let estimate := fun p : Fin K → Nat × (Fin N → Bool) =>
      Ctx.val (vaziraniEstimate S fun t => divideLookup (countSatisfiedCubes
        (trialOn C bob_r (p t).1 (p t).2).assignment C))
    let ρ := ε + (1 + ε) * (CUBES : ℚ) ^ 2 / 2 ^ 17
    (#{p ∈ tuples T K | ρ * (K * kDivideLookupScale * #U) <
        |(estimate p : ℚ) - K * kDivideLookupScale * #U|} : ℚ) ≤ δ * #(tuples T K) := by
  intro C S U T estimate ρ
  have hwf : (dnfValue C).WellFormed := conjoinDnf_wellFormed alice hb
  have hUC : (dnfValue C).models = U := conjoinDnf_models alice
  have hS : Ctx.val S = (dnfValue C).totalWeight := val_dnfWeight_cubeWeights C
  have hmodels : (dnfValue C).models.Nonempty := by rwa [hUC]
  have hpos : 0 < Ctx.val S := by
    rw [hS]
    exact (Dnf.totalWeight_pos_iff _).mpr hmodels
  have hpos' : (0 : ℝ) < Ctx.val S := Nat.cast_pos.mpr hpos
  have hne : T.Nonempty := ⟨(1, fun _ => false), by simp [T]; omega⟩
  have hcardT : (0 : ℝ) < #T := Nat.cast_pos.mpr (card_pos.mpr hne)
  let f : Nat × (Fin N → Bool) → ℝ := fun p => reciprocalOn C bob_r p.1 p.2 / 65536
  let m : ℝ := (∑ p ∈ T, f p) / #T
  have hmean : ∑ p ∈ T, f p = #T * m := (mul_div_cancel₀ _ hcardT.ne').symm
  have hround := abs_mean_reciprocalOn_sub_le bob_r hwf (by rwa [← hS])
  have hbounds : ∀ p ∈ T, 1 / ((CUBES * CUBES : Nat) : ℝ) - 1 / 2 ^ 17 ≤ f p ∧ f p ≤ 1 := fun p hp =>
    reciprocalOn_bounds bob_r hwf (by rwa [← hS])
  rw [hUC, ← hS] at hround
  have hpairs' : ((CUBES * CUBES : Nat) : ℝ) = (CUBES : ℝ) ^ 2 := by
    rw [Nat.cast_mul, sq]
  simp only [hpairs'] at hbounds
  have hfour : (4 : ℝ) ≤ (CUBES : ℝ) ^ 2 := by
    have htwo : (2 : ℝ) ≤ CUBES := by exact_mod_cast hcubes
    nlinarith
  have hfit : (CUBES : ℝ) ^ 2 ≤ 2 ^ 15 := by exact_mod_cast hpairs
  have hm : 1 / (CUBES : ℝ) ^ 2 - 1 / 2 ^ 17 ≤ m := by
    have h := card_nsmul_le_sum T f _ fun p hp => (hbounds p hp).1
    rw [nsmul_eq_mul, hmean] at h
    exact le_of_mul_le_mul_left h hcardT
  obtain ⟨hvar, hR⟩ := vazirani_variance hfour hfit hm
  have hlow : ∀ p ∈ T, 3 / (4 * (CUBES : ℝ) ^ 2) ≤ f p := fun p hp => by
    refine le_trans ?_ (hbounds p hp).1
    rw [div_sub_div _ _ (by positivity) (by norm_num), div_le_div_iff₀ (by positivity) (by positivity)]
    nlinarith
  have hbad := card_le_of_coverageTrials (by exact_mod_cast hcubes) hε hδ hδ1 hK
    (by exact_mod_cast hε) (by exact_mod_cast hε1) (le_refl _) hne (by positivity) hlow
    (fun p hp => (hbounds p hp).2) hmean (by nlinarith) hvar hR
  refine (Rat.cast_le (K := ℝ)).mp ?_
  push_cast
  refine le_trans (Nat.cast_le.mpr (card_le_card fun p hp => ?_)) hbad
  obtain ⟨hmem, herror⟩ := mem_filter.mp hp
  refine mem_filter.mpr ⟨hmem, not_le.mp fun hle => ?_⟩
  -- the estimate is the total times the sum of the entries
  have hest : (estimate p : ℝ) = Ctx.val S * 65536 * ∑ t, f (p t) := by
    have h : estimate p = Ctx.val S * ∑ t, reciprocalOn C bob_r (p t).1 (p t).2 :=
      val_vaziraniEstimate _ _
    rw [h, ← sum_div]
    push_cast
    ring
  have hSU : (Ctx.val S : ℝ) ≤ (CUBES : ℝ) ^ 2 * #U := by
    have h : (Ctx.val S : ℝ) ≤ (CUBES * CUBES : Nat) * #U := by
      rw [hS, ← hUC]
      exact_mod_cast (dnfValue C).totalWeight_le
    rwa [hpairs'] at h
  have hsmall := rounded_error_le hpos' hSU (by exact_mod_cast hε.le) hround hle
  rw [← hest] at hsmall
  have herror' := (Rat.cast_lt (K := ℝ)).mpr herror
  simp only [ρ, show kDivideLookupScale = 65536 from rfl] at herror'
  push_cast at herror'
  exact absurd hsmall (not_le.mpr herror')

/-! ## The demo's formulas, to within a half with probability four fifths -/

theorem exists_trials_demo :
    ∃ fuel K : Nat, coverageTrials fuel (2 : Nat) (1 / 2) (1 / 5) = some (K : Int) := by
  obtain ⟨fuel, K, hK⟩ : ∃ (fuel₀ : Nat) (K : Int), ∀ fuel, fuel₀ ≤ fuel →
      coverageTrials fuel (2 : Nat) (1 / 2) (1 / 5) = some K :=
    exists_coverageTrials_of_le (by decide) (by norm_num) (by norm_num) (by norm_num)
  have hrun := hK fuel (Nat.le_refl _)
  obtain ⟨hone, -⟩ := trials_bounds (by norm_num) (by norm_num) (by norm_num) (by decide) hrun
  refine ⟨fuel, K.toNat, ?_⟩
  rw [hrun, Int.toNat_of_nonneg (by omega)]

/-- At most a fifth of the sequences are off by more than half the number itself. -/
theorem karpLuby_guarantee_demo :
    ∃ fuel K : Nat, karpLubyTrials fuel (2 : Nat) (1 / 2) (1 / 5) = some (K : Int) ∧
      let S := dnfWeight (cubeWeights demoCubes)
      let U := (dnfValue (clearCubes aliceDnf)).models ∩ (dnfValue (clearCubes bobDnf)).models
      let T := Icc 1 (clearContext.val S) ×ˢ (univ : Finset (Fin 4 → Bool))
      let estimate := fun p : Fin K → Nat × (Fin 4 → Bool) =>
        clearContext.val (karpLubyEstimate S fun t => isCanonicalSample
          (trialOn demoCubes (fun _ => false) (p t).1 (p t).2).index
          (trialOn demoCubes (fun _ => false) (p t).1 (p t).2).assignment demoCubes)
      (#{p ∈ tuples T K | (1 / 2 : ℚ) * (K * #U) < |(estimate p : ℚ) - K * #U|} : ℚ) ≤
        (1 / 5 : ℚ) * #(tuples T K) := by
  obtain ⟨fuel, K, hK⟩ := exists_trials_demo
  exact ⟨fuel, K, hK, karpLuby_guarantee (by decide) (clearCubes aliceDnf) demo_wellFormed
    demo_models_nonempty (fun _ => false) (by norm_num) (by norm_num) (by norm_num) (by norm_num) hK⟩

/-- The same for Vazirani's estimate, with what rounding adds for four pairs of cubes. -/
theorem vazirani_guarantee_demo :
    ∃ fuel K : Nat, vaziraniTrials fuel (2 : Nat) (1 / 2) (1 / 5) = some (K : Int) ∧
      let S := dnfWeight (cubeWeights demoCubes)
      let U := (dnfValue (clearCubes aliceDnf)).models ∩ (dnfValue (clearCubes bobDnf)).models
      let T := Icc 1 (clearContext.val S) ×ˢ (univ : Finset (Fin 4 → Bool))
      let estimate := fun p : Fin K → Nat × (Fin 4 → Bool) =>
        clearContext.val (vaziraniEstimate S fun t => divideLookup (countSatisfiedCubes
          (trialOn demoCubes (fun _ => false) (p t).1 (p t).2).assignment demoCubes))
      let ρ : ℚ := 1 / 2 + (1 + 1 / 2) * ((2 : Nat) : ℚ) ^ 2 / 2 ^ 17
      (#{p ∈ tuples T K | ρ * (K * kDivideLookupScale * #U) <
        |(estimate p : ℚ) - K * kDivideLookupScale * #U|} : ℚ) ≤ (1 / 5 : ℚ) * #(tuples T K) := by
  obtain ⟨fuel, K, hK⟩ := exists_trials_demo
  exact ⟨fuel, K, hK, vazirani_guarantee (by decide) (by decide) (clearCubes aliceDnf)
    demo_wellFormed demo_models_nonempty (fun _ => false) (by norm_num) (by norm_num) (by norm_num)
    (by norm_num) hK⟩

end MpcVazirani
