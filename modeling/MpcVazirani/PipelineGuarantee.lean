import MpcVazirani.CoinLaw
import MpcVazirani.Guarantee

/-! # The guarantee of the pipelines

The guarantee of `coverage_trials` is about samples that are uniform.  In a run the samples
come from one remainder for each trial, and only one party's coins need to be uniform.  So
what is centred around the true count there is centred here around one within a factor
`q / (q + 1)` of it, where `q` is how often the total goes into `2 ^ W`; and a quantity whose
mean may be that much smaller may have that much more variance for its square.

The number of trials for `epsilon` and `delta`, computed over the rationals, is then enough for
the same `delta` and an error `ε'` that makes up for it: `ε' = epsilon` but for terms in `1 / q`
(`karpLuby_pipeline_guarantee`).  Vazirani's table takes its part of the mean away as well
(`vazirani_pipeline_guarantee`).
-/
namespace MpcVazirani
open Finset SampleMean

section Draws
variable {W N K : Nat} {cubes : Int} {ε δ : ℚ} (hcubes : 2 ≤ cubes) (hε : 0 < ε) (hδ : 0 < δ)
  (hδ1 : δ < 1) {fuel : Nat} (hK : coverageTrials fuel cubes ε δ = some (K : Int))
include hcubes hε hδ hδ1 hK

/-- The guarantee for a result that is the total times a sum over the trials, if the mean of
what is summed is at least one in `M`. -/
theorem card_result_le_of_coverageTrials {S B : Nat} (hS : 0 < S) (hSW : S ≤ 2 ^ W) (hB : 0 < B)
    {g : Nat → (Fin N → Bool) → Nat} (hg : ∀ z r, g z r ≤ B) {a b : ℝ}
    (hlow : 2 ^ N * a ≤ (∑ z ∈ Icc 1 S, ∑ r, g z r : Nat))
    (hhigh : (∑ z ∈ Icc 1 S, ∑ r, g z r : Nat) ≤ 2 ^ N * b) (owner : Party)
    (theirs : Fin K → TrialCoins W N) (result : (Fin K → TrialCoins W N) → Nat)
    (hresult : ∀ mine, result mine = S * ∑ t,
      g (Nat.ofBits (jointCoins (coinsOf owner mine theirs) t).my_random_bits % S + 1)
        (jointCoins (coinsOf owner mine theirs) t).my_assignment_bits)
    {M ε' : ℝ} (hM : 4 ≤ M) (hε0 : 0 < ε') (hε1 : ε' ≤ 1)
    (hratio : (ε : ℝ) ^ 2 * (M - 1) ≤ ε' ^ 2 * ((cubes : ℝ) ^ 2 - 1)) :
    let q : ℝ := (2 ^ W / S : Nat)
    1 ≤ M * (q / (q + 1) * (a / (B * S))) →
    (#{mine | ¬ ((1 - ε') * (q / (q + 1)) * (K * a) ≤ result mine ∧
        result mine ≤ (1 + ε') * ((q + 1) / q) * (K * b))} : ℝ) ≤
      Fintype.card (Fin K → TrialCoins W N) * δ := by
  intro q hmean
  refine card_result_le hS hSW hB hg hlow hhigh owner theirs result hresult hε0.le hε1 ?_
  intro f m h0 h1 hm hmlow
  have hMm : 1 ≤ M * m := hmean.trans (mul_le_mul_of_nonneg_left hmlow (by linarith))
  have hm0 : 0 < m := by
    by_contra hneg
    have h : M * m ≤ 0 := mul_nonpos_of_nonneg_of_nonpos (by linarith) (not_lt.mp hneg)
    linarith
  have hvar : (1 - m) * (m - 0) ≤ (M - 1) * m ^ 2 := by
    have h : 1 * m ≤ M * m * m := mul_le_mul_of_nonneg_right hMm hm0.le
    calc (1 - m) * (m - 0) = 1 * m - m ^ 2 := by ring
      _ ≤ M * m * m - m ^ 2 := sub_le_sub_right h _
      _ = (M - 1) * m ^ 2 := by ring
  have hR : 7 / 10 ≤ (M - 1) * m := by
    have h : 4 * m ≤ M * m := mul_le_mul_of_nonneg_right hM hm0.le
    linarith
  rw [mul_comm (#_ : ℝ)]
  exact card_le_of_coverageTrials hcubes hε hδ hδ1 hK hε0 hε1 hratio
    ⟨⟨fun _ => false, fun _ => false⟩, mem_univ _⟩ (le_refl 0) (fun c _ => h0 c) (fun c _ => h1 c)
    hm hm0 hvar hR

end Draws

section Pipelines
variable (sess : SH2PCSession) {VARS CUBES K : Nat} [NeZero VARS] [NeZero CUBES]
  {my_dnf : Party → Dnf VARS CUBES} (hb : (my_dnf .bob).WellFormed) (hcubes : 2 ≤ CUBES)
  {ε δ : ℚ} (hε : 0 < ε) (hδ : 0 < δ) (hδ1 : δ < 1) {fuel : Nat}
include hb hcubes hε hδ hδ1

/-- **The guarantee of the Karp-Luby pipeline.**  With the `K` that `karp_luby_trials` returns
for `ε` and `δ`, and either party's coins uniform, whatever the other's, at most a fraction `δ`
of the runs reveal a value that is off by more than a relative `ε'`, beside what the remainder
is off by. -/
theorem karpLuby_pipeline_guarantee (hK : karpLubyTrials fuel CUBES ε δ = some (K : Int))
    (hW : VARS + sess.ctx.bitsFor (CUBES * CUBES) + sess.ctx.bitsFor (K + 1) ≤ 128)
    (owner : Party) (theirs : Fin K → TrialCoins (VARS + sess.ctx.bitsFor (CUBES * CUBES)) VARS)
    {ε' : ℝ} (hε0 : 0 < ε') (hε1 : ε' ≤ 1) :
    let S := sess.ctx.val (trialSetup sess my_dnf).total
    let W := VARS + sess.ctx.bitsFor (CUBES * CUBES)
    let q : ℝ := (2 ^ W / S : Nat)
    let U : ℝ := #(commonModels my_dnf)
    let result := fun mine => (runKarpLubyPipeline sess my_dnf (coinsOf owner mine theirs)).toNat
    (ε : ℝ) ^ 2 * ((q + 1) / q * (CUBES : ℝ) ^ 2 - 1) ≤ ε' ^ 2 * ((CUBES : ℝ) ^ 2 - 1) →
    (#{mine | ¬ ((1 - ε') * (q / (q + 1)) * (K * U) ≤ result mine ∧
        result mine ≤ (1 + ε') * ((q + 1) / q) * (K * U))} : ℝ) ≤
      Fintype.card (Fin K → TrialCoins W VARS) * δ := by
  intro S W q U result hratio
  rcases Nat.eq_zero_or_pos S with hzero | hS
  · have hU : U = 0 := Nat.cast_eq_zero.mpr (commonModels_card_eq_zero sess hzero)
    have hresult : ∀ mine, result mine = 0 := fun mine =>
      (result_of_total_zero sess (coinsOf owner mine theirs) hzero).1
    have hδ' : (0 : ℝ) < δ := by exact_mod_cast hδ
    rw [card_off_eq_zero (by rw [hU, mul_zero, mul_zero]) (by rw [hU, mul_zero, mul_zero]) hresult,
      Nat.cast_zero]
    positivity
  have hSW : S ≤ 2 ^ W := le_of_lt (sess.ctx.val_lt (trialSetup sess my_dnf).total)
  have hS' : (0 : ℝ) < S := Nat.cast_pos.mpr hS
  have hq : 1 ≤ q := Nat.one_le_cast.mpr ((Nat.one_le_div_iff hS).mpr hSW)
  have hfour : (4 : ℝ) ≤ (CUBES : ℝ) ^ 2 := by
    have htwo : (2 : ℝ) ≤ CUBES := by exact_mod_cast hcubes
    nlinarith
  have hA := sum_setup_canonicals sess hb
  have hM : 4 ≤ (q + 1) / q * (CUBES : ℝ) ^ 2 := by
    have hone : 1 ≤ (q + 1) / q := (one_le_div₀ (by positivity)).mpr (by linarith)
    nlinarith
  have hmean : 1 ≤ (q + 1) / q * (CUBES : ℝ) ^ 2 * (q / (q + 1) * (U / ((1 : Nat) * S))) := by
    have hcancel : (q + 1) / q * (CUBES : ℝ) ^ 2 * (q / (q + 1) * (U / ((1 : Nat) * S))) =
        (CUBES : ℝ) ^ 2 * U / S := by
      rw [Nat.cast_one]
      field_simp
    rw [hcancel]
    exact one_le_mul_frequency sess hS
  exact card_result_le_of_coverageTrials (by exact_mod_cast hcubes) hε hδ hδ1 hK hS hSW one_pos
    (fun z r => by split_ifs <;> decide) hA.ge hA.le owner theirs result
    (fun mine => runKarpLubyPipeline_joint sess hb hS _ hW) hM hε0 hε1 (by exact_mod_cast hratio) hmean

/-- **The guarantee of the Vazirani pipeline**, for less than `2 ^ 17` pairs of cubes.  What the
rounding of its table adds is a fraction `ρ` on both sides, and what that may add to the variance. -/
theorem vazirani_pipeline_guarantee (hpairs : CUBES ^ 2 < 2 ^ 17)
    (hK : vaziraniTrials fuel CUBES ε δ = some (K : Int))
    (hW : VARS + sess.ctx.bitsFor (CUBES * CUBES) + (kDivideLookupScaleBits + 1) +
      sess.ctx.bitsFor K ≤ 128)
    (owner : Party) (theirs : Fin K → TrialCoins (VARS + sess.ctx.bitsFor (CUBES * CUBES)) VARS)
    {ε' : ℝ} (hε0 : 0 < ε') (hε1 : ε' ≤ 1) :
    let S := sess.ctx.val (trialSetup sess my_dnf).total
    let W := VARS + sess.ctx.bitsFor (CUBES * CUBES)
    let q : ℝ := (2 ^ W / S : Nat)
    let U : ℝ := kDivideLookupScale * #(commonModels my_dnf)
    let ρ : ℝ := (CUBES : ℝ) ^ 2 / 2 ^ 17
    let result := fun mine => (runVaziraniPipeline sess my_dnf (coinsOf owner mine theirs)).toNat
    (ε : ℝ) ^ 2 * ((q + 1) / q * (CUBES : ℝ) ^ 2 / (1 - ρ) - 1) ≤
      ε' ^ 2 * ((CUBES : ℝ) ^ 2 - 1) →
    (#{mine | ¬ ((1 - ε') * (q / (q + 1)) * (K * ((1 - ρ) * U)) ≤ result mine ∧
        result mine ≤ (1 + ε') * ((q + 1) / q) * (K * ((1 + ρ) * U)))} : ℝ) ≤
      Fintype.card (Fin K → TrialCoins W VARS) * δ := by
  intro S W q U ρ result hratio
  rcases Nat.eq_zero_or_pos S with hzero | hS
  · have hU : U = 0 := by
      simp only [U, commonModels_card_eq_zero sess hzero, Nat.cast_zero, mul_zero]
    have hresult : ∀ mine, result mine = 0 := fun mine =>
      (result_of_total_zero sess (coinsOf owner mine theirs) hzero).2
    have hδ' : (0 : ℝ) < δ := by exact_mod_cast hδ
    rw [card_off_eq_zero (by rw [hU, mul_zero, mul_zero, mul_zero])
      (by rw [hU, mul_zero, mul_zero, mul_zero]) hresult, Nat.cast_zero]
    positivity
  have hSW : S ≤ 2 ^ W := le_of_lt (sess.ctx.val_lt (trialSetup sess my_dnf).total)
  have hS' : (0 : ℝ) < S := Nat.cast_pos.mpr hS
  have hq : 1 ≤ q := Nat.one_le_cast.mpr ((Nat.one_le_div_iff hS).mpr hSW)
  have hfour : (4 : ℝ) ≤ (CUBES : ℝ) ^ 2 := by
    have htwo : (2 : ℝ) ≤ CUBES := by exact_mod_cast hcubes
    nlinarith
  have hscale : (0 : ℝ) < kDivideLookupScale := Nat.cast_pos.mpr (by decide)
  have hρ : 0 < 1 - ρ := by
    have h : ρ < 1 := (div_lt_one (by positivity)).mpr (by exact_mod_cast hpairs)
    linarith
  obtain ⟨hlow, hhigh⟩ := sum_setup_reciprocals_bounds sess hb
  have hM : 4 ≤ (q + 1) / q * (CUBES : ℝ) ^ 2 / (1 - ρ) := by
    have hone : 1 ≤ (q + 1) / q := (one_le_div₀ (by positivity)).mpr (by linarith)
    have hρ1 : 1 - ρ ≤ 1 := by
      have h : 0 ≤ ρ := by positivity
      linarith
    rw [le_div_iff₀ hρ]
    nlinarith
  have hmean : 1 ≤ (q + 1) / q * (CUBES : ℝ) ^ 2 / (1 - ρ) *
      (q / (q + 1) * ((1 - ρ) * U / (kDivideLookupScale * S))) := by
    have hcancel : (q + 1) / q * (CUBES : ℝ) ^ 2 / (1 - ρ) *
        (q / (q + 1) * ((1 - ρ) * U / (kDivideLookupScale * S))) =
          (CUBES : ℝ) ^ 2 * #(commonModels my_dnf) / S := by
      simp only [U]
      field_simp
    rw [hcancel]
    exact one_le_mul_frequency sess hS
  exact card_result_le_of_coverageTrials (by exact_mod_cast hcubes) hε hδ hδ1 hK hS hSW (by decide)
    (fun z r => reciprocalOn_le _ z r) hlow hhigh owner theirs result
    (fun mine => runVaziraniPipeline_joint sess hb hS _ hW) hM hε0 hε1 (by exact_mod_cast hratio) hmean

end Pipelines

/-! ## The demo's formulas, with the trials for a half and one fifth -/

/-- The remainder of the demo: the ideal mean is less than twice the real one. -/
theorem demo_periods :
    let q : ℝ := (2 ^ (4 + clearSession.ctx.bitsFor (2 * 2)) /
      clearSession.ctx.val (trialSetup clearSession demoDnf).total : Nat)
    (q + 1) / q ≤ 2 := by
  intro q
  have hq : 1 ≤ q := Nat.one_le_cast.mpr ((Nat.one_le_div_iff (by decide)).mpr
    (le_of_lt (clearSession.ctx.val_lt (trialSetup clearSession demoDnf).total)))
  rw [div_le_iff₀ (by linarith)]
  linarith

theorem bitsFor_trials_le {fuel K : Nat}
    (hK : coverageTrials fuel (2 : Nat) (1 / 2) (1 / 5) = some (K : Int)) :
    clearSession.ctx.bitsFor (K + 1) ≤ 32 := by
  have hmax : (K : Int) ≤ 2147483647 :=
    (trials_bounds (by norm_num) (by norm_num) (by norm_num) (by decide) hK).2
  refine clearSession.ctx.bitsFor_le.mpr ?_
  omega

/-- At most a fifth of Alice's coins are off by more than four fifths beside the remainder. -/
theorem karpLuby_pipeline_guarantee_demo :
    ∃ fuel K : Nat, karpLubyTrials fuel (2 : Nat) (1 / 2) (1 / 5) = some (K : Int) ∧
      let q : ℝ := (2 ^ (4 + clearSession.ctx.bitsFor (2 * 2)) /
        clearSession.ctx.val (trialSetup clearSession demoDnf).total : Nat)
      let U : ℝ := #(commonModels demoDnf)
      let result := fun mine : Fin K → TrialCoins (4 + clearSession.ctx.bitsFor (2 * 2)) 4 =>
        (runKarpLubyPipeline clearSession demoDnf
          (coinsOf .alice mine fun _ => ⟨fun _ => false, fun _ => false⟩)).toNat
      (#{mine | ¬ ((1 - (4 / 5 : ℝ)) * (q / (q + 1)) * (K * U) ≤ result mine ∧
          result mine ≤ (1 + (4 / 5 : ℝ)) * ((q + 1) / q) * (K * U))} : ℝ) ≤
        Fintype.card (Fin K → TrialCoins (4 + clearSession.ctx.bitsFor (2 * 2)) 4) *
          (1 / 5 : ℚ) := by
  obtain ⟨fuel, K, hK⟩ := exists_trials_demo
  have hwidth : 4 + clearSession.ctx.bitsFor (2 * 2) + clearSession.ctx.bitsFor (K + 1) ≤ 128 := by
    have hfour : clearSession.ctx.bitsFor (2 * 2) = 3 := by decide
    have htrials := bitsFor_trials_le hK
    omega
  refine ⟨fuel, K, hK, karpLuby_pipeline_guarantee clearSession (by decide) (by decide)
    (by norm_num) (by norm_num) (by norm_num) hK hwidth .alice _ (by norm_num) (by norm_num) ?_⟩
  have hgap := demo_periods
  have hhalf : ((1 / 2 : ℚ) : ℝ) = 1 / 2 := by norm_num
  rw [hhalf, Nat.cast_ofNat]
  dsimp only at hgap
  linarith

/-- Bob's coins, for the other pipeline. -/
theorem vazirani_pipeline_guarantee_demo :
    ∃ fuel K : Nat, vaziraniTrials fuel (2 : Nat) (1 / 2) (1 / 5) = some (K : Int) ∧
      let q : ℝ := (2 ^ (4 + clearSession.ctx.bitsFor (2 * 2)) /
        clearSession.ctx.val (trialSetup clearSession demoDnf).total : Nat)
      let U : ℝ := kDivideLookupScale * #(commonModels demoDnf)
      let ρ : ℝ := ((2 : Nat) : ℝ) ^ 2 / 2 ^ 17
      let result := fun mine : Fin K → TrialCoins (4 + clearSession.ctx.bitsFor (2 * 2)) 4 =>
        (runVaziraniPipeline clearSession demoDnf
          (coinsOf .bob mine fun _ => ⟨fun _ => true, fun _ => false⟩)).toNat
      (#{mine | ¬ ((1 - (4 / 5 : ℝ)) * (q / (q + 1)) * (K * ((1 - ρ) * U)) ≤ result mine ∧
          result mine ≤ (1 + (4 / 5 : ℝ)) * ((q + 1) / q) * (K * ((1 + ρ) * U)))} : ℝ) ≤
        Fintype.card (Fin K → TrialCoins (4 + clearSession.ctx.bitsFor (2 * 2)) 4) *
          (1 / 5 : ℚ) := by
  obtain ⟨fuel, K, hK⟩ := exists_trials_demo
  have hwidth : 4 + clearSession.ctx.bitsFor (2 * 2) + (kDivideLookupScaleBits + 1) +
      clearSession.ctx.bitsFor K ≤ 128 := by
    have hfour : clearSession.ctx.bitsFor (2 * 2) = 3 := by decide
    have hscale : kDivideLookupScaleBits = 16 := rfl
    have htrials : clearSession.ctx.bitsFor K ≤ 32 := clearSession.ctx.bitsFor_le.mpr
      ((Nat.lt_succ_self K).trans (clearSession.ctx.bitsFor_le.mp (bitsFor_trials_le hK)))
    omega
  refine ⟨fuel, K, hK, vazirani_pipeline_guarantee clearSession (by decide) (by decide)
    (by norm_num) (by norm_num) (by norm_num) (by decide) hK hwidth .bob _ (by norm_num)
    (by norm_num) ?_⟩
  have hgap := demo_periods
  have hhalf : ((1 / 2 : ℚ) : ℝ) = 1 / 2 := by norm_num
  have hround : (1 - 2 ^ 2 / 2 ^ 17 : ℝ) = 32767 / 32768 := by norm_num
  rw [hhalf, Nat.cast_ofNat, hround]
  dsimp only at hgap
  linarith

end MpcVazirani
