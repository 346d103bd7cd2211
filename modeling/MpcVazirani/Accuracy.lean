import MpcVazirani.Unbiased

/-! # The number of trials

`coverage_trials(cubes, epsilon, delta)` asks for `K` trials with
`K * delta * epsilon ^ 2 ≥ cubes ^ 2 - 1`, when its Chebyshev branch is the smaller.
A cover by `cubes ^ 2` cubes has a total of at most `cubes ^ 2` times the size of
its union, so the frequency `m` of a canonical trial is at least `1 / cubes ^ 2`,
and the variance of the bit over the square of its mean is at most
`cubes ^ 2 - 1`: linear in the number of cubes of the conjunction.
-/
namespace MpcVazirani
open Finset SampleMean

variable {Ctx : BooleanContext} {N M K : Nat}

section Cover
variable [NeZero M] [NeZero N] {cubes : Fin M → CircuitCube Ctx N} (bob_r : Ctx.BitVecT N)
  (hwf : (dnfValue cubes).WellFormed) (hU : (dnfValue cubes).models.Nonempty)
include hwf hU

/-- The frequency of a canonical trial is positive, and at least one in `M`. -/
theorem frequency_canonical_bounds :
    let m := frequency (Icc 1 (dnfValue cubes).totalWeight ×ˢ (univ : Finset (Fin N → Bool)))
      (fun p => canonicalOn cubes bob_r p.1 p.2 = true)
    0 < m ∧ 1 ≤ M * m := by
  intro m
  have hS : 0 < (dnfValue cubes).totalWeight := (Dnf.totalWeight_pos_iff _).mpr hU
  have hS' : (0 : ℚ) < (dnfValue cubes).totalWeight := Nat.cast_pos.mpr hS
  have hm : ((dnfValue cubes).totalWeight : ℚ) * m = #(dnfValue cubes).models :=
    totalWeight_mul_frequency bob_r hwf hS
  have hU' : (0 : ℚ) < #(dnfValue cubes).models := Nat.cast_pos.mpr (card_pos.mpr hU)
  have hle : ((dnfValue cubes).totalWeight : ℚ) ≤ M * #(dnfValue cubes).models := by
    exact_mod_cast (dnfValue cubes).totalWeight_le
  constructor
  · rw [← hm] at hU'
    exact (mul_pos_iff_of_pos_left hS').mp hU'
  · refine le_of_mul_le_mul_left ?_ hS'
    calc ((dnfValue cubes).totalWeight : ℚ) * 1 ≤ M * #(dnfValue cubes).models := by
          rwa [mul_one]
      _ = (dnfValue cubes).totalWeight * (M * m) := by
          rw [← hm]
          ring

end Cover

/-- **The accuracy of the Karp-Luby estimate.**  With as many trials as
`coverage_trials` asks for, at most a fraction `δ` of all sequences of samples and
strings make the estimate differ from `K` times the number of common satisfying
assignments by more than a relative `ε`. -/
theorem karpLubyEstimate_accuracy [NeZero N] {CUBES : Nat} [NeZero CUBES]
    (alice : Fin CUBES → CircuitCube Ctx N) {bob : Fin CUBES → CircuitCube Ctx N}
    (hb : (dnfValue bob).WellFormed)
    (hU : ((dnfValue alice).models ∩ (dnfValue bob).models).Nonempty)
    (bob_r : Ctx.BitVecT N) (hK : 1 ≤ K) {ε δ : ℚ} (hε : 0 < ε)
    (htrials : (CUBES : ℚ) ^ 2 - 1 ≤ K * δ * ε ^ 2) :
    let C := conjoinDnf alice bob
    let S := dnfWeight (cubeWeights C)
    let U := (dnfValue alice).models ∩ (dnfValue bob).models
    let T := Icc 1 (Ctx.val S) ×ˢ (univ : Finset (Fin N → Bool))
    let estimate := fun p : Fin K → Nat × (Fin N → Bool) =>
      Ctx.val (karpLubyEstimate S fun t => isCanonicalSample
        (trialOn C bob_r (p t).1 (p t).2).index (trialOn C bob_r (p t).1 (p t).2).assignment C)
    (#{p ∈ tuples T K | ε * (K * #U) < |(estimate p : ℚ) - K * #U|} : ℚ) ≤
      δ * #(tuples T K) := by
  intro C S U T estimate
  have hwf : (dnfValue C).WellFormed := conjoinDnf_wellFormed alice hb
  have hUC : (dnfValue C).models = U := conjoinDnf_models alice
  have hS : Ctx.val S = (dnfValue C).totalWeight := val_dnfWeight_cubeWeights C
  have hmodels : (dnfValue C).models.Nonempty := by rwa [hUC]
  have hpos : 0 < Ctx.val S := by
    rw [hS]
    exact (Dnf.totalWeight_pos_iff _).mpr hmodels
  have hpos' : (0 : ℚ) < Ctx.val S := Nat.cast_pos.mpr hpos
  let m := frequency T fun p => canonicalOn C bob_r p.1 p.2 = true
  obtain ⟨hm, hM⟩ := frequency_canonical_bounds bob_r hwf hmodels
  have hmean : (Ctx.val S : ℚ) * m = #U := by
    have h := totalWeight_mul_frequency bob_r hwf (by rwa [← hS])
    rw [hUC, ← hS] at h
    exact h
  rw [← hS] at hm hM
  have hvar : 1 - m ≤ K * δ * ε ^ 2 * m := by
    calc 1 - m ≤ ((CUBES : ℚ) ^ 2 - 1) * m := by
          push_cast at hM
          linarith
      _ ≤ K * δ * ε ^ 2 * m := mul_le_mul_of_nonneg_right htrials hm.le
  have hne : T.Nonempty := ⟨(1, fun _ => false), by simp [T]; omega⟩
  refine le_trans (le_of_eq ?_) (card_relative_error_le _ hne hK hε hm hvar)
  congr 2
  refine filter_congr fun p _ => ?_
  -- the estimate is the total times the number of canonical trials
  have hest : (estimate p : ℚ) =
      Ctx.val S * #{t : Fin K | canonicalOn C bob_r (p t).1 (p t).2 = true} := by
    exact_mod_cast val_karpLubyEstimate _ _
  rw [hest, ← hmean, show ε * (K * (Ctx.val S * m)) = Ctx.val S * (ε * (K * m)) by ring,
    show (Ctx.val S : ℚ) * #{t : Fin K | canonicalOn C bob_r (p t).1 (p t).2 = true} -
        K * (Ctx.val S * m) =
      Ctx.val S * (#{t : Fin K | canonicalOn C bob_r (p t).1 (p t).2 = true} - K * m) by ring,
    abs_mul, abs_of_pos hpos', mul_lt_mul_iff_right₀ hpos']

theorem demo_models_nonempty :
    ((dnfValue (clearCubes aliceDnf)).models ∩ (dnfValue (clearCubes bobDnf)).models).Nonempty :=
  ⟨fun _ => true, mem_inter.mpr
    ⟨Dnf.mem_models.mpr ⟨0, by decide⟩, Dnf.mem_models.mpr ⟨0, by decide⟩⟩⟩

/-- Fifteen trials on the demo's formulas: at most a fifth of the sequences are
off by more than the number itself. -/
theorem karpLubyEstimate_accuracy_demo :
    let S := dnfWeight (cubeWeights demoCubes)
    let U := (dnfValue (clearCubes aliceDnf)).models ∩ (dnfValue (clearCubes bobDnf)).models
    let T := Icc 1 (clearContext.val S) ×ˢ (univ : Finset (Fin 4 → Bool))
    let estimate := fun p : Fin 15 → Nat × (Fin 4 → Bool) =>
      clearContext.val (karpLubyEstimate S fun t => isCanonicalSample
        (trialOn demoCubes (fun _ => false) (p t).1 (p t).2).index
        (trialOn demoCubes (fun _ => false) (p t).1 (p t).2).assignment demoCubes)
    (#{p ∈ tuples T 15 | (1 : ℚ) * ((15 : Nat) * #U) < |(estimate p : ℚ) - (15 : Nat) * #U|} : ℚ) ≤
      1 / 5 * #(tuples T 15) :=
  karpLubyEstimate_accuracy (clearCubes aliceDnf) demo_wellFormed demo_models_nonempty
    (fun _ => false) (by decide) (by norm_num) (by norm_num)

end MpcVazirani
