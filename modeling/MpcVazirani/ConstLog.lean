import Mathlib.Analysis.Convex.SpecificFunctions.Basic
import Mathlib.Tactic.NormNum.BigOperators
import MpcVazirani.LogSeries
import MpcVazirani.TrialCount

/-! # How good the logarithm of the trial count is

`const_log` stops its series after the 39th power and takes the logarithm of two from a
constant of twenty digits.  Either is off by less than one unit of the twentieth digit,
the constant once for every time the argument was halved or doubled, so the error is
relative to the logarithm (`constLog_accuracy`).  What `coverage_trials` asks for is
then the documented number of trials, with the real logarithm in it, rounded up, up to
the same relative error (`coverageTrials_documented`).  All this is about the formulas over
the rationals; what the rounding of doubles adds to it is not.
-/
namespace MpcVazirani
open Finset IStream LogSeries WhileLoop

/-- The constant of `const_log` for the logarithm of two. -/
theorem abs_log_two_sub_le : |Real.log 2 - 0.69314718055994530942| ≤ 43 / 10 ^ 22 := by
  obtain ⟨hlow, hhigh⟩ := log_sub_partialSum_bounds one_le_two (le_refl 2) 20
  have hvalue : |partialSum ((2 - 1) / (2 + 1)) 20 - 0.69314718055994530942| ≤ 43 / 10 ^ 22 := by
    rw [partialSum]
    norm_num [sum_range_succ, abs_le]
  have hbelow : partialSum ((2 - 1) / (2 + 1)) 20 ≤ 0.69314718055994530942 - 2 / 10 ^ 21 := by
    rw [partialSum]
    norm_num [sum_range_succ]
  have hcut : 9 / 4 / (2 * ((20 : ℕ) : ℝ) + 1) * (1 / 3) ^ (2 * 20 + 1) ≤ 2 / 10 ^ 21 := by norm_num
  -- the series is below the logarithm, and further below the constant
  obtain ⟨hvalue', -⟩ := abs_le.mp hvalue
  rw [abs_le]
  constructor <;> linarith

/-- The sum that `const_log` computes is the truncated series. -/
theorem cast_series (m : ℚ) :
    ((2 * (∑ j ∈ range 20, ((m - 1) / (m + 1)) ^ (2 * j + 1) / (2 * j + 1)) : ℚ) : ℝ) =
      partialSum (((m : ℝ) - 1) / (m + 1)) 20 := by
  rw [partialSum]
  push_cast
  rfl

/-- The range reduction takes as many steps as the logarithm has multiples of that of two. -/
theorem abs_exponent_le {x m : ℝ} {e : Int} (h1 : 1 ≤ m) (h2 : m ≤ 2) (hx : x = m * 2 ^ e) :
    |(e : ℝ)| * Real.log 2 ≤ |Real.log x| + Real.log 2 := by
  have htwo : 0 < Real.log 2 := Real.log_pos one_lt_two
  have hm0 : 0 ≤ Real.log m := Real.log_nonneg h1
  have hm2 : Real.log m ≤ Real.log 2 := Real.log_le_log (by linarith) h2
  have hlog : Real.log x = Real.log m + e * Real.log 2 := by
    rw [hx, Real.log_mul (by linarith) (by positivity), Real.log_zpow]
  have hsplit : |(e : ℝ) * Real.log 2| ≤ |Real.log x| + |Real.log m| := by
    have h := abs_sub (Real.log x) (Real.log m)
    rwa [hlog, add_sub_cancel_left, ← hlog] at h
  rw [abs_mul, abs_of_pos htwo, abs_of_nonneg hm0] at hsplit
  linarith

/-- The same, with what the constant is known to be. -/
theorem abs_exponent_mul_le {x m : ℝ} {e : Int} (h1 : 1 ≤ m) (h2 : m ≤ 2) (hx : x = m * 2 ^ e) :
    |(e : ℝ)| * 0.69 ≤ |Real.log x| + 0.7 := by
  have hexponent := abs_exponent_le h1 h2 hx
  obtain ⟨hlow, hhigh⟩ := abs_le.mp abs_log_two_sub_le
  have hnonneg := abs_nonneg (e : ℝ)
  norm_num at hlow hhigh ⊢
  nlinarith

/-- `const_log` is off by what the series leaves out, and by the error of the constant for
each time the argument is halved or doubled. -/
theorem constLog_near {x : ℚ} (hx : 0 < x) :
    ∃ (fuel₀ : Nat) (m : ℝ) (e : Int) (log : ℚ),
      (∀ fuel, fuel₀ ≤ fuel → constLog fuel x = some log) ∧ 1 ≤ m ∧ m ≤ 2 ∧ (x : ℝ) = m * 2 ^ e ∧
      |(log : ℝ) - Real.log x| ≤ 2 / 10 ^ 21 + |(e : ℝ)| * (43 / 10 ^ 22) := by
  obtain ⟨fuel₀, m, e, hone, htwo, hme, hrun⟩ := constLog_spec hx
  have h1 : (1 : ℝ) ≤ m := by exact_mod_cast hone
  have h2 : (m : ℝ) ≤ 2 := by exact_mod_cast htwo.le
  have hxm : (x : ℝ) = m * 2 ^ e := by
    rw [hme]
    push_cast
    rfl
  refine ⟨fuel₀, m, e, _, hrun, h1, h2, hxm, ?_⟩
  have hlog : Real.log x = Real.log m + e * Real.log 2 := by
    rw [hxm, Real.log_mul (by linarith) (by positivity), Real.log_zpow]
  obtain ⟨hlow, hhigh⟩ := log_sub_partialSum_bounds h1 h2 20
  have hcut : 9 / 4 / (2 * ((20 : ℕ) : ℝ) + 1) * (1 / 3) ^ (2 * 20 + 1) ≤ 2 / 10 ^ 21 := by norm_num
  have herror : (((2 * (∑ j ∈ range 20, ((m - 1) / (m + 1)) ^ (2 * j + 1) / (2 * j + 1)) +
      e * 0.69314718055994530942 : ℚ) : ℚ) : ℝ) - Real.log x =
      -(Real.log m - partialSum (((m : ℝ) - 1) / (m + 1)) 20) -
        e * (Real.log 2 - 0.69314718055994530942) := by
    rw [Rat.cast_add, cast_series, hlog]
    push_cast
    ring
  rw [herror]
  calc |-(Real.log m - partialSum (((m : ℝ) - 1) / (m + 1)) 20) -
        e * (Real.log 2 - 0.69314718055994530942)|
      ≤ |-(Real.log m - partialSum (((m : ℝ) - 1) / (m + 1)) 20)| +
        |e * (Real.log 2 - 0.69314718055994530942)| := abs_sub _ _
    _ ≤ 2 / 10 ^ 21 + |(e : ℝ)| * (43 / 10 ^ 22) := by
        rw [abs_neg, abs_of_nonneg hlow, abs_mul]
        exact add_le_add (hhigh.trans hcut)
          (mul_le_mul_of_nonneg_left abs_log_two_sub_le (abs_nonneg _))

/-- **`const_log` is the logarithm**, to within 1e-20 of it and one unit more. -/
theorem constLog_accuracy {x : ℚ} (hx : 0 < x) :
    ∃ (fuel₀ : Nat) (log : ℚ), (∀ fuel, fuel₀ ≤ fuel → constLog fuel x = some log) ∧
      |(log : ℝ) - Real.log x| ≤ (1 + |Real.log x|) / 10 ^ 20 := by
  obtain ⟨fuel₀, m, e, log, hrun, h1, h2, hxm, herror⟩ := constLog_near hx
  refine ⟨fuel₀, log, hrun, herror.trans ?_⟩
  have he := abs_exponent_mul_le h1 h2 hxm
  have hlog0 := abs_nonneg (Real.log x)
  norm_num at he ⊢
  linarith

/-- The logarithm of ten. -/
theorem constLog_accuracy_ten :
    ∃ (fuel₀ : Nat) (log : ℚ), (∀ fuel, fuel₀ ≤ fuel → constLog fuel 10 = some log) ∧
      |(log : ℝ) - Real.log (10 : ℚ)| ≤ (1 + |Real.log (10 : ℚ)|) / 10 ^ 20 :=
  constLog_accuracy (by norm_num)

/-! ## The number of trials -/

/-- More fuel does not change the logarithm. -/
theorem constLog_mono {fuel fuel' : Nat} {x log : ℚ} (h : constLog fuel x = some log)
    (hle : fuel ≤ fuel') : constLog fuel' x = some log := by
  rw [constLog, Option.map_eq_some_iff] at h ⊢
  obtain ⟨s, hs, hlog⟩ := h
  obtain ⟨s₁, hhalve, hdouble⟩ := Option.bind_eq_some_iff.mp hs
  refine ⟨s, ?_, hlog⟩
  rw [halve] at hhalve ⊢
  rw [whileLoop_mono hhalve hle, Option.bind_some]
  exact whileLoop_mono hdouble hle

/-- The hand-written ceiling is never anything but the ceiling. -/
theorem eq_ceil_of_roundUp {k : ℚ} {K : Int} (hk : 0 ≤ k) (h : roundUp k = some K) : K = ⌈k⌉ := by
  rw [roundUp] at h
  obtain ⟨ik, hik, hround⟩ := Option.bind_eq_some_iff.mp h
  have hfloor : ik = ⌊k⌋ := by
    rw [intOfDouble, if_pos hk] at hik
    split_ifs at hik
    exact (Option.some.inj hik).symm
  subst hfloor
  have hle : ⌊k⌋ ≤ ⌈k⌉ := Int.floor_le_ceil k
  by_cases hlt : (⌊k⌋ : ℚ) < k
  · rw [if_pos hlt] at hround
    split_ifs at hround
    rw [← Option.some.inj hround]
    exact le_antisymm (Int.lt_ceil.mpr hlt) (Int.ceil_le_floor_add_one k)
  · rw [if_neg hlt] at hround
    rw [← Option.some.inj hround]
    exact le_antisymm hle (Int.ceil_le.mpr (not_lt.mp hlt))

/-- A number of trials takes the logarithm, which does not depend on the fuel. -/
theorem constLog_of_coverageTrials {fuel : Nat} {cubes K : Int} {ε δ : ℚ}
    (hK : coverageTrials fuel cubes ε δ = some K) {fuel₀ : Nat} {log : ℚ}
    (hlog : ∀ fuel, fuel₀ ≤ fuel → constLog fuel (2 / δ) = some log) :
    constLog fuel (2 / δ) = some log := by
  rw [coverageTrials, coverageTrialsOfRatio] at hK
  obtain ⟨log', hlog', -⟩ := Option.bind_eq_some_iff.mp hK
  have hsame := (constLog_mono hlog' (Nat.le_add_right fuel fuel₀)).symm.trans
    (hlog (fuel + fuel₀) (Nat.le_add_left _ _))
  rw [hlog', Option.some.inj hsame]

section Trials
variable {ε δ : ℚ} (hδ : 0 < δ)
include hδ

/-- The logarithm of `2 / delta` is positive and good to a relative 1e-19. -/
theorem constLog_two_div (hδ1 : δ < 1) :
    ∃ (fuel₀ : Nat) (log : ℚ), (∀ fuel, fuel₀ ≤ fuel → constLog fuel (2 / δ) = some log) ∧
      0 < log ∧ |(log : ℝ) - Real.log (2 / δ)| ≤ Real.log (2 / δ) / 10 ^ 19 := by
  have harg : 2 < 2 / δ := (lt_div_iff₀ hδ).mpr (by linarith)
  obtain ⟨fuel₁, log₁, hpos, hrun₁⟩ := constLog_pos harg
  obtain ⟨fuel₂, m, e, log, hrun₂, h1, h2, hxm, herror⟩ := constLog_near (zero_lt_two.trans harg)
  obtain rfl : log₁ = log := Option.some.inj
    ((hrun₁ (fuel₁ + fuel₂) (by omega)).symm.trans (hrun₂ (fuel₁ + fuel₂) (by omega)))
  refine ⟨fuel₁, log₁, hrun₁, hpos, ?_⟩
  have harg' : (2 : ℝ) < ((2 / δ : ℚ) : ℝ) := by exact_mod_cast harg
  have hln2 : Real.log 2 ≤ Real.log ((2 / δ : ℚ) : ℝ) := Real.log_le_log two_pos harg'.le
  have hconst := (abs_le.mp abs_log_two_sub_le).1
  have he := abs_exponent_mul_le h1 h2 hxm
  rw [abs_of_pos (Real.log_pos (one_lt_two.trans harg'))] at he
  push_cast at he herror hln2
  refine herror.trans ?_
  norm_num at hconst he ⊢
  linarith

/-- The trials that are returned are the bound rounded up, for the one logarithm. -/
theorem eq_ceil_of_coverageTrials {cubes : Int} (hcubes : 1 ≤ cubes) (hε : 0 < ε) {fuel : Nat}
    {K : Int} (hK : coverageTrials fuel cubes ε δ = some K) {fuel₀ : Nat} {log : ℚ}
    (hlog : ∀ fuel, fuel₀ ≤ fuel → constLog fuel (2 / δ) = some log) (hpos : 0 < log) :
    K = ⌈trialBound log cubes ε δ⌉ := by
  rw [coverageTrials_eq (constLog_of_coverageTrials hK hlog)] at hK
  refine eq_ceil_of_roundUp ?_ hK
  have hone : (1 : ℚ) ≤ cubes := by exact_mod_cast hcubes
  have hratio : 0 ≤ (cubes : ℚ) ^ 2 - 1 := by nlinarith
  have hmin : 0 < min (1 / δ) (3 * log) := lt_min (by positivity) (by positivity)
  exact div_nonneg (mul_nonneg hmin.le hratio) (by positivity)

end Trials

/-- A number of trials is an int, and for two cubes and more it is positive. -/
theorem trials_bounds {fuel : Nat} {cubes K : Int} {ε δ : ℚ} (hε : 0 < ε) (hδ : 0 < δ) (hδ1 : δ < 1)
    (hcubes : 2 ≤ cubes) (h : coverageTrials fuel cubes ε δ = some K) : 1 ≤ K ∧ K ≤ intMax := by
  obtain ⟨fuel₀, log, hpos, hlog⟩ := constLog_pos ((lt_div_iff₀ hδ).mpr (by linarith) : 2 < 2 / δ)
  have hceil := eq_ceil_of_coverageTrials hδ (by omega) hε h hlog hpos
  constructor
  · rw [hceil]
    exact Int.one_le_ceil_iff.mpr (trialBound_pos hpos hε hδ hcubes)
  · rw [coverageTrials_eq (constLog_of_coverageTrials h hlog), roundUp] at h
    obtain ⟨ik, hik, hround⟩ := Option.bind_eq_some_iff.mp h
    dsimp only [intOfDouble] at hik
    split_ifs at hround with hlt hfit
    · rw [← Option.some.inj hround]
      exact hfit.2
    · have hik' : FitsInt ik := by
        split_ifs at hik with h0 hfit hfit
        · exact Option.some.inj hik ▸ hfit
        · exact Option.some.inj hik ▸ hfit
      exact Option.some.inj hround ▸ hik'.2

/-- The documented bound, with the real logarithm:
`min(1/delta, 3*ln(2/delta)) * (cubes^2 - 1) / epsilon^2`. -/
noncomputable def documentedBound (cubes : Int) (ε δ : ℚ) : ℝ :=
  min (1 / (δ : ℝ)) (3 * Real.log (2 / δ : ℚ)) * ((cubes : ℝ) ^ 2 - 1) / (ε : ℝ) ^ 2

/-- The minimum inherits the relative error of one of its arguments. -/
theorem min_mul_bounds {a b c η : ℝ} (ha : 0 ≤ a) (hη : 0 ≤ η) (hη1 : η ≤ 1) (h : |b - c| ≤ c * η) :
    (1 - η) * min a c ≤ min a b ∧ min a b ≤ (1 + η) * min a c := by
  obtain ⟨hlow, hhigh⟩ := abs_le.mp h
  rcases le_total a c with hac | hca
  · rw [min_eq_left hac]
    refine ⟨le_min (by nlinarith) (by nlinarith), (min_le_left _ _).trans (by nlinarith)⟩
  · rw [min_eq_right hca]
    have hc : 0 ≤ c * η := (abs_nonneg _).trans h
    exact ⟨le_min (by nlinarith) (by nlinarith), (min_le_right _ _).trans (by nlinarith)⟩

theorem trialBound_near {log : ℚ} {cubes : Int} {ε δ : ℚ} (hcubes : 1 ≤ cubes) (hδ : 0 < δ)
    (hlog : |(log : ℝ) - Real.log (2 / δ)| ≤ Real.log (2 / δ) / 10 ^ 19) :
    (1 - 1 / 10 ^ 19) * documentedBound cubes ε δ ≤ (trialBound log cubes ε δ : ℝ) ∧
      (trialBound log cubes ε δ : ℝ) ≤ (1 + 1 / 10 ^ 19) * documentedBound cubes ε δ := by
  have hδ' : (0 : ℝ) < δ := by exact_mod_cast hδ
  have hone : (1 : ℝ) ≤ cubes := by exact_mod_cast hcubes
  have hratio : 0 ≤ ((cubes : ℝ) ^ 2 - 1) / (ε : ℝ) ^ 2 :=
    div_nonneg (by nlinarith) (sq_nonneg _)
  have herror : |3 * (log : ℝ) - 3 * Real.log (2 / δ)| ≤ 3 * Real.log (2 / δ) * (1 / 10 ^ 19) := by
    rw [← mul_sub, abs_mul, abs_of_pos three_pos]
    linarith
  obtain ⟨hlow, hhigh⟩ := min_mul_bounds (a := 1 / (δ : ℝ)) (by positivity) (by positivity)
    (by norm_num) herror
  have hcast : (trialBound log cubes ε δ : ℝ) =
      min (1 / (δ : ℝ)) (3 * log) * (((cubes : ℝ) ^ 2 - 1) / (ε : ℝ) ^ 2) := by
    rw [trialBound]
    push_cast
    ring
  have hdoc : documentedBound cubes ε δ = min (1 / (δ : ℝ)) (3 * Real.log (2 / δ)) *
      (((cubes : ℝ) ^ 2 - 1) / (ε : ℝ) ^ 2) := by
    rw [documentedBound, mul_div_assoc]
    push_cast
    rfl
  rw [hcast, hdoc, ← mul_assoc, ← mul_assoc]
  exact ⟨mul_le_mul_of_nonneg_right hlow hratio, mul_le_mul_of_nonneg_right hhigh hratio⟩

/-- As long as the bound is an int, the number of trials is computed. -/
theorem exists_coverageTrials {cubes : Int} {ε δ : ℚ} (hcubes : 1 ≤ cubes) (hδ : 0 < δ)
    (hδ1 : δ < 1) (hmax : (1 + 1 / 10 ^ 19) * documentedBound cubes ε δ ≤ intMax) :
    ∃ (fuel₀ : Nat) (K : Int), ∀ fuel, fuel₀ ≤ fuel → coverageTrials fuel cubes ε δ = some K := by
  obtain ⟨fuel₀, log, hlog, hpos, herror⟩ := constLog_two_div hδ hδ1
  obtain ⟨-, hhigh⟩ := trialBound_near (ε := ε) hcubes hδ herror
  have hone : (1 : ℚ) ≤ cubes := by exact_mod_cast hcubes
  have hmin : 0 < min (1 / δ) (3 * log) := lt_min (by positivity) (by positivity)
  have hbound : 0 ≤ trialBound log cubes ε δ :=
    div_nonneg (mul_nonneg hmin.le (by nlinarith)) (by positivity)
  have hceil : ⌈trialBound log cubes ε δ⌉ ≤ intMax := by
    have hle : (trialBound log cubes ε δ : ℝ) ≤ (intMax : Int) := hhigh.trans hmax
    exact Int.ceil_le.mpr (by exact_mod_cast hle)
  have hnonneg : 0 ≤ ⌈trialBound log cubes ε δ⌉ := Int.ceil_nonneg hbound
  refine ⟨fuel₀, ⌈trialBound log cubes ε δ⌉, fun fuel hfuel => ?_⟩
  rw [coverageTrials_eq (hlog fuel hfuel)]
  exact roundUp_eq_ceil hbound ⟨(by decide : intMin ≤ 0).trans hnonneg, hceil⟩

/-- Chebyshev's bound alone is an int for a few cubes and moderate precision. -/
theorem exists_coverageTrials_of_le {cubes : Int} {ε δ : ℚ} (hcubes : 1 ≤ cubes) (hδ : 0 < δ)
    (hδ1 : δ < 1) (hmax : 1 / δ * ((cubes : ℚ) ^ 2 - 1) / ε ^ 2 ≤ 2 ^ 30) :
    ∃ (fuel₀ : Nat) (K : Int), ∀ fuel, fuel₀ ≤ fuel → coverageTrials fuel cubes ε δ = some K := by
  refine exists_coverageTrials hcubes hδ hδ1 ?_
  have hone : (1 : ℝ) ≤ cubes := by exact_mod_cast hcubes
  have hmin : documentedBound cubes ε δ ≤ 1 / (δ : ℝ) * ((cubes : ℝ) ^ 2 - 1) / (ε : ℝ) ^ 2 := by
    refine div_le_div_of_nonneg_right ?_ (sq_nonneg _)
    exact mul_le_mul_of_nonneg_right (min_le_left _ _) (by nlinarith)
  have hmax' : 1 / (δ : ℝ) * ((cubes : ℝ) ^ 2 - 1) / (ε : ℝ) ^ 2 ≤ 2 ^ 30 := by exact_mod_cast hmax
  have hbound := hmin.trans hmax'
  have hint : ((intMax : Int) : ℝ) = 2147483647 := by norm_num [intMax]
  rw [hint]
  norm_num at hbound ⊢
  linarith

/-- **The documented number of trials**: `coverage_trials` returns the bound of its comment,
with the real logarithm, rounded up, but for a relative 1e-19; and as long as that is an
int, it returns. -/
theorem coverageTrials_documented {cubes : Int} {ε δ : ℚ} (hcubes : 1 ≤ cubes) (hε : 0 < ε)
    (hδ : 0 < δ) (hδ1 : δ < 1) :
    (∀ fuel K, coverageTrials fuel cubes ε δ = some K →
      (1 - 1 / 10 ^ 19) * documentedBound cubes ε δ ≤ K ∧
        K < (1 + 1 / 10 ^ 19) * documentedBound cubes ε δ + 1) ∧
    ((1 + 1 / 10 ^ 19) * documentedBound cubes ε δ ≤ intMax →
      ∃ (fuel₀ : Nat) (K : Int), ∀ fuel, fuel₀ ≤ fuel →
        coverageTrials fuel cubes ε δ = some K) := by
  obtain ⟨fuel₀, log, hlog, hpos, herror⟩ := constLog_two_div hδ hδ1
  obtain ⟨hlow, hhigh⟩ := trialBound_near (ε := ε) hcubes hδ herror
  constructor
  · intro fuel K hK
    have hceil := eq_ceil_of_coverageTrials hδ hcubes hε hK hlog hpos
    have hle : (trialBound log cubes ε δ : ℝ) ≤ K := by
      rw [hceil]
      exact_mod_cast Int.le_ceil (trialBound log cubes ε δ)
    have hlt : (K : ℝ) < trialBound log cubes ε δ + 1 := by
      rw [hceil]
      exact_mod_cast Int.ceil_lt_add_one (trialBound log cubes ε δ)
    exact ⟨hlow.trans hle, hlt.trans_le (by linarith)⟩
  · exact exists_coverageTrials hcubes hδ hδ1

/-- Two cubes, to within a tenth with probability nine tenths. -/
theorem coverageTrials_documented_two :
    ∃ (fuel : Nat) (K : Int), coverageTrials fuel 2 (1 / 10) (1 / 10) = some K ∧
      (1 - 1 / 10 ^ 19) * documentedBound 2 (1 / 10) (1 / 10) ≤ K ∧
        K < (1 + 1 / 10 ^ 19) * documentedBound 2 (1 / 10) (1 / 10) + 1 := by
  obtain ⟨fuel₀, K, hK⟩ : ∃ (fuel₀ : Nat) (K : Int), ∀ fuel, fuel₀ ≤ fuel →
      coverageTrials fuel 2 (1 / 10) (1 / 10) = some K :=
    exists_coverageTrials_of_le (by decide) (by norm_num) (by norm_num) (by norm_num)
  exact ⟨fuel₀, K, hK fuel₀ (Nat.le_refl _), (coverageTrials_documented (by decide) (by norm_num)
    (by norm_num) (by norm_num)).1 fuel₀ K (hK fuel₀ (Nat.le_refl _))⟩

/-! ## Which of the two forms -/

/-- Above `3 / 25` three times the logarithm is the larger form: it is concave in `1 / delta`,
and larger at both ends. -/
theorem le_three_log_two_mul {w : ℝ} (h1 : 1 ≤ w) (h2 : w ≤ 25 / 3) :
    w + 1 / 10 ≤ 3 * Real.log (2 * w) := by
  have hln2 := (abs_le.mp abs_log_two_sub_le).1
  have hend : 4 * Real.log 2 + 1 / 25 ≤ Real.log (50 / 3) := by
    have hsplit : Real.log (50 / 3) = Real.log (2 ^ 4) + Real.log (25 / 24) := by
      rw [← Real.log_mul (by norm_num) (by norm_num)]
      norm_num
    have hratio := Real.one_sub_inv_le_log_of_pos (show (0 : ℝ) < 25 / 24 by norm_num)
    rw [hsplit, Real.log_pow]
    norm_num at hratio ⊢
    linarith
  -- the chord between the ends
  have hchord := strictConcaveOn_log_Ioi.concaveOn.2 (show (2 : ℝ) ∈ Set.Ioi 0 by norm_num)
    (show (50 / 3 : ℝ) ∈ Set.Ioi 0 by norm_num) (show 0 ≤ (25 / 3 - w) * (3 / 22) by linarith)
    (show 0 ≤ (w - 1) * (3 / 22) by linarith) (by ring)
  have hpoint : ((25 / 3 - w) * (3 / 22)) • (2 : ℝ) + ((w - 1) * (3 / 22)) • (50 / 3) = 2 * w := by
    rw [smul_eq_mul, smul_eq_mul]
    ring
  rw [hpoint, smul_eq_mul, smul_eq_mul] at hchord
  norm_num at hln2
  nlinarith

/-- Below `23 / 200` it is the smaller one, with something to spare. -/
theorem three_log_two_mul_le {w : ℝ} (h : 200 / 23 ≤ w) : 301 / 100 * Real.log (2 * w) ≤ w := by
  have hln2 := (abs_le.mp abs_log_two_sub_le).2
  have hstart : Real.log (400 / 23) ≤ 4 * Real.log 2 + 2 / 23 := by
    have hsplit : Real.log (400 / 23) = Real.log (2 ^ 4) + Real.log (25 / 23) := by
      rw [← Real.log_mul (by norm_num) (by norm_num)]
      norm_num
    have hratio := Real.log_le_sub_one_of_pos (show (0 : ℝ) < 25 / 23 by norm_num)
    rw [hsplit, Real.log_pow]
    norm_num at hratio ⊢
    linarith
  have htangent : Real.log (2 * w) ≤ Real.log (400 / 23) + (23 / 200 * w - 1) := by
    have hsplit : Real.log (2 * w) = Real.log (400 / 23) + Real.log (23 / 200 * w) := by
      rw [← Real.log_mul (by norm_num) (by positivity)]
      congr 1
      ring
    rw [hsplit]
    linarith [Real.log_le_sub_one_of_pos (show 0 < 23 / 200 * w by positivity)]
  norm_num at hln2
  linarith

/-- **Which form decides**: Chebyshev's from a `delta` of 0.12 on, Chernoff's up to 0.115.  So
the two cross between these, a little below where the comment puts it. -/
theorem coverageTrials_form {fuel : Nat} {cubes : Int} {ε δ : ℚ} {K : Int} (hcubes : 1 ≤ cubes)
    (hε : 0 < ε) (hδ : 0 < δ) (hδ1 : δ < 1) (hK : coverageTrials fuel cubes ε δ = some K) :
    (3 / 25 ≤ δ → K = ⌈1 / δ * ((cubes : ℚ) ^ 2 - 1) / ε ^ 2⌉) ∧
    (δ ≤ 23 / 200 → ∃ log, constLog fuel (2 / δ) = some log ∧
      K = ⌈3 * log * ((cubes : ℚ) ^ 2 - 1) / ε ^ 2⌉) := by
  obtain ⟨fuel₀, log, hlog, hpos, herror⟩ := constLog_two_div hδ hδ1
  have hceil := eq_ceil_of_coverageTrials hδ hcubes hε hK hlog hpos
  have hδ' : (0 : ℝ) < δ := by exact_mod_cast hδ
  have hδ1' : (δ : ℝ) < 1 := by exact_mod_cast hδ1
  have hdiv : (2 / δ : ℝ) = 2 * (1 / δ) := by ring
  have hlarge : 0 < Real.log (2 / δ) := by
    refine Real.log_pos ?_
    rw [lt_div_iff₀ hδ']
    linarith
  obtain ⟨hlow, hhigh⟩ := abs_le.mp herror
  constructor
  · intro hle
    have hle' : (3 / 25 : ℝ) ≤ δ := by
      have h : ((3 / 25 : ℚ) : ℝ) ≤ δ := Rat.cast_le.mpr hle
      push_cast at h
      exact h
    have hform := le_three_log_two_mul (w := 1 / (δ : ℝ)) (one_le_one_div hδ' hδ1'.le)
      ((one_div_le hδ' (by norm_num)).mpr (by linarith))
    rw [← hdiv] at hform
    have hmin : (1 / δ : ℝ) ≤ 3 * log := by
      have hsmall := Real.log_le_sub_one_of_pos (show (0 : ℝ) < 2 / δ by positivity)
      have hcap : (2 / δ : ℝ) ≤ 50 / 3 := by
        rw [div_le_iff₀ hδ']
        linarith
      norm_num at hlow
      linarith
    have hmin' : 1 / δ ≤ 3 * log := by exact_mod_cast hmin
    rw [hceil, trialBound, min_eq_left hmin']
  · intro hle
    have hle' : (δ : ℝ) ≤ 23 / 200 := by
      have h : (δ : ℝ) ≤ ((23 / 200 : ℚ) : ℝ) := Rat.cast_le.mpr hle
      push_cast at h
      exact h
    have hform := three_log_two_mul_le (w := 1 / (δ : ℝ)) ((le_one_div (by norm_num) hδ').mpr
      (by linarith))
    rw [← hdiv] at hform
    have hmin : (3 * log : ℝ) ≤ 1 / δ := by
      norm_num at hhigh
      linarith
    have hmin' : 3 * log ≤ 1 / δ := by exact_mod_cast hmin
    refine ⟨log, constLog_of_coverageTrials hK hlog, ?_⟩
    rw [hceil, trialBound, min_eq_right hmin']

/-- Two cubes, to within a tenth with probability four fifths. -/
theorem coverageTrials_form_two :
    ∃ fuel : Nat, coverageTrials fuel 2 (1 / 10) (1 / 5) = some 1500 := by
  obtain ⟨fuel, K, hK⟩ : ∃ (fuel₀ : Nat) (K : Int), ∀ fuel, fuel₀ ≤ fuel →
      coverageTrials fuel 2 (1 / 10) (1 / 5) = some K :=
    exists_coverageTrials_of_le (by decide) (by norm_num) (by norm_num) (by norm_num)
  have hrun := hK fuel (Nat.le_refl _)
  have hvalue := (coverageTrials_form (by decide) (by norm_num) (by norm_num) (by norm_num)
    hrun).1 (by norm_num)
  norm_num at hvalue
  exact ⟨fuel, by rw [hrun, hvalue]⟩

/-! ## More precision, more trials -/

/-- The truncated series grows with the reduced argument. -/
theorem series_le {m m' : ℚ} (hone : 1 ≤ m) (hle : m ≤ m') :
    2 * (∑ j ∈ range 20, ((m - 1) / (m + 1)) ^ (2 * j + 1) / (2 * j + 1)) ≤
      2 * (∑ j ∈ range 20, ((m' - 1) / (m' + 1)) ^ (2 * j + 1) / (2 * j + 1)) := by
  have hz : 0 ≤ (m - 1) / (m + 1) := div_nonneg (by linarith) (by linarith)
  have hzz : (m - 1) / (m + 1) ≤ (m' - 1) / (m' + 1) := by
    rw [div_le_div_iff₀ (by linarith) (by linarith)]
    linarith
  refine mul_le_mul_of_nonneg_left (sum_le_sum fun j _ => ?_) zero_le_two
  exact div_le_div_of_nonneg_right (pow_le_pow_left₀ hz hzz _) (by positivity)

/-- At the end of its range the series has not yet reached the constant, so that halving the
argument does not lose anything. -/
theorem series_two_le :
    2 * (∑ j ∈ range 20, (((2 : ℚ) - 1) / (2 + 1)) ^ (2 * j + 1) / (2 * j + 1)) ≤
      0.69314718055994530942 := by
  norm_num [sum_range_succ]

/-- **`const_log` is monotone**, across the reductions of its argument. -/
theorem constLog_le {fuel fuel' : Nat} {x y log log' : ℚ} (hx : 0 < x) (hxy : x ≤ y)
    (hlog : constLog fuel x = some log) (hlog' : constLog fuel' y = some log') : log ≤ log' := by
  obtain ⟨fuel₁, m, e, hone, htwo, hme, hrun⟩ := constLog_spec hx
  obtain ⟨fuel₂, m', e', hone', htwo', hme', hrun'⟩ := constLog_spec (hx.trans_le hxy)
  have hvalue := (constLog_mono hlog (Nat.le_add_right fuel fuel₁)).symm.trans
    (hrun (fuel + fuel₁) (Nat.le_add_left _ _))
  have hvalue' := (constLog_mono hlog' (Nat.le_add_right fuel' fuel₂)).symm.trans
    (hrun' (fuel' + fuel₂) (Nat.le_add_left _ _))
  rw [Option.some.inj hvalue, Option.some.inj hvalue']
  have hpow : (0 : ℚ) < 2 ^ e := by positivity
  have hle : e ≤ e' := by
    by_contra hlt
    have hstep : (2 : ℚ) ^ (e' + 1) ≤ 2 ^ e := zpow_le_zpow_right₀ one_le_two (by omega)
    rw [zpow_add_one₀ two_ne_zero] at hstep
    have hpow' : (0 : ℚ) < 2 ^ e' := by positivity
    have hy : y < 2 ^ e' * 2 := by
      rw [hme', mul_comm]
      exact mul_lt_mul_of_pos_left htwo' hpow'
    have hx' : 2 ^ e ≤ x := by
      rw [hme]
      exact le_mul_of_one_le_left hpow.le hone
    linarith
  rcases hle.eq_or_lt with rfl | hlt
  · have hm : m ≤ m' := by
      rw [hme, hme'] at hxy
      exact le_of_mul_le_mul_right hxy hpow
    have h := series_le hone hm
    linarith
  · have hseries := (series_le hone htwo.le).trans series_two_le
    have hseries' : (0 : ℚ) ≤
        2 * (∑ j ∈ range 20, ((m' - 1) / (m' + 1)) ^ (2 * j + 1) / (2 * j + 1)) := by
      have h := series_le (le_refl 1) hone'
      norm_num at h ⊢
      exact h
    have hstep : (e : ℚ) + 1 ≤ e' := by exact_mod_cast hlt
    linarith

/-- **More precision never takes fewer trials**: with more cubes, a smaller relative error or
a smaller probability of failure, `coverage_trials` over the rationals asks for at least as
many. -/
theorem coverageTrials_mono {fuel fuel' : Nat} {cubes cubes' : Int} {ε ε' δ δ' : ℚ} {K K' : Int}
    (hcubes : 1 ≤ cubes) (hle : cubes ≤ cubes') (hε' : 0 < ε') (hεε : ε' ≤ ε) (hδ' : 0 < δ')
    (hδδ : δ' ≤ δ) (hδ : δ < 1) (hK : coverageTrials fuel cubes ε δ = some K)
    (hK' : coverageTrials fuel' cubes' ε' δ' = some K') : K ≤ K' := by
  have hδ0 : 0 < δ := hδ'.trans_le hδδ
  have hε0 : 0 < ε := hε'.trans_le hεε
  obtain ⟨fuel₁, log, hlog, hpos, -⟩ := constLog_two_div hδ0 hδ
  obtain ⟨fuel₂, log', hlog', hpos', -⟩ := constLog_two_div hδ' (hδδ.trans_lt hδ)
  rw [eq_ceil_of_coverageTrials hδ0 hcubes hε0 hK hlog hpos,
    eq_ceil_of_coverageTrials hδ' (hcubes.trans hle) hε' hK' hlog' hpos']
  have hlogs : log ≤ log' := constLog_le (by positivity)
    (div_le_div_of_nonneg_left zero_le_two hδ' hδδ) (hlog fuel₁ (le_refl _))
    (hlog' fuel₂ (le_refl _))
  have hmin : min (1 / δ) (3 * log) ≤ min (1 / δ') (3 * log') :=
    min_le_min (one_div_le_one_div_of_le hδ' hδδ) (by linarith)
  have hone : (1 : ℚ) ≤ cubes := by exact_mod_cast hcubes
  have hcubes' : (cubes : ℚ) ≤ cubes' := by exact_mod_cast hle
  have hmin0 : 0 < min (1 / δ) (3 * log) := lt_min (by positivity) (by positivity)
  refine Int.ceil_le_ceil (div_le_div₀ ?_ ?_ (by positivity) (pow_le_pow_left₀ hε'.le hεε 2))
  · exact mul_nonneg (hmin0.le.trans hmin) (by nlinarith)
  · exact mul_le_mul hmin (by nlinarith) (by nlinarith) (hmin0.le.trans hmin)

/-- From two cubes and a tenth to three cubes and a hundredth. -/
theorem coverageTrials_mono_three :
    ∃ (fuel : Nat) (K K' : Int), coverageTrials fuel 2 (1 / 10) (1 / 10) = some K ∧
      coverageTrials fuel 3 (1 / 100) (1 / 100) = some K' ∧ K ≤ K' := by
  obtain ⟨fuel₁, K, hK⟩ : ∃ (fuel₀ : Nat) (K : Int), ∀ fuel, fuel₀ ≤ fuel →
      coverageTrials fuel 2 (1 / 10) (1 / 10) = some K :=
    exists_coverageTrials_of_le (by decide) (by norm_num) (by norm_num) (by norm_num)
  obtain ⟨fuel₂, K', hK'⟩ : ∃ (fuel₀ : Nat) (K : Int), ∀ fuel, fuel₀ ≤ fuel →
      coverageTrials fuel 3 (1 / 100) (1 / 100) = some K :=
    exists_coverageTrials_of_le (by decide) (by norm_num) (by norm_num) (by norm_num)
  have h := hK (fuel₁ + fuel₂) (Nat.le_add_right _ _)
  have h' := hK' (fuel₁ + fuel₂) (Nat.le_add_left _ _)
  exact ⟨fuel₁ + fuel₂, K, K', h, h', coverageTrials_mono (by decide) (by decide) (by norm_num)
    (by norm_num) (by norm_num) (by norm_num) (by norm_num) h h'⟩

end MpcVazirani
