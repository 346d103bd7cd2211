import Mathlib.Algebra.BigOperators.Field
import Mathlib.Algebra.Order.Floor.Semifield
import Mathlib.Data.Rat.Floor
import Mathlib.Tactic.FieldSimp
import Mathlib.Tactic.Linarith
import Mathlib.Tactic.Positivity
import MpcVazirani.IStream
import MpcVazirani.Vazirani
import MpcVazirani.WhileLoop

/-! # The number of trials

`gadgets/general/trial_count.h`, which both estimators take their number of trials from,
and the two adapters that divide by it.  The doubles are idealised as rationals: the rounding of
their arithmetic is left out, and it may make the number of trials differ by one where the bound
is next to an integer.

`const_log` halves or doubles its argument into `[1, 2)` and counts how often
(`constLog_spec`); the rest is the series of the inverse hyperbolic tangent up to the
39th power.  Above 2 the count is at least one, so the logarithm of `2 / delta` is
positive.  What is asked for is the bound rounded up: above zero as soon as the bound on
the variance is, which it is for two cubes and more.
-/
namespace MpcVazirani
open Finset ForLoop IStream WhileLoop

/-! ## `const_log` -/

/-- `while (x >= 2.0) { x *= 0.5; ++e; }` -/
def halve (fuel : Nat) (s : ℚ × Int) : Option (ℚ × Int) :=
  whileLoop (fun s => decide (2 ≤ s.1)) (fun s => some (s.1 * 0.5, s.2 + 1)) fuel s

/-- `while (x < 1.0) { x *= 2.0; --e; }` -/
def double (fuel : Nat) (s : ℚ × Int) : Option (ℚ × Int) :=
  whileLoop (fun s => decide (s.1 < 1)) (fun s => some (s.1 * 2, s.2 - 1)) fuel s

/-- The loop over `k = 3, 5, …, 39`, with `term` and `sum` when it has made `i` turns. -/
def seriesFrom (z : ℚ) (i : Nat) (h : i ≤ 19) : ℚ × ℚ :=
  let z2 := z * z
  forLoop 0 (fun i (s : ℚ × ℚ) =>
      let k : ℚ := 2 * i.val + 3
      let term := s.1 * z2
      (term, s.2 + term / k))
    (z, z) i h

/-- `gadgets::const_log`, over the rationals, with at most `fuel` rounds of each loop. -/
def constLog (fuel : Nat) (x : ℚ) : Option ℚ :=
  ((halve fuel (x, 0)).bind (double fuel)).map fun s =>
    let z := (s.1 - 1) / (s.1 + 1)
    2 * (seriesFrom z 19 (Nat.le_refl 19)).2 + s.2 * 0.69314718055994530942

/-! ## `coverage_trials` -/

/-- `(int)k`, which is defined if the truncated value fits. -/
def intOfDouble (k : ℚ) : Option Int :=
  let t := if 0 ≤ k then ⌊k⌋ else ⌈k⌉
  if FitsInt t then some t else none

/-- The last two lines of `coverage_trials`; `ik + 1` may overflow. -/
def roundUp (k : ℚ) : Option Int :=
  (intOfDouble k).bind fun ik =>
    if (ik : ℚ) < k then if FitsInt (ik + 1) then some (ik + 1) else none else some ik

/-- `gadgets::coverage_trials(double variance_ratio, double epsilon, double delta)`, over the
rationals. -/
def coverageTrialsOfRatio (fuel : Nat) (variance_ratio epsilon delta : ℚ) : Option Int :=
  (constLog fuel (2 / delta)).bind fun log =>
    let chebyshev := 1 / delta
    let chernoff := 3 * log
    let c := if chebyshev < chernoff then chebyshev else chernoff
    let k := c * variance_ratio / (epsilon * epsilon)
    roundUp k

/-- `gadgets::coverage_trials(int cubes, double epsilon, double delta)`. -/
def coverageTrials (fuel : Nat) (cubes : Int) (epsilon delta : ℚ) : Option Int :=
  coverageTrialsOfRatio fuel ((cubes : ℚ) * cubes - 1) epsilon delta

/-- `gadgets::vazirani_trials`, called by `VaziraniAdapter::trials`. -/
def vaziraniTrials (fuel : Nat) (cubes : Int) (epsilon delta : ℚ) : Option Int :=
  coverageTrials fuel cubes epsilon delta

/-- `gadgets::karp_luby_trials`, called by `KarpLubyAdapter::trials`. -/
def karpLubyTrials (fuel : Nat) (cubes : Int) (epsilon delta : ℚ) : Option Int :=
  coverageTrials fuel cubes epsilon delta

/-- A division of doubles whose result is a number. -/
def divide (a b : ℚ) : Option ℚ := if b = 0 then none else some (a / b)

/-- `VaziraniAdapter::unscale`, whose divisor is a product of 64-bit numbers. -/
def vaziraniUnscale (K : Int) (raw : BitVec 128) : Option ℚ :=
  divide raw.toNat (K * kDivideLookupScale % 2 ^ 64 : Int)

/-- `KarpLubyAdapter::unscale`. -/
def karpLubyUnscale (K : Int) (raw : BitVec 128) : Option ℚ := divide raw.toNat K

/-! ## The logarithm -/

theorem floor_half_lt {x : ℚ} (h : 1 ≤ x) : ⌊x / 2⌋₊ < ⌊x⌋₊ := by
  have hpos : 1 ≤ ⌊x⌋₊ := Nat.le_floor (by exact_mod_cast h)
  rw [show x / 2 = x / (2 : ℕ) by norm_num, Nat.floor_div_natCast]
  exact Nat.div_lt_self hpos (by decide)

/-- A state of the two loops on `x` that has not lost anything of it. -/
def Reduces (x : ℚ) (s : ℚ × Int) : Prop := 0 < s.1 ∧ x = s.1 * 2 ^ s.2

/-- One round of the first loop. -/
theorem halve_round {x : ℚ} (s : ℚ × Int) (h : Reduces x s) (hcond : decide (2 ≤ s.1) = true) :
    ∃ s', some (s.1 * 0.5, s.2 + 1) = some s' ∧ Reduces x s' ∧ ⌊s'.1⌋₊ < ⌊s.1⌋₊ := by
  obtain ⟨hpos, hx⟩ := h
  have htwo : 2 ≤ s.1 := of_decide_eq_true hcond
  have hhalf : s.1 * 0.5 = s.1 / 2 := by norm_num [div_eq_mul_inv]
  refine ⟨_, rfl, ⟨by positivity, ?_⟩, ?_⟩
  · show x = s.1 * 0.5 * 2 ^ (s.2 + 1)
    rw [hx, hhalf, zpow_add_one₀ two_ne_zero]
    ring
  · show ⌊s.1 * 0.5⌋₊ < ⌊s.1⌋₊
    rw [hhalf]
    exact floor_half_lt (by linarith)

/-- One round of the second loop. -/
theorem double_round {x : ℚ} (s : ℚ × Int) (h : Reduces x s ∧ s.1 < 2)
    (hcond : decide (s.1 < 1) = true) :
    ∃ s', some (s.1 * 2, s.2 - 1) = some s' ∧ (Reduces x s' ∧ s'.1 < 2) ∧
      ⌊s'.1⁻¹⌋₊ < ⌊s.1⁻¹⌋₊ := by
  obtain ⟨⟨hpos, hx⟩, -⟩ := h
  have hone : s.1 < 1 := of_decide_eq_true hcond
  refine ⟨_, rfl, ⟨⟨by positivity, ?_⟩, ?_⟩, ?_⟩
  · show x = s.1 * 2 * 2 ^ (s.2 - 1)
    rw [hx, zpow_sub_one₀ two_ne_zero]
    ring
  · show s.1 * 2 < 2
    linarith
  · show ⌊(s.1 * 2)⁻¹⌋₊ < ⌊s.1⁻¹⌋₊
    rw [mul_inv, ← div_eq_mul_inv]
    exact floor_half_lt (one_le_inv_iff₀.mpr ⟨hpos, hone.le⟩)

/-- **The loops reduce the argument exactly**: to some `m` of `[1, 2)`, with `x = m * 2 ^ e`. -/
theorem reduction_spec {x : ℚ} (hx : 0 < x) :
    ∃ (fuel₀ : Nat) (m : ℚ) (e : Int), 1 ≤ m ∧ m < 2 ∧ x = m * 2 ^ e ∧
      ∀ fuel, fuel₀ ≤ fuel → (halve fuel (x, 0)).bind (double fuel) = some (m, e) := by
  have hstart : Reduces x (x, 0) := ⟨hx, by simp⟩
  obtain ⟨s₁, h₁, hleft₁, hrun₁⟩ :=
    whileLoop_total (Reduces x) (fun s => ⌊s.1⌋₊) halve_round _ hstart
  have htwo : s₁.1 < 2 := not_le.mp (of_decide_eq_false hleft₁)
  obtain ⟨s₂, ⟨h₂, hlt⟩, hleft₂, hrun₂⟩ := whileLoop_total (fun s => Reduces x s ∧ s.1 < 2)
    (fun s => ⌊s.1⁻¹⌋₊) double_round s₁ ⟨h₁, htwo⟩
  have hone : 1 ≤ s₂.1 := not_lt.mp (of_decide_eq_false hleft₂)
  refine ⟨⌊x⌋₊ + ⌊s₁.1⁻¹⌋₊, s₂.1, s₂.2, hone, hlt, h₂.2, fun fuel hfuel => ?_⟩
  rw [halve, hrun₁ fuel ((Nat.le_add_right _ _).trans hfuel), Option.bind_some, double,
    hrun₂ fuel ((Nat.le_add_left _ _).trans hfuel)]

/-- **The loop sums the series** of the inverse hyperbolic tangent. -/
theorem seriesFrom_eq (z : ℚ) (i : Nat) (h : i ≤ 19) :
    seriesFrom z i h =
      (z ^ (2 * i + 1), ∑ j ∈ range (i + 1), z ^ (2 * j + 1) / (2 * j + 1)) := by
  refine forLoop_rule (fun i (s : ℚ × ℚ) =>
    s = (z ^ (2 * i + 1), ∑ j ∈ range (i + 1), z ^ (2 * j + 1) / (2 * j + 1))) ?_ ?_ i h
    (Nat.zero_le i)
  · simp
  · rintro i s - rfl
    have hpow : z ^ (2 * i.val + 1) * (z * z) = z ^ (2 * (i.val + 1) + 1) := by ring
    have hk : (2 * i.val + 3 : ℚ) = 2 * (i.val + 1 : ℕ) + 1 := by
      push_cast
      ring
    rw [sum_range_succ _ (i.val + 1)]
    simp only [hpow, hk]

/-- **What `const_log` computes**: a series for the reduced argument and a multiple of the
logarithm of two for the reduction.  It returns for every positive argument. -/
theorem constLog_spec {x : ℚ} (hx : 0 < x) :
    ∃ (fuel₀ : Nat) (m : ℚ) (e : Int), 1 ≤ m ∧ m < 2 ∧ x = m * 2 ^ e ∧
      ∀ fuel, fuel₀ ≤ fuel → constLog fuel x =
        some (2 * (∑ j ∈ range 20, ((m - 1) / (m + 1)) ^ (2 * j + 1) / (2 * j + 1)) +
          e * 0.69314718055994530942) := by
  obtain ⟨fuel₀, m, e, hone, htwo, hme, hrun⟩ := reduction_spec hx
  refine ⟨fuel₀, m, e, hone, htwo, hme, fun fuel hfuel => ?_⟩
  rw [constLog, hrun fuel hfuel, Option.map_some]
  simp only [seriesFrom_eq]

/-- The logarithm of a number above two is positive. -/
theorem constLog_pos {x : ℚ} (hx : 2 < x) :
    ∃ (fuel₀ : Nat) (log : ℚ), 0 < log ∧ ∀ fuel, fuel₀ ≤ fuel → constLog fuel x = some log := by
  obtain ⟨fuel₀, m, e, hone, htwo, hme, hrun⟩ := constLog_spec (zero_lt_two.trans hx)
  -- halved at least once: without that the argument would be below two
  have he : 1 ≤ e := by
    by_contra hneg
    have hle : (2 : ℚ) ^ e ≤ 2 ^ (0 : Int) := zpow_le_zpow_right₀ one_le_two (by omega)
    rw [zpow_zero] at hle
    have hxm : x ≤ m * 1 := hme.trans_le (mul_le_mul_of_nonneg_left hle (by linarith))
    linarith
  have hz : 0 ≤ (m - 1) / (m + 1) := div_nonneg (by linarith) (by linarith)
  have hsum : 0 ≤ ∑ j ∈ range 20, ((m - 1) / (m + 1)) ^ (2 * j + 1) / (2 * j + 1) :=
    sum_nonneg fun j _ => div_nonneg (pow_nonneg hz _) (by positivity)
  have heq : (1 : ℚ) ≤ e := by exact_mod_cast he
  refine ⟨fuel₀, _, ?_, hrun⟩
  linarith

/-! ## The number of trials -/

/-- `min(1/delta, 3*const_log(2/delta)) * (cubes^2 - 1) / epsilon^2`. -/
def trialBound (log : ℚ) (cubes : Int) (epsilon delta : ℚ) : ℚ :=
  min (1 / delta) (3 * log) * ((cubes : ℚ) ^ 2 - 1) / epsilon ^ 2

/-- **The hand-written ceiling is the ceiling**, if that fits. -/
theorem roundUp_eq_ceil {k : ℚ} (hk : 0 ≤ k) (hfit : FitsInt ⌈k⌉) : roundUp k = some ⌈k⌉ := by
  have hfloor : 0 ≤ ⌊k⌋ := Int.floor_nonneg.mpr hk
  have hle : ⌊k⌋ ≤ ⌈k⌉ := Int.floor_le_ceil k
  have htrunc : intOfDouble k = some ⌊k⌋ := by
    rw [intOfDouble, if_pos hk]
    exact if_pos ⟨(by decide : intMin ≤ 0).trans hfloor, hle.trans hfit.2⟩
  rw [roundUp, htrunc, Option.bind_some]
  by_cases hlt : (⌊k⌋ : ℚ) < k
  · have hceil : ⌈k⌉ = ⌊k⌋ + 1 := le_antisymm (Int.ceil_le_floor_add_one k) (Int.lt_ceil.mpr hlt)
    rw [if_pos hlt, ← hceil, if_pos hfit]
  · have hceil : ⌈k⌉ ≤ ⌊k⌋ := Int.ceil_le.mpr (not_lt.mp hlt)
    rw [if_neg hlt, le_antisymm hle hceil]

/-- What is asked for is the bound rounded up. -/
theorem coverageTrials_eq {fuel : Nat} {log epsilon delta : ℚ}
    (hlog : constLog fuel (2 / delta) = some log) (cubes : Int) :
    coverageTrials fuel cubes epsilon delta = roundUp (trialBound log cubes epsilon delta) := by
  rw [coverageTrials, coverageTrialsOfRatio, hlog, Option.bind_some, trialBound, min_def_lt,
    sq, sq]

/-- The bound is above zero for two cubes and more. -/
theorem trialBound_pos {log epsilon delta : ℚ} (hlog : 0 < log) (hepsilon : 0 < epsilon)
    (hdelta : 0 < delta) {cubes : Int} (hcubes : 2 ≤ cubes) :
    0 < trialBound log cubes epsilon delta := by
  have htwo : (2 : ℚ) ≤ cubes := by exact_mod_cast hcubes
  have hmin : 0 < min (1 / delta) (3 * log) := lt_min (by positivity) (by positivity)
  have hratio : 0 < (cubes : ℚ) ^ 2 - 1 := by nlinarith
  exact div_pos (mul_pos hmin hratio) (by positivity)

/-- A number of trials that meets the bound, is the least to do so, and that the results
can be divided by. -/
structure Usable (bound : ℚ) (K : Int) : Prop where
  one_le : 1 ≤ K
  le : bound ≤ K
  lt : 0 < bound → (K : ℚ) < bound + 1
  unscale : ∀ raw, (vaziraniUnscale K raw).isSome = true ∧ (karpLubyUnscale K raw).isSome = true

/-- The logarithm is computed, and if the bound rounded up fits an int, a usable number of
trials is asked for, by both adapters. -/
def AsksForTrials (cubes : Int) (epsilon delta : ℚ) : Prop :=
  ∃ (fuel₀ : Nat) (log : ℚ), (∀ fuel, fuel₀ ≤ fuel → constLog fuel (2 / delta) = some log) ∧
    (FitsInt ⌈trialBound log cubes epsilon delta⌉ →
      ∃ K, (∀ fuel, fuel₀ ≤ fuel → coverageTrials fuel cubes epsilon delta = some K ∧
          vaziraniTrials fuel cubes epsilon delta = some K ∧
          karpLubyTrials fuel cubes epsilon delta = some K) ∧
        Usable (trialBound log cubes epsilon delta) K)

theorem isSome_divide {a b : ℚ} (h : b ≠ 0) : (divide a b).isSome = true := by
  rw [divide, if_neg h]
  rfl

/-- A positive bound rounded up is usable. -/
theorem usable_ceil {bound : ℚ} (hpos : 0 < bound) (hfit : FitsInt ⌈bound⌉) :
    Usable bound ⌈bound⌉ := by
  have hone : 1 ≤ ⌈bound⌉ := Int.one_le_ceil_iff.mpr hpos
  refine ⟨hone, Int.le_ceil bound, fun _ => Int.ceil_lt_add_one bound, fun raw => ⟨?_, ?_⟩⟩
  · have hscale : (kDivideLookupScale : Int) = 65536 := rfl
    have hmax : ⌈bound⌉ ≤ 2147483647 := hfit.2
    have hne : ⌈bound⌉ * (kDivideLookupScale : Int) % 2 ^ 64 ≠ 0 := by
      rw [hscale]
      omega
    exact isSome_divide (by exact_mod_cast hne)
  · have hne : ⌈bound⌉ ≠ 0 := by omega
    exact isSome_divide (by exact_mod_cast hne)

/-- For a single cube the bound on the variance is zero, and no trial is asked for. -/
theorem coverageTrials_of_one {fuel : Nat} {log epsilon delta : ℚ}
    (hlog : constLog fuel (2 / delta) = some log) :
    trialBound log 1 epsilon delta = 0 ∧ coverageTrials fuel 1 epsilon delta = some 0 := by
  have hbound : trialBound log 1 epsilon delta = 0 := by simp [trialBound]
  refine ⟨hbound, ?_⟩
  rw [coverageTrials_eq hlog, hbound, roundUp_eq_ceil (le_refl 0) (by decide), Int.ceil_zero]

theorem not_asksForTrials_one (epsilon delta : ℚ) : ¬ AsksForTrials 1 epsilon delta := by
  rintro ⟨fuel₀, log, hlog, husable⟩
  obtain ⟨hbound, hzero⟩ := coverageTrials_of_one (hlog fuel₀ (Nat.le_refl _))
  rw [hbound, Int.ceil_zero] at husable
  obtain ⟨K, hK, hone, -⟩ := husable (by decide)
  rw [(hK fuel₀ (Nat.le_refl _)).1] at hzero
  have hK0 : K = 0 := Option.some.inj hzero
  omega

/-- **When a usable number of trials is asked for**: for two cubes and more. -/
theorem coverageTrials_usable_iff {cubes : Int} {epsilon delta : ℚ} (hcubes : 1 ≤ cubes)
    (hepsilon : 0 < epsilon) (hdelta : 0 < delta) (hdelta' : delta < 1) :
    AsksForTrials cubes epsilon delta ↔ 2 ≤ cubes := by
  constructor
  · intro h
    by_contra hlt
    obtain rfl : cubes = 1 := by omega
    exact not_asksForTrials_one epsilon delta h
  · intro htwo
    have harg : 2 < 2 / delta := (lt_div_iff₀ hdelta).mpr (by linarith)
    obtain ⟨fuel₀, log, hpos, hlog⟩ := constLog_pos harg
    have hbound := trialBound_pos hpos hepsilon hdelta htwo
    refine ⟨fuel₀, log, hlog, fun hfit => ⟨_, fun fuel hfuel => ?_, usable_ceil hbound hfit⟩⟩
    have hK : coverageTrials fuel cubes epsilon delta =
        some ⌈trialBound log cubes epsilon delta⌉ := by
      rw [coverageTrials_eq (hlog fuel hfuel), roundUp_eq_ceil hbound.le hfit]
    exact ⟨hK, hK, hK⟩

/-- Two cubes, to within a tenth with probability nine tenths. -/
theorem coverageTrials_usable_iff_two : AsksForTrials 2 (1 / 10) (1 / 10) :=
  (coverageTrials_usable_iff (by decide) (by norm_num) (by norm_num) (by norm_num)).mpr (by decide)

/-- A single cube: no trial is asked for, and the result is divided by zero. -/
theorem coverageTrials_unusable_one :
    ¬ AsksForTrials 1 (1 / 10) (1 / 10) ∧ vaziraniUnscale 0 0 = none ∧ karpLubyUnscale 0 0 = none :=
  ⟨not_asksForTrials_one _ _, by simp [vaziraniUnscale, divide], by simp [karpLubyUnscale, divide]⟩

end MpcVazirani
