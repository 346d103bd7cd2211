import Mathlib.Algebra.BigOperators.Intervals
import Mathlib.Algebra.Module.NatInt
import Mathlib.Algebra.Order.BigOperators.Group.Finset
import Mathlib.Data.Int.CardIntervalMod
import Mathlib.Order.Interval.Finset.Nat
import Mathlib.Tactic.Ring

/-! # Sums over residues

Reducing the numbers below `R` modulo `S` and adding one hits every number of
`1, …, S` either `R / S` or `R / S + 1` times, so the sum of a quantity over the
reduced numbers lies between those two multiples of its sum over `1, …, S`.  The
first `R % S` numbers are the ones hit once more (`card_residue`); so all are hit
equally often only when `S` divides `R`.
-/
namespace Residues
open Finset

variable (S : Nat) (f : Nat → Nat)

/-- Over whole periods every residue occurs equally often. -/
theorem sum_range_mul (q : Nat) :
    ∑ a ∈ range (q * S), f (a % S + 1) = q * ∑ z ∈ Icc 1 S, f z := by
  induction q with
  | zero => simp
  | succ q ih =>
    have hperiod : ∑ c ∈ range S, f ((q * S + c) % S + 1) = ∑ z ∈ Icc 1 S, f z := by
      have hshift : ∑ z ∈ Icc 1 S, f z = ∑ c ∈ range S, f (c + 1) := by
        rw [range_eq_Ico, sum_Ico_add' f 0 S 1, Nat.zero_add]
        rfl
      rw [hshift]
      refine sum_congr rfl ?_
      intro c hc
      rw [Nat.mul_comm, Nat.mul_add_mod, Nat.mod_eq_of_lt (mem_range.mp hc)]
    rw [Nat.succ_mul, sum_range_add, ih, hperiod, Nat.succ_mul]

/-- **Reduction modulo `S` is uniform up to one occurrence per residue.** -/
theorem sum_range_bounds (hS : 0 < S) (R : Nat) :
    R / S * ∑ z ∈ Icc 1 S, f z ≤ ∑ a ∈ range R, f (a % S + 1) ∧
      ∑ a ∈ range R, f (a % S + 1) ≤ (R / S + 1) * ∑ z ∈ Icc 1 S, f z := by
  rw [← sum_range_mul S f, ← sum_range_mul S f]
  have hlow : R / S * S ≤ R := Nat.div_mul_le_self R S
  have hhigh : R ≤ (R / S + 1) * S := by
    rw [Nat.mul_comm]
    exact Nat.le_of_lt (Nat.lt_mul_div_succ R hS)
  exact ⟨sum_le_sum_of_subset (range_mono hlow), sum_le_sum_of_subset (range_mono hhigh)⟩

/-- What lies between `R / S` times and `R / S + 1` times `A` is within a factor of two of
`R * A / S`, if there is a whole period. -/
theorem mul_bounds_of_periods {S R A P : Nat} (hS : 0 < S) (hSR : S ≤ R)
    (hlow : R / S * A ≤ P) (hhigh : P ≤ (R / S + 1) * A) :
    R * A ≤ 2 * (S * P) ∧ S * P ≤ 2 * (R * A) := by
  -- `S * (R / S)` lies between half of `R` and all of it
  have hdiv : R < S * (R / S + 1) := Nat.lt_mul_div_succ R hS
  have hmul : S * (R / S) ≤ R := Nat.mul_div_le R S
  have hperiod : S ≤ S * (R / S) := Nat.le_mul_of_pos_right S ((Nat.one_le_div_iff hS).mpr hSR)
  rw [Nat.mul_succ] at hdiv
  constructor
  · calc R * A ≤ 2 * (S * (R / S)) * A := Nat.mul_le_mul_right A (by omega)
      _ = 2 * (S * (R / S * A)) := by ring
      _ ≤ 2 * (S * P) := Nat.mul_le_mul_left 2 (Nat.mul_le_mul_left S hlow)
  · calc S * P ≤ S * ((R / S + 1) * A) := Nat.mul_le_mul_left S hhigh
      _ = S * (R / S + 1) * A := by ring
      _ ≤ 2 * R * A := Nat.mul_le_mul_right A (by rw [Nat.mul_succ]; omega)
      _ = 2 * (R * A) := by ring

/-- The first `R % S` numbers are hit once more than the others. -/
theorem card_residue {S R z : Nat} (hz : z ∈ Icc 1 S) :
    #{a ∈ range R | a % S + 1 = z} = R / S + if z ≤ R % S then 1 else 0 := by
  obtain ⟨h1, hS⟩ := mem_Icc.mp hz
  have hcount : (range R).filter (fun a => a % S + 1 = z) =
      (range R).filter fun a => a ≡ z - 1 [MOD S] := by
    refine filter_congr fun a _ => ?_
    rw [Nat.ModEq, Nat.mod_eq_of_lt (show z - 1 < S by omega)]
    omega
  rw [hcount, ← Nat.count_eq_card_filter_range, Nat.count_modEq_card R (by omega),
    Nat.mod_eq_of_lt (show z - 1 < S by omega)]
  have hiff : z - 1 < R % S ↔ z ≤ R % S := by omega
  simp only [hiff]

/-- **Reduction modulo `S` is uniform exactly when `S` divides the number of
numbers reduced.** -/
theorem card_residue_eq_iff {S R : Nat} (hS : 0 < S) :
    (∀ z ∈ Icc 1 S, ∀ z' ∈ Icc 1 S,
      #{a ∈ range R | a % S + 1 = z} = #{a ∈ range R | a % S + 1 = z'}) ↔ S ∣ R := by
  have hlt := Nat.mod_lt R hS
  constructor
  · intro h
    -- otherwise 1 is hit once more than `S`
    have hends := h 1 (mem_Icc.mpr ⟨Nat.le_refl 1, hS⟩) S (mem_Icc.mpr ⟨hS, Nat.le_refl S⟩)
    rw [card_residue (mem_Icc.mpr ⟨Nat.le_refl 1, hS⟩),
      card_residue (mem_Icc.mpr ⟨hS, Nat.le_refl S⟩), if_neg (show ¬ S ≤ R % S by omega)] at hends
    refine Nat.dvd_of_mod_eq_zero (Nat.eq_zero_of_not_pos fun hpos => ?_)
    rw [if_pos (show 1 ≤ R % S from hpos)] at hends
    omega
  · intro h z hz z' hz'
    have hzero := Nat.mod_eq_zero_of_dvd h
    have hnot : ∀ w ∈ Icc 1 S, ¬ w ≤ R % S := fun w hw => by
      have := (mem_Icc.mp hw).1
      omega
    rw [card_residue hz, card_residue hz', if_neg (hnot z hz), if_neg (hnot z' hz')]

end Residues
