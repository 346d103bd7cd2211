import MpcVazirani.Unbiased

/-! # What a trial contributes

The sample and the string of a trial are uniform.  Over all of them an assignment that
satisfies `c` cubes comes up `2 ^ N` times in each of the `c`, so how often a contribution
takes a value depends only on the counts of the assignments (`card_reciprocalOn_eq`).  With
it the whole distribution of an estimate does, whatever cubes the counts come from:
exchanging the parties, reordering a formula and padding it leave it as it is
(`estimates_law_congr`).

Both contributions of a trial have the same mean but for rounding.  An assignment that
satisfies `c` cubes comes up in `c` of them: there Karp-Luby counts it once with the full
scale, Vazirani `c` times with the rounded `c`-th part.  So Vazirani's contribution has
the smaller second moment, also with the rounding, which never makes up for the division;
and the two agree exactly where there is nothing to divide.
-/
namespace MpcVazirani
open Finset PrefixSums SampleMean

/-! ## How often a contribution takes a value -/

section Values
variable {Ctx : BooleanContext} {N M : Nat} [NeZero M] [NeZero N] {cubes : Fin M → CircuitCube Ctx N}
  (bob_r : Ctx.BitVecT N) (hwf : (dnfValue cubes).WellFormed)
include hwf

/-- The trials with a given table entry. -/
theorem card_reciprocalOn_eq (v : Nat) :
    #{p ∈ Icc 1 (dnfValue cubes).totalWeight ×ˢ (univ : Finset (Fin N → Bool)) |
        reciprocalOn cubes bob_r p.1 p.2 = v} =
      2 ^ N * ∑ x, (dnfValue cubes).satisfiedCount x *
        if entry ((dnfValue cubes).satisfiedCount x) = v then 1 else 0 := by
  rw [card_filter, sum_product, Dnf.sum_trials hwf (Ctx.bits bob_r)
    (g := fun _ x => if entry ((dnfValue cubes).satisfiedCount x) = v then 1 else 0)]
  · rw [Dnf.sum_models, smul_eq_mul]
    congr 1
    refine sum_subset (subset_univ _) fun x _ hx => ?_
    have hnone : ¬ (dnfValue cubes).Sat x := fun h => hx (Dnf.mem_models.mpr h)
    rw [← Dnf.satisfiedCount_pos] at hnone
    rw [Nat.eq_zero_of_not_pos hnone, zero_smul]
  · intro j z hz r
    rw [reciprocalOn_eq bob_r hwf hz, countOn_eq bob_r hwf hz]
    rfl

/-- The trials with a given canonical bit. -/
theorem card_canonicalOn_eq (b : Bool) :
    #{p ∈ Icc 1 (dnfValue cubes).totalWeight ×ˢ (univ : Finset (Fin N → Bool)) |
        canonicalOn cubes bob_r p.1 p.2 = b} =
      if b then 2 ^ N * #(dnfValue cubes).models
      else (dnfValue cubes).totalWeight * 2 ^ N - 2 ^ N * #(dnfValue cubes).models := by
  cases b with
  | true => exact card_canonicalOn bob_r hwf
  | false =>
    have hsplit := card_filter_add_card_filter_not
      (s := Icc 1 (dnfValue cubes).totalWeight ×ˢ (univ : Finset (Fin N → Bool)))
      fun p => canonicalOn cubes bob_r p.1 p.2 = true
    have hall : #(Icc 1 (dnfValue cubes).totalWeight ×ˢ (univ : Finset (Fin N → Bool))) =
        (dnfValue cubes).totalWeight * 2 ^ N := by simp [card_product]
    rw [card_canonicalOn bob_r hwf, hall] at hsplit
    simp only [Bool.not_eq_true] at hsplit
    exact Nat.eq_sub_of_add_eq' hsplit

end Values

section Laws
variable {Ctx : BooleanContext} {N K : Nat} [NeZero N]

/-- **The counts determine the laws.**  Two pairs of formulas whose counts multiply to the
same number for every assignment have the same total, and both estimates take every value
for as many sequences of samples and strings. -/
theorem estimates_law_congr {CUBES CUBES' : Nat} [NeZero CUBES] [NeZero CUBES']
    {alice bob : Fin CUBES → CircuitCube Ctx N} {alice' bob' : Fin CUBES' → CircuitCube Ctx N}
    (hb : (dnfValue bob).WellFormed) (hb' : (dnfValue bob').WellFormed)
    (hcounts : ∀ x, (dnfValue alice).satisfiedCount x * (dnfValue bob).satisfiedCount x =
      (dnfValue alice').satisfiedCount x * (dnfValue bob').satisfiedCount x)
    (bob_r bob_r' : Ctx.BitVecT N) :
    let C := conjoinDnf alice bob
    let C' := conjoinDnf alice' bob'
    let S := dnfWeight (cubeWeights C)
    let S' := dnfWeight (cubeWeights C')
    let T := fun S => Icc 1 S ×ˢ (univ : Finset (Fin N → Bool))
    Ctx.val S = Ctx.val S' ∧ ∀ v,
      #{p ∈ tuples (T (Ctx.val S)) K | Ctx.val (vaziraniEstimate S fun t => divideLookup
          (countSatisfiedCubes (trialOn C bob_r (p t).1 (p t).2).assignment C)) = v} =
        #{p ∈ tuples (T (Ctx.val S')) K | Ctx.val (vaziraniEstimate S' fun t => divideLookup
          (countSatisfiedCubes (trialOn C' bob_r' (p t).1 (p t).2).assignment C')) = v} ∧
      #{p ∈ tuples (T (Ctx.val S)) K | Ctx.val (karpLubyEstimate S fun t => isCanonicalSample
          (trialOn C bob_r (p t).1 (p t).2).index (trialOn C bob_r (p t).1 (p t).2).assignment C) = v} =
        #{p ∈ tuples (T (Ctx.val S')) K | Ctx.val (karpLubyEstimate S' fun t => isCanonicalSample
          (trialOn C' bob_r' (p t).1 (p t).2).index
          (trialOn C' bob_r' (p t).1 (p t).2).assignment C') = v} := by
  intro C C' S S' T
  have hwf : (dnfValue C).WellFormed := conjoinDnf_wellFormed alice hb
  have hwf' : (dnfValue C').WellFormed := conjoinDnf_wellFormed alice' hb'
  have hcount : ∀ x, (dnfValue C).satisfiedCount x = (dnfValue C').satisfiedCount x := fun x => by
    rw [conjoinDnf_satisfiedCount, conjoinDnf_satisfiedCount, hcounts]
  have hS : Ctx.val S = (dnfValue C).totalWeight := val_dnfWeight_cubeWeights C
  have hS' : Ctx.val S' = (dnfValue C').totalWeight := val_dnfWeight_cubeWeights C'
  have htotal : (dnfValue C).totalWeight = (dnfValue C').totalWeight := by
    rw [Dnf.totalWeight_eq_sum, Dnf.totalWeight_eq_sum, funext hcount]
  have hmodels : (dnfValue C).models = (dnfValue C').models := by
    ext x
    rw [Dnf.mem_models, Dnf.mem_models, ← Dnf.satisfiedCount_pos, ← Dnf.satisfiedCount_pos, hcount]
  refine ⟨by rw [hS, hS', htotal], fun v => ⟨?_, ?_⟩⟩
  · have hcards : ∀ v, #{p ∈ T (dnfValue C).totalWeight | reciprocalOn C bob_r p.1 p.2 = v} =
        #{p ∈ T (dnfValue C').totalWeight | reciprocalOn C' bob_r' p.1 p.2 = v} := fun v => by
      rw [card_reciprocalOn_eq bob_r hwf, card_reciprocalOn_eq bob_r' hwf']
      simp only [hcount]
    have hlaw := card_tuples_congr (K := K) hcards fun y => (dnfValue C).totalWeight * ∑ t, y t = v
    simp only [val_vaziraniEstimate, hS, hS']
    rw [htotal] at hlaw ⊢
    exact hlaw
  · have hcards : ∀ b, #{p ∈ T (dnfValue C).totalWeight | canonicalOn C bob_r p.1 p.2 = b} =
        #{p ∈ T (dnfValue C').totalWeight | canonicalOn C' bob_r' p.1 p.2 = b} := fun b => by
      rw [card_canonicalOn_eq bob_r hwf, card_canonicalOn_eq bob_r' hwf', htotal, hmodels]
    have hlaw := card_tuples_congr (K := K) hcards
      fun y => (dnfValue C).totalWeight * #{t | y t = true} = v
    simp only [val_karpLubyEstimate, hS, hS']
    rw [htotal] at hlaw ⊢
    exact hlaw

end Laws

/-- The demo with the parties exchanged. -/
theorem estimates_law_congr_exchanged :
    let C := conjoinDnf (clearCubes bobDnf) (clearCubes aliceDnf)
    let T := fun S => Icc 1 S ×ˢ (univ : Finset (Fin 4 → Bool))
    (#{p ∈ tuples (T (clearContext.val (dnfWeight (cubeWeights demoCubes)))) 3 |
        clearContext.val (vaziraniEstimate (dnfWeight (cubeWeights demoCubes)) fun t => divideLookup
          (countSatisfiedCubes (trialOn demoCubes (fun _ => false) (p t).1 (p t).2).assignment
            demoCubes)) = 65536} : Nat) =
      #{p ∈ tuples (T (clearContext.val (dnfWeight (cubeWeights C)))) 3 |
        clearContext.val (vaziraniEstimate (dnfWeight (cubeWeights C)) fun t => divideLookup
          (countSatisfiedCubes (trialOn C (fun _ => false) (p t).1 (p t).2).assignment C)) = 65536} :=
  ((estimates_law_congr (K := 3) demo_wellFormed (by decide) (fun _ => Nat.mul_comm _ _)
    (fun _ => false) fun _ => false).2 65536).1

/-! ## Second moments -/

/-- The `c`-th part of the scale, squared and taken `c` times, rounded or not, is less than
the square of the scale. -/
theorem mul_entry_sq_lt {c : Nat} (hc : 2 ≤ c) : c * entry c ^ 2 < kDivideLookupScale ^ 2 := by
  have hscale : kDivideLookupScale = 65536 := rfl
  rcases Nat.lt_or_ge (2 ^ 17) c with hbig | hsmall
  · -- such a part is rounded to zero
    have hzero : entry c = 0 := by
      refine Nat.div_eq_of_lt ?_
      rw [hscale]
      omega
    rw [hzero, hscale]
    norm_num
  · obtain ⟨-, hhigh⟩ := entry_bounds (Nat.zero_lt_of_lt hc)
    rw [hscale] at hhigh ⊢
    refine Nat.lt_of_mul_lt_mul_left (a := 4 * c) ?_
    calc 4 * c * (c * entry c ^ 2) = (2 * (c * entry c)) ^ 2 := by ring
      _ ≤ (2 * 65536 + c) ^ 2 := Nat.pow_le_pow_left hhigh 2
      _ < 4 * c * 65536 ^ 2 := by nlinarith

namespace Dnf
variable {N M : Nat} {d : Dnf N M}

/-- No assignment satisfies two cubes, in terms of the counts. -/
theorem forall_satisfiedCount_eq_one_iff :
    (∀ x ∈ d.models, d.satisfiedCount x = 1) ↔
      ∀ i j, i ≠ j → ¬ ∃ x, (d.cubes i).Sat x ∧ (d.cubes j).Sat x := by
  constructor
  · rintro hone i j hij ⟨x, hi, hj⟩
    have htwo : 1 < d.satisfiedCount x := one_lt_card.mpr
      ⟨i, mem_filter.mpr ⟨mem_univ i, hi⟩, j, mem_filter.mpr ⟨mem_univ j, hj⟩, hij⟩
    rw [hone x (mem_models.mpr ⟨i, hi⟩)] at htwo
    exact absurd htwo (Nat.lt_irrefl 1)
  · intro hdisj x hx
    obtain ⟨j, hj⟩ := mem_models.mp hx
    exact d.satisfiedCount_eq_one hdisj hj

end Dnf

section Moments
variable {Ctx : BooleanContext} {N M : Nat} [NeZero M] [NeZero N] {cubes : Fin M → CircuitCube Ctx N}
  (bob_r : Ctx.BitVecT N) (hwf : (dnfValue cubes).WellFormed)
include hwf

/-- Vazirani's second moment. -/
theorem sum_sq_reciprocalOn :
    ∑ p ∈ Icc 1 (dnfValue cubes).totalWeight ×ˢ (univ : Finset (Fin N → Bool)),
        reciprocalOn cubes bob_r p.1 p.2 ^ 2 =
      2 ^ N * ∑ x ∈ (dnfValue cubes).models, (dnfValue cubes).satisfiedCount x *
        entry ((dnfValue cubes).satisfiedCount x) ^ 2 := by
  rw [sum_product, Dnf.sum_trials hwf (Ctx.bits bob_r)
    (g := fun _ x => entry ((dnfValue cubes).satisfiedCount x) ^ 2)]
  · rw [Dnf.sum_models]
    rfl
  · intro j z hz r
    rw [reciprocalOn_eq bob_r hwf hz, countOn_eq bob_r hwf hz]
    rfl

/-- Karp-Luby's, at the same scale. -/
theorem sum_sq_canonicalOn :
    ∑ p ∈ Icc 1 (dnfValue cubes).totalWeight ×ˢ (univ : Finset (Fin N → Bool)),
        (if canonicalOn cubes bob_r p.1 p.2 = true then kDivideLookupScale else 0) ^ 2 =
      2 ^ N * ∑ _x ∈ (dnfValue cubes).models, kDivideLookupScale ^ 2 := by
  have hsq : ∀ p : Nat × (Fin N → Bool),
      (if canonicalOn cubes bob_r p.1 p.2 = true then kDivideLookupScale else 0) ^ 2 =
        if canonicalOn cubes bob_r p.1 p.2 = true then kDivideLookupScale ^ 2 else 0 := by
    intro p
    split_ifs <;> rfl
  simp only [hsq]
  rw [← sum_filter, sum_const, card_canonicalOn bob_r hwf, sum_const, smul_eq_mul, smul_eq_mul,
    Nat.mul_assoc]

/-- The one is at most the other, and the two are equal where all counts are one. -/
theorem sum_sq_reciprocalOn_le_iff :
    (∑ p ∈ Icc 1 (dnfValue cubes).totalWeight ×ˢ (univ : Finset (Fin N → Bool)),
        reciprocalOn cubes bob_r p.1 p.2 ^ 2 ≤
      ∑ p ∈ Icc 1 (dnfValue cubes).totalWeight ×ˢ (univ : Finset (Fin N → Bool)),
        (if canonicalOn cubes bob_r p.1 p.2 = true then kDivideLookupScale else 0) ^ 2) ∧
    (∑ p ∈ Icc 1 (dnfValue cubes).totalWeight ×ˢ (univ : Finset (Fin N → Bool)),
        reciprocalOn cubes bob_r p.1 p.2 ^ 2 =
      ∑ p ∈ Icc 1 (dnfValue cubes).totalWeight ×ˢ (univ : Finset (Fin N → Bool)),
        (if canonicalOn cubes bob_r p.1 p.2 = true then kDivideLookupScale else 0) ^ 2 ↔
      ∀ x ∈ (dnfValue cubes).models, (dnfValue cubes).satisfiedCount x = 1) := by
  have hterm : ∀ x ∈ (dnfValue cubes).models, (dnfValue cubes).satisfiedCount x *
      entry ((dnfValue cubes).satisfiedCount x) ^ 2 ≤ kDivideLookupScale ^ 2 := by
    intro x hx
    have hpos := Dnf.satisfiedCount_pos.mpr (Dnf.mem_models.mp hx)
    rcases Nat.lt_or_ge ((dnfValue cubes).satisfiedCount x) 2 with hone | htwo
    · rw [show (dnfValue cubes).satisfiedCount x = 1 by omega, entry_one, Nat.one_mul]
    · exact (mul_entry_sq_lt htwo).le
  rw [sum_sq_reciprocalOn bob_r hwf, sum_sq_canonicalOn bob_r hwf]
  refine ⟨Nat.mul_le_mul_left _ (sum_le_sum hterm), ?_⟩
  rw [Nat.mul_right_inj (Nat.two_pow_pos N).ne', sum_eq_sum_iff_of_le hterm]
  refine forall₂_congr fun x hx => ?_
  have hpos := Dnf.satisfiedCount_pos.mpr (Dnf.mem_models.mp hx)
  constructor
  · intro heq
    by_contra hne
    exact absurd heq (mul_entry_sq_lt (by omega)).ne
  · intro hone
    rw [hone, entry_one, Nat.one_mul]

end Moments

/-- **Vazirani's contributions have the smaller second moment**, the rounding included: over
all samples and strings the squares of its table entries add up to at most the squares of
Karp-Luby's bits at the same scale, and to as much exactly when no assignment satisfies two
cubes of the conjunction. -/
theorem vazirani_second_moment {Ctx : BooleanContext} {N CUBES : Nat} [NeZero N] [NeZero CUBES]
    (alice : Fin CUBES → CircuitCube Ctx N) {bob : Fin CUBES → CircuitCube Ctx N}
    (hb : (dnfValue bob).WellFormed) (bob_r : Ctx.BitVecT N) :
    let C := conjoinDnf alice bob
    let T := Icc 1 (Ctx.val (dnfWeight (cubeWeights C))) ×ˢ (univ : Finset (Fin N → Bool))
    let vazirani := ∑ p ∈ T, reciprocalOn C bob_r p.1 p.2 ^ 2
    let karpLuby := ∑ p ∈ T,
      (if canonicalOn C bob_r p.1 p.2 = true then kDivideLookupScale else 0) ^ 2
    vazirani ≤ karpLuby ∧
      (vazirani = karpLuby ↔ ∀ i j, i ≠ j → ¬ ∃ x, (C i).value.Sat x ∧ (C j).value.Sat x) := by
  intro C T vazirani karpLuby
  have hwf : (dnfValue C).WellFormed := conjoinDnf_wellFormed alice hb
  have h := sum_sq_reciprocalOn_le_iff bob_r hwf
  rw [← val_dnfWeight_cubeWeights, Dnf.forall_satisfiedCount_eq_one_iff] at h
  exact h

/-- The demo's conjunction. -/
theorem vazirani_second_moment_demo :
    ∑ p ∈ Icc 1 (clearContext.val (dnfWeight (cubeWeights demoCubes))) ×ˢ
        (univ : Finset (Fin 4 → Bool)), reciprocalOn demoCubes (fun _ => false) p.1 p.2 ^ 2 ≤
      ∑ p ∈ Icc 1 (clearContext.val (dnfWeight (cubeWeights demoCubes))) ×ˢ
        (univ : Finset (Fin 4 → Bool)),
        (if canonicalOn demoCubes (fun _ => false) p.1 p.2 = true then kDivideLookupScale
          else 0) ^ 2 :=
  (vazirani_second_moment (clearCubes aliceDnf) demo_wellFormed fun _ => false).1

end MpcVazirani
