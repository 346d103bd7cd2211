import Mathlib.Algebra.Order.BigOperators.Ring.Finset
import Mathlib.Tactic.Linarith
import Mathlib.Tactic.Positivity
import MpcVazirani.Residues
import MpcVazirani.SampleMean
import MpcVazirani.Trial

/-! # The mean of a trial

With the sample uniform over `1, …, total` and the string uniform, the total
times the canonical bit has the number of common satisfying assignments as its
mean, and the total times the exact reciprocal of the count has it too.  Both are
one double count, `Dnf.sum_trials`.  Two things separate the program from that:
the table rounds the reciprocal, which shifts the mean by at most `total / 2 ^ 17`,
and the sample is a remainder of coins, which multiplies the number of canonical
coins by `2 ^ W / total` or one more.

Bob's strings are arbitrary wires throughout, so the joint strings are as uniform
as Alice's.
-/
namespace MpcVazirani
open Finset PrefixSums

variable {Ctx : BooleanContext} {N M : Nat}

/-- A table entry is within one half of the exact quotient. -/
theorem abs_entry_sub_le {i : Nat} (hi : 0 < i) : |(entry i : ℚ) - 65536 / i| ≤ 1 / 2 := by
  obtain ⟨hlow, hhigh⟩ := entry_bounds hi
  have hi' : (0 : ℚ) < i := Nat.cast_pos.mpr hi
  have hlow' : (2 : ℚ) * 65536 ≤ 2 * (i * entry i) + i := by exact_mod_cast hlow
  have hhigh' : (2 : ℚ) * (i * entry i) ≤ 2 * 65536 + i := by exact_mod_cast hhigh
  have hquot : (entry i : ℚ) - 65536 / i = (i * entry i - 65536) / i := by
    field_simp
  rw [hquot, abs_div, abs_of_pos hi', div_le_iff₀ hi', abs_le]
  constructor <;> linarith

section TrialOn
variable [NeZero M] (cubes : Fin M → CircuitCube Ctx N) (bob_r : Ctx.BitVecT N)

/-- The trial on a public sample `z` and a public string `r` of Alice's. -/
def trialOn (z : Nat) (r : Fin N → Bool) : TrialWires Ctx N M :=
  trialFrom cubes (cubeIntervals (cubeWeights cubes)) (Ctx.uintConst z) (Ctx.bitVecConst r) bob_r

/-- Its canonical bit. -/
def canonicalOn (z : Nat) (r : Fin N → Bool) : Bool :=
  Ctx.bit (isCanonicalSample (trialOn cubes bob_r z r).index (trialOn cubes bob_r z r).assignment
    cubes)

/-- Its count of satisfied cubes. -/
def countOn (z : Nat) (r : Fin N → Bool) : Nat :=
  Ctx.val (countSatisfiedCubes (trialOn cubes bob_r z r).assignment cubes)

/-- Its table entry. -/
def reciprocalOn (z : Nat) (r : Fin N → Bool) : Nat :=
  Ctx.val (divideLookup (countSatisfiedCubes (trialOn cubes bob_r z r).assignment cubes))

variable {cubes}

/-- A number of a block is a constant of the total's width. -/
theorem inBlock_val_const {j : Fin M} {z : Nat} (hz : InBlock (dnfValue cubes).weights j z) :
    InBlock (dnfValue cubes).weights j
      (Ctx.val (Ctx.uintConst (n := N + Ctx.bitsFor M) z)) := by
  have hle : z ≤ (dnfValue cubes).totalWeight :=
    hz.2.trans (prefixSum_le_sum _ _)
  rw [← val_dnfWeight_cubeWeights] at hle
  rwa [Ctx.val_const (lt_of_le_of_lt hle (Ctx.val_lt _))]

variable [NeZero N] (hwf : (dnfValue cubes).WellFormed)
include hwf

theorem canonicalOn_eq_true {j : Fin M} {z : Nat} (hz : InBlock (dnfValue cubes).weights j z)
    (r : Fin N → Bool) :
    canonicalOn cubes bob_r z r = true ↔
      ∀ k < j, ¬ (cubes k).value.Sat ((cubes j).value.fill fun v => r v ^^ Ctx.bits bob_r v) := by
  have h := bit_canonical_trialFrom hwf (inBlock_val_const hz) (Ctx.bitVecConst r) bob_r
  rwa [Ctx.bits_const] at h

theorem countOn_eq {j : Fin M} {z : Nat} (hz : InBlock (dnfValue cubes).weights j z)
    (r : Fin N → Bool) :
    countOn cubes bob_r z r = (dnfValue cubes).satisfiedCount
      ((cubes j).value.fill fun v => r v ^^ Ctx.bits bob_r v) := by
  have h := bits_assignment_trialFrom (inBlock_val_const hz) (Ctx.bitVecConst r) bob_r
  rw [Ctx.bits_const] at h
  rw [countOn, val_countSatisfiedCubes_eq hwf, ← h]
  rfl

theorem countOn_pos {j : Fin M} {z : Nat} (hz : InBlock (dnfValue cubes).weights j z)
    (r : Fin N → Bool) : 0 < countOn cubes bob_r z r := by
  rw [countOn_eq bob_r hwf hz, Dnf.satisfiedCount_pos]
  exact ⟨j, Cube.fill_sat (Dnf.pad_of_inBlock _ hz) _⟩

theorem reciprocalOn_eq {j : Fin M} {z : Nat} (hz : InBlock (dnfValue cubes).weights j z)
    (r : Fin N → Bool) : reciprocalOn cubes bob_r z r = entry (countOn cubes bob_r z r) := by
  have h := val_reciprocal_trialFrom hwf (inBlock_val_const hz) (Ctx.bitVecConst r) bob_r
  rw [Ctx.bits_const] at h
  rw [countOn_eq bob_r hwf hz]
  exact h

/-- A trial's bit depends on its sample and string only through what they stand
for. -/
theorem bit_canonical_eq_canonicalOn {j : Fin M} {z : DnfWeight Ctx N M}
    (hz : InBlock (dnfValue cubes).weights j (Ctx.val z)) (a : Ctx.BitVecT N) :
    Ctx.bit (isCanonicalSample
        (trialFrom cubes (cubeIntervals (cubeWeights cubes)) z a bob_r).index
        (trialFrom cubes (cubeIntervals (cubeWeights cubes)) z a bob_r).assignment cubes) =
      canonicalOn cubes bob_r (Ctx.val z) (Ctx.bits a) := by
  rw [Bool.eq_iff_iff, bit_canonical_trialFrom hwf hz, canonicalOn_eq_true bob_r hwf hz]

/-! ## The two coverage identities -/

/-- **The canonical trials are `2 ^ N` for each satisfying assignment.** -/
theorem sum_canonicalOn :
    ∑ z ∈ Icc 1 (dnfValue cubes).totalWeight, ∑ r,
        (if canonicalOn cubes bob_r z r = true then 1 else 0) =
      2 ^ N * #(dnfValue cubes).models := by
  rw [Dnf.sum_trials hwf (Ctx.bits bob_r)
    (g := fun j x => if ∀ k < j, ¬ (cubes k).value.Sat x then 1 else 0)]
  · rw [← Dnf.sum_canonical, smul_eq_mul]
    rfl
  · intro j z hz r
    simp only [canonicalOn_eq_true bob_r hwf hz]
    rfl

theorem card_canonicalOn :
    #{p ∈ Icc 1 (dnfValue cubes).totalWeight ×ˢ (univ : Finset (Fin N → Bool)) |
        canonicalOn cubes bob_r p.1 p.2 = true} = 2 ^ N * #(dnfValue cubes).models := by
  rw [← sum_canonicalOn bob_r hwf]
  exact (card_filter _ _).trans (sum_product _ _ _)

/-- **The total times the frequency of canonical trials is the number of satisfying
assignments.** -/
theorem totalWeight_mul_frequency (hS : 0 < (dnfValue cubes).totalWeight) :
    ((dnfValue cubes).totalWeight : ℚ) *
        SampleMean.frequency (Icc 1 (dnfValue cubes).totalWeight ×ˢ (univ : Finset (Fin N → Bool)))
          (fun p => canonicalOn cubes bob_r p.1 p.2 = true) =
      #(dnfValue cubes).models := by
  have hS' : ((dnfValue cubes).totalWeight : ℚ) ≠ 0 := Nat.cast_ne_zero.mpr (Nat.ne_of_gt hS)
  have hcard : (#(Icc 1 (dnfValue cubes).totalWeight ×ˢ (univ : Finset (Fin N → Bool))) : ℚ) =
      (dnfValue cubes).totalWeight * 2 ^ N := by
    simp [card_product]
  rw [SampleMean.frequency, card_canonicalOn bob_r hwf, hcard]
  push_cast
  field_simp

/-- **The exact reciprocals of the counts add up to `2 ^ N` for each satisfying
assignment.** -/
theorem sum_inv_countOn (c : ℚ) :
    ∑ z ∈ Icc 1 (dnfValue cubes).totalWeight, ∑ r, c / countOn cubes bob_r z r =
      c * 2 ^ N * #(dnfValue cubes).models := by
  rw [Dnf.sum_trials hwf (Ctx.bits bob_r)
    (g := fun _ x => c / (dnfValue cubes).satisfiedCount x)]
  · rw [Dnf.sum_reciprocal, nsmul_eq_mul]
    push_cast
    ring
  · intro j z hz r
    rw [countOn_eq bob_r hwf hz]
    rfl

/-! ## Rounding -/

/-- **Rounding shifts the sum of the reciprocals by at most one half a trial.** -/
theorem abs_sum_reciprocalOn_sub_le :
    |∑ z ∈ Icc 1 (dnfValue cubes).totalWeight, ∑ r, (reciprocalOn cubes bob_r z r : ℚ) -
        65536 * 2 ^ N * #(dnfValue cubes).models| ≤
      (dnfValue cubes).totalWeight * 2 ^ N / 2 := by
  have hterm : ∀ z ∈ Icc 1 (dnfValue cubes).totalWeight, ∀ r,
      |(reciprocalOn cubes bob_r z r : ℚ) - 65536 / countOn cubes bob_r z r| ≤ 1 / 2 := by
    intro z hz r
    obtain ⟨hlow, hhigh⟩ := mem_Icc.mp hz
    obtain ⟨j, hj⟩ := exists_inBlock _ hlow hhigh
    rw [reciprocalOn_eq bob_r hwf hj]
    exact abs_entry_sub_le (countOn_pos bob_r hwf hj r)
  rw [← sum_inv_countOn bob_r hwf, ← sum_sub_distrib]
  simp only [← sum_sub_distrib]
  calc |∑ z ∈ Icc 1 (dnfValue cubes).totalWeight, ∑ r,
          ((reciprocalOn cubes bob_r z r : ℚ) - 65536 / countOn cubes bob_r z r)|
      ≤ ∑ z ∈ Icc 1 (dnfValue cubes).totalWeight, ∑ _r : Fin N → Bool, (1 / 2 : ℚ) := by
        refine (abs_sum_le_sum_abs _ _).trans (sum_le_sum fun z hz => ?_)
        exact (abs_sum_le_sum_abs _ _).trans (sum_le_sum fun r _ => hterm z hz r)
    _ = (dnfValue cubes).totalWeight * 2 ^ N / 2 := by
        simp only [sum_const, card_univ, Fintype.card_fun, Fintype.card_bool, Fintype.card_fin,
          Nat.card_Icc, Nat.add_sub_cancel, nsmul_eq_mul]
        push_cast
        ring

/-! ## The real coins -/

/-- Over all of Alice's coins the canonical bits add up to their sum over the
reduced numbers. -/
theorem sum_canonical_coins (hS : 0 < Ctx.val (dnfWeight (cubeWeights cubes)))
    (bob_s : SampleBits Ctx N M) :
    ∑ a : Fin (N + Ctx.bitsFor M) → Bool, ∑ r : Fin N → Bool,
        (if Ctx.bit (isCanonicalSample
            (trial cubes (dnfWeight (cubeWeights cubes)) (cubeIntervals (cubeWeights cubes))
              (Ctx.bitVecConst a) bob_s (Ctx.bitVecConst r) bob_r).index
            (trial cubes (dnfWeight (cubeWeights cubes)) (cubeIntervals (cubeWeights cubes))
              (Ctx.bitVecConst a) bob_s (Ctx.bitVecConst r) bob_r).assignment cubes) = true
          then 1 else 0) =
      ∑ n ∈ range (2 ^ (N + Ctx.bitsFor M)), ∑ r,
        if canonicalOn cubes bob_r (n % (dnfValue cubes).totalWeight + 1) r = true then 1 else 0 := by
  rw [← BitStrings.sum_ofBits, ← BitStrings.sum_xor (Ctx.bits bob_s) fun v => ∑ r,
    if canonicalOn cubes bob_r (Nat.ofBits v % (dnfValue cubes).totalWeight + 1) r = true
      then 1 else 0]
  refine sum_congr rfl fun a _ => sum_congr rfl fun r _ => ?_
  obtain ⟨-, -, j, hj⟩ := exists_block_sampleInRange hS (Ctx.bitVecConst a) bob_s
  have hval : Ctx.val (sampleInRange (Ctx.bitVecConst a) bob_s _) = _ := val_sampleInRange hS
  rw [jointSample, Ctx.bits_const, val_dnfWeight_cubeWeights] at hval
  rw [trial, bit_canonical_eq_canonicalOn bob_r hwf hj, Ctx.bits_const, hval]

end TrialOn

section Conjunction
variable {CUBES : Nat} [NeZero N] [NeZero CUBES] (alice : Fin CUBES → CircuitCube Ctx N)
  {bob : Fin CUBES → CircuitCube Ctx N}

/-- **The Karp-Luby identity**: over all samples and all strings the canonical
trials are `2 ^ N` for each common satisfying assignment, so the total times the
mean of the bit is their number. -/
theorem card_canonical_trials (hb : (dnfValue bob).WellFormed)
    (hS : 0 < Ctx.val (dnfWeight (cubeWeights (conjoinDnf alice bob)))) (bob_r : Ctx.BitVecT N) :
    let C := conjoinDnf alice bob
    let S := Ctx.val (dnfWeight (cubeWeights C))
    let U := (dnfValue alice).models ∩ (dnfValue bob).models
    let T := Icc 1 S ×ˢ (univ : Finset (Fin N → Bool))
    let good := #{p ∈ T | canonicalOn C bob_r p.1 p.2 = true}
    good = 2 ^ N * #U ∧ (S : ℚ) * (good / #T) = #U := by
  intro C S U T good
  have hwf : (dnfValue C).WellFormed := conjoinDnf_wellFormed alice hb
  have hgood := card_canonicalOn bob_r hwf
  rw [conjoinDnf_models, ← val_dnfWeight_cubeWeights] at hgood
  have hmean := totalWeight_mul_frequency bob_r hwf (by rwa [← val_dnfWeight_cubeWeights])
  rw [conjoinDnf_models, ← val_dnfWeight_cubeWeights] at hmean
  exact ⟨hgood, hmean⟩

/-- The demo's conjunction. -/
theorem card_canonical_trials_demo :
    #{p ∈ Icc 1 (clearContext.val (dnfWeight (cubeWeights demoCubes))) ×ˢ
        (univ : Finset (Fin 4 → Bool)) | canonicalOn demoCubes (fun _ => false) p.1 p.2 = true} =
      2 ^ 4 * #((dnfValue (clearCubes aliceDnf)).models ∩ (dnfValue (clearCubes bobDnf)).models) :=
  (card_canonical_trials (clearCubes aliceDnf) demo_wellFormed demo_total_pos fun _ => false).1

/-- **The Vazirani identity**: over all samples and all strings the table entries
add up to `65536 * 2 ^ N` for each common satisfying assignment, up to one half a
trial, and without rounding exactly; so the total times the mean entry over 65536
is within `total / 2 ^ 17` of the number of common satisfying assignments. -/
theorem abs_sum_reciprocals_sub_le (hb : (dnfValue bob).WellFormed)
    (hS : 0 < Ctx.val (dnfWeight (cubeWeights (conjoinDnf alice bob)))) (bob_r : Ctx.BitVecT N) :
    let C := conjoinDnf alice bob
    let S := Ctx.val (dnfWeight (cubeWeights C))
    let U := (dnfValue alice).models ∩ (dnfValue bob).models
    let T := Icc 1 S ×ˢ (univ : Finset (Fin N → Bool))
    let sumX := ∑ p ∈ T, (reciprocalOn C bob_r p.1 p.2 : ℚ)
    |sumX - 65536 * 2 ^ N * #U| ≤ S * 2 ^ N / 2 ∧
    ∑ p ∈ T, (65536 : ℚ) / countOn C bob_r p.1 p.2 = 65536 * 2 ^ N * #U ∧
    |S * (sumX / #T) / 65536 - #U| ≤ S / 2 ^ 17 := by
  intro C S U T sumX
  have hwf : (dnfValue C).WellFormed := conjoinDnf_wellFormed alice hb
  have hround : |sumX - 65536 * 2 ^ N * #U| ≤ S * 2 ^ N / 2 := by
    have h := abs_sum_reciprocalOn_sub_le bob_r hwf
    rw [conjoinDnf_models, ← val_dnfWeight_cubeWeights] at h
    rwa [show sumX = _ from sum_product _ _ _]
  have hexact : ∑ p ∈ T, (65536 : ℚ) / countOn C bob_r p.1 p.2 = 65536 * 2 ^ N * #U := by
    have h := sum_inv_countOn bob_r hwf 65536
    rw [conjoinDnf_models, ← val_dnfWeight_cubeWeights] at h
    rw [← h]
    exact sum_product _ _ _
  refine ⟨hround, hexact, ?_⟩
  have hpairs : (#T : ℚ) = S * 2 ^ N := by
    simp [T, card_product]
  have hS' : (0 : ℚ) < S := Nat.cast_pos.mpr hS
  have hscale : (0 : ℚ) < 65536 * 2 ^ N := by positivity
  have hdiff : S * (sumX / #T) / 65536 - #U =
      (sumX - 65536 * 2 ^ N * #U) / (65536 * 2 ^ N) := by
    rw [hpairs]
    field_simp
  rw [hdiff, abs_div, abs_of_pos hscale, div_le_iff₀ hscale]
  refine hround.trans (le_of_eq ?_)
  ring

/-- The demo's conjunction. -/
theorem abs_sum_reciprocals_sub_le_demo :
    |∑ p ∈ Icc 1 (clearContext.val (dnfWeight (cubeWeights demoCubes))) ×ˢ
          (univ : Finset (Fin 4 → Bool)), (reciprocalOn demoCubes (fun _ => false) p.1 p.2 : ℚ) -
        65536 * 2 ^ 4 *
          #((dnfValue (clearCubes aliceDnf)).models ∩ (dnfValue (clearCubes bobDnf)).models)| ≤
      (clearContext.val (dnfWeight (cubeWeights demoCubes)) : ℚ) * 2 ^ 4 / 2 :=
  (abs_sum_reciprocals_sub_le (clearCubes aliceDnf) demo_wellFormed demo_total_pos
    fun _ => false).1

/-- **The bias of the real coins.**  Of the coins Alice may toss, those that make
the trial canonical number between `q` and `q + 1` times `2 ^ N` for each common
satisfying assignment, where `q = 2 ^ W / total` is at least one; so the true mean
of the trial's estimate is within a factor of two. -/
theorem card_canonical_coins (hb : (dnfValue bob).WellFormed)
    (hS : 0 < Ctx.val (dnfWeight (cubeWeights (conjoinDnf alice bob))))
    (bob_s : SampleBits Ctx N (CUBES * CUBES)) (bob_r : Ctx.BitVecT N) :
    let C := conjoinDnf alice bob
    let S := Ctx.val (dnfWeight (cubeWeights C))
    let U := (dnfValue alice).models ∩ (dnfValue bob).models
    let W := N + Ctx.bitsFor (CUBES * CUBES)
    let q := 2 ^ W / S
    let t := fun p : (Fin W → Bool) × (Fin N → Bool) =>
      trial C (dnfWeight (cubeWeights C)) (cubeIntervals (cubeWeights C)) (Ctx.bitVecConst p.1)
        bob_s (Ctx.bitVecConst p.2) bob_r
    let P := #{p | Ctx.bit (isCanonicalSample (t p).index (t p).assignment C) = true}
    1 ≤ q ∧ q * 2 ^ N * #U ≤ P ∧ P ≤ (q + 1) * 2 ^ N * #U ∧
      (#U : ℚ) / 2 ≤ S * P / (2 ^ W * 2 ^ N) ∧ (S : ℚ) * P / (2 ^ W * 2 ^ N) ≤ 2 * #U := by
  intro C S U W q t P
  have hwf : (dnfValue C).WellFormed := conjoinDnf_wellFormed alice hb
  have hSW : S < 2 ^ W := Ctx.val_lt _
  have hq : 1 ≤ q := (Nat.one_le_div_iff hS).mpr (Nat.le_of_lt hSW)
  have hP : P = ∑ n ∈ range (2 ^ W), ∑ r,
      if canonicalOn C bob_r (n % S + 1) r = true then 1 else 0 := by
    have hsum := sum_canonical_coins bob_r hwf hS bob_s
    rw [← val_dnfWeight_cubeWeights] at hsum
    rw [← hsum]
    exact (card_filter _ _).trans (Fintype.sum_prod_type _)
  have hbounds := Residues.sum_range_bounds S
    (fun z => ∑ r, if canonicalOn C bob_r z r = true then 1 else 0) hS (2 ^ W)
  rw [← hP] at hbounds
  have hsum := sum_canonicalOn bob_r hwf
  rw [conjoinDnf_models, ← val_dnfWeight_cubeWeights] at hsum
  rw [hsum] at hbounds
  obtain ⟨hlow, hhigh⟩ :=
    Residues.mul_bounds_of_periods hS (Nat.le_of_lt hSW) hbounds.1 hbounds.2
  rw [← Nat.mul_assoc, ← Nat.mul_assoc] at hbounds
  have hlow' : (2 : ℚ) ^ W * (2 ^ N * #U) ≤ 2 * (S * P) := by exact_mod_cast hlow
  have hhigh' : (S : ℚ) * P ≤ 2 * (2 ^ W * (2 ^ N * #U)) := by exact_mod_cast hhigh
  have hcoins : (0 : ℚ) < 2 ^ W * 2 ^ N := by positivity
  refine ⟨hq, hbounds.1, hbounds.2, ?_, ?_⟩
  · rw [le_div_iff₀ hcoins]
    linarith
  · rw [div_le_iff₀ hcoins]
    linarith

/-- The demo's conjunction. -/
theorem card_canonical_coins_demo :
    1 ≤ 2 ^ (4 + clearContext.bitsFor (2 * 2)) /
      clearContext.val (dnfWeight (cubeWeights demoCubes)) :=
  (card_canonical_coins (clearCubes aliceDnf) demo_wellFormed demo_total_pos (fun _ => false)
    fun _ => false).1

end Conjunction

end MpcVazirani
