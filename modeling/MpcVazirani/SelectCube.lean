import Mathlib.Data.Nat.Prime.Basic
import Mathlib.Data.Nat.Factorization.Basic
import MpcVazirani.Residues
import MpcVazirani.Weight

/-! # Selecting a cube and completing it

`gadgets/general/select_cube.h` and `random_assignment.h`.  A joint sample
`(alice_r ^ bob_r) % total + 1` picks a number of `1, …, total`, the index of its
block is the number of boundaries below it, and a mux over all cubes looks the
cube up; the free variables are then filled with a second joint string.  The
lemmas give the value of each wire without assuming anything of the stage before
it, except that a sample needs a total above zero.
-/
namespace MpcVazirani
open Finset ForLoop PrefixSums

variable {Ctx : BooleanContext} {N M : Nat}

/-- `gadgets::SampleBits<Ctx, N, M>`. -/
abbrev SampleBits (Ctx : BooleanContext) (N M : Nat) := Ctx.BitVecT (N + Ctx.bitsFor M)

/-- `gadgets::sample_in_range`. -/
def sampleInRange (alice_r bob_r : SampleBits Ctx N M) (total : DnfWeight Ctx N M) :
    DnfWeight Ctx N M :=
  let joint_r := Ctx.asUint (Ctx.bitVecXor alice_r bob_r)
  Ctx.uintAdd (Ctx.uintMod joint_r total) (Ctx.uintConst 1)

/-- `gadgets::CubeIndex<Ctx, M>`. -/
abbrev CubeIndex (Ctx : BooleanContext) (M : Nat) := Ctx.UIntT (Ctx.bitsFor (M + 1))

/-- The loop of `select_cube_index` when its variable has reached `i`. -/
def selectCubeIndexFrom (z : DnfWeight Ctx N M) (intervals : Fin (M + 1) → DnfWeight Ctx N M)
    (i : Nat) (h : i ≤ M + 1) : CubeIndex Ctx M :=
  forLoop 0 (fun i count => Ctx.uintAdd count (indicator (Ctx.uintGt z (intervals i))))
    (Ctx.uintConst 0) i h

/-- `gadgets::select_cube_index`. -/
def selectCubeIndex (z : DnfWeight Ctx N M) (intervals : Fin (M + 1) → DnfWeight Ctx N M) :
    CubeIndex Ctx M :=
  selectCubeIndexFrom z intervals (M + 1) (Nat.le_refl _)

/-- `gadgets::cube_at_index`: a mux over the cubes, the first one the default. -/
def cubeAtIndex [NeZero M] (index : CubeIndex Ctx M) (cubes : Fin M → CircuitCube Ctx N) :
    CubeData Ctx N :=
  forLoop 1 (fun i (found : CubeData Ctx N) =>
      let isMatch := Ctx.uintEq index (Ctx.uintConst (i + 1))
      { bits := Ctx.bitVecSelect found.bits isMatch (cubes i).bits
        mask := Ctx.bitVecSelect found.mask isMatch (cubes i).mask })
    ⟨(cubes 0).bits, (cubes 0).mask⟩ M (Nat.le_refl M)

/-- `gadgets::random_assignment`. -/
def randomAssignment (cube : CubeData Ctx N) (alice_r bob_r : Ctx.BitVecT N) : Ctx.BitVecT N :=
  let r := Ctx.bitVecXor alice_r bob_r
  Ctx.bitVecOr cube.bits (Ctx.bitVecAnd (Ctx.bitVecNot cube.mask) r)

/-- `gadgets::select_cube`. -/
def selectCube [NeZero M] (alice_r bob_r : SampleBits Ctx N M) (total : DnfWeight Ctx N M)
    (intervals : Fin (M + 1) → DnfWeight Ctx N M) (cubes : Fin M → CircuitCube Ctx N) :
    CubeData Ctx N :=
  let z := sampleInRange alice_r bob_r total
  let j := selectCubeIndex z intervals
  cubeAtIndex j cubes

/-! ## `sample_in_range` -/

/-- The number the two contributions stand for together. -/
def jointSample {n : Nat} (alice_r bob_r : Ctx.BitVecT n) : Nat :=
  Nat.ofBits fun i => Ctx.bits alice_r i ^^ Ctx.bits bob_r i

/-- Reducing and shifting up by one stays in the width of the total. -/
theorem val_sampleInRange {alice_r bob_r : SampleBits Ctx N M} {total : DnfWeight Ctx N M}
    (ht : 0 < Ctx.val total) :
    Ctx.val (sampleInRange alice_r bob_r total) =
      jointSample alice_r bob_r % Ctx.val total + 1 := by
  have hlt := Ctx.val_lt total
  have hmod := Nat.mod_lt (jointSample alice_r bob_r) ht
  have hjoint : Ctx.val (Ctx.asUint (Ctx.bitVecXor alice_r bob_r)) = jointSample alice_r bob_r := by
    rw [Ctx.val_asUint, Ctx.bits_xor]
    rfl
  rw [sampleInRange, Ctx.val_add, Ctx.val_mod _ _ ht, hjoint, Ctx.val_const (by omega),
    Nat.mod_eq_of_lt (by omega)]

/-- How often a value is sampled does not depend on the fixed contribution, only on
how often the remainder occurs among all the numbers of the width. -/
theorem card_sampleInRange {sample : (Fin (N + Ctx.bitsFor M) → Bool) → DnfWeight Ctx N M}
    {total : DnfWeight Ctx N M} (b : Fin (N + Ctx.bitsFor M) → Bool)
    (hsample : ∀ a, Ctx.val (sample a) = Nat.ofBits (fun i => a i ^^ b i) % Ctx.val total + 1)
    (z : Nat) :
    #{a | Ctx.val (sample a) = z} =
      #{n ∈ range (2 ^ (N + Ctx.bitsFor M)) | n % Ctx.val total + 1 = z} := by
  simp only [hsample, card_filter]
  rw [BitStrings.sum_xor b fun r => if Nat.ofBits r % Ctx.val total + 1 = z then 1 else 0]
  exact BitStrings.sum_ofBits fun n => if n % Ctx.val total + 1 = z then 1 else 0

/-- As its argument ranges over all strings, `sample` takes every value of
`1, …, total` equally often, and no other. -/
def UniformIn (sample : (Fin (N + Ctx.bitsFor M) → Bool) → DnfWeight Ctx N M) (total : Nat) : Prop :=
  (∀ a, Ctx.val (sample a) ∈ Icc 1 total) ∧
    ∀ z ∈ Icc 1 total, ∀ z' ∈ Icc 1 total,
      #{a | Ctx.val (sample a) = z} = #{a | Ctx.val (sample a) = z'}

/-- Reducing the joint string is uniform when the total divides `2 ^ W`, so when it is
a power of two. -/
theorem uniformIn_iff {sample : (Fin (N + Ctx.bitsFor M) → Bool) → DnfWeight Ctx N M}
    {total : DnfWeight Ctx N M} (ht : 0 < Ctx.val total) (b : Fin (N + Ctx.bitsFor M) → Bool)
    (hsample : ∀ a, Ctx.val (sample a) = Nat.ofBits (fun i => a i ^^ b i) % Ctx.val total + 1) :
    UniformIn sample (Ctx.val total) ↔ ∃ k, Ctx.val total = 2 ^ k := by
  have hrange : ∀ a, Ctx.val (sample a) ∈ Icc 1 (Ctx.val total) := fun a => by
    rw [hsample, mem_Icc]
    exact ⟨Nat.le_add_left 1 _, Nat.mod_lt _ ht⟩
  have hdvd : Ctx.val total ∣ 2 ^ (N + Ctx.bitsFor M) ↔ ∃ k, Ctx.val total = 2 ^ k := by
    rw [Nat.dvd_prime_pow Nat.prime_two]
    constructor
    · rintro ⟨k, -, hk⟩
      exact ⟨k, hk⟩
    · rintro ⟨k, hk⟩
      have hlt := Ctx.val_lt total
      rw [hk] at hlt
      exact ⟨k, Nat.le_of_lt ((Nat.pow_lt_pow_iff_right (by decide)).mp hlt), hk⟩
  rw [UniformIn, and_iff_right hrange, ← hdvd, ← Residues.card_residue_eq_iff ht]
  simp only [card_sampleInRange b hsample]

/-- **The joint sample is uniform exactly when the total is a power of two**,
whichever party's contribution is the one held fixed: the number of strings is a
power of two, and reducing it modulo anything else favours the small values. -/
theorem sampleInRange_uniform_iff {total : DnfWeight Ctx N M} (ht : 0 < Ctx.val total)
    (other : SampleBits Ctx N M) :
    (UniformIn (fun alice_r => sampleInRange (Ctx.bitVecConst alice_r) other total)
        (Ctx.val total) ↔ ∃ k, Ctx.val total = 2 ^ k) ∧
      (UniformIn (fun bob_r => sampleInRange other (Ctx.bitVecConst bob_r) total)
        (Ctx.val total) ↔ ∃ k, Ctx.val total = 2 ^ k) := by
  constructor
  · refine uniformIn_iff ht (Ctx.bits other) fun a => ?_
    rw [val_sampleInRange ht, jointSample, Ctx.bits_const]
  · refine uniformIn_iff ht (Ctx.bits other) fun b => ?_
    rw [val_sampleInRange ht, jointSample, Ctx.bits_const]
    simp only [Bool.xor_comm]

/-- Alice's demo cubes, of weight eight each. -/
theorem sampleInRange_uniform_iff_alice :
    UniformIn (fun alice_r => sampleInRange (clearContext.bitVecConst alice_r)
        (clearContext.bitVecConst fun _ => true) (dnfWeight (cubeWeights (clearCubes aliceDnf))))
      (clearContext.val (dnfWeight (cubeWeights (clearCubes aliceDnf)))) :=
  (sampleInRange_uniform_iff (by decide) _).1.mpr ⟨4, by decide⟩

/-- One variable: the cube without literals and the cube x1, of weights 2 and 1. -/
def biasedDnf : Dnf 1 2 where
  cubes := ![⟨![false], ![false], false⟩, ⟨![true], ![true], false⟩]

/-- Of the eight strings three are reduced to 1 and two to 3. -/
theorem sampleInRange_biased :
    clearContext.val (dnfWeight (cubeWeights (clearCubes biasedDnf))) = 3 ∧
      ¬ UniformIn (fun alice_r => sampleInRange (clearContext.bitVecConst alice_r)
          (clearContext.bitVecConst fun _ => false)
          (dnfWeight (cubeWeights (clearCubes biasedDnf))))
        (clearContext.val (dnfWeight (cubeWeights (clearCubes biasedDnf)))) := by
  refine ⟨by decide, fun h => ?_⟩
  exact absurd (h.2 1 (by decide) 3 (by decide)) (by decide)

/-! ## `select_cube_index` and `cube_at_index` -/

/-- Every partial count of `select_cube_index` is exact. -/
theorem val_selectCubeIndexFrom (z : DnfWeight Ctx N M)
    (intervals : Fin (M + 1) → DnfWeight Ctx N M) (i : Nat) (h : i ≤ M + 1) :
    Ctx.val (selectCubeIndexFrom z intervals i h) =
      #{k : Fin (M + 1) | k.val < i ∧ Ctx.val (intervals k) < Ctx.val z} := by
  rw [selectCubeIndexFrom, val_countLoop (Ctx.lt_two_pow_bitsFor (M + 1))]
  simp only [Ctx.bit_gt, decide_eq_true_iff]

theorem val_selectCubeIndex (z : DnfWeight Ctx N M)
    (intervals : Fin (M + 1) → DnfWeight Ctx N M) :
    Ctx.val (selectCubeIndex z intervals) =
      #{k : Fin (M + 1) | Ctx.val (intervals k) < Ctx.val z} := by
  rw [selectCubeIndex, val_selectCubeIndexFrom]
  simp only [Fin.is_lt, true_and]

/-- Against the boundaries of `weights` the count is the block of `z`. -/
theorem val_selectCubeIndex_cubeIntervals {weights : Fin M → CubeWeight Ctx N}
    (hw : ∀ i, Ctx.val (weights i) ≤ 2 ^ N) (z : DnfWeight Ctx N M) :
    Ctx.val (selectCubeIndex z (cubeIntervals weights)) =
      blockIndex (fun i => Ctx.val (weights i)) (Ctx.val z) := by
  rw [val_selectCubeIndex, blockIndex]
  simp only [val_cubeIntervals hw]

/-- The constants the mux and the canonical scan compare the index with. -/
theorem val_indexConst (i : Fin M) : Ctx.val (Ctx.uintConst (n := Ctx.bitsFor (M + 1)) (i + 1)) =
    i + 1 :=
  Ctx.val_const ((Nat.succ_lt_succ i.isLt).trans (Ctx.lt_two_pow_bitsFor (M + 1)))

/-- **The mux finds the cube its 1-based index names**, the default being cube 1. -/
theorem bits_cubeAtIndex [NeZero M] {index : CubeIndex Ctx M} {cubes : Fin M → CircuitCube Ctx N}
    {j : Fin M} (hj : Ctx.val index = j + 1) :
    Ctx.bits (cubeAtIndex index cubes).bits = Ctx.bits (cubes j).bits ∧
      Ctx.bits (cubeAtIndex index cubes).mask = Ctx.bits (cubes j).mask := by
  refine forLoop_rule (fun i (found : CubeData Ctx N) => j.val < i →
    Ctx.bits found.bits = Ctx.bits (cubes j).bits ∧
      Ctx.bits found.mask = Ctx.bits (cubes j).mask) ?_ ?_ M (Nat.le_refl M)
    (Nat.pos_of_neZero M) j.isLt
  · intro hlt
    obtain rfl : j = 0 := Fin.ext (by simpa using hlt)
    exact ⟨rfl, rfl⟩
  · intro i found _ ih hlt
    have hmatch : Ctx.bit (Ctx.uintEq index (Ctx.uintConst (i + 1))) = decide (j = i) := by
      rw [Ctx.bit_uintEq, val_indexConst, hj, decide_eq_decide, Fin.ext_iff]
      omega
    simp only [Ctx.bits_select, hmatch, decide_eq_true_iff]
    by_cases hji : j = i
    · rw [if_pos hji, if_pos hji, hji]
      exact ⟨rfl, rfl⟩
    · rw [if_neg hji, if_neg hji]
      exact ih (lt_of_le_of_ne (Nat.le_of_lt_succ hlt) fun he => hji (Fin.ext he))

/-- A number that counts the boundaries below it belongs to exactly one block. -/
theorem inBlock_unique {weights : Fin M → CubeWeight Ctx N} {j k : Fin M} {z : Nat}
    (hj : InBlock (fun i => Ctx.val (weights i)) j z)
    (hk : InBlock (fun i => Ctx.val (weights i)) k z) : j = k := by
  have h := (blockIndex_eq _ hj).symm.trans (blockIndex_eq _ hk)
  exact Fin.ext (Nat.succ.inj h)

/-- The numbers whose index is `j + 1` are those of block `j`. -/
theorem card_selectCubeIndex {weights : Fin M → CubeWeight Ctx N}
    (hw : ∀ i, Ctx.val (weights i) ≤ 2 ^ N) (j : Fin M) :
    #{z ∈ Icc 1 (∑ i, Ctx.val (weights i)) |
        Ctx.val (selectCubeIndex (Ctx.uintConst z) (cubeIntervals weights)) = j + 1} =
      Ctx.val (weights j) := by
  have hindex : ∀ z ∈ Icc 1 (∑ i, Ctx.val (weights i)),
      Ctx.val (selectCubeIndex (Ctx.uintConst z) (cubeIntervals weights)) =
        blockIndex (fun i => Ctx.val (weights i)) z := by
    intro z hz
    rw [val_selectCubeIndex_cubeIntervals hw, Ctx.val_const
      (lt_of_le_of_lt (mem_Icc.mp hz).2 (sum_weights_lt Ctx hw))]
  have hblock : ∀ k z, InBlock (fun i => Ctx.val (weights i)) k z →
      (if blockIndex (fun i => Ctx.val (weights i)) z = j + 1 then 1 else 0) =
        if k = j then 1 else 0 := by
    intro k z hz
    simp only [blockIndex_eq _ hz, Nat.succ_inj, Fin.ext_iff]
  rw [card_filter, sum_congr rfl fun z hz => by rw [hindex z hz], sum_inBlock _ hblock]
  simp

/-- **Selection is exact and proportional to weight.**  The boundaries are the
non-decreasing exact prefix sums of the weights, up to the total of `dnf_weight`.
For a number of `1, …, total` the index is the one `j` whose block it lies in, which
has positive weight, and the mux yields that cube.  And `j` is the index of exactly
`weights[j - 1]` numbers. -/
theorem selectCube_exact [NeZero M] {weights : Fin M → CubeWeight Ctx N}
    (hw : ∀ i, Ctx.val (weights i) ≤ 2 ^ N) (cubes : Fin M → CircuitCube Ctx N) :
    (∀ i k, i ≤ k → Ctx.val (cubeIntervals weights i) ≤ Ctx.val (cubeIntervals weights k)) ∧
    (∀ i, Ctx.val (cubeIntervals weights i) = ∑ k : Fin M with k.val < i.val, Ctx.val (weights k)) ∧
    Ctx.val (cubeIntervals weights (Fin.last M)) = Ctx.val (dnfWeight weights) ∧
    (∀ z : DnfWeight Ctx N M, 1 ≤ Ctx.val z →
      Ctx.val z ≤ Ctx.val (cubeIntervals weights (Fin.last M)) →
      ∃ j : Fin M, Ctx.val (selectCubeIndex z (cubeIntervals weights)) = j + 1 ∧
        (∀ k : Fin M, (Ctx.val (cubeIntervals weights k.castSucc) < Ctx.val z ∧
          Ctx.val z ≤ Ctx.val (cubeIntervals weights k.succ)) ↔ k = j) ∧
        0 < Ctx.val (weights j) ∧
        Ctx.bits (cubeAtIndex (selectCubeIndex z (cubeIntervals weights)) cubes).bits =
          Ctx.bits (cubes j).bits ∧
        Ctx.bits (cubeAtIndex (selectCubeIndex z (cubeIntervals weights)) cubes).mask =
          Ctx.bits (cubes j).mask) ∧
    ∀ j : Fin M, #{z ∈ Icc 1 (Ctx.val (cubeIntervals weights (Fin.last M))) |
        Ctx.val (selectCubeIndex (Ctx.uintConst z) (cubeIntervals weights)) = j + 1} =
      Ctx.val (weights j) := by
  have hlast : Ctx.val (cubeIntervals weights (Fin.last M)) = ∑ i, Ctx.val (weights i) := by
    rw [val_cubeIntervals hw, Fin.val_last, prefixSum_of_le _ (Nat.le_refl M)]
  refine ⟨?_, fun i => val_cubeIntervals hw i, ?_, ?_, ?_⟩
  · intro i k hik
    rw [val_cubeIntervals hw, val_cubeIntervals hw]
    exact prefixSum_mono _ hik
  · rw [hlast, val_dnfWeight hw]
  · intro z hz hz'
    rw [hlast] at hz'
    obtain ⟨j, hj⟩ := exists_inBlock _ hz hz'
    have hindex : Ctx.val (selectCubeIndex z (cubeIntervals weights)) = j + 1 := by
      rw [val_selectCubeIndex_cubeIntervals hw, blockIndex_eq _ hj]
    refine ⟨j, hindex, fun k => ?_, pos_of_inBlock _ hj, bits_cubeAtIndex hindex⟩
    rw [val_cubeIntervals hw, val_cubeIntervals hw, Fin.val_castSucc, Fin.val_succ]
    constructor
    · exact fun hk => inBlock_unique hk hj
    · rintro rfl
      exact hj
  · intro j
    rw [hlast]
    exact card_selectCubeIndex hw j

/-- Weights 1, 0 and 2 over one variable. -/
def gapWeights : Fin 3 → CubeWeight clearContext 1 := fun i => clearContext.uintConst (![1, 0, 2] i)

/-- Two of the three numbers lie in the last block, none in the empty one before. -/
theorem selectCube_exact_gap :
    #{z ∈ Icc 1 (clearContext.val (cubeIntervals gapWeights (Fin.last 3))) |
        clearContext.val (selectCubeIndex (clearContext.uintConst z) (cubeIntervals gapWeights)) =
          (2 : Fin 3) + 1} = clearContext.val (gapWeights 2) :=
  (selectCube_exact (by decide) (clearCubes ⟨fun _ => Cube.padding⟩)).2.2.2.2 2

/-- `select_cube` on the boundaries of `weights` is the cube in whose block the joint
sample lies. -/
theorem bits_selectCube [NeZero M] {weights : Fin M → CubeWeight Ctx N}
    (hw : ∀ i, Ctx.val (weights i) ≤ 2 ^ N) {alice_r bob_r : SampleBits Ctx N M}
    {total : DnfWeight Ctx N M} (ht : 0 < Ctx.val total) {cubes : Fin M → CircuitCube Ctx N}
    {j : Fin M} (hj : InBlock (fun i => Ctx.val (weights i)) j
      (jointSample alice_r bob_r % Ctx.val total + 1)) :
    Ctx.bits (selectCube alice_r bob_r total (cubeIntervals weights) cubes).bits =
        Ctx.bits (cubes j).bits ∧
      Ctx.bits (selectCube alice_r bob_r total (cubeIntervals weights) cubes).mask =
        Ctx.bits (cubes j).mask := by
  refine bits_cubeAtIndex ?_
  rw [val_selectCubeIndex_cubeIntervals hw, val_sampleInRange ht, blockIndex_eq _ hj]

/-! ## `random_assignment` -/

/-- **The assignment is the completion of the selected cube by the joint string.** -/
theorem bits_randomAssignment {cube : CubeData Ctx N} {c : Cube N} (hbits : Ctx.bits cube.bits = c.bits)
    (hmask : Ctx.bits cube.mask = c.mask) (alice_r bob_r : Ctx.BitVecT N) :
    Ctx.bits (randomAssignment cube alice_r bob_r) =
      c.fill fun v => Ctx.bits alice_r v ^^ Ctx.bits bob_r v := by
  rw [randomAssignment, Ctx.bits_or, Ctx.bits_and, Ctx.bits_not, Ctx.bits_xor, hbits, hmask]
  rfl

/-- The cube selected data stand for: a real one, since padding has no weight. -/
def CubeData.value (c : CubeData Ctx N) : Cube N := ⟨Ctx.bits c.bits, Ctx.bits c.mask, false⟩

/-- Bits are 0 wherever the mask is. -/
def CubeData.Clean (c : CubeData Ctx N) : Prop :=
  ∀ v, Ctx.bits c.mask v = false → Ctx.bits c.bits v = false

theorem CubeData.Clean.wellFormed {c : CubeData Ctx N} (h : c.Clean) : c.value.WellFormed :=
  ⟨fun hpad => absurd hpad Bool.false_ne_true, fun _ => h⟩

/-- As its argument ranges over all strings, `assignment` passes through the satisfying
assignments of `cube` evenly: it always satisfies the cube, a free variable is the argument
xored with the fixed string, and each of the `2 ^ (N - popcount(mask))` assignments that
satisfy the cube comes from `2 ^ popcount(mask)` arguments. -/
structure UniformCompletion (cube : CubeData Ctx N) (other : Fin N → Bool)
    (assignment : (Fin N → Bool) → Ctx.BitVecT N) : Prop where
  satisfies : ∀ r,
    Ctx.bit (Ctx.bitVecEq (Ctx.bitVecAnd (assignment r) cube.mask) cube.bits) = true
  free : ∀ r v, Ctx.bits cube.mask v = false → Ctx.bits (assignment r) v = (r v ^^ other v)
  card_satisfying : #{x | cube.value.check x = true} = 2 ^ (N - #{v | Ctx.bits cube.mask v = true})
  card_fibre : ∀ x, cube.value.check x = true →
    #{r | Ctx.bits (assignment r) = x} = 2 ^ #{v | Ctx.bits cube.mask v = true}

/-- Completing a clean cube by the argument xored with a fixed string is such a map. -/
theorem uniformCompletion_of_fill [NeZero N] {cube : CubeData Ctx N} (hclean : cube.Clean)
    {other : Fin N → Bool} {assignment : (Fin N → Bool) → Ctx.BitVecT N}
    (hfill : ∀ r, Ctx.bits (assignment r) = cube.value.fill fun v => r v ^^ other v) :
    UniformCompletion cube other assignment := by
  have hwf := hclean.wellFormed
  refine ⟨fun r => ?_, fun r v hv => ?_, ?_, fun x hx => ?_⟩
  · rw [Ctx.bit_bitVecEq, Ctx.bits_and, hfill]
    exact (Cube.check_iff_sat hwf _).mpr (Cube.fill_sat rfl _)
  · rw [hfill]
    exact Cube.fill_of_free hwf rfl hv _
  · have hmodels : (univ.filter fun x => cube.value.check x = true) = cube.value.models :=
      filter_congr fun x _ => Cube.check_iff_sat hwf x
    rw [hmodels, Cube.card_models_of_real rfl]
    rfl
  · -- the strings are counted after the xor, which only renames them
    have hxor : #{r | Ctx.bits (assignment r) = x} = #{r | cube.value.fill r = x} := by
      simp only [hfill, card_filter]
      exact BitStrings.sum_xor other fun r => if cube.value.fill r = x then 1 else 0
    rw [hxor, Cube.card_fill_eq hwf ((Cube.check_iff_sat hwf x).mp hx)]
    rfl

/-- **`random_assignment` is a uniform satisfying assignment** of a cube without stale
bits, whichever party's string is the one held fixed. -/
theorem randomAssignment_uniform [NeZero N] {cube : CubeData Ctx N} (hclean : cube.Clean)
    (other : Ctx.BitVecT N) :
    UniformCompletion cube (Ctx.bits other)
        (fun alice_r => randomAssignment cube (Ctx.bitVecConst alice_r) other) ∧
      UniformCompletion cube (Ctx.bits other)
        (fun bob_r => randomAssignment cube other (Ctx.bitVecConst bob_r)) := by
  constructor
  · refine uniformCompletion_of_fill hclean fun a => ?_
    rw [bits_randomAssignment (c := cube.value) rfl rfl, Ctx.bits_const]
  · refine uniformCompletion_of_fill hclean fun b => ?_
    rw [bits_randomAssignment (c := cube.value) rfl rfl, Ctx.bits_const]
    simp only [Bool.xor_comm]

/-- The cube x1 of the demo over four variables, completed to x1 alone by two strings. -/
theorem randomAssignment_uniform_alice :
    #{r : Fin 4 → Bool | clearContext.bits (randomAssignment
        ⟨(aliceDnf.cubes 0).bits, (aliceDnf.cubes 0).mask⟩ (clearContext.bitVecConst r)
        (clearContext.bitVecConst fun _ => true)) = ![true, false, false, false]} = 2 ^ 1 := by
  have hclean :
      (⟨(aliceDnf.cubes 0).bits, (aliceDnf.cubes 0).mask⟩ : CubeData clearContext 4).Clean :=
    show ∀ v, (aliceDnf.cubes 0).mask v = false → (aliceDnf.cubes 0).bits v = false by decide
  exact (randomAssignment_uniform hclean (clearContext.bitVecConst fun _ => true)).1.card_fibre
    ![true, false, false, false] (by decide)

end MpcVazirani
