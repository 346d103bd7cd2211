import MpcVazirani.Pipeline

/-! # Exactness of the pipelines

Three whole-run results.  `exactWires`: with a positive total no wire of either
pipeline wraps, each has the natural number it stands for, at every turn of every
loop, and so has what is revealed.  `pipelines_exact_of_disjoint`: where no
assignment satisfies two cubes of the conjunction there is nothing random left, and
the pipelines reveal the number of common satisfying assignments, scaled, whatever
the coins.  `pipelines_zero_or_pos`: formulas without a common satisfying assignment
are revealed as zero, although nothing in the pipelines tests for them, and by the
Vazirani pipeline only they are.
-/
namespace MpcVazirani
open Finset PrefixSums

variable (sess : SH2PCSession) {VARS CUBES K : Nat} [NeZero CUBES]
  (my_dnf : Party → Dnf VARS CUBES)
  (coins : Party → Fin K → TrialCoins (VARS + sess.ctx.bitsFor (CUBES * CUBES)) VARS)

/-- Every wire of the pipelines has the natural number it stands for. -/
structure ExactWires : Prop where
  /-- `popcount(mask)`, the constant `VARS`, their difference and the power, in
  `VARS + 1` bits. -/
  cubeWeight : ∀ k, let c := (trialSetup sess my_dnf).conjunction k
    sess.ctx.val (cubeWeightR c) = #{v | sess.ctx.bits c.mask v = true} ∧
      sess.ctx.val (sess.ctx.uintConst (n := VARS + 1) VARS) = VARS ∧
      sess.ctx.val (cubeWeightShift c) = VARS - #{v | sess.ctx.bits c.mask v = true} ∧
      sess.ctx.val (cubeWeightPow c) = 2 ^ (VARS - #{v | sess.ctx.bits c.mask v = true})
  /-- The partial totals of `dnf_weight`. -/
  dnfWeight : ∀ i h, 1 ≤ i →
    sess.ctx.val (dnfWeightFrom (trialSetup sess my_dnf).weights i h) =
      prefixSum (fun k => ((trialSetup sess my_dnf).conjunction k).value.weight) i
  /-- The boundaries of `cube_intervals`. -/
  intervals : ∀ i, sess.ctx.val ((trialSetup sess my_dnf).intervals i) =
    prefixSum (fun k => ((trialSetup sess my_dnf).conjunction k).value.weight) i
  total : sess.ctx.val (trialSetup sess my_dnf).total =
    ∑ k, ((trialSetup sess my_dnf).conjunction k).value.weight
  /-- `joint_r % total + 1`. -/
  sample : ∀ t, sess.ctx.val (pipelineTrial sess my_dnf coins t).z =
    Nat.ofBits (fun i => (coins .alice t).my_random_bits i ^^ (coins .bob t).my_random_bits i) %
      sess.ctx.val (trialSetup sess my_dnf).total + 1
  /-- The partial counts of `select_cube_index`, and the constants its result is
  compared with. -/
  index : ∀ t i h,
    sess.ctx.val (selectCubeIndexFrom (pipelineTrial sess my_dnf coins t).z
        (trialSetup sess my_dnf).intervals i h) =
      #{k | k.val < i ∧ sess.ctx.val ((trialSetup sess my_dnf).intervals k) <
        sess.ctx.val (pipelineTrial sess my_dnf coins t).z}
  indexConst : ∀ k : Fin (CUBES * CUBES),
    sess.ctx.val (sess.ctx.uintConst (n := sess.ctx.bitsFor (CUBES * CUBES + 1)) (k + 1)) = k + 1
  /-- The partial counts of `count_satisfied_cubes`, and the constants its result
  is compared with. -/
  count : ∀ t i h,
    sess.ctx.val (countSatisfiedCubesFrom (pipelineTrial sess my_dnf coins t).assignment
        (trialSetup sess my_dnf).conjunction i h) =
      #{k | k.val < i ∧ sess.ctx.bit (satisfied (pipelineTrial sess my_dnf coins t).assignment
        ((trialSetup sess my_dnf).conjunction k)) = true}
  countConst : ∀ k ≤ CUBES * CUBES,
    sess.ctx.val (sess.ctx.uintConst (n := sess.ctx.bitsFor (CUBES * CUBES)) k) = k
  entryConst : ∀ k,
    sess.ctx.val (sess.ctx.uintConst (n := kDivideLookupScaleBits + 1) (entry k)) = entry k
  /-- The partial sums of the reciprocals. -/
  sum : ∀ t h, sess.ctx.val (vaziraniSumFrom (reciprocals sess my_dnf coins) t h) =
    prefixSum (fun k => sess.ctx.val (reciprocals sess my_dnf coins k)) t
  /-- The partial counts of the canonical trials. -/
  good : ∀ t h, sess.ctx.val (goodCountFrom (indicators sess my_dnf coins) t h) =
    #{k | k.val < t ∧ sess.ctx.bit (indicators sess my_dnf coins k) = true}
  vaziraniEstimate :
    sess.ctx.val (vaziraniEstimate (trialSetup sess my_dnf).total
        (reciprocals sess my_dnf coins)) =
      sess.ctx.val (trialSetup sess my_dnf).total *
        ∑ t, sess.ctx.val (reciprocals sess my_dnf coins t)
  karpLubyEstimate :
    sess.ctx.val (karpLubyEstimate (trialSetup sess my_dnf).total
        (indicators sess my_dnf coins)) =
      sess.ctx.val (trialSetup sess my_dnf).total *
        #{t | sess.ctx.bit (indicators sess my_dnf coins t) = true}

/-- **Neither pipeline ever wraps**, whatever the formulas and the coins, if the
total is positive; and what is revealed is the exact product whenever its width is
at most 128. -/
theorem exactWires (hS : 0 < sess.ctx.val (trialSetup sess my_dnf).total) :
    ExactWires sess my_dnf coins ∧
    (VARS + sess.ctx.bitsFor (CUBES * CUBES) + (kDivideLookupScaleBits + 1) +
        sess.ctx.bitsFor K ≤ 128 →
      (runVaziraniPipeline sess my_dnf coins).toNat =
        sess.ctx.val (trialSetup sess my_dnf).total *
          ∑ t, sess.ctx.val (reciprocals sess my_dnf coins t)) ∧
    (VARS + sess.ctx.bitsFor (CUBES * CUBES) + sess.ctx.bitsFor (K + 1) ≤ 128 →
      (runKarpLubyPipeline sess my_dnf coins).toNat =
        sess.ctx.val (trialSetup sess my_dnf).total *
          #{t | sess.ctx.bit (indicators sess my_dnf coins t) = true}) := by
  have hweights : (fun k => sess.ctx.val ((trialSetup sess my_dnf).weights k)) =
      fun k => ((trialSetup sess my_dnf).conjunction k).value.weight := val_cubeWeights _
  have hle := val_cubeWeights_le (trialSetup sess my_dnf).conjunction
  refine ⟨?_, runVaziraniPipeline_toNat sess my_dnf coins,
    runKarpLubyPipeline_toNat sess my_dnf coins⟩
  exact {
    cubeWeight := fun k =>
      ⟨val_cubeWeightR _, val_varsConst, val_cubeWeightShift _, val_cubeWeightPow _⟩
    dnfWeight := fun i h hi => by
      rw [← hweights]
      exact val_dnfWeightFrom hle i h hi
    intervals := fun i => by
      rw [← hweights]
      exact val_cubeIntervals hle i
    total := by
      rw [val_trialSetup_total]
      rfl
    sample := fun t => by
      change sess.ctx.val (sampleInRange _ _ _) = _
      rw [val_sampleInRange hS, jointSample, sess.bits_input, sess.bits_input]
    index := fun t i h => val_selectCubeIndexFrom _ _ i h
    indexConst := fun k => val_indexConst k
    count := fun t i h => by
      rw [val_countSatisfiedCubesFrom]
      simp only [bit_satisfied]
    countConst := fun k hk => val_countConst hk
    entryConst := fun k => sess.ctx.val_const (entry_lt k)
    sum := fun t h => val_vaziraniSumFrom _ t h
    good := fun t h => val_goodCountFrom _ t h
    vaziraniEstimate := val_vaziraniEstimate _ _
    karpLubyEstimate := val_karpLubyEstimate _ _ }

/-- The demo run of three trials, all coins zero. -/
theorem exactWires_demo :
    ExactWires clearSession demoDnf (K := 3) (fun _ _ => ⟨fun _ => false, fun _ => false⟩) :=
  (exactWires clearSession demoDnf _ (by decide)).1

/-! ## Disjoint covers -/

section Disjoint
variable (hdisj : ∀ i j, i ≠ j → ¬ ∃ x,
  ((trialSetup sess my_dnf).conjunction i).value.Sat x ∧
    ((trialSetup sess my_dnf).conjunction j).value.Sat x)

include hdisj in
/-- The weights of a disjoint cover add up to the size of its union. -/
theorem val_total_of_disjoint :
    sess.ctx.val (trialSetup sess my_dnf).total = #(commonModels my_dnf) := by
  rw [val_trialSetup_total, ← trialSetup_models sess my_dnf]
  exact (Dnf.totalWeight_eq_card_models_iff _).mpr hdisj

variable {sess my_dnf} [NeZero VARS] (hb : (my_dnf .bob).WellFormed)
include hb hdisj

/-- Every trial of a disjoint cover contributes one. -/
theorem trials_of_disjoint (hS : 0 < sess.ctx.val (trialSetup sess my_dnf).total) (t : Fin K) :
    sess.ctx.val (reciprocals sess my_dnf coins t) = kDivideLookupScale ∧
      sess.ctx.bit (indicators sess my_dnf coins t) = true := by
  have hwf := trialSetup_wellFormed sess my_dnf hb
  obtain ⟨j, hj⟩ := exists_block_pipelineTrial sess my_dnf coins hS t
  have hpad : ((trialSetup sess my_dnf).conjunction j).value.pad = false :=
    Dnf.pad_of_inBlock _ hj
  have hsat := Cube.fill_sat hpad
  constructor
  · refine (val_reciprocal_trialFrom hwf hj _ _).trans ?_
    rw [Dnf.satisfiedCount_eq_one _ hdisj (hsat _), entry_one]
  · refine (bit_canonical_trialFrom hwf hj _ _).mpr fun k hk hsat' => ?_
    exact hdisj k j (ne_of_lt hk) ⟨_, hsat', hsat _⟩

end Disjoint

/-- **Disjoint covers are counted exactly.**  If no assignment satisfies two real
cubes of the conjunction, then whatever the coins, and whatever `%` makes of a
divisor zero, the Vazirani pipeline reveals `K * 65536` times the number of common
satisfying assignments and the Karp-Luby pipeline `K` times that number. -/
theorem pipelines_exact_of_disjoint [NeZero VARS] (hb : (my_dnf .bob).WellFormed)
    (hdisj : ∀ i j, i ≠ j → ¬ ∃ x,
      ((trialSetup sess my_dnf).conjunction i).value.Sat x ∧
        ((trialSetup sess my_dnf).conjunction j).value.Sat x) :
    (VARS + sess.ctx.bitsFor (CUBES * CUBES) + 17 + sess.ctx.bitsFor K ≤ 128 →
      (runVaziraniPipeline sess my_dnf coins).toNat = K * 65536 * #(commonModels my_dnf)) ∧
    (VARS + sess.ctx.bitsFor (CUBES * CUBES) + sess.ctx.bitsFor (K + 1) ≤ 128 →
      (runKarpLubyPipeline sess my_dnf coins).toNat = K * #(commonModels my_dnf)) := by
  have htotal := val_total_of_disjoint sess my_dnf hdisj
  constructor
  · intro hW
    rw [runVaziraniPipeline_toNat sess my_dnf coins hW, htotal]
    -- with nothing to count the trials are arbitrary, but multiplied by zero
    rcases Nat.eq_zero_or_pos #(commonModels my_dnf) with hzero | hpos
    · rw [hzero, Nat.zero_mul, Nat.mul_zero]
    · have htrial := fun t => (trials_of_disjoint coins hdisj hb (by rwa [htotal]) t).1
      rw [sum_congr rfl fun t _ => htrial t, sum_const, card_univ, Fintype.card_fin, smul_eq_mul,
        Nat.mul_comm]
      rfl
  · intro hW
    rw [runKarpLubyPipeline_toNat sess my_dnf coins hW, htotal]
    rcases Nat.eq_zero_or_pos #(commonModels my_dnf) with hzero | hpos
    · rw [hzero, Nat.zero_mul, Nat.mul_zero]
    · have htrial := fun t => (trials_of_disjoint coins hdisj hb (by rwa [htotal]) t).2
      rw [filter_true_of_mem fun t _ => htrial t, card_univ, Fintype.card_fin, Nat.mul_comm]

/-- Alice splits on x1, Bob wants x2 and has one cube of padding. -/
def splitDnf : Party → Dnf 2 2
  | .alice => ⟨![⟨![true, false], ![true, false], false⟩, ⟨![false, false], ![true, false], false⟩]⟩
  | .bob => ⟨![⟨![false, true], ![false, true], false⟩, Cube.padding]⟩

/-- A run of three trials that reveals three times the two common satisfying
assignments. -/
theorem pipelines_exact_of_disjoint_split :
    (runKarpLubyPipeline clearSession splitDnf (K := 3)
      fun _ _ => ⟨fun _ => false, fun _ => false⟩).toNat = 3 * #(commonModels splitDnf) :=
  (pipelines_exact_of_disjoint clearSession splitDnf _ (by decide) (by decide)).2 (by decide)

/-! ## Nothing to count -/

variable {sess my_dnf} in
/-- A trial that has a sample contributes at least one, as long as no count can
exceed twice the scale of the table. -/
theorem val_reciprocals_pos [NeZero VARS] (hb : (my_dnf .bob).WellFormed)
    (hM : CUBES * CUBES ≤ 2 ^ 17) (hS : 0 < sess.ctx.val (trialSetup sess my_dnf).total)
    (t : Fin K) : 0 < sess.ctx.val (reciprocals sess my_dnf coins t) := by
  have hwf := trialSetup_wellFormed sess my_dnf hb
  obtain ⟨j, hj⟩ := exists_block_pipelineTrial sess my_dnf coins hS t
  refine lt_of_lt_of_eq (entry_pos ?_ ?_) (val_reciprocal_trialFrom hwf hj _ _).symm
  · exact Dnf.satisfiedCount_pos.mpr ⟨j, Cube.fill_sat (Dnf.pad_of_inBlock _ hj) _⟩
  · exact (Dnf.satisfiedCount_le _).trans hM

/-- **Formulas without a common satisfying assignment are revealed as zero**, by both
pipelines and whatever `%` makes of the divisor zero; and as long as there are at
most `2 ^ 17` products, the Vazirani pipeline reveals at least one on every run over
formulas that have one. -/
theorem pipelines_zero_or_pos [NeZero VARS] (hb : (my_dnf .bob).WellFormed) :
    ((¬ ∃ x, (my_dnf .alice).Sat x ∧ (my_dnf .bob).Sat x) →
      (runVaziraniPipeline sess my_dnf coins).toNat = 0 ∧
        (runKarpLubyPipeline sess my_dnf coins).toNat = 0) ∧
    (0 < K → CUBES * CUBES ≤ 2 ^ 17 →
      VARS + sess.ctx.bitsFor (CUBES * CUBES) + (kDivideLookupScaleBits + 1) +
        sess.ctx.bitsFor K ≤ 128 →
      (∃ x, (my_dnf .alice).Sat x ∧ (my_dnf .bob).Sat x) →
      1 ≤ (runVaziraniPipeline sess my_dnf coins).toNat) := by
  rw [← val_trialSetup_total_pos_iff sess my_dnf]
  constructor
  · intro hnone
    rw [runVaziraniPipeline_toNat_mod, runKarpLubyPipeline_toNat_mod,
      Nat.eq_zero_of_not_pos hnone, Nat.zero_mul, Nat.zero_mul]
    exact ⟨rfl, rfl⟩
  · intro hK hM hW hS
    have htrial := val_reciprocals_pos coins hb hM hS
    rw [runVaziraniPipeline_toNat sess my_dnf coins hW]
    refine Nat.mul_pos hS (sum_pos (fun t _ => htrial t) ⟨⟨0, hK⟩, mem_univ _⟩)

/-- Alice wants x1 and Bob its negation. -/
def clashDnf : Party → Dnf 1 1
  | .alice => ⟨![⟨![true], ![true], false⟩]⟩
  | .bob => ⟨![⟨![false], ![true], false⟩]⟩

/-- A trial over the clashing formulas, and three trials over the demo's. -/
theorem pipelines_zero_or_pos_demo :
    (runKarpLubyPipeline clearSession clashDnf (K := 1)
        fun _ _ => ⟨fun _ => true, fun _ => true⟩).toNat = 0 ∧
      1 ≤ (runVaziraniPipeline clearSession demoDnf (K := 3)
        fun _ _ => ⟨fun _ => true, fun _ => false⟩).toNat :=
  ⟨((pipelines_zero_or_pos clearSession clashDnf _ (by decide)).1 (by decide)).2,
    (pipelines_zero_or_pos clearSession demoDnf _ (by decide)).2 (by decide) (by decide)
      (by decide) ⟨fun _ => true, by decide, by decide⟩⟩

end MpcVazirani
