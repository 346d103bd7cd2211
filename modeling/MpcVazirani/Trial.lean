import MpcVazirani.Conjunction
import MpcVazirani.KarpLuby
import MpcVazirani.Vazirani

/-! # One trial

The body of the trial loop up to the assignment is the same in both pipelines:
sample a number, find its block, look the cube up, complete it.  From there the
Vazirani loop looks up the reciprocal of the number of satisfied cubes, and the
Karp-Luby loop asks whether the sampled cube is canonical.

Everything a trial computes follows from the block its sample lies in.  A sample
in block `j` gives index `j + 1`, the literals of cube `j`, which has positive
weight and is therefore real, and an assignment that satisfies it; so at least
one cube is satisfied, which is what the table lookup relies on.
-/
namespace MpcVazirani
open Finset PrefixSums

variable {Ctx : BooleanContext} {N M : Nat}

/-- The locals of one trial up to its assignment. -/
structure TrialWires (Ctx : BooleanContext) (N M : Nat) where
  z : DnfWeight Ctx N M
  index : CubeIndex Ctx M
  selected : CubeData Ctx N
  assignment : Ctx.BitVecT N

/-- The trial from its sample on. -/
def trialFrom [NeZero M] (conjunction : Fin M → CircuitCube Ctx N)
    (intervals : Fin (M + 1) → DnfWeight Ctx N M) (z : DnfWeight Ctx N M)
    (assignment_alice_r assignment_bob_r : Ctx.BitVecT N) : TrialWires Ctx N M :=
  let index := selectCubeIndex z intervals
  let selected := cubeAtIndex index conjunction
  { z := z
    index := index
    selected := selected
    assignment := randomAssignment selected assignment_alice_r assignment_bob_r }

/-- The body of the trial loop, up to the assignment, of both
`run_vazirani_pipeline` and `run_karp_luby_pipeline`. -/
def trial [NeZero M] (conjunction : Fin M → CircuitCube Ctx N) (total : DnfWeight Ctx N M)
    (intervals : Fin (M + 1) → DnfWeight Ctx N M) (alice_r bob_r : SampleBits Ctx N M)
    (assignment_alice_r assignment_bob_r : Ctx.BitVecT N) : TrialWires Ctx N M :=
  trialFrom conjunction intervals (sampleInRange alice_r bob_r total) assignment_alice_r
    assignment_bob_r

/-! ## What a trial computes from the block of its sample -/

section Block
variable [NeZero M] {cubes : Fin M → CircuitCube Ctx N} {j : Fin M} {z : DnfWeight Ctx N M}

theorem val_index_trialFrom (hz : InBlock (dnfValue cubes).weights j (Ctx.val z))
    (a b : Ctx.BitVecT N) :
    Ctx.val (trialFrom cubes (cubeIntervals (cubeWeights cubes)) z a b).index = j + 1 := by
  change Ctx.val (selectCubeIndex z _) = j + 1
  rw [val_selectCubeIndex_cubeIntervals (val_cubeWeights_le cubes), val_cubeWeights]
  exact blockIndex_eq _ hz

theorem bits_selected_trialFrom (hz : InBlock (dnfValue cubes).weights j (Ctx.val z))
    (a b : Ctx.BitVecT N) :
    Ctx.bits (trialFrom cubes (cubeIntervals (cubeWeights cubes)) z a b).selected.bits =
        Ctx.bits (cubes j).bits ∧
      Ctx.bits (trialFrom cubes (cubeIntervals (cubeWeights cubes)) z a b).selected.mask =
        Ctx.bits (cubes j).mask :=
  bits_cubeAtIndex (val_index_trialFrom hz a b)

/-- The assignment completes the cube of the block by the joint string. -/
theorem bits_assignment_trialFrom (hz : InBlock (dnfValue cubes).weights j (Ctx.val z))
    (a b : Ctx.BitVecT N) :
    Ctx.bits (trialFrom cubes (cubeIntervals (cubeWeights cubes)) z a b).assignment =
      (cubes j).value.fill fun v => Ctx.bits a v ^^ Ctx.bits b v := by
  obtain ⟨hbits, hmask⟩ := bits_selected_trialFrom hz a b
  exact bits_randomAssignment hbits hmask a b

theorem assignment_sat (hz : InBlock (dnfValue cubes).weights j (Ctx.val z))
    (a b : Ctx.BitVecT N) :
    (cubes j).value.Sat
      (Ctx.bits (trialFrom cubes (cubeIntervals (cubeWeights cubes)) z a b).assignment) := by
  rw [bits_assignment_trialFrom hz]
  exact Cube.fill_sat (Dnf.pad_of_inBlock _ hz) _

variable [NeZero N] (hwf : (dnfValue cubes).WellFormed)
include hwf

/-- The Vazirani half of a trial: the entry of the number of satisfied cubes. -/
theorem val_reciprocal_trialFrom (hz : InBlock (dnfValue cubes).weights j (Ctx.val z))
    (a b : Ctx.BitVecT N) :
    Ctx.val (divideLookup (countSatisfiedCubes
        (trialFrom cubes (cubeIntervals (cubeWeights cubes)) z a b).assignment cubes)) =
      entry ((dnfValue cubes).satisfiedCount
        ((cubes j).value.fill fun v => Ctx.bits a v ^^ Ctx.bits b v)) := by
  have hcount := val_countSatisfiedCubes_eq hwf
    (trialFrom cubes (cubeIntervals (cubeWeights cubes)) z a b).assignment
  have hpos : 0 < (dnfValue cubes).satisfiedCount
      (Ctx.bits (trialFrom cubes (cubeIntervals (cubeWeights cubes)) z a b).assignment) :=
    Dnf.satisfiedCount_pos.mpr ⟨j, assignment_sat hz a b⟩
  rw [val_divideLookup_of_pos (by rwa [hcount]) (by rw [hcount]; exact Dnf.satisfiedCount_le _),
    hcount, bits_assignment_trialFrom hz]

/-- The Karp-Luby half of a trial: no earlier cube is satisfied. -/
theorem bit_canonical_trialFrom (hz : InBlock (dnfValue cubes).weights j (Ctx.val z))
    (a b : Ctx.BitVecT N) :
    Ctx.bit (isCanonicalSample (trialFrom cubes (cubeIntervals (cubeWeights cubes)) z a b).index
        (trialFrom cubes (cubeIntervals (cubeWeights cubes)) z a b).assignment cubes) = true ↔
      ∀ k < j, ¬ (cubes k).value.Sat
        ((cubes j).value.fill fun v => Ctx.bits a v ^^ Ctx.bits b v) := by
  rw [bit_isCanonicalSample (val_index_trialFrom hz a b), bits_assignment_trialFrom hz]
  refine forall_congr' fun k => imp_congr_right fun _ => ?_
  rw [← Bool.not_eq_true]
  exact not_congr (Cube.check_iff_sat (hwf k) _)

end Block

/-- A sample of `1, …, total` lies in some block. -/
theorem exists_block_sampleInRange [NeZero M] {cubes : Fin M → CircuitCube Ctx N}
    (hS : 0 < Ctx.val (dnfWeight (cubeWeights cubes))) (alice_r bob_r : SampleBits Ctx N M) :
    1 ≤ Ctx.val (sampleInRange alice_r bob_r (dnfWeight (cubeWeights cubes))) ∧
      Ctx.val (sampleInRange alice_r bob_r (dnfWeight (cubeWeights cubes))) ≤
        Ctx.val (dnfWeight (cubeWeights cubes)) ∧
      ∃ j, InBlock (dnfValue cubes).weights j
        (Ctx.val (sampleInRange alice_r bob_r (dnfWeight (cubeWeights cubes)))) := by
  have hmod := Nat.mod_lt (jointSample alice_r bob_r) hS
  rw [val_sampleInRange hS]
  refine ⟨Nat.succ_pos _, hmod, exists_inBlock _ (Nat.succ_pos _) ?_⟩
  rw [val_dnfWeight_cubeWeights] at hmod ⊢
  exact hmod

/-! ## Every trial is sound -/

/-- **A trial is sound at every stage**, whatever the coins; of the two formulas
only Bob's has to be well-formed, because `conjoin` masks Alice's bits itself.
The sample is one of `1, …, total`; the index names a real cube of the
conjunction, whose literals the mux returns; the assignment satisfies both formulas
and that cube; the count is the number of real cubes it satisfies, at least one and
at most all; the lookup rounds `65536 / count` to nearest; and the canonical bit
says that no earlier cube is satisfied. -/
theorem trial_sound [NeZero N] {CUBES : Nat} [NeZero CUBES]
    (alice : Fin CUBES → CircuitCube Ctx N) {bob : Fin CUBES → CircuitCube Ctx N}
    (hb : (dnfValue bob).WellFormed)
    (hS : 0 < Ctx.val (dnfWeight (cubeWeights (conjoinDnf alice bob))))
    (alice_r bob_r : SampleBits Ctx N (CUBES * CUBES))
    (assignment_alice_r assignment_bob_r : Ctx.BitVecT N) :
    let C := conjoinDnf alice bob
    let S := dnfWeight (cubeWeights C)
    let t := trial C S (cubeIntervals (cubeWeights C)) alice_r bob_r assignment_alice_r
      assignment_bob_r
    let x := Ctx.bits t.assignment
    let count := countSatisfiedCubes t.assignment C
    (1 ≤ Ctx.val t.z ∧ Ctx.val t.z ≤ Ctx.val S) ∧
    ∃ j : Fin (CUBES * CUBES), Ctx.val t.index = j + 1 ∧
      ((C j).value.pad = false ∧ Ctx.bits t.selected.bits = Ctx.bits (C j).bits ∧
        Ctx.bits t.selected.mask = Ctx.bits (C j).mask) ∧
      ((∃ i, (alice i).value.Sat x) ∧ (∃ i, (bob i).value.Sat x) ∧ (C j).value.Sat x) ∧
      (Ctx.val count = #{k | (C k).value.Sat x} ∧ 1 ≤ Ctx.val count ∧
        Ctx.val count ≤ CUBES * CUBES) ∧
      Ctx.val (divideLookup count) = (65536 + Ctx.val count / 2) / Ctx.val count ∧
      (Ctx.bit (isCanonicalSample t.index t.assignment C) = true ↔
        ∀ k < j, ¬ (C k).value.Sat x) := by
  intro C S t x count
  have hwf : (dnfValue C).WellFormed := conjoinDnf_wellFormed alice hb
  -- every stage is determined by the block of the sample
  obtain ⟨hpos, hle, j, hj⟩ := exists_block_sampleInRange hS alice_r bob_r
  have hsat : (C j).value.Sat x := assignment_sat hj assignment_alice_r assignment_bob_r
  have hcount : Ctx.val count = (dnfValue C).satisfiedCount x :=
    val_countSatisfiedCubes_eq hwf t.assignment
  have hone : 0 < Ctx.val count := by
    rw [hcount]
    exact Dnf.satisfiedCount_pos.mpr ⟨j, hsat⟩
  have hall : Ctx.val count ≤ CUBES * CUBES := by
    rw [hcount]
    exact Dnf.satisfiedCount_le x
  have hboth := (conjoinDnf_sat alice x).mp ⟨j, hsat⟩
  refine ⟨⟨hpos, hle⟩, j, val_index_trialFrom hj _ _, ⟨Dnf.pad_of_inBlock _ hj, ?_⟩,
    ⟨hboth.1, hboth.2, hsat⟩, ⟨hcount, hone, hall⟩, ?_, ?_⟩
  · exact bits_selected_trialFrom hj assignment_alice_r assignment_bob_r
  · rw [val_divideLookup_of_pos hone hall]
    rfl
  · have hx : x = _ := bits_assignment_trialFrom hj assignment_alice_r assignment_bob_r
    rw [hx]
    exact bit_canonical_trialFrom hwf hj assignment_alice_r assignment_bob_r

/-- The demo's conjunction, whose last cube is x3 without x2. -/
def demoCubes : Fin 4 → CircuitCube clearContext 4 :=
  conjoinDnf (clearCubes aliceDnf) (clearCubes bobDnf)

theorem demo_wellFormed : (dnfValue (clearCubes bobDnf)).WellFormed := by decide

theorem demo_total_pos : 0 < clearContext.val (dnfWeight (cubeWeights demoCubes)) := by decide

/-- All coins zero. -/
theorem trial_sound_demo :
    ∃ j : Fin 4, clearContext.val (trial demoCubes (dnfWeight (cubeWeights demoCubes))
      (cubeIntervals (cubeWeights demoCubes)) (fun _ => false) (fun _ => false) (fun _ => false)
      (fun _ => false)).index = j + 1 := by
  obtain ⟨-, j, hj, -⟩ := trial_sound (clearCubes aliceDnf) demo_wellFormed demo_total_pos
    (fun _ => false) (fun _ => false) (fun _ => false) (fun _ => false)
  exact ⟨j, hj⟩

end MpcVazirani
