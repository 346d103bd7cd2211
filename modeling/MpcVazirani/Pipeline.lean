import MpcVazirani.RevealWide
import MpcVazirani.Trial

/-! # The two pipelines

`run_vazirani_pipeline` and `run_karp_luby_pipeline`.  Both processes run the same
code, each with its own formula and its own coins, so these are functions of the
party, and an input takes its owner's.  Up to the assignment of each trial the two
pipelines are the same circuit; they differ in what a trial contributes and in the
estimate.

Neither can wrap: every wire has the natural number it stands for, whatever the
formulas and the coins, as soon as the total is positive.  With a total of zero the
remainder by zero makes a trial's wires arbitrary, but they end up multiplied by
the total.
-/
namespace MpcVazirani
open Finset PrefixSums

/-- What one party draws for a trial: `my_random_bits` and `my_assignment_bits`. -/
structure TrialCoins (W VARS : Nat) where
  my_random_bits : Fin W → Bool
  my_assignment_bits : Fin VARS → Bool

/-- The wires computed before the trials. -/
structure TrialSetup (Ctx : BooleanContext) (N M : Nat) where
  conjunction : Fin M → CircuitCube Ctx N
  weights : Fin M → CubeWeight Ctx N
  total : DnfWeight Ctx N M
  intervals : Fin (M + 1) → DnfWeight Ctx N M

variable (sess : SH2PCSession) {VARS CUBES K : Nat}

/-- The input loop, for the cubes of one owner. -/
def inputCubes (owner : Party) (my_dnf : Party → Dnf VARS CUBES) :
    Fin CUBES → CircuitCube sess.ctx VARS := fun i =>
  { bits := sess.inputBitVec owner fun party => ((my_dnf party).cubes i).bits
    mask := sess.inputBitVec owner fun party => ((my_dnf party).cubes i).mask
    pad := sess.inputBit owner fun party => ((my_dnf party).cubes i).pad }

/-- The part of the pipelines before the trial loop. -/
def trialSetup [NeZero CUBES] (my_dnf : Party → Dnf VARS CUBES) :
    TrialSetup sess.ctx VARS (CUBES * CUBES) :=
  let conjunction := conjoinDnf (inputCubes sess .alice my_dnf) (inputCubes sess .bob my_dnf)
  let weights := cubeWeights conjunction
  { conjunction := conjunction
    weights := weights
    total := dnfWeight weights
    intervals := cubeIntervals weights }

/-- Trial `t` of the loop: its coins are fed in as private inputs. -/
def pipelineTrial [NeZero CUBES] (my_dnf : Party → Dnf VARS CUBES)
    (coins : Party → Fin K → TrialCoins (VARS + sess.ctx.bitsFor (CUBES * CUBES)) VARS)
    (t : Fin K) : TrialWires sess.ctx VARS (CUBES * CUBES) :=
  let s := trialSetup sess my_dnf
  trial s.conjunction s.total s.intervals
    (sess.inputBitVec .alice fun party => (coins party t).my_random_bits)
    (sess.inputBitVec .bob fun party => (coins party t).my_random_bits)
    (sess.inputBitVec .alice fun party => (coins party t).my_assignment_bits)
    (sess.inputBitVec .bob fun party => (coins party t).my_assignment_bits)

variable [NeZero CUBES] (my_dnf : Party → Dnf VARS CUBES)
  (coins : Party → Fin K → TrialCoins (VARS + sess.ctx.bitsFor (CUBES * CUBES)) VARS)

/-- The Vazirani pipeline's `reciprocals`. -/
def reciprocals (t : Fin K) : DivideLookupResult sess.ctx :=
  divideLookup (countSatisfiedCubes (pipelineTrial sess my_dnf coins t).assignment
    (trialSetup sess my_dnf).conjunction)

/-- The Karp-Luby pipeline's `indicators`. -/
def indicators (t : Fin K) : sess.ctx.BitT :=
  isCanonicalSample (pipelineTrial sess my_dnf coins t).index
    (pipelineTrial sess my_dnf coins t).assignment (trialSetup sess my_dnf).conjunction

/-- `run_vazirani_pipeline<VARS, CUBES, K>`. -/
def runVaziraniPipeline : BitVec 128 :=
  let estimate := vaziraniEstimate (trialSetup sess my_dnf).total (reciprocals sess my_dnf coins)
  revealWide sess _ estimate

/-- `run_karp_luby_pipeline<VARS, CUBES, K>`. -/
def runKarpLubyPipeline : BitVec 128 :=
  let estimate := karpLubyEstimate (trialSetup sess my_dnf).total (indicators sess my_dnf coins)
  revealWide sess _ estimate

/-- The demo: each process has parsed its own file. -/
def demoDnf : Party → Dnf 4 2
  | .alice => aliceDnf
  | .bob => bobDnf

/-! ## What the inputs stand for -/

omit [NeZero CUBES] in
@[simp] theorem dnfValue_inputCubes (owner : Party) :
    dnfValue (inputCubes sess owner my_dnf) = my_dnf owner := by
  simp [dnfValue, inputCubes, CircuitCube.value]

/-- The assignments that satisfy both parties' formulas. -/
def commonModels (my_dnf : Party → Dnf VARS CUBES) : Finset (Fin VARS → Bool) :=
  (my_dnf .alice).models ∩ (my_dnf .bob).models

theorem trialSetup_wellFormed (hb : (my_dnf .bob).WellFormed) :
    (dnfValue (trialSetup sess my_dnf).conjunction).WellFormed :=
  conjoinDnf_wellFormed _ (by rwa [dnfValue_inputCubes])

theorem trialSetup_models :
    (dnfValue (trialSetup sess my_dnf).conjunction).models = commonModels my_dnf := by
  rw [trialSetup, conjoinDnf_models, dnfValue_inputCubes, dnfValue_inputCubes, commonModels]

theorem val_trialSetup_total :
    sess.ctx.val (trialSetup sess my_dnf).total =
      (dnfValue (trialSetup sess my_dnf).conjunction).totalWeight :=
  val_dnfWeight_cubeWeights _

/-- The total is positive exactly when the formulas have a common satisfying
assignment. -/
theorem val_trialSetup_total_pos_iff :
    0 < sess.ctx.val (trialSetup sess my_dnf).total ↔
      ∃ x, (my_dnf .alice).Sat x ∧ (my_dnf .bob).Sat x := by
  rw [val_trialSetup_total, Dnf.totalWeight_pos_iff, trialSetup_models]
  refine exists_congr fun x => ?_
  rw [commonModels, mem_inter, Dnf.mem_models, Dnf.mem_models]

/-- The sample of a trial lies in some block. -/
theorem exists_block_pipelineTrial (hS : 0 < sess.ctx.val (trialSetup sess my_dnf).total)
    (t : Fin K) :
    ∃ j, InBlock (dnfValue (trialSetup sess my_dnf).conjunction).weights j
      (sess.ctx.val (pipelineTrial sess my_dnf coins t).z) :=
  (exists_block_sampleInRange hS _ _).2.2

/-! ## What is revealed -/

/-- Whatever the width, the Vazirani pipeline reveals the lowest 128 bits of the total
times the sum of the reciprocals. -/
theorem runVaziraniPipeline_toNat_mod :
    (runVaziraniPipeline sess my_dnf coins).toNat =
      sess.ctx.val (trialSetup sess my_dnf).total *
        (∑ t, sess.ctx.val (reciprocals sess my_dnf coins t)) % 2 ^ 128 := by
  rw [runVaziraniPipeline, revealWide_toNat, val_vaziraniEstimate]

/-- Whatever the width, the Karp-Luby pipeline reveals the lowest 128 bits of the total
times the number of canonical trials. -/
theorem runKarpLubyPipeline_toNat_mod :
    (runKarpLubyPipeline sess my_dnf coins).toNat =
      sess.ctx.val (trialSetup sess my_dnf).total *
        #{t : Fin K | sess.ctx.bit (indicators sess my_dnf coins t) = true} % 2 ^ 128 := by
  rw [runKarpLubyPipeline, revealWide_toNat, val_karpLubyEstimate]

/-- **The Vazirani pipeline reveals the total times the sum of the reciprocals**,
if its estimate has at most 128 bits. -/
theorem runVaziraniPipeline_toNat
    (hW : VARS + sess.ctx.bitsFor (CUBES * CUBES) + (kDivideLookupScaleBits + 1) +
      sess.ctx.bitsFor K ≤ 128) :
    (runVaziraniPipeline sess my_dnf coins).toNat =
      sess.ctx.val (trialSetup sess my_dnf).total *
        ∑ t, sess.ctx.val (reciprocals sess my_dnf coins t) := by
  rw [runVaziraniPipeline, revealWide_eq sess hW, val_vaziraniEstimate]

/-- **The Karp-Luby pipeline reveals the total times the number of canonical
trials**, if its estimate has at most 128 bits. -/
theorem runKarpLubyPipeline_toNat
    (hW : VARS + sess.ctx.bitsFor (CUBES * CUBES) + sess.ctx.bitsFor (K + 1) ≤ 128) :
    (runKarpLubyPipeline sess my_dnf coins).toNat =
      sess.ctx.val (trialSetup sess my_dnf).total *
        #{t : Fin K | sess.ctx.bit (indicators sess my_dnf coins t) = true} := by
  rw [runKarpLubyPipeline, revealWide_eq sess hW, val_karpLubyEstimate]

end MpcVazirani
