import MpcVazirani.Pipeline

/-! # What a party's coins can do

Every contribution of a trial enters the circuit through the xor with the other
party's, so a run sees the two coin vectors only through their joint coins
(`run_congr`).  Changing Bob's coins is therefore undone by xoring Alice's with the
difference, which permutes her coin vectors: of these as many lead to a given result
as before.  With the parties exchanged the argument is the same, and neither needs a
positive total, because a total of zero is revealed as zero.
-/
namespace MpcVazirani
open Finset PrefixSums

namespace TrialCoins
variable {W N : Nat}

/-- Coins are two strings. -/
def equivProd : TrialCoins W N ≃ (Fin W → Bool) × (Fin N → Bool) where
  toFun c := (c.my_random_bits, c.my_assignment_bits)
  invFun p := ⟨p.1, p.2⟩
  left_inv _ := rfl
  right_inv _ := rfl

instance : Fintype (TrialCoins W N) := Fintype.ofEquiv _ equivProd.symm

/-- The joint coins of two contributions. -/
def xor (a b : TrialCoins W N) : TrialCoins W N where
  my_random_bits i := a.my_random_bits i ^^ b.my_random_bits i
  my_assignment_bits i := a.my_assignment_bits i ^^ b.my_assignment_bits i

theorem xor_comm (a b : TrialCoins W N) : a.xor b = b.xor a := by
  simp only [xor, Bool.xor_comm]

theorem xor_assoc (a b c : TrialCoins W N) : (a.xor b).xor c = a.xor (b.xor c) := by
  simp only [xor, Bool.xor_assoc]

theorem xor_xor_self (a b : TrialCoins W N) : (a.xor b).xor b = a := by
  simp [xor]

/-- Xoring every trial's coins with fixed ones, which undoes itself. -/
def maskEquiv {K : Nat} (m : Fin K → TrialCoins W N) :
    (Fin K → TrialCoins W N) ≃ (Fin K → TrialCoins W N) where
  toFun a := fun t => (a t).xor (m t)
  invFun a := fun t => (a t).xor (m t)
  left_inv a := funext fun t => xor_xor_self (a t) (m t)
  right_inv a := funext fun t => xor_xor_self (a t) (m t)

end TrialCoins

/-- The coins of the parties, `mine` being the owner's. -/
def coinsOf {W N K : Nat} (owner : Party) (mine theirs : Fin K → TrialCoins W N) :
    Party → Fin K → TrialCoins W N := fun party => if party = owner then mine else theirs

/-- The joint coins of trial `t`. -/
def jointCoins {W N K : Nat} (coins : Party → Fin K → TrialCoins W N) (t : Fin K) :
    TrialCoins W N := (coins .alice t).xor (coins .bob t)

theorem jointCoins_coinsOf {W N K : Nat} (owner : Party) (mine theirs : Fin K → TrialCoins W N)
    (t : Fin K) : jointCoins (coinsOf owner mine theirs) t = (mine t).xor (theirs t) := by
  cases owner with
  | alice => rfl
  | bob => exact TrialCoins.xor_comm _ _

section Runs
variable (sess : SH2PCSession) {VARS CUBES K : Nat} [NeZero CUBES] {my_dnf : Party → Dnf VARS CUBES}
  {coins coins' : Party → Fin K → TrialCoins (VARS + sess.ctx.bitsFor (CUBES * CUBES)) VARS}

/-- The sample is a function of the joint coins. -/
theorem val_pipelineTrial_z (hS : 0 < sess.ctx.val (trialSetup sess my_dnf).total) (t : Fin K) :
    sess.ctx.val (pipelineTrial sess my_dnf coins t).z =
      Nat.ofBits (jointCoins coins t).my_random_bits %
        sess.ctx.val (trialSetup sess my_dnf).total + 1 := by
  change sess.ctx.val (sampleInRange _ _ _) = _
  rw [val_sampleInRange hS, jointSample, sess.bits_input, sess.bits_input]
  rfl

variable [NeZero VARS] (hb : (my_dnf .bob).WellFormed)
include hb

/-- So are, given the block of the sample, the reciprocal of a trial ... -/
theorem val_reciprocals {j : Fin (CUBES * CUBES)} {t : Fin K}
    (hj : InBlock (dnfValue (trialSetup sess my_dnf).conjunction).weights j
      (sess.ctx.val (pipelineTrial sess my_dnf coins t).z)) :
    sess.ctx.val (reciprocals sess my_dnf coins t) =
      entry ((dnfValue (trialSetup sess my_dnf).conjunction).satisfiedCount
        (((trialSetup sess my_dnf).conjunction j).value.fill
          (jointCoins coins t).my_assignment_bits)) := by
  refine (val_reciprocal_trialFrom (trialSetup_wellFormed sess my_dnf hb) hj _ _).trans ?_
  rw [sess.bits_input, sess.bits_input]
  rfl

/-- ... and its indicator. -/
theorem bit_indicators {j : Fin (CUBES * CUBES)} {t : Fin K}
    (hj : InBlock (dnfValue (trialSetup sess my_dnf).conjunction).weights j
      (sess.ctx.val (pipelineTrial sess my_dnf coins t).z)) :
    sess.ctx.bit (indicators sess my_dnf coins t) = true ↔
      ∀ k < j, ¬ ((trialSetup sess my_dnf).conjunction k).value.Sat
        (((trialSetup sess my_dnf).conjunction j).value.fill
          (jointCoins coins t).my_assignment_bits) := by
  refine (bit_canonical_trialFrom (trialSetup_wellFormed sess my_dnf hb) hj _ _).trans ?_
  rw [sess.bits_input, sess.bits_input]
  rfl

/-- What a trial contributes is a function of the joint coins. -/
theorem trials_congr (hS : 0 < sess.ctx.val (trialSetup sess my_dnf).total)
    (hjoint : ∀ t, jointCoins coins t = jointCoins coins' t) (t : Fin K) :
    sess.ctx.val (reciprocals sess my_dnf coins t) =
        sess.ctx.val (reciprocals sess my_dnf coins' t) ∧
      (sess.ctx.bit (indicators sess my_dnf coins t) = true ↔
        sess.ctx.bit (indicators sess my_dnf coins' t) = true) := by
  obtain ⟨j, hj⟩ := exists_block_pipelineTrial sess my_dnf coins hS t
  have hj' : InBlock (dnfValue (trialSetup sess my_dnf).conjunction).weights j
      (sess.ctx.val (pipelineTrial sess my_dnf coins' t).z) := by
    rwa [val_pipelineTrial_z sess hS, ← hjoint t, ← val_pipelineTrial_z sess hS]
  constructor
  · rw [val_reciprocals sess hb hj, val_reciprocals sess hb hj', hjoint]
  · rw [bit_indicators sess hb hj, bit_indicators sess hb hj', hjoint]

/-- **A run is a function of the formulas and the joint coins.** -/
theorem run_congr (hjoint : ∀ t, jointCoins coins t = jointCoins coins' t) :
    runVaziraniPipeline sess my_dnf coins = runVaziraniPipeline sess my_dnf coins' ∧
      runKarpLubyPipeline sess my_dnf coins = runKarpLubyPipeline sess my_dnf coins' := by
  rw [← BitVec.toNat_inj, ← BitVec.toNat_inj, runVaziraniPipeline_toNat_mod,
    runVaziraniPipeline_toNat_mod, runKarpLubyPipeline_toNat_mod, runKarpLubyPipeline_toNat_mod]
  rcases Nat.eq_zero_or_pos (sess.ctx.val (trialSetup sess my_dnf).total) with hzero | hS
  · rw [hzero]
    simp only [Nat.zero_mul, and_self]
  · have htrial := trials_congr sess hb hS hjoint
    simp only [fun t => (htrial t).1, fun t => (htrial t).2, and_self]

/-- **A party's coins cannot shift the distribution of the result.**  Of the complete
coin vectors of either party, as many make the run reveal `v` when the other party's
coins are `theirs` as when they are `theirs'`, for both pipelines. -/
theorem runs_independent_of_coins (owner : Party)
    (theirs theirs' : Fin K → TrialCoins (VARS + sess.ctx.bitsFor (CUBES * CUBES)) VARS)
    (v : BitVec 128) :
    #{mine | runVaziraniPipeline sess my_dnf (coinsOf owner mine theirs) = v} =
        #{mine | runVaziraniPipeline sess my_dnf (coinsOf owner mine theirs') = v} ∧
      #{mine | runKarpLubyPipeline sess my_dnf (coinsOf owner mine theirs) = v} =
        #{mine | runKarpLubyPipeline sess my_dnf (coinsOf owner mine theirs') = v} := by
  have hjoint : ∀ mine t, jointCoins (coinsOf owner mine theirs) t = jointCoins (coinsOf owner
      (TrialCoins.maskEquiv (fun t => (theirs t).xor (theirs' t)) mine) theirs') t := by
    intro mine t
    rw [jointCoins_coinsOf, jointCoins_coinsOf]
    change _ = ((mine t).xor ((theirs t).xor (theirs' t))).xor (theirs' t)
    rw [TrialCoins.xor_assoc, TrialCoins.xor_xor_self]
  constructor
  · refine card_equiv (TrialCoins.maskEquiv fun t => (theirs t).xor (theirs' t)) fun mine => ?_
    rw [mem_filter, mem_filter, (run_congr sess hb (hjoint mine)).1]
    simp only [mem_univ, true_and]
  · refine card_equiv (TrialCoins.maskEquiv fun t => (theirs t).xor (theirs' t)) fun mine => ?_
    rw [mem_filter, mem_filter, (run_congr sess hb (hjoint mine)).2]
    simp only [mem_univ, true_and]

end Runs

/-- Bob may put in zeros or ones. -/
theorem runs_independent_of_coins_demo :
    #{mine : Fin 3 → TrialCoins (4 + clearSession.ctx.bitsFor (2 * 2)) 4 |
        runVaziraniPipeline clearSession demoDnf
          (coinsOf .alice mine fun _ => ⟨fun _ => false, fun _ => false⟩) = 1} =
      #{mine : Fin 3 → TrialCoins (4 + clearSession.ctx.bitsFor (2 * 2)) 4 |
        runVaziraniPipeline clearSession demoDnf
          (coinsOf .alice mine fun _ => ⟨fun _ => true, fun _ => true⟩) = 1} :=
  (runs_independent_of_coins clearSession (by decide) .alice _ _ 1).1

end MpcVazirani
