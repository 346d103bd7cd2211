import MpcVazirani.Capacity
import MpcVazirani.CoinSymmetry
import MpcVazirani.GroundTruth

/-! # What the pipelines compute

The two estimators on a list of cubes, without wires, widths, positions or padding: a
sample picks a cube by weight, a string completes it, and the cubes of the list are asked
whether the assignment satisfies them.  On the cubes that the host writes out for the
ground truth the pipelines compute just these, in every session; so what the unit tests
see on clear wires is what the two parties see (`pipelines_refine`).

How far a run can be off follows.  Each common assignment satisfies some number of pairs of
cubes, and a Vazirani run is off by at most the ratio of the largest such number to the
smallest, whatever the coins (`pipelines_run_bounds`).
-/
namespace MpcVazirani
open Finset PrefixSums

section Lists
variable {N W K : Nat}

/-- The sum of the weights. -/
def listTotal (cs : List (Cube N)) : Nat := (cs.map Cube.weight).sum

/-- The number of cubes that an assignment satisfies. -/
def listCount (cs : List (Cube N)) (x : Fin N → Bool) : Nat :=
  (cs.map fun c => if c.Sat x then 1 else 0).sum

/-- A trial: the cubes in front of the one that the sample picks, and that one completed by
the string. -/
def listTrial (cs : List (Cube N)) (c : TrialCoins W N) : Option (List (Cube N) × (Fin N → Bool)) :=
  (pick Cube.weight cs (Nat.ofBits c.my_random_bits % listTotal cs + 1)).map fun p =>
    (p.1, p.2.fill c.my_assignment_bits)

/-- What a trial contributes to the Vazirani estimate. -/
def listReciprocal (cs : List (Cube N)) (c : TrialCoins W N) : Nat :=
  (listTrial cs c).elim 0 fun p => entry (listCount cs p.2)

/-- Whether a trial counts for the Karp-Luby estimate: no cube in front is satisfied. -/
def listIndicator (cs : List (Cube N)) (c : TrialCoins W N) : Bool :=
  (listTrial cs c).any fun p => p.1.all fun d => decide (¬ d.Sat p.2)

/-- The Vazirani estimate, scaled. -/
def vaziraniOnList (cs : List (Cube N)) (coins : Fin K → TrialCoins W N) : Nat :=
  listTotal cs * ∑ t, listReciprocal cs (coins t)

/-- The Karp-Luby estimate, scaled. -/
def karpLubyOnList (cs : List (Cube N)) (coins : Fin K → TrialCoins W N) : Nat :=
  listTotal cs * #{t | listIndicator cs (coins t) = true}

/-- The same coins at a width written in another way. -/
def TrialCoins.recast {W' : Nat} (h : W = W') (c : TrialCoins W N) : TrialCoins W' N where
  my_random_bits i := c.my_random_bits (i.cast h.symm)
  my_assignment_bits := c.my_assignment_bits

theorem estimates_recast {W' : Nat} (h : W = W') (cs : List (Cube N))
    (coins : Party → Fin K → TrialCoins W N) :
    vaziraniOnList cs (jointCoins fun party t => (coins party t).recast h) =
        vaziraniOnList cs (jointCoins coins) ∧
      karpLubyOnList cs (jointCoins fun party t => (coins party t).recast h) =
        karpLubyOnList cs (jointCoins coins) := by
  subst h
  exact ⟨rfl, rfl⟩

end Lists

/-- The width of a sample is the same in every session. -/
theorem sampleWidth_congr (sess sess' : SH2PCSession) (VARS M : Nat) :
    VARS + sess.ctx.bitsFor M = VARS + sess'.ctx.bitsFor M := by
  rw [sess.ctx.bitsFor_congr sess'.ctx]

section Refinement
variable (sess : SH2PCSession) {VARS CUBES K : Nat} [NeZero CUBES] (my_dnf : Party → Dnf VARS CUBES)

/-- The circuit's conjunction stands for the host's. -/
theorem cubes_trialSetup :
    (dnfValue (trialSetup sess my_dnf).conjunction).cubes =
      plainConjoinDnf (my_dnf .alice) (my_dnf .bob) := by
  funext k
  rw [plainConjoinDnf_apply, pairMeet, ← dnfValue_inputCubes sess my_dnf .alice,
    ← dnfValue_inputCubes sess my_dnf .bob]
  exact dnfValue_conjoinDnf _ k

/-- The cubes that the host writes out. -/
def hostCubes : List (Cube VARS) := realCubes (plainConjoinDnf (my_dnf .alice) (my_dnf .bob))

theorem val_total_eq_listTotal :
    sess.ctx.val (trialSetup sess my_dnf).total = listTotal (hostCubes my_dnf) := by
  rw [val_trialSetup_total, totalWeight_eq_sum_realCubes, cubes_trialSetup]
  rfl

variable {my_dnf} (coins : Party → Fin K → TrialCoins (VARS + sess.ctx.bitsFor (CUBES * CUBES)) VARS)

/-- The list's trial is the circuit's. -/
theorem listTrial_jointCoins (hS : 0 < sess.ctx.val (trialSetup sess my_dnf).total) {t : Fin K}
    {j : Fin (CUBES * CUBES)}
    (hj : InBlock (dnfValue (trialSetup sess my_dnf).conjunction).weights j
      (sess.ctx.val (pipelineTrial sess my_dnf coins t).z)) :
    listTrial (hostCubes my_dnf) (jointCoins coins t) =
      some (realBefore (dnfValue (trialSetup sess my_dnf).conjunction).cubes j,
        ((trialSetup sess my_dnf).conjunction j).value.fill
          (jointCoins coins t).my_assignment_bits) := by
  have hpick := pick_realCubes hj
  rw [val_pipelineTrial_z sess hS, val_total_eq_listTotal, cubes_trialSetup] at hpick
  rw [listTrial, hostCubes]
  rw [hostCubes] at hpick
  rw [hpick, ← cubes_trialSetup sess]
  rfl

variable [NeZero VARS] (hb : (my_dnf .bob).WellFormed)
  (hS : 0 < sess.ctx.val (trialSetup sess my_dnf).total)
include hb hS

theorem val_reciprocals_eq_list (t : Fin K) :
    sess.ctx.val (reciprocals sess my_dnf coins t) =
      listReciprocal (hostCubes my_dnf) (jointCoins coins t) := by
  obtain ⟨j, hj⟩ := exists_block_pipelineTrial sess my_dnf coins hS t
  rw [val_reciprocals sess hb hj, listReciprocal, listTrial_jointCoins sess coins hS hj,
    satisfiedCount_eq_sum_realCubes, cubes_trialSetup]
  rfl

theorem bit_indicators_eq_list (t : Fin K) :
    sess.ctx.bit (indicators sess my_dnf coins t) =
      listIndicator (hostCubes my_dnf) (jointCoins coins t) := by
  obtain ⟨j, hj⟩ := exists_block_pipelineTrial sess my_dnf coins hS t
  rw [Bool.eq_iff_iff, bit_indicators sess hb hj, listIndicator, listTrial_jointCoins sess coins hS hj,
    Option.any_some, List.all_eq_true]
  simp only [decide_eq_true_iff]
  exact forall_realBefore_iff.symm

omit hS

theorem run_eq_list :
    (runVaziraniPipeline sess my_dnf coins).toNat =
        vaziraniOnList (hostCubes my_dnf) (jointCoins coins) % 2 ^ 128 ∧
      (runKarpLubyPipeline sess my_dnf coins).toNat =
        karpLubyOnList (hostCubes my_dnf) (jointCoins coins) % 2 ^ 128 := by
  rw [runVaziraniPipeline_toNat_mod, runKarpLubyPipeline_toNat_mod, vaziraniOnList, karpLubyOnList,
    ← val_total_eq_listTotal sess]
  rcases Nat.eq_zero_or_pos (sess.ctx.val (trialSetup sess my_dnf).total) with hzero | hS
  · rw [hzero]
    simp only [Nat.zero_mul, and_self]
  · simp only [val_reciprocals_eq_list sess coins hb hS, bit_indicators_eq_list sess coins hb hS,
      and_self]

end Refinement

/-- **The pipelines compute the estimators** on the cubes that the host writes out, modulo
the `2 ^ 128` of the type that is revealed; and in every other session, on wires of any other
kind, they reveal the same. -/
theorem pipelines_refine (sess : SH2PCSession) {VARS CUBES K : Nat} [NeZero VARS] [NeZero CUBES]
    {my_dnf : Party → Dnf VARS CUBES} (hb : (my_dnf .bob).WellFormed)
    (coins : Party → Fin K → TrialCoins (VARS + sess.ctx.bitsFor (CUBES * CUBES)) VARS) :
    ((runVaziraniPipeline sess my_dnf coins).toNat =
        vaziraniOnList (hostCubes my_dnf) (jointCoins coins) % 2 ^ 128 ∧
      (runKarpLubyPipeline sess my_dnf coins).toNat =
        karpLubyOnList (hostCubes my_dnf) (jointCoins coins) % 2 ^ 128) ∧
    ∀ sess' : SH2PCSession,
      let coins' := fun party t => (coins party t).recast (sampleWidth_congr sess sess' VARS _)
      runVaziraniPipeline sess' my_dnf coins' = runVaziraniPipeline sess my_dnf coins ∧
        runKarpLubyPipeline sess' my_dnf coins' = runKarpLubyPipeline sess my_dnf coins := by
  have hlist := run_eq_list sess coins hb
  refine ⟨hlist, fun sess' => ?_⟩
  intro coins'
  have hlist' := run_eq_list sess' coins' hb
  have hcoins := estimates_recast (sampleWidth_congr sess sess' VARS _) (hostCubes my_dnf) coins
  rw [hcoins.1, hcoins.2] at hlist'
  exact ⟨BitVec.eq_of_toNat_eq (hlist'.1.trans hlist.1.symm),
    BitVec.eq_of_toNat_eq (hlist'.2.trans hlist.2.symm)⟩

/-- The demo in the clear: all strings zero. -/
theorem pipelines_refine_demo :
    (runVaziraniPipeline clearSession demoDnf (K := 3)
        fun _ _ => ⟨fun _ => false, fun _ => false⟩).toNat =
      vaziraniOnList (hostCubes demoDnf) (jointCoins fun _ (_ : Fin 3) =>
        (⟨fun _ => false, fun _ => false⟩ : TrialCoins (4 + clearSession.ctx.bitsFor 4) 4)) %
        2 ^ 128 :=
  (pipelines_refine clearSession (show (demoDnf .bob).WellFormed by decide) _).1.1

/-! ## How far a run can be off -/

section Bounds
variable (sess : SH2PCSession) {VARS CUBES K : Nat} [NeZero CUBES] {my_dnf : Party → Dnf VARS CUBES}
  {a b : Nat} (hcounts : ∀ x ∈ commonModels my_dnf,
    a ≤ (my_dnf .alice).satisfiedCount x * (my_dnf .bob).satisfiedCount x ∧
      (my_dnf .alice).satisfiedCount x * (my_dnf .bob).satisfiedCount x ≤ b)
include hcounts

theorem satisfiedCount_trialSetup_bounds {x : Fin VARS → Bool}
    (hx : (dnfValue (trialSetup sess my_dnf).conjunction).Sat x) :
    a ≤ (dnfValue (trialSetup sess my_dnf).conjunction).satisfiedCount x ∧
      (dnfValue (trialSetup sess my_dnf).conjunction).satisfiedCount x ≤ b := by
  have hcommon : x ∈ commonModels my_dnf := by
    rw [← trialSetup_models sess, Dnf.mem_models]
    exact hx
  have hcount : (dnfValue (trialSetup sess my_dnf).conjunction).satisfiedCount x =
      (my_dnf .alice).satisfiedCount x * (my_dnf .bob).satisfiedCount x := by
    rw [trialSetup, conjoinDnf_satisfiedCount, dnfValue_inputCubes, dnfValue_inputCubes]
  rw [hcount]
  exact hcounts x hcommon

/-- The total counts each common assignment between `a` and `b` times. -/
theorem val_trialSetup_total_bounds :
    a * #(commonModels my_dnf) ≤ sess.ctx.val (trialSetup sess my_dnf).total ∧
      sess.ctx.val (trialSetup sess my_dnf).total ≤ b * #(commonModels my_dnf) := by
  have hsum : sess.ctx.val (trialSetup sess my_dnf).total = ∑ x ∈ commonModels my_dnf,
      (dnfValue (trialSetup sess my_dnf).conjunction).satisfiedCount x := by
    rw [val_trialSetup_total, Dnf.totalWeight_eq_sum, ← trialSetup_models sess]
    refine (sum_subset (subset_univ _) fun x _ hx => ?_).symm
    rw [Dnf.mem_models, ← Dnf.satisfiedCount_pos] at hx
    exact Nat.eq_zero_of_not_pos hx
  have hmem : ∀ x ∈ commonModels my_dnf, (dnfValue (trialSetup sess my_dnf).conjunction).Sat x := by
    intro x hx
    rwa [← trialSetup_models sess, Dnf.mem_models] at hx
  have hterm := fun x hx => satisfiedCount_trialSetup_bounds sess hcounts (hmem x hx)
  have hfrom := card_nsmul_le_sum (commonModels my_dnf) _ a fun x hx => (hterm x hx).1
  have hto := sum_le_card_nsmul (commonModels my_dnf) _ b fun x hx => (hterm x hx).2
  rw [smul_eq_mul, Nat.mul_comm _ a] at hfrom
  rw [smul_eq_mul, Nat.mul_comm _ b] at hto
  rw [hsum]
  exact ⟨hfrom, hto⟩

/-- A reciprocal lies between the entries of `b` and `a`. -/
theorem val_reciprocals_bounds [NeZero VARS] (hb : (my_dnf .bob).WellFormed) (ha : 0 < a)
    (hS : 0 < sess.ctx.val (trialSetup sess my_dnf).total)
    (coins : Party → Fin K → TrialCoins (VARS + sess.ctx.bitsFor (CUBES * CUBES)) VARS) (t : Fin K) :
    entry b ≤ sess.ctx.val (reciprocals sess my_dnf coins t) ∧
      sess.ctx.val (reciprocals sess my_dnf coins t) ≤ entry a := by
  obtain ⟨j, hj⟩ := exists_block_pipelineTrial sess my_dnf coins hS t
  have hsat : (dnfValue (trialSetup sess my_dnf).conjunction).Sat
      (((trialSetup sess my_dnf).conjunction j).value.fill (jointCoins coins t).my_assignment_bits) :=
    ⟨j, Cube.fill_sat (Dnf.pad_of_inBlock _ hj) _⟩
  obtain ⟨hlow, hhigh⟩ := satisfiedCount_trialSetup_bounds sess hcounts hsat
  rw [val_reciprocals sess hb hj]
  exact ⟨entry_antitone (ha.trans_le hlow) hhigh, entry_antitone ha hlow⟩

/-- A Vazirani run lies between what the smallest and the largest entry would give. -/
theorem runVaziraniPipeline_bounds [NeZero VARS] (hb : (my_dnf .bob).WellFormed) (ha : 0 < a)
    (hW : VARS + sess.ctx.bitsFor (CUBES * CUBES) + (kDivideLookupScaleBits + 1) +
      sess.ctx.bitsFor K ≤ 128)
    (coins : Party → Fin K → TrialCoins (VARS + sess.ctx.bitsFor (CUBES * CUBES)) VARS) :
    K * entry b * (a * #(commonModels my_dnf)) ≤ (runVaziraniPipeline sess my_dnf coins).toNat ∧
      (runVaziraniPipeline sess my_dnf coins).toNat ≤ K * entry a * (b * #(commonModels my_dnf)) := by
  obtain ⟨hlow, hhigh⟩ := val_trialSetup_total_bounds sess hcounts
  rw [runVaziraniPipeline_toNat sess my_dnf coins hW]
  rcases Nat.eq_zero_or_pos (sess.ctx.val (trialSetup sess my_dnf).total) with hzero | hS
  · have hU : #(commonModels my_dnf) = 0 := by
      rw [hzero] at hlow
      exact (Nat.mul_eq_zero.mp (Nat.eq_zero_of_le_zero hlow)).resolve_left ha.ne'
    rw [hzero, hU]
    simp
  · have hterm := val_reciprocals_bounds sess hcounts hb ha hS coins
    have hfrom : K * entry b ≤ ∑ t, sess.ctx.val (reciprocals sess my_dnf coins t) := by
      have h := card_nsmul_le_sum univ _ _ fun t _ => (hterm t).1
      rwa [card_univ, Fintype.card_fin, smul_eq_mul] at h
    have hto : ∑ t, sess.ctx.val (reciprocals sess my_dnf coins t) ≤ K * entry a := by
      have h := sum_le_card_nsmul univ _ _ fun t _ => (hterm t).2
      rwa [card_univ, Fintype.card_fin, smul_eq_mul] at h
    rw [Nat.mul_comm (sess.ctx.val (trialSetup sess my_dnf).total)]
    exact ⟨Nat.mul_le_mul hfrom hlow, Nat.mul_le_mul hto hhigh⟩

end Bounds

/-- **How far a run can be off.**  Where every common assignment satisfies between `a` and
`b` pairs of cubes, the total is between `a` and `b` times the truth; every Vazirani run is
within the factor `b / a` of it, but for the rounding of the table, whatever the coins; and a
Karp-Luby run is at most the `K`-th multiple of the total. -/
theorem pipelines_run_bounds (sess : SH2PCSession) {VARS CUBES K : Nat} [NeZero VARS] [NeZero CUBES]
    {my_dnf : Party → Dnf VARS CUBES} (hb : (my_dnf .bob).WellFormed) {a b : Nat} (ha : 0 < a)
    (hcounts : ∀ x ∈ commonModels my_dnf,
      a ≤ (my_dnf .alice).satisfiedCount x * (my_dnf .bob).satisfiedCount x ∧
        (my_dnf .alice).satisfiedCount x * (my_dnf .bob).satisfiedCount x ≤ b)
    (coins : Party → Fin K → TrialCoins (VARS + sess.ctx.bitsFor (CUBES * CUBES)) VARS) :
    (a * #(commonModels my_dnf) ≤ sess.ctx.val (trialSetup sess my_dnf).total ∧
      sess.ctx.val (trialSetup sess my_dnf).total ≤ b * #(commonModels my_dnf)) ∧
    (VARS + sess.ctx.bitsFor (CUBES * CUBES) + (kDivideLookupScaleBits + 1) +
        sess.ctx.bitsFor K ≤ 128 →
      K * entry b * (a * #(commonModels my_dnf)) ≤ (runVaziraniPipeline sess my_dnf coins).toNat ∧
        (runVaziraniPipeline sess my_dnf coins).toNat ≤
          K * entry a * (b * #(commonModels my_dnf))) ∧
    (VARS + sess.ctx.bitsFor (CUBES * CUBES) + sess.ctx.bitsFor (K + 1) ≤ 128 →
      ∃ g ≤ K, (runKarpLubyPipeline sess my_dnf coins).toNat =
        sess.ctx.val (trialSetup sess my_dnf).total * g) := by
  refine ⟨val_trialSetup_total_bounds sess hcounts,
    fun hW => runVaziraniPipeline_bounds sess hcounts hb ha hW coins, fun hW => ?_⟩
  refine ⟨_, ?_, runKarpLubyPipeline_toNat sess my_dnf coins hW⟩
  exact (card_filter_le _ _).trans_eq (by rw [card_univ, Fintype.card_fin])

/-- Some assignment of the demo satisfies all four pairs of cubes. -/
theorem pipelines_run_bounds_demo :
    3 * entry 4 * (1 * #(commonModels demoDnf)) ≤
      (runVaziraniPipeline clearSession demoDnf (K := 3)
        fun _ _ => ⟨fun _ => true, fun _ => false⟩).toNat :=
  ((pipelines_run_bounds clearSession (show (demoDnf .bob).WellFormed by decide) Nat.one_pos
    (b := 4) (by decide) _).2.1 (by decide)).1

end MpcVazirani
