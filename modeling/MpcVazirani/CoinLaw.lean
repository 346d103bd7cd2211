import MpcVazirani.Bernstein
import MpcVazirani.CoinSymmetry
import MpcVazirani.Unbiased

/-! # The distribution of what is revealed

One party's coins are uniform, the other's are anything.  Then the joint coins are
uniform, and independent from trial to trial.  The Karp-Luby pipeline reveals the total
times the number of trials whose joint coins are canonical, so what it reveals is a
binomial variable, of the total (`karpLuby_law`).  The sampler's remainder makes the
frequency of such coins differ from the ideal one, by at most one in `2 ^ W / total`.
Around this mean the result of either pipeline is concentrated exponentially in the
number of trials (`karpLuby_tail`, `vazirani_tail`).
-/
namespace MpcVazirani
open Finset PrefixSums SampleMean

section Coins
variable {W N : Nat}

/-- Over all coins of a trial the reduced number and the string are summed over
separately. -/
theorem sum_coins {R : Type*} [AddCommMonoid R] (S : Nat) (g : Nat → (Fin N → Bool) → R) :
    ∑ c : TrialCoins W N, g (Nat.ofBits c.my_random_bits % S + 1) c.my_assignment_bits =
      ∑ n ∈ range (2 ^ W), ∑ r, g (n % S + 1) r := by
  rw [← BitStrings.sum_ofBits fun n => ∑ r, g (n % S + 1) r]
  exact (Fintype.sum_equiv TrialCoins.equivProd _
    (fun p => g (Nat.ofBits p.1 % S + 1) p.2) fun _ => rfl).trans (Fintype.sum_prod_type _)

theorem card_coins : Fintype.card (TrialCoins W N) = 2 ^ W * 2 ^ N := by
  rw [Fintype.card_congr TrialCoins.equivProd]
  simp

/-- **Uniform coins of one party make the joint coins uniform.** -/
theorem card_jointCoins {K : Nat} (owner : Party) (theirs : Fin K → TrialCoins W N)
    (Q : (Fin K → TrialCoins W N) → Prop) [DecidablePred Q] :
    #{mine | Q (jointCoins (coinsOf owner mine theirs))} = #{c | Q c} := by
  refine card_equiv (TrialCoins.maskEquiv theirs) fun mine => ?_
  rw [mem_filter, mem_filter, funext (jointCoins_coinsOf owner mine theirs)]
  simp only [mem_univ, true_and]
  rfl

/-- Between `q` and `q + 1` periods: the mean over all that is reduced, times the period. -/
theorem mean_bounds_of_periods {R S q A P : ℝ} (hS : 0 < S) (hq : 1 ≤ q) (hbelow : S * q ≤ R)
    (habove : R < S * (q + 1)) (hA : 0 ≤ A) (hlow : q * A ≤ P) (hhigh : P ≤ (q + 1) * A) :
    q / (q + 1) * A ≤ S * P / R ∧ S * P / R ≤ (q + 1) / q * A := by
  have hR : 0 < R := lt_of_lt_of_le (by positivity) hbelow
  constructor
  · rw [le_div_iff₀ hR, div_mul_eq_mul_div, div_mul_eq_mul_div, div_le_iff₀ (by positivity)]
    calc q * A * R ≤ q * A * (S * (q + 1)) := mul_le_mul_of_nonneg_left habove.le (by positivity)
      _ = S * (q * A) * (q + 1) := by ring
      _ ≤ S * P * (q + 1) := by gcongr
  · rw [div_le_iff₀ hR, div_mul_eq_mul_div, div_mul_eq_mul_div, le_div_iff₀ (by positivity)]
    calc S * P * q ≤ S * ((q + 1) * A) * q := by gcongr
      _ = (q + 1) * A * (S * q) := by ring
      _ ≤ (q + 1) * A * R := mul_le_mul_of_nonneg_left hbelow (by positivity)

/-- The remainder moves the mean of a quantity of the sample and the string by at most one
in `q`. -/
theorem sum_coins_bounds {S : Nat} (hS : 0 < S) (hSW : S ≤ 2 ^ W) (g : Nat → (Fin N → Bool) → Nat) :
    let A : ℝ := (∑ z ∈ Icc 1 S, ∑ r, g z r : Nat)
    let q : ℝ := (2 ^ W / S : Nat)
    let P : ℝ := (∑ c : TrialCoins W N,
      g (Nat.ofBits c.my_random_bits % S + 1) c.my_assignment_bits : Nat)
    1 ≤ q ∧ q / (q + 1) * A ≤ S * P / 2 ^ W ∧ S * P / 2 ^ W ≤ (q + 1) / q * A := by
  intro A q P
  obtain ⟨hPlow, hPhigh⟩ := Residues.sum_range_bounds S (fun z => ∑ r, g z r) hS (2 ^ W)
  rw [← sum_coins S g] at hPlow hPhigh
  have hq : 1 ≤ q := Nat.one_le_cast.mpr ((Nat.one_le_div_iff hS).mpr hSW)
  have hbelow : S * q ≤ 2 ^ W := by
    have h := Nat.mul_div_le (2 ^ W) S
    rw [← Nat.cast_mul]
    exact_mod_cast h
  have habove : 2 ^ W < S * (q + 1) := by
    have h := Nat.lt_mul_div_succ (2 ^ W) hS
    rw [← Nat.cast_add_one, ← Nat.cast_mul]
    exact_mod_cast h
  have hlow : q * A ≤ P := by
    rw [← Nat.cast_mul]
    exact Nat.cast_le.mpr hPlow
  have hhigh : P ≤ (q + 1) * A := by
    rw [← Nat.cast_add_one, ← Nat.cast_mul]
    exact Nat.cast_le.mpr hPhigh
  exact ⟨hq, mean_bounds_of_periods (Nat.cast_pos.mpr hS) hq hbelow habove (Nat.cast_nonneg _)
    hlow hhigh⟩

/-- A sum that is near its mean, where the mean is near `a` and `b`. -/
theorem scaled_bounds_of_abs_le {K : Nat} {F m x a b l u ε : ℝ} (hF : 0 ≤ F) (hε0 : 0 ≤ ε)
    (hε1 : ε ≤ 1) (hlow : l * a ≤ F * m) (hhigh : F * m ≤ u * b)
    (h : |x - K * m| ≤ ε * (K * m)) :
    (1 - ε) * l * (K * a) ≤ F * x ∧ F * x ≤ (1 + ε) * u * (K * b) := by
  obtain ⟨hfrom, hto⟩ := abs_le.mp h
  have hε : 0 ≤ 1 - ε := by linarith
  constructor
  · calc (1 - ε) * l * (K * a) = (1 - ε) * (K * (l * a)) := by ring
      _ ≤ (1 - ε) * (K * (F * m)) := by gcongr
      _ = F * ((1 - ε) * (K * m)) := by ring
      _ ≤ F * x := mul_le_mul_of_nonneg_left (by linarith) hF
  · calc F * x ≤ F * ((1 + ε) * (K * m)) := mul_le_mul_of_nonneg_left (by linarith) hF
      _ = (1 + ε) * (K * (F * m)) := by ring
      _ ≤ (1 + ε) * (K * (u * b)) := by gcongr
      _ = (1 + ε) * u * (K * b) := by ring

/-- **From one trial to what is revealed.**  One party's coins are uniform, and the result is
the total times the sum over the trials of a quantity of at most `B`.  If the mean of this
quantity over all coins bounds the fraction of the runs that are off by a relative `ε`, the
result is off by no more than that and what the remainder adds, in terms of bounds for the
sum over all samples of the mean over the strings. -/
theorem card_result_le {K S B : Nat} (hS : 0 < S) (hSW : S ≤ 2 ^ W) (hB : 0 < B)
    {g : Nat → (Fin N → Bool) → Nat} (hg : ∀ z r, g z r ≤ B) {a b : ℝ}
    (hlow : 2 ^ N * a ≤ (∑ z ∈ Icc 1 S, ∑ r, g z r : Nat))
    (hhigh : (∑ z ∈ Icc 1 S, ∑ r, g z r : Nat) ≤ 2 ^ N * b) (owner : Party)
    (theirs : Fin K → TrialCoins W N) (result : (Fin K → TrialCoins W N) → Nat)
    (hresult : ∀ mine, result mine = S * ∑ t,
      g (Nat.ofBits (jointCoins (coinsOf owner mine theirs) t).my_random_bits % S + 1)
        (jointCoins (coinsOf owner mine theirs) t).my_assignment_bits)
    {ε β : ℝ} (hε0 : 0 ≤ ε) (hε1 : ε ≤ 1)
    (htail : ∀ (f : TrialCoins W N → ℝ) (m : ℝ), (∀ c, 0 ≤ f c) → (∀ c, f c ≤ 1) →
      ∑ c, f c = #(univ : Finset (TrialCoins W N)) * m →
      ((2 ^ W / S : Nat) : ℝ) / ((2 ^ W / S : Nat) + 1) * (a / (B * S)) ≤ m →
      (#{c ∈ tuples (univ : Finset (TrialCoins W N)) K |
        ε * (K * m) < |∑ t, f (c t) - K * m|} : ℝ) ≤ #(tuples (univ : Finset (TrialCoins W N)) K) * β) :
    let q : ℝ := (2 ^ W / S : Nat)
    (#{mine | ¬ ((1 - ε) * (q / (q + 1)) * (K * a) ≤ result mine ∧
        result mine ≤ (1 + ε) * ((q + 1) / q) * (K * b))} : ℝ) ≤
      Fintype.card (Fin K → TrialCoins W N) * β := by
  intro q
  let f : TrialCoins W N → ℝ := fun c =>
    (g (Nat.ofBits c.my_random_bits % S + 1) c.my_assignment_bits : ℝ) / B
  let P : Nat := ∑ c : TrialCoins W N, g (Nat.ofBits c.my_random_bits % S + 1) c.my_assignment_bits
  let m : ℝ := P / (2 ^ W * 2 ^ N * B)
  have hS' : (0 : ℝ) < S := Nat.cast_pos.mpr hS
  have hB' : (0 : ℝ) < B := Nat.cast_pos.mpr hB
  have hpow : (0 : ℝ) < 2 ^ N := by positivity
  obtain ⟨hq, hmlow, hmhigh⟩ := sum_coins_bounds hS hSW g
  have hmean : ∑ c, f c = #(univ : Finset (TrialCoins W N)) * m := by
    rw [card_univ, card_coins, ← sum_div]
    simp only [m, P]
    push_cast
    field_simp
  -- the mean of the result of one trial
  have hm : 2 ^ N * (S * B * m) = S * P / 2 ^ W := by
    simp only [m]
    field_simp
  have hfrom : q / (q + 1) * a ≤ S * B * m := by
    refine le_of_mul_le_mul_left ?_ hpow
    calc 2 ^ N * (q / (q + 1) * a) = q / (q + 1) * (2 ^ N * a) := by ring
      _ ≤ q / (q + 1) * (∑ z ∈ Icc 1 S, ∑ r, g z r : Nat) := by gcongr
      _ ≤ 2 ^ N * (S * B * m) := hmlow.trans hm.ge
  have hto : S * B * m ≤ (q + 1) / q * b := by
    refine le_of_mul_le_mul_left ?_ hpow
    calc 2 ^ N * (S * B * m) ≤ (q + 1) / q * (∑ z ∈ Icc 1 S, ∑ r, g z r : Nat) := hm.le.trans hmhigh
      _ ≤ (q + 1) / q * (2 ^ N * b) := by gcongr
      _ = 2 ^ N * ((q + 1) / q * b) := by ring
  have hbad := htail f m (fun c => by positivity)
    (fun c => (div_le_one hB').mpr (by exact_mod_cast hg _ _)) hmean (by
      rw [← mul_div_assoc, div_le_iff₀ (by positivity)]
      linarith)
  rw [tuples, Fintype.piFinset_univ, card_univ] at hbad
  refine (Nat.cast_le.mpr ?_).trans hbad
  refine (card_le_card fun mine hmine => ?_).trans (card_jointCoins owner theirs
    fun c => ε * (K * m) < |∑ t, f (c t) - K * m|).le
  refine mem_filter.mpr ⟨mem_univ mine, not_le.mp fun hle => (mem_filter.mp hmine).2 ?_⟩
  have hvalue : (result mine : ℝ) =
      S * B * ∑ t, f (jointCoins (coinsOf owner mine theirs) t) := by
    rw [hresult mine, ← sum_div, mul_assoc, mul_div_cancel₀ _ hB'.ne']
    push_cast
    rfl
  rw [hvalue]
  exact scaled_bounds_of_abs_le (by positivity) hε0 hε1 hfrom hto hle

/-- The exponential tail of such a result. -/
theorem card_result_tail {K S B : Nat} (hS : 0 < S) (hSW : S ≤ 2 ^ W) (hB : 0 < B)
    {g : Nat → (Fin N → Bool) → Nat} (hg : ∀ z r, g z r ≤ B) {a b : ℝ} (ha : 0 < a)
    (hlow : 2 ^ N * a ≤ (∑ z ∈ Icc 1 S, ∑ r, g z r : Nat))
    (hhigh : (∑ z ∈ Icc 1 S, ∑ r, g z r : Nat) ≤ 2 ^ N * b) (owner : Party)
    (theirs : Fin K → TrialCoins W N) (result : (Fin K → TrialCoins W N) → Nat)
    (hresult : ∀ mine, result mine = S * ∑ t,
      g (Nat.ofBits (jointCoins (coinsOf owner mine theirs) t).my_random_bits % S + 1)
        (jointCoins (coinsOf owner mine theirs) t).my_assignment_bits)
    {ε : ℝ} (hε0 : 0 ≤ ε) (hε1 : ε ≤ 1) :
    let q : ℝ := (2 ^ W / S : Nat)
    (#{mine | ¬ ((1 - ε) * (q / (q + 1)) * (K * a) ≤ result mine ∧
        result mine ≤ (1 + ε) * ((q + 1) / q) * (K * b))} : ℝ) ≤
      Fintype.card (Fin K → TrialCoins W N) *
        (2 * Real.exp (-(3 / 16 * ε ^ 2 * (K * (a / (B * S)))))) := by
  intro q
  refine card_result_le hS hSW hB hg hlow hhigh owner theirs result hresult hε0 hε1 ?_
  intro f m h0 h1 hmean hm
  have hmean0 : 0 < a / (B * S) := div_pos ha (mul_pos (Nat.cast_pos.mpr hB) (Nat.cast_pos.mpr hS))
  have hq : 1 ≤ q := Nat.one_le_cast.mpr ((Nat.one_le_div_iff hS).mpr hSW)
  have hhalf : a / (B * S) ≤ 2 * m := by
    have h : 1 / 2 ≤ q / (q + 1) := by
      rw [div_le_div_iff₀ two_pos (by positivity)]
      linarith
    have h' := (mul_le_mul_of_nonneg_right h hmean0.le).trans hm
    linarith
  have hm0 : 0 < m := by linarith
  rcases Nat.eq_zero_or_pos K with rfl | hK
  · -- without trials the bound says nothing
    simp only [Nat.cast_zero, zero_mul, mul_zero, neg_zero, Real.exp_zero, mul_one]
    refine (Nat.cast_le.mpr (card_filter_le _ _)).trans ?_
    exact le_mul_of_one_le_right (Nat.cast_nonneg _) one_le_two
  have hK' : (0 : ℝ) < K := Nat.cast_pos.mpr hK
  have hsum : ∑ _t : Fin K, m = K * m := by
    rw [sum_const, card_univ, Fintype.card_fin, nsmul_eq_mul]
  have hbad := Bernstein.card_relative_error_le (K := K) (s := (univ : Finset (TrialCoins W N)))
    (f := fun _ => f) (m := fun _ => m) (ε := ε) ⟨⟨fun _ => false, fun _ => false⟩, mem_univ _⟩
    (fun _ c _ => h0 c) (fun _ c _ => h1 c) (fun _ => hmean) (by rw [hsum]; positivity) hε0 hε1
  rw [hsum] at hbad
  refine hbad.trans (mul_le_mul_of_nonneg_left (mul_le_mul_of_nonneg_left
    (Real.exp_le_exp.mpr (neg_le_neg ?_)) zero_le_two) (Nat.cast_nonneg _))
  calc 3 / 16 * ε ^ 2 * (K * (a / (B * S))) ≤ 3 / 16 * ε ^ 2 * (K * (2 * m)) := by gcongr
    _ = 3 / 8 * ε ^ 2 * (K * m) := by ring

/-- Nothing is off if all results are zero, and should be. -/
theorem card_off_eq_zero {ι : Type*} [Fintype ι] {result : ι → Nat} {low high : ℝ} (hlow : low = 0)
    (hhigh : high = 0) (hresult : ∀ i, result i = 0) :
    #{i | ¬ (low ≤ result i ∧ result i ≤ high)} = 0 := by
  refine card_eq_zero.mpr (filter_eq_empty_iff.mpr fun i _ => not_not.mpr ?_)
  rw [hresult i, hlow, hhigh, Nat.cast_zero]
  exact ⟨le_refl 0, le_refl 0⟩

/-- No table entry is above the scale. -/
theorem reciprocalOn_le {Ctx : BooleanContext} {M : Nat} [NeZero M]
    {cubes : Fin M → CircuitCube Ctx N} (bob_r : Ctx.BitVecT N) (z : Nat) (r : Fin N → Bool) :
    reciprocalOn cubes bob_r z r ≤ kDivideLookupScale := by
  rw [reciprocalOn, val_divideLookup]
  split_ifs <;> exact entry_le _

end Coins

section Joint
variable (sess : SH2PCSession) {VARS CUBES K : Nat} [NeZero CUBES] (my_dnf : Party → Dnf VARS CUBES)

/-- The sample of a trial with joint coins `c`. -/
def sampleOf (c : TrialCoins (VARS + sess.ctx.bitsFor (CUBES * CUBES)) VARS) : Nat :=
  Nat.ofBits c.my_random_bits % sess.ctx.val (trialSetup sess my_dnf).total + 1

/-- Whether a trial with joint coins `c` is canonical. -/
def canonicalCoins (c : TrialCoins (VARS + sess.ctx.bitsFor (CUBES * CUBES)) VARS) : Bool :=
  canonicalOn (trialSetup sess my_dnf).conjunction (sess.ctx.bitVecConst fun _ => false)
    (sampleOf sess my_dnf c) c.my_assignment_bits

/-- The table entry of a trial with joint coins `c`. -/
def reciprocalCoins (c : TrialCoins (VARS + sess.ctx.bitsFor (CUBES * CUBES)) VARS) : Nat :=
  reciprocalOn (trialSetup sess my_dnf).conjunction (sess.ctx.bitVecConst fun _ => false)
    (sampleOf sess my_dnf c) c.my_assignment_bits

variable {my_dnf} [NeZero VARS] (hb : (my_dnf .bob).WellFormed)
  (hS : 0 < sess.ctx.val (trialSetup sess my_dnf).total)
  (coins : Party → Fin K → TrialCoins (VARS + sess.ctx.bitsFor (CUBES * CUBES)) VARS)
include hb hS

theorem bit_indicators_eq (t : Fin K) :
    sess.ctx.bit (indicators sess my_dnf coins t) =
      canonicalCoins sess my_dnf (jointCoins coins t) := by
  obtain ⟨j, hj⟩ := exists_block_pipelineTrial sess my_dnf coins hS t
  have hz : sess.ctx.val (pipelineTrial sess my_dnf coins t).z = _ := val_pipelineTrial_z sess hS t
  rw [Bool.eq_iff_iff, bit_indicators sess hb hj, canonicalCoins, sampleOf,
    canonicalOn_eq_true _ (trialSetup_wellFormed sess my_dnf hb) (by rwa [← hz])]
  simp only [sess.ctx.bits_const, Bool.xor_false]

theorem val_reciprocals_eq (t : Fin K) :
    sess.ctx.val (reciprocals sess my_dnf coins t) =
      reciprocalCoins sess my_dnf (jointCoins coins t) := by
  obtain ⟨j, hj⟩ := exists_block_pipelineTrial sess my_dnf coins hS t
  have hz : sess.ctx.val (pipelineTrial sess my_dnf coins t).z = _ := val_pipelineTrial_z sess hS t
  have hwf := trialSetup_wellFormed sess my_dnf hb
  rw [val_reciprocals sess hb hj, reciprocalCoins, sampleOf,
    reciprocalOn_eq _ hwf (by rwa [← hz]), countOn_eq _ hwf (by rwa [← hz])]
  simp only [sess.ctx.bits_const, Bool.xor_false]

/-- The Karp-Luby pipeline reveals the total times a sum over the joint coins. -/
theorem runKarpLubyPipeline_joint
    (hW : VARS + sess.ctx.bitsFor (CUBES * CUBES) + sess.ctx.bitsFor (K + 1) ≤ 128) :
    (runKarpLubyPipeline sess my_dnf coins).toNat = sess.ctx.val (trialSetup sess my_dnf).total *
      ∑ t, if canonicalOn (trialSetup sess my_dnf).conjunction (sess.ctx.bitVecConst fun _ => false)
        (Nat.ofBits (jointCoins coins t).my_random_bits %
          sess.ctx.val (trialSetup sess my_dnf).total + 1)
        (jointCoins coins t).my_assignment_bits = true then 1 else 0 := by
  rw [runKarpLubyPipeline_toNat sess my_dnf coins hW, card_filter]
  simp only [bit_indicators_eq sess hb hS]
  rfl

/-- So does the Vazirani pipeline. -/
theorem runVaziraniPipeline_joint (hW : VARS + sess.ctx.bitsFor (CUBES * CUBES) +
      (kDivideLookupScaleBits + 1) + sess.ctx.bitsFor K ≤ 128) :
    (runVaziraniPipeline sess my_dnf coins).toNat = sess.ctx.val (trialSetup sess my_dnf).total *
      ∑ t, reciprocalOn (trialSetup sess my_dnf).conjunction (sess.ctx.bitVecConst fun _ => false)
        (Nat.ofBits (jointCoins coins t).my_random_bits %
          sess.ctx.val (trialSetup sess my_dnf).total + 1)
        (jointCoins coins t).my_assignment_bits := by
  rw [runVaziraniPipeline_toNat sess my_dnf coins hW]
  simp only [val_reciprocals_eq sess hb hS]
  rfl

omit hS

omit [NeZero VARS] hb coins in
/-- Nothing is common if the total is zero. -/
theorem commonModels_card_eq_zero (hzero : sess.ctx.val (trialSetup sess my_dnf).total = 0) :
    #(commonModels my_dnf) = 0 := by
  have hle := (dnfValue (trialSetup sess my_dnf).conjunction).card_models_le
  rw [trialSetup_models, ← val_trialSetup_total, hzero] at hle
  exact Nat.eq_zero_of_le_zero hle

omit [NeZero VARS] hb in
/-- Then both pipelines reveal zero. -/
theorem result_of_total_zero (hzero : sess.ctx.val (trialSetup sess my_dnf).total = 0) :
    (runKarpLubyPipeline sess my_dnf coins).toNat = 0 ∧
      (runVaziraniPipeline sess my_dnf coins).toNat = 0 := by
  rw [runKarpLubyPipeline_toNat_mod, runVaziraniPipeline_toNat_mod, hzero, Nat.zero_mul,
    Nat.zero_mul]
  exact ⟨rfl, rfl⟩

omit [NeZero VARS] hb in
/-- The pairs of cubes bound the total. -/
theorem total_le :
    (sess.ctx.val (trialSetup sess my_dnf).total : ℝ) ≤
      (CUBES : ℝ) ^ 2 * #(commonModels my_dnf) := by
  have h := (dnfValue (trialSetup sess my_dnf).conjunction).totalWeight_le
  rw [trialSetup_models, ← val_trialSetup_total] at h
  rw [sq, ← Nat.cast_mul]
  exact_mod_cast h

omit [NeZero VARS] hb in
/-- Something is common as soon as the total is not zero. -/
theorem commonModels_pos (hS : 0 < sess.ctx.val (trialSetup sess my_dnf).total) :
    (0 : ℝ) < #(commonModels my_dnf) := by
  have hC : (0 : ℝ) < (CUBES : ℝ) ^ 2 := pow_pos (Nat.cast_pos.mpr (Nat.pos_of_neZero CUBES)) 2
  exact (mul_pos_iff_of_pos_left hC).mp ((Nat.cast_pos.mpr hS).trans_le (total_le sess))

omit [NeZero VARS] hb in
/-- The ideal mean of a trial is at least one in `CUBES ^ 2`. -/
theorem one_le_mul_frequency (hS : 0 < sess.ctx.val (trialSetup sess my_dnf).total) :
    1 ≤ (CUBES : ℝ) ^ 2 * #(commonModels my_dnf) / sess.ctx.val (trialSetup sess my_dnf).total :=
  (one_le_div₀ (Nat.cast_pos.mpr hS)).mpr (total_le sess)

/-- Each common satisfying assignment is canonical in one of its samples. -/
theorem sum_setup_canonicals :
    ((∑ z ∈ Icc 1 (sess.ctx.val (trialSetup sess my_dnf).total), ∑ r,
        if canonicalOn (trialSetup sess my_dnf).conjunction (sess.ctx.bitVecConst fun _ => false) z r =
          true then 1 else 0 : Nat) : ℝ) = 2 ^ VARS * #(commonModels my_dnf) := by
  have h := sum_canonicalOn (sess.ctx.bitVecConst fun _ => false) (trialSetup_wellFormed sess my_dnf hb)
  rw [trialSetup_models, ← val_trialSetup_total] at h
  rw [h]
  push_cast
  rfl

/-- The table entries of its samples add up to the scale, but for their rounding. -/
theorem abs_sum_setup_reciprocals_sub_le :
    let ρ : ℝ := (CUBES : ℝ) ^ 2 / 2 ^ 17
    let U : ℝ := kDivideLookupScale * #(commonModels my_dnf)
    |((∑ z ∈ Icc 1 (sess.ctx.val (trialSetup sess my_dnf).total), ∑ r, reciprocalOn
        (trialSetup sess my_dnf).conjunction (sess.ctx.bitVecConst fun _ => false) z r : Nat) : ℝ) -
      2 ^ VARS * U| ≤ 2 ^ VARS * (ρ * U) := by
  intro ρ U
  have hscale : (kDivideLookupScale : ℝ) = 65536 := by
    norm_num [kDivideLookupScale, kDivideLookupScaleBits]
  have h := abs_sum_reciprocalOn_sub_le (sess.ctx.bitVecConst fun _ => false)
    (trialSetup_wellFormed sess my_dnf hb)
  rw [trialSetup_models, ← val_trialSetup_total] at h
  have h' := (Rat.cast_le (K := ℝ)).mpr h
  push_cast at h' ⊢
  simp only [U, ρ, hscale]
  refine le_trans (le_of_eq ?_) (h'.trans ?_)
  · congr 1
    ring
  · calc (sess.ctx.val (trialSetup sess my_dnf).total : ℝ) * 2 ^ VARS / 2
        ≤ (CUBES : ℝ) ^ 2 * #(commonModels my_dnf) * 2 ^ VARS / 2 := by
          gcongr
          exact total_le sess
      _ = 2 ^ VARS * ((CUBES : ℝ) ^ 2 / 2 ^ 17 * (65536 * #(commonModels my_dnf))) := by ring

/-- The same, from both sides. -/
theorem sum_setup_reciprocals_bounds :
    let ρ : ℝ := (CUBES : ℝ) ^ 2 / 2 ^ 17
    let U : ℝ := kDivideLookupScale * #(commonModels my_dnf)
    let A : ℝ := (∑ z ∈ Icc 1 (sess.ctx.val (trialSetup sess my_dnf).total), ∑ r, reciprocalOn
      (trialSetup sess my_dnf).conjunction (sess.ctx.bitVecConst fun _ => false) z r : Nat)
    2 ^ VARS * ((1 - ρ) * U) ≤ A ∧ A ≤ 2 ^ VARS * ((1 + ρ) * U) := by
  intro ρ U A
  have hA : |A - 2 ^ VARS * U| ≤ 2 ^ VARS * (ρ * U) := abs_sum_setup_reciprocals_sub_le sess hb
  obtain ⟨hlow, hhigh⟩ := abs_le.mp hA
  constructor <;> linarith

/-- **The tail of the Karp-Luby pipeline.**  When either party's coins are uniform, whatever
the other's, the fraction of runs whose result is off by a relative `ε`, beside what the
remainder is off by, falls exponentially with the number of trials. -/
theorem karpLuby_tail (hW : VARS + sess.ctx.bitsFor (CUBES * CUBES) + sess.ctx.bitsFor (K + 1) ≤ 128)
    (owner : Party) (theirs : Fin K → TrialCoins (VARS + sess.ctx.bitsFor (CUBES * CUBES)) VARS)
    {ε : ℝ} (hε0 : 0 ≤ ε) (hε1 : ε ≤ 1) :
    let S := sess.ctx.val (trialSetup sess my_dnf).total
    let W := VARS + sess.ctx.bitsFor (CUBES * CUBES)
    let q : ℝ := (2 ^ W / S : Nat)
    let U : ℝ := #(commonModels my_dnf)
    let result := fun mine => (runKarpLubyPipeline sess my_dnf (coinsOf owner mine theirs)).toNat
    (#{mine | ¬ ((1 - ε) * (q / (q + 1)) * (K * U) ≤ result mine ∧
        result mine ≤ (1 + ε) * ((q + 1) / q) * (K * U))} : ℝ) ≤
      Fintype.card (Fin K → TrialCoins W VARS) *
        (2 * Real.exp (-(3 / 16 * ε ^ 2 * (K / (CUBES : ℝ) ^ 2)))) := by
  intro S W q U result
  rcases Nat.eq_zero_or_pos S with hzero | hS
  · have hU : U = 0 := Nat.cast_eq_zero.mpr (commonModels_card_eq_zero sess hzero)
    have hresult : ∀ mine, result mine = 0 := fun mine =>
      (result_of_total_zero sess (coinsOf owner mine theirs) hzero).1
    rw [card_off_eq_zero (by rw [hU, mul_zero, mul_zero]) (by rw [hU, mul_zero, mul_zero]) hresult,
      Nat.cast_zero]
    positivity
  let g : Nat → (Fin VARS → Bool) → Nat := fun z r =>
    if canonicalOn (trialSetup sess my_dnf).conjunction (sess.ctx.bitVecConst fun _ => false) z r =
      true then 1 else 0
  have hA : ((∑ z ∈ Icc 1 S, ∑ r, g z r : Nat) : ℝ) = 2 ^ VARS * U := sum_setup_canonicals sess hb
  have hS' : (0 : ℝ) < S := Nat.cast_pos.mpr hS
  have hSU : (S : ℝ) ≤ (CUBES : ℝ) ^ 2 * U := total_le sess
  have hC : (0 : ℝ) < (CUBES : ℝ) ^ 2 := pow_pos (Nat.cast_pos.mpr (Nat.pos_of_neZero CUBES)) 2
  have hU : (0 : ℝ) < U := commonModels_pos sess hS
  have htail := card_result_tail (B := 1) (g := g) hS
    (le_of_lt (sess.ctx.val_lt (trialSetup sess my_dnf).total)) one_pos
    (fun z r => by simp only [g]; split_ifs <;> decide) hU hA.ge hA.le owner theirs
    result (fun mine => runKarpLubyPipeline_joint sess hb hS _ hW) hε0 hε1
  refine htail.trans (mul_le_mul_of_nonneg_left (mul_le_mul_of_nonneg_left
    (Real.exp_le_exp.mpr (neg_le_neg ?_)) zero_le_two) (Nat.cast_nonneg _))
  have hpairs : K / (CUBES : ℝ) ^ 2 ≤ K * (U / (1 * S)) := by
    rw [one_mul, ← mul_div_assoc, div_le_div_iff₀ hC hS', mul_assoc]
    gcongr
    linarith
  rw [Nat.cast_one]
  gcongr

/-- **The tail of the Vazirani pipeline**, with what the rounding of its table adds. -/
theorem vazirani_tail (hW : VARS + sess.ctx.bitsFor (CUBES * CUBES) +
      (kDivideLookupScaleBits + 1) + sess.ctx.bitsFor K ≤ 128)
    (owner : Party) (theirs : Fin K → TrialCoins (VARS + sess.ctx.bitsFor (CUBES * CUBES)) VARS)
    {ε : ℝ} (hε0 : 0 ≤ ε) (hε1 : ε ≤ 1) :
    let S := sess.ctx.val (trialSetup sess my_dnf).total
    let W := VARS + sess.ctx.bitsFor (CUBES * CUBES)
    let q : ℝ := (2 ^ W / S : Nat)
    let U : ℝ := kDivideLookupScale * #(commonModels my_dnf)
    let ρ : ℝ := (CUBES : ℝ) ^ 2 / 2 ^ 17
    let result := fun mine => (runVaziraniPipeline sess my_dnf (coinsOf owner mine theirs)).toNat
    (#{mine | ¬ ((1 - ε) * (q / (q + 1)) * (K * ((1 - ρ) * U)) ≤ result mine ∧
        result mine ≤ (1 + ε) * ((q + 1) / q) * (K * ((1 + ρ) * U)))} : ℝ) ≤
      Fintype.card (Fin K → TrialCoins W VARS) *
        (2 * Real.exp (-(3 / 16 * ε ^ 2 * (K * (1 - ρ) / (CUBES : ℝ) ^ 2)))) := by
  intro S W q U ρ result
  rcases Nat.eq_zero_or_pos S with hzero | hS
  · have hU : U = 0 := by
      simp only [U, commonModels_card_eq_zero sess hzero, Nat.cast_zero, mul_zero]
    have hresult : ∀ mine, result mine = 0 := fun mine =>
      (result_of_total_zero sess (coinsOf owner mine theirs) hzero).2
    rw [card_off_eq_zero (by rw [hU, mul_zero, mul_zero, mul_zero])
      (by rw [hU, mul_zero, mul_zero, mul_zero]) hresult, Nat.cast_zero]
    positivity
  have hC : (0 : ℝ) < (CUBES : ℝ) ^ 2 := pow_pos (Nat.cast_pos.mpr (Nat.pos_of_neZero CUBES)) 2
  rcases le_or_gt 1 ρ with hρ | hρ
  · -- so many cubes that the bound says nothing
    have hexponent : 0 ≤ -(3 / 16 * ε ^ 2 * (K * (1 - ρ) / (CUBES : ℝ) ^ 2)) := by
      rw [neg_nonneg]
      refine mul_nonpos_of_nonneg_of_nonpos (by positivity) (div_nonpos_of_nonpos_of_nonneg ?_ hC.le)
      exact mul_nonpos_of_nonneg_of_nonpos (Nat.cast_nonneg _) (by linarith)
    refine (Nat.cast_le.mpr (card_filter_le univ _)).trans ?_
    rw [card_univ]
    exact le_mul_of_one_le_right (Nat.cast_nonneg _) (by linarith [Real.one_le_exp hexponent])
  let g : Nat → (Fin VARS → Bool) → Nat :=
    reciprocalOn (trialSetup sess my_dnf).conjunction (sess.ctx.bitVecConst fun _ => false)
  have hS' : (0 : ℝ) < S := Nat.cast_pos.mpr hS
  have hSU : (S : ℝ) ≤ (CUBES : ℝ) ^ 2 * #(commonModels my_dnf) := total_le sess
  have hmodels : (0 : ℝ) < #(commonModels my_dnf) := commonModels_pos sess hS
  have hscale : (kDivideLookupScale : ℝ) = 65536 := by norm_num [kDivideLookupScale, kDivideLookupScaleBits]
  obtain ⟨hlow, hhigh⟩ := sum_setup_reciprocals_bounds sess hb
  have hU : 0 < U := by
    simp only [U, hscale]
    positivity
  have htail := card_result_tail (B := kDivideLookupScale) (g := g) (a := (1 - ρ) * U) (b := (1 + ρ) * U)
    hS (le_of_lt (sess.ctx.val_lt (trialSetup sess my_dnf).total)) (by decide)
    (fun z r => reciprocalOn_le _ z r) (mul_pos (by linarith) hU) hlow hhigh owner
    theirs result (fun mine => runVaziraniPipeline_joint sess hb hS _ hW) hε0 hε1
  refine htail.trans (mul_le_mul_of_nonneg_left (mul_le_mul_of_nonneg_left
    (Real.exp_le_exp.mpr (neg_le_neg ?_)) zero_le_two) (Nat.cast_nonneg _))
  have hpairs : K * (1 - ρ) / (CUBES : ℝ) ^ 2 ≤ K * ((1 - ρ) * U / (kDivideLookupScale * S)) := by
    have hcancel : (1 - ρ) * U / (kDivideLookupScale * S) =
        (1 - ρ) * #(commonModels my_dnf) / S := by
      simp only [U, hscale]
      field_simp
    have hρ' : 0 ≤ 1 - ρ := by linarith
    rw [hcancel, ← mul_div_assoc, div_le_div_iff₀ hC hS', ← mul_assoc, mul_assoc (K * (1 - ρ))]
    gcongr
    linarith
  gcongr

end Joint

/-- **The law of the Karp-Luby pipeline.**  When either party's coins are uniform, whatever
the other's, the number of trials that count is binomial.  Of the `2 ^ W * 2 ^ VARS` coins of
a trial `P` count, between `q` and `q + 1` times `2 ^ VARS` for each common satisfying
assignment. -/
theorem karpLuby_law (sess : SH2PCSession) {VARS CUBES : Nat} [NeZero VARS] [NeZero CUBES]
    {my_dnf : Party → Dnf VARS CUBES} (hb : (my_dnf .bob).WellFormed)
    (hS : 0 < sess.ctx.val (trialSetup sess my_dnf).total) :
    let S := sess.ctx.val (trialSetup sess my_dnf).total
    let W := VARS + sess.ctx.bitsFor (CUBES * CUBES)
    let q := 2 ^ W / S
    ∃ P : Nat, (q * 2 ^ VARS * #(commonModels my_dnf) ≤ P ∧
        P ≤ (q + 1) * 2 ^ VARS * #(commonModels my_dnf) ∧ P ≤ 2 ^ W * 2 ^ VARS) ∧
      ∀ K, W + sess.ctx.bitsFor (K + 1) ≤ 128 →
        ∀ (owner : Party) (theirs : Fin K → TrialCoins W VARS) (g : Nat),
          #{mine | (runKarpLubyPipeline sess my_dnf (coinsOf owner mine theirs)).toNat = S * g} =
            K.choose g * P ^ g * (2 ^ W * 2 ^ VARS - P) ^ (K - g) := by
  intro S W q
  have hwf := trialSetup_wellFormed sess my_dnf hb
  let P := #{c : TrialCoins W VARS | canonicalCoins sess my_dnf c = true}
  refine ⟨P, ?_, fun K hW owner theirs g => ?_⟩
  · have hP : P = ∑ n ∈ range (2 ^ W), ∑ r, if canonicalOn (trialSetup sess my_dnf).conjunction
        (sess.ctx.bitVecConst fun _ => false) (n % S + 1) r = true then 1 else 0 :=
      (card_filter _ _).trans (sum_coins S fun z r => if canonicalOn
        (trialSetup sess my_dnf).conjunction (sess.ctx.bitVecConst fun _ => false) z r = true
          then 1 else 0)
    have hbounds := Residues.sum_range_bounds S (fun z => ∑ r, if canonicalOn
      (trialSetup sess my_dnf).conjunction (sess.ctx.bitVecConst fun _ => false) z r = true
        then 1 else 0) hS (2 ^ W)
    have hsum := sum_canonicalOn (sess.ctx.bitVecConst fun _ => false) hwf
    rw [trialSetup_models, ← val_trialSetup_total] at hsum
    rw [← hP, hsum, ← Nat.mul_assoc, ← Nat.mul_assoc] at hbounds
    refine ⟨hbounds.1, hbounds.2, ?_⟩
    rw [← card_coins (W := W), ← card_univ]
    exact card_filter_le _ _
  · have hrun : ∀ mine, (runKarpLubyPipeline sess my_dnf (coinsOf owner mine theirs)).toNat = S * g ↔
        #(successes (fun c => canonicalCoins sess my_dnf c = true)
          (jointCoins (coinsOf owner mine theirs))) = g := by
      intro mine
      rw [runKarpLubyPipeline_toNat sess my_dnf _ hW, Nat.mul_right_inj hS.ne']
      simp only [bit_indicators_eq sess hb hS]
      rfl
    simp only [hrun]
    rw [card_jointCoins owner theirs fun c => #(successes (fun c => canonicalCoins sess my_dnf c = true)
      c) = g]
    have hlaw := card_card_successes_eq (K := K) univ
      (fun c : TrialCoins W VARS => canonicalCoins sess my_dnf c = true) g
    have hrest : #{c : TrialCoins W VARS | ¬ canonicalCoins sess my_dnf c = true} =
        2 ^ W * 2 ^ VARS - P := by
      have hsplit := card_filter_add_card_filter_not (s := univ)
        fun c : TrialCoins W VARS => canonicalCoins sess my_dnf c = true
      rw [card_univ, card_coins] at hsplit
      exact Nat.eq_sub_of_add_eq' hsplit
    rwa [tuples, Fintype.piFinset_univ, hrest] at hlaw

/-! ## Three trials of the demo -/

/-- The coins with which exactly two trials count. -/
theorem karpLuby_law_demo :
    ∃ P : Nat, #{mine : Fin 3 → TrialCoins (4 + clearSession.ctx.bitsFor (2 * 2)) 4 |
        (runKarpLubyPipeline clearSession demoDnf
          (coinsOf .alice mine fun _ => ⟨fun _ => false, fun _ => false⟩)).toNat =
            clearSession.ctx.val (trialSetup clearSession demoDnf).total * 2} =
      Nat.choose 3 2 * P ^ 2 * (2 ^ (4 + clearSession.ctx.bitsFor (2 * 2)) * 2 ^ 4 - P) ^ (3 - 2) := by
  obtain ⟨P, -, hlaw⟩ := karpLuby_law clearSession
    (show (demoDnf .bob).WellFormed by decide) (by decide)
  exact ⟨P, hlaw 3 (by decide) .alice _ 2⟩

/-- The coins that are off by more than a half. -/
theorem karpLuby_tail_demo :
    let q : ℝ := (2 ^ (4 + clearSession.ctx.bitsFor (2 * 2)) /
      clearSession.ctx.val (trialSetup clearSession demoDnf).total : Nat)
    let U : ℝ := #(commonModels demoDnf)
    let result := fun mine : Fin 3 → TrialCoins (4 + clearSession.ctx.bitsFor (2 * 2)) 4 =>
      (runKarpLubyPipeline clearSession demoDnf
        (coinsOf .alice mine fun _ => ⟨fun _ => false, fun _ => false⟩)).toNat
    (#{mine | ¬ ((1 - (1 / 2 : ℝ)) * (q / (q + 1)) * ((3 : Nat) * U) ≤ result mine ∧
        result mine ≤ (1 + (1 / 2 : ℝ)) * ((q + 1) / q) * ((3 : Nat) * U))} : ℝ) ≤
      Fintype.card (Fin 3 → TrialCoins (4 + clearSession.ctx.bitsFor (2 * 2)) 4) *
        (2 * Real.exp (-(3 / 16 * (1 / 2 : ℝ) ^ 2 * ((3 : Nat) / ((2 : Nat) : ℝ) ^ 2)))) :=
  karpLuby_tail clearSession (by decide) (by decide) .alice _ (by norm_num) (by norm_num)

theorem vazirani_tail_demo :
    let q : ℝ := (2 ^ (4 + clearSession.ctx.bitsFor (2 * 2)) /
      clearSession.ctx.val (trialSetup clearSession demoDnf).total : Nat)
    let U : ℝ := kDivideLookupScale * #(commonModels demoDnf)
    let ρ : ℝ := ((2 : Nat) : ℝ) ^ 2 / 2 ^ 17
    let result := fun mine : Fin 3 → TrialCoins (4 + clearSession.ctx.bitsFor (2 * 2)) 4 =>
      (runVaziraniPipeline clearSession demoDnf
        (coinsOf .bob mine fun _ => ⟨fun _ => true, fun _ => false⟩)).toNat
    (#{mine | ¬ ((1 - (1 / 2 : ℝ)) * (q / (q + 1)) * ((3 : Nat) * ((1 - ρ) * U)) ≤ result mine ∧
        result mine ≤ (1 + (1 / 2 : ℝ)) * ((q + 1) / q) * ((3 : Nat) * ((1 + ρ) * U)))} : ℝ) ≤
      Fintype.card (Fin 3 → TrialCoins (4 + clearSession.ctx.bitsFor (2 * 2)) 4) *
        (2 * Real.exp (-(3 / 16 * (1 / 2 : ℝ) ^ 2 *
          ((3 : Nat) * (1 - ρ) / ((2 : Nat) : ℝ) ^ 2)))) :=
  vazirani_tail clearSession (by decide) (by decide) .bob _ (by norm_num) (by norm_num)

end MpcVazirani
