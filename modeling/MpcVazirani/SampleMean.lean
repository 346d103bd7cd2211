import Mathlib.Algebra.BigOperators.Field
import Mathlib.Algebra.BigOperators.Ring.Finset
import Mathlib.Algebra.Module.Defs
import Mathlib.Algebra.Order.BigOperators.Ring.Finset
import Mathlib.Data.Fintype.BigOperators
import Mathlib.Data.Rat.BigOperators
import Mathlib.Tactic.FieldSimp
import Mathlib.Tactic.Linarith
import Mathlib.Tactic.Positivity
import Mathlib.Tactic.Ring

/-! # Chebyshev's bound for a finite sample

`K` independent uniform draws from a finite set `s` are the functions of
`Fintype.piFinset fun _ : Fin K => s`, each one equally likely.  For a quantity
`f` on `s` whose deviations from `m` cancel, the squared deviation of the sum of
`K` draws adds up to `K` times that of one draw (`sum_sq_deviation`), because
the cross terms vanish.  Counting the tuples whose sum is off by more than a
bound then gives Chebyshev's inequality, here without any measure.

For a property of frequency `m` the quantity is its indicator, whose squared
deviation is `m * (1 - m)`; `card_relative_error_le` is the resulting number of
draws for a given relative error and a given fraction of bad samples.  How many of the
draws have the property is binomial (`card_card_successes_eq`).
-/
namespace SampleMean
open Finset

variable {Ω : Type*} (s : Finset Ω) {K : Nat}

/-- The `K`-tuples of draws from `s`. -/
def tuples (K : Nat) : Finset (Fin K → Ω) := Fintype.piFinset fun _ => s

theorem card_tuples : #(tuples s K) = #s ^ K := by simp [tuples]

/-- A product of one factor per draw sums to the product of the sums. -/
theorem sum_prod_tuples {R : Type*} [CommSemiring R] (h : Fin K → Ω → R) :
    ∑ t ∈ tuples s K, ∏ k, h k (t k) = ∏ k, ∑ ω ∈ s, h k ω :=
  (prod_univ_sum (fun _ => s) h).symm

section Deviation
variable {R : Type*} [Field R]

/-- Two different draws of a centred quantity are uncorrelated. -/
theorem sum_mul_of_ne {g : Ω → R} (hg : ∑ ω ∈ s, g ω = 0) {k l : Fin K} (hkl : k ≠ l) :
    ∑ t ∈ tuples s K, g (t k) * g (t l) = 0 := by
  have hfactor : ∀ t : Fin K → Ω, g (t k) * g (t l) =
      ∏ i, (if i = k then g (t i) else 1) * (if i = l then g (t i) else 1) := by
    intro t
    rw [prod_mul_distrib, prod_ite_eq' univ k, prod_ite_eq' univ l]
    simp
  rw [sum_congr rfl fun t _ => hfactor t,
    sum_prod_tuples s fun i ω => (if i = k then g ω else 1) * (if i = l then g ω else 1)]
  refine prod_eq_zero (mem_univ k) ?_
  simpa [hkl] using hg

/-- The square of one draw, summed over the tuples. -/
theorem sum_sq (g : Ω → R) (k : Fin K) :
    ∑ t ∈ tuples s K, g (t k) * g (t k) = (#s : R) ^ (K - 1) * ∑ ω ∈ s, g ω ^ 2 := by
  have hfactor : ∀ t : Fin K → Ω, g (t k) * g (t k) =
      ∏ i, if i = k then g (t i) ^ 2 else 1 := by
    intro t
    rw [prod_ite_eq' univ k]
    simp [sq]
  rw [sum_congr rfl fun t _ => hfactor t,
    sum_prod_tuples s fun i ω => if i = k then g ω ^ 2 else 1,
    ← mul_prod_erase univ _ (mem_univ k)]
  have hrest : ∏ i ∈ univ.erase k, ∑ ω ∈ s, (if i = k then g ω ^ 2 else 1) =
      (#s : R) ^ (K - 1) := by
    rw [prod_congr rfl (g := fun _ => (#s : R)), prod_const, card_erase_of_mem (mem_univ k),
      card_univ, Fintype.card_fin]
    intro i hi
    simp [ne_of_mem_erase hi]
  rw [hrest]
  simp [mul_comm]

/-- **The squared deviation of the sum of `K` draws is `K` times that of one.** -/
theorem sum_sq_deviation {f : Ω → R} {m : R} (hm : ∑ ω ∈ s, (f ω - m) = 0) :
    ∑ t ∈ tuples s K, (∑ k, f (t k) - K * m) ^ 2 =
      K * (#s : R) ^ (K - 1) * ∑ ω ∈ s, (f ω - m) ^ 2 := by
  have hexpand : ∀ t : Fin K → Ω, (∑ k, f (t k) - K * m) ^ 2 =
      ∑ k, ∑ l, (f (t k) - m) * (f (t l) - m) := by
    intro t
    have hcentre : ∑ k, f (t k) - K * m = ∑ k, (f (t k) - m) := by
      rw [sum_sub_distrib, sum_const, card_univ, Fintype.card_fin, nsmul_eq_mul]
    rw [hcentre, sq, sum_mul_sum]
  rw [sum_congr rfl fun t _ => hexpand t, sum_comm]
  have hrow : ∀ k : Fin K, ∑ t ∈ tuples s K, ∑ l, (f (t k) - m) * (f (t l) - m) =
      (#s : R) ^ (K - 1) * ∑ ω ∈ s, (f ω - m) ^ 2 := by
    intro k
    rw [sum_comm, sum_eq_single k]
    · exact sum_sq s (fun ω => f ω - m) k
    · intro l _ hl
      exact sum_mul_of_ne s hm (Ne.symm hl)
    · exact fun h => absurd (mem_univ k) h
  rw [sum_congr rfl fun k _ => hrow k, sum_const, card_univ, Fintype.card_fin, nsmul_eq_mul,
    mul_assoc]

variable [LinearOrder R] [IsStrictOrderedRing R]

/-- **Chebyshev's inequality**: the tuples whose sum is off by more than `c`. -/
theorem card_deviation_mul_sq_le {f : Ω → R} {m : R} (hm : ∑ ω ∈ s, (f ω - m) = 0) {c : R}
    (hc : 0 ≤ c) :
    (#{t ∈ tuples s K | c < |∑ k, f (t k) - K * m|} : R) * c ^ 2 ≤
      K * (#s : R) ^ (K - 1) * ∑ ω ∈ s, (f ω - m) ^ 2 := by
  rw [← sum_sq_deviation s hm, ← nsmul_eq_mul]
  calc #{t ∈ tuples s K | c < |∑ k, f (t k) - K * m|} • c ^ 2
      ≤ ∑ t ∈ tuples s K with c < |∑ k, f (t k) - K * m|, (∑ k, f (t k) - K * m) ^ 2 := by
        refine card_nsmul_le_sum _ _ _ ?_
        intro t ht
        rw [← sq_abs (∑ k, f (t k) - K * m)]
        exact pow_le_pow_left₀ hc (le_of_lt (mem_filter.mp ht).2) 2
    _ ≤ ∑ t ∈ tuples s K, (∑ k, f (t k) - K * m) ^ 2 :=
        sum_le_sum_of_subset_of_nonneg (filter_subset _ _) fun t _ _ => sq_nonneg _

end Deviation

/-! ## The number of draws with a property -/

section Successes
variable (p : Ω → Prop) [DecidablePred p]

/-- The draws with the property. -/
def successes (t : Fin K → Ω) : Finset (Fin K) := univ.filter fun k => p (t k)

/-- The tuples that have the property exactly at the places of `A`. -/
theorem card_successes_eq (A : Finset (Fin K)) :
    #{t ∈ tuples s K | successes p t = A} =
      #{ω ∈ s | p ω} ^ #A * #{ω ∈ s | ¬ p ω} ^ (K - #A) := by
  have hpi : {t ∈ tuples s K | successes p t = A} =
      Fintype.piFinset fun k => if k ∈ A then {ω ∈ s | p ω} else {ω ∈ s | ¬ p ω} := by
    ext t
    simp only [mem_filter, tuples, Fintype.mem_piFinset, Finset.ext_iff, successes, mem_univ,
      true_and]
    rw [← forall_and]
    refine forall_congr' fun k => ?_
    by_cases hk : k ∈ A
    · rw [if_pos hk, mem_filter, iff_true_right hk]
    · rw [if_neg hk, mem_filter, iff_false_right hk]
  rw [hpi, Fintype.card_piFinset]
  simp only [apply_ite card]
  rw [prod_ite, prod_const, prod_const, filter_mem_eq_inter, univ_inter, filter_notMem_eq_sdiff,
    ← compl_eq_univ_sdiff, card_compl, Fintype.card_fin]

/-- **The number of draws with a property is binomial.** -/
theorem card_card_successes_eq (g : Nat) :
    #{t ∈ tuples s K | #(successes p t) = g} =
      K.choose g * #{ω ∈ s | p ω} ^ g * #{ω ∈ s | ¬ p ω} ^ (K - g) := by
  have hmaps : ∀ t ∈ ({t ∈ tuples s K | #(successes p t) = g} : Finset (Fin K → Ω)),
      successes p t ∈ powersetCard g univ := fun t ht =>
    mem_powersetCard_univ.mpr (mem_filter.mp ht).2
  have hfiber : ∀ A ∈ powersetCard g (univ : Finset (Fin K)),
      #{t ∈ {t ∈ tuples s K | #(successes p t) = g} | successes p t = A} =
        #{ω ∈ s | p ω} ^ g * #{ω ∈ s | ¬ p ω} ^ (K - g) := by
    intro A hA
    have hcard := mem_powersetCard_univ.mp hA
    rw [filter_filter, ← hcard, ← card_successes_eq]
    congr 1
    refine filter_congr fun t _ => ?_
    rw [and_iff_right_iff_imp]
    rintro rfl
    rfl
  rw [card_eq_sum_card_fiberwise hmaps, sum_congr rfl hfiber, sum_const, card_powersetCard,
    card_univ, Fintype.card_fin, smul_eq_mul, Nat.mul_assoc]

end Successes

/-! ## Quantities with the same values -/

section Congr
variable {Ω Ω' V : Type*} [DecidableEq V] {s : Finset Ω} {s' : Finset Ω'} {K : Nat}

/-- Two quantities that take each value equally often are each other's rearrangement. -/
theorem exists_equiv_of_card_eq {f : Ω → V} {f' : Ω' → V}
    (h : ∀ v, #{ω ∈ s | f ω = v} = #{ω ∈ s' | f' ω = v}) :
    ∃ e : s ≃ s', ∀ ω, f' (e ω) = f ω := by
  have hfiber : ∀ v, Nonempty ({ω : s // f ω = v} ≃ {ω : s' // f' ω = v}) := by
    intro v
    refine ⟨Fintype.equivOfCardEq ?_⟩
    rw [Fintype.card_subtype, Fintype.card_subtype, univ_eq_attach, univ_eq_attach,
      filter_attach (fun ω => f ω = v), filter_attach (fun ω => f' ω = v), card_map, card_attach,
      card_map, card_attach, h v]
  let e : s ≃ s' := Equiv.ofFiberEquiv (f := fun ω : s => f ω) (g := fun ω : s' => f' ω)
    fun v => (hfiber v).some
  exact ⟨e, fun ω => Equiv.ofFiberEquiv_map (f := fun ω : s => f ω) (g := fun ω : s' => f' ω)
    (fun v => (hfiber v).some) ω⟩

/-- **The law of a sample is that of its draws**: quantities that take each value equally often
have as many tuples with any given property of their values. -/
theorem card_tuples_congr {f : Ω → V} {f' : Ω' → V}
    (h : ∀ v, #{ω ∈ s | f ω = v} = #{ω ∈ s' | f' ω = v}) (Q : (Fin K → V) → Prop)
    [DecidablePred Q] :
    #{t ∈ tuples s K | Q fun k => f (t k)} = #{t ∈ tuples s' K | Q fun k => f' (t k)} := by
  obtain ⟨e, he⟩ := exists_equiv_of_card_eq h
  have hmem : ∀ t ∈ ({t ∈ tuples s K | Q fun k => f (t k)} : Finset (Fin K → Ω)), ∀ k, t k ∈ s :=
    fun t ht => Fintype.mem_piFinset.mp (mem_filter.mp ht).1
  have hmem' : ∀ t ∈ ({t ∈ tuples s' K | Q fun k => f' (t k)} : Finset (Fin K → Ω')), ∀ k, t k ∈ s' :=
    fun t ht => Fintype.mem_piFinset.mp (mem_filter.mp ht).1
  refine card_bij' (fun t ht k => e ⟨t k, hmem t ht k⟩) (fun t ht k => e.symm ⟨t k, hmem' t ht k⟩)
    ?_ ?_ ?_ ?_
  · intro t ht
    refine mem_filter.mpr ⟨Fintype.mem_piFinset.mpr fun k => (e _).2, ?_⟩
    simp only [he]
    exact (mem_filter.mp ht).2
  · intro t ht
    refine mem_filter.mpr ⟨Fintype.mem_piFinset.mpr fun k => (e.symm _).2, ?_⟩
    have hsymm : ∀ ω, f (e.symm ω) = f' ω := fun ω => by rw [← he, e.apply_symm_apply]
    simp only [hsymm]
    exact (mem_filter.mp ht).2
  · intro t ht
    simp
  · intro t ht
    simp

end Congr
/-! ## The frequency of a property -/

section Frequency
variable (p : Ω → Prop) [DecidablePred p]

/-- The fraction of `s` that has the property. -/
def frequency : ℚ := #{ω ∈ s | p ω} / #s

variable {s}

theorem card_mul_frequency (hs : s.Nonempty) : #s * frequency s p = #{ω ∈ s | p ω} := by
  have hcard : (#s : ℚ) ≠ 0 := Nat.cast_ne_zero.mpr (card_pos.mpr hs).ne'
  rw [frequency]
  field_simp

theorem sum_indicator_sub_frequency (hs : s.Nonempty) :
    ∑ ω ∈ s, ((if p ω then (1 : ℚ) else 0) - frequency s p) = 0 := by
  rw [sum_sub_distrib, sum_boole, sum_const, nsmul_eq_mul, card_mul_frequency p hs, sub_self]

/-- The squared deviation of an indicator. -/
theorem sum_sq_indicator_sub_frequency (hs : s.Nonempty) :
    ∑ ω ∈ s, ((if p ω then (1 : ℚ) else 0) - frequency s p) ^ 2 =
      #s * (frequency s p * (1 - frequency s p)) := by
  have hexpand : ∀ ω, ((if p ω then (1 : ℚ) else 0) - frequency s p) ^ 2 =
      (1 - 2 * frequency s p) * (if p ω then 1 else 0) + frequency s p ^ 2 := by
    intro ω
    split_ifs <;> ring
  rw [sum_congr rfl fun ω _ => hexpand ω, sum_add_distrib, ← mul_sum, sum_boole, sum_const,
    nsmul_eq_mul, ← card_mul_frequency p hs]
  ring

/-- **Enough draws for a relative error.**  If `1 - m ≤ K * δ * ε ^ 2 * m` then at
most a fraction `δ` of the samples of `K` draws count the property a relative `ε`
or more off its expectation. -/
theorem card_relative_error_le (hs : s.Nonempty) (hK : 0 < K) {ε δ : ℚ} (hε : 0 < ε)
    (hm : 0 < frequency s p) (h : 1 - frequency s p ≤ K * δ * ε ^ 2 * frequency s p) :
    (#{t ∈ tuples s K | ε * (K * frequency s p) <
        |(#{k | p (t k)} : ℚ) - K * frequency s p|} : ℚ) ≤ δ * #(tuples s K) := by
  have hK' : (0 : ℚ) < K := Nat.cast_pos.mpr hK
  have hc : 0 < ε * (K * frequency s p) := by positivity
  have hcheb := card_deviation_mul_sq_le (K := K) s (sum_indicator_sub_frequency p hs) hc.le
  rw [sum_sq_indicator_sub_frequency p hs] at hcheb
  simp only [sum_boole] at hcheb
  have hpow : (#s : ℚ) ^ (K - 1) * #s = #(tuples s K) := by
    rw [card_tuples, Nat.cast_pow, ← pow_succ, Nat.sub_add_cancel hK]
  refine le_of_mul_le_mul_right (hcheb.trans ?_) (by positivity : 0 < (ε * (K * frequency s p)) ^ 2)
  calc (K : ℚ) * #s ^ (K - 1) * (#s * (frequency s p * (1 - frequency s p)))
      = #(tuples s K) * K * frequency s p * (1 - frequency s p) := by
        rw [← hpow]
        ring
    _ ≤ #(tuples s K) * K * frequency s p * (K * δ * ε ^ 2 * frequency s p) := by
        refine mul_le_mul_of_nonneg_left h ?_
        positivity
    _ = δ * #(tuples s K) * (ε * (K * frequency s p)) ^ 2 := by ring

end Frequency

end SampleMean
