import MpcVazirani.Weight

/-! # The Vazirani gadgets

`gadgets/vazirani/count_satisfied_cubes.h`, `divide_lookup.h` and
`vazirani_estimate.h`.  A trial counts the cubes its assignment satisfies, looks
the rounded reciprocal of the count up in a table of constants, and the estimate
is the total weight times the sum of the reciprocals.  The count and the sum are
exact in their widths; the lookup returns entry `c` for a count `c` of the table,
and entry 1 for anything else.
-/
namespace MpcVazirani
open Finset ForLoop PrefixSums

variable {Ctx : BooleanContext} {N M K : Nat}

/-! ## `count_satisfied_cubes` -/

/-- `gadgets::SatisfiedCount<Ctx, M>`. -/
abbrev SatisfiedCount (Ctx : BooleanContext) (M : Nat) := Ctx.UIntT (Ctx.bitsFor M)

/-- The loop of `count_satisfied_cubes` when its variable has reached `i`. -/
def countSatisfiedCubesFrom (assignment : Ctx.BitVecT N) (cubes : Fin M → CircuitCube Ctx N)
    (i : Nat) (h : i ≤ M) : SatisfiedCount Ctx M :=
  forLoop 0 (fun i count => Ctx.uintAdd count (indicator (satisfied assignment (cubes i))))
    (Ctx.uintConst 0) i h

/-- `gadgets::count_satisfied_cubes`. -/
def countSatisfiedCubes (assignment : Ctx.BitVecT N) (cubes : Fin M → CircuitCube Ctx N) :
    SatisfiedCount Ctx M :=
  countSatisfiedCubesFrom assignment cubes M (Nat.le_refl M)

/-- Every partial count of `count_satisfied_cubes` is exact. -/
theorem val_countSatisfiedCubesFrom (assignment : Ctx.BitVecT N)
    (cubes : Fin M → CircuitCube Ctx N) (i : Nat) (h : i ≤ M) :
    Ctx.val (countSatisfiedCubesFrom assignment cubes i h) =
      #{k : Fin M | k.val < i ∧ (cubes k).value.check (Ctx.bits assignment) = true} := by
  rw [countSatisfiedCubesFrom, val_countLoop (Ctx.lt_two_pow_bitsFor M)]
  simp only [bit_satisfied]

theorem val_countSatisfiedCubes (assignment : Ctx.BitVecT N)
    (cubes : Fin M → CircuitCube Ctx N) :
    Ctx.val (countSatisfiedCubes assignment cubes) =
      #{k : Fin M | (cubes k).value.check (Ctx.bits assignment) = true} := by
  rw [countSatisfiedCubes, val_countSatisfiedCubesFrom]
  simp only [Fin.is_lt, true_and]

/-- On well-formed cubes the count is the number of cubes the assignment
satisfies. -/
theorem val_countSatisfiedCubes_eq [NeZero N] {cubes : Fin M → CircuitCube Ctx N}
    (hwf : (dnfValue cubes).WellFormed) (assignment : Ctx.BitVecT N) :
    Ctx.val (countSatisfiedCubes assignment cubes) =
      (dnfValue cubes).satisfiedCount (Ctx.bits assignment) := by
  rw [val_countSatisfiedCubes, Dnf.satisfiedCount]
  congr 1
  ext k
  rw [mem_filter, mem_filter]
  exact and_congr_right fun _ => Cube.check_iff_sat (hwf k) _

/-- **The weights agree with the test.**  A cube's weight is the number of
assignments that pass its test, zero for padding; the total is the sum of the
counts over all assignments; and it lies between the number of satisfying
assignments and `M` times that number, being the lower bound exactly when no
assignment satisfies two real cubes. -/
theorem dnfWeight_agrees_with_counts [NeZero N] [NeZero M] {cubes : Fin M → CircuitCube Ctx N}
    (hwf : (dnfValue cubes).WellFormed) :
    (∀ i, Ctx.val (cubeWeight (cubes i)) =
        #{x | Ctx.bit (satisfied (Ctx.bitVecConst x) (cubes i)) = true}) ∧
    (∀ i, (cubes i).value.pad = true → Ctx.val (cubeWeight (cubes i)) = 0) ∧
    Ctx.val (dnfWeight (cubeWeights cubes)) =
      ∑ x, Ctx.val (countSatisfiedCubes (Ctx.bitVecConst x) cubes) ∧
    #(dnfValue cubes).models ≤ Ctx.val (dnfWeight (cubeWeights cubes)) ∧
    Ctx.val (dnfWeight (cubeWeights cubes)) ≤ M * #(dnfValue cubes).models ∧
    (Ctx.val (dnfWeight (cubeWeights cubes)) = #(dnfValue cubes).models ↔
      ∀ i j, i ≠ j → (cubes i).value.pad = false → (cubes j).value.pad = false →
        ¬ ∃ x, (cubes i).value.Sat x ∧ (cubes j).value.Sat x) := by
  rw [val_dnfWeight_cubeWeights]
  refine ⟨?_, ?_, ?_, Dnf.card_models_le _, Dnf.totalWeight_le _, ?_⟩
  · intro i
    rw [val_cubeWeight, Cube.weight_eq_card_models, Cube.models]
    congr 1
    ext x
    rw [mem_filter, mem_filter, bit_satisfied, Ctx.bits_const]
    exact and_congr_right fun _ => (Cube.check_iff_sat (hwf i) x).symm
  · intro i hpad
    rw [val_cubeWeight, Cube.weight, if_pos hpad]
  · rw [Dnf.totalWeight_eq_sum]
    refine sum_congr rfl fun x _ => ?_
    rw [val_countSatisfiedCubes_eq hwf, Ctx.bits_const]
  · rw [Dnf.totalWeight_eq_card_models_iff]
    constructor
    · intro h i j hij _ _
      exact h i j hij
    · rintro h i j hij ⟨x, hi, hj⟩
      exact h i j hij hi.1 hj.1 ⟨x, hi, hj⟩

/-- Alice's two cubes, which overlap. -/
theorem dnfWeight_agrees_with_counts_alice :
    #(dnfValue (clearCubes aliceDnf)).models ≤
        clearContext.val (dnfWeight (cubeWeights (clearCubes aliceDnf))) ∧
      clearContext.val (dnfWeight (cubeWeights (clearCubes aliceDnf))) ≤
        2 * #(dnfValue (clearCubes aliceDnf)).models :=
  have hwf : (dnfValue (clearCubes aliceDnf)).WellFormed := by decide
  ⟨(dnfWeight_agrees_with_counts hwf).2.2.2.1, (dnfWeight_agrees_with_counts hwf).2.2.2.2.1⟩

/-! ## `divide_lookup` -/

/-- `gadgets::kDivideLookupScaleBits`. -/
def kDivideLookupScaleBits : Nat := 16

/-- `gadgets::kDivideLookupScale`. -/
def kDivideLookupScale : Nat := 2 ^ kDivideLookupScaleBits

/-- The table, `entry(i) = (SCALE + i / 2) / i`: `SCALE / i` rounded to nearest. -/
def entry (i : Nat) : Nat := (kDivideLookupScale + i / 2) / i

/-- `gadgets::DivideLookupResult<Ctx, M>`, whose width does not depend on `M`. -/
abbrev DivideLookupResult (Ctx : BooleanContext) := Ctx.UIntT (kDivideLookupScaleBits + 1)

/-- The loop of `divide_lookup` when its variable has reached `i`: a mux over the
entries from 2 on, entry 1 the default. -/
def divideLookupFrom (index : SatisfiedCount Ctx M) (i : Nat) (h : i ≤ M + 1) :
    DivideLookupResult Ctx :=
  forLoop 2 (fun i result =>
      let isMatch := Ctx.uintEq index (Ctx.uintConst i)
      Ctx.uintSelect result isMatch (Ctx.uintConst (entry i)))
    (Ctx.uintConst (entry 1)) i h

/-- `gadgets::divide_lookup`, whose loop runs to `M` inclusive. -/
def divideLookup (index : SatisfiedCount Ctx M) : DivideLookupResult Ctx :=
  divideLookupFrom index (M + 1) (Nat.lt_succ_self M)

/-- Rounding to nearest is off by at most half a divisor. -/
theorem entry_bounds {i : Nat} (hi : 0 < i) :
    2 * kDivideLookupScale ≤ 2 * (i * entry i) + i ∧
      2 * (i * entry i) ≤ 2 * kDivideLookupScale + i := by
  have hle : entry i * i ≤ kDivideLookupScale + i / 2 := Nat.div_mul_le_self _ _
  have hlt : kDivideLookupScale + i / 2 < i * (entry i + 1) := Nat.lt_mul_div_succ _ hi
  rw [Nat.mul_comm] at hle
  rw [Nat.mul_add, Nat.mul_one] at hlt
  constructor <;> omega

theorem entry_one : entry 1 = kDivideLookupScale := by decide

theorem entry_le (i : Nat) : entry i ≤ kDivideLookupScale := by
  rcases Nat.eq_zero_or_pos i with rfl | hi
  · rw [entry, Nat.div_zero]
    exact Nat.zero_le _
  · refine Nat.div_le_of_le_mul ?_
    rw [kDivideLookupScale, kDivideLookupScaleBits]
    omega

/-- A larger count has no larger entry. -/
theorem entry_antitone {i j : Nat} (hi : 0 < i) (h : i ≤ j) : entry j ≤ entry i := by
  rcases Nat.eq_zero_or_pos (entry j) with hzero | hpos
  · rw [hzero]
    exact Nat.zero_le _
  · have hj : entry j * j ≤ kDivideLookupScale + j / 2 := Nat.div_mul_le_self _ _
    have hless : j - i ≤ entry j * (j - i) := Nat.le_mul_of_pos_left _ hpos
    rw [Nat.mul_sub] at hless
    have hmono : entry j * i ≤ entry j * j := Nat.mul_le_mul_left _ h
    refine (Nat.le_div_iff_mul_le hi).mpr ?_
    omega

/-- An entry rounds to zero only for a divisor above twice the scale. -/
theorem entry_pos {i : Nat} (hi : 0 < i) (hle : i ≤ 2 ^ 17) : 0 < entry i := by
  refine Nat.div_pos ?_ hi
  rw [kDivideLookupScale, kDivideLookupScaleBits]
  omega

/-- An entry fits the result, whose width is made for entry 1. -/
theorem entry_lt (i : Nat) : entry i < 2 ^ (kDivideLookupScaleBits + 1) :=
  lt_of_le_of_lt (entry_le i) (Nat.pow_lt_pow_succ (by decide))

/-- The constants the lookup compares the count with are exact. -/
theorem val_countConst {i : Nat} (hi : i ≤ M) :
    Ctx.val (Ctx.uintConst (n := Ctx.bitsFor M) i) = i :=
  Ctx.val_const (lt_of_le_of_lt hi (Ctx.lt_two_pow_bitsFor M))

/-- The lookup so far holds the entry of the index if it has come by. -/
theorem val_divideLookupFrom (index : SatisfiedCount Ctx M) (i : Nat) (h : i ≤ M + 1)
    (hi : 2 ≤ i) :
    Ctx.val (divideLookupFrom index i h) =
      if 2 ≤ Ctx.val index ∧ Ctx.val index < i then entry (Ctx.val index) else entry 1 := by
  refine forLoop_rule (fun i result => Ctx.val result =
    if 2 ≤ Ctx.val index ∧ Ctx.val index < i then entry (Ctx.val index) else entry 1)
    ?_ ?_ i h hi
  · rw [if_neg (by omega), Ctx.val_const (entry_lt 1)]
  · intro i result hi ih
    rw [Ctx.val_select, Ctx.bit_uintEq, val_countConst (Nat.le_of_lt_succ i.isLt),
      Ctx.val_const (entry_lt i), ih]
    by_cases heq : Ctx.val index = i
    · rw [if_pos (decide_eq_true heq), if_pos (by omega), heq]
    · rw [if_neg (by simpa using heq)]
      by_cases hlt : 2 ≤ Ctx.val index ∧ Ctx.val index < i
      · rw [if_pos hlt, if_pos (by omega)]
      · rw [if_neg hlt, if_neg (by omega)]

/-- **The lookup returns the entry of its index**, and the default entry for an
index that is not in the table. -/
theorem val_divideLookup [NeZero M] (index : SatisfiedCount Ctx M) :
    Ctx.val (divideLookup index) =
      if 2 ≤ Ctx.val index ∧ Ctx.val index ≤ M then entry (Ctx.val index) else entry 1 := by
  rw [divideLookup, val_divideLookupFrom _ _ _ (Nat.succ_lt_succ (Nat.pos_of_neZero M))]
  simp only [Nat.lt_succ_iff]

/-- For a count of at least one the lookup rounds `SCALE / count`. -/
theorem val_divideLookup_of_pos [NeZero M] {index : SatisfiedCount Ctx M}
    (hpos : 0 < Ctx.val index) (hle : Ctx.val index ≤ M) :
    Ctx.val (divideLookup index) = entry (Ctx.val index) := by
  rw [val_divideLookup]
  by_cases h : 2 ≤ Ctx.val index
  · rw [if_pos ⟨h, hle⟩]
  · have hone : Ctx.val index = 1 := by omega
    rw [if_neg (fun hc => h hc.1), hone]

/-- The precision the table is documented to have: a relative error of at most
`1 / SCALE`, so `count * entry` within one of `SCALE`. -/
def Precise (count reciprocal : Nat) : Prop :=
  |((count * reciprocal : Nat) : Int) - kDivideLookupScale| ≤ 1

instance (count reciprocal : Nat) : Decidable (Precise count reciprocal) :=
  inferInstanceAs (Decidable (_ ≤ _))

theorem precise_iff {count reciprocal : Nat} :
    Precise count reciprocal ↔
      kDivideLookupScale ≤ count * reciprocal + 1 ∧ count * reciprocal ≤ kDivideLookupScale + 1 := by
  rw [Precise, abs_le]
  omega

/-- An entry is the quotient of any multiple of its divisor next to the scale. -/
theorem mul_entry_of_dvd {i m : Nat} (hi : 2 < i) (hdvd : i ∣ m)
    (hlo : kDivideLookupScale ≤ m + 1) (hhi : m ≤ kDivideLookupScale + 1) : i * entry i = m := by
  obtain ⟨k, rfl⟩ := hdvd
  have hbounds := entry_bounds (Nat.zero_lt_of_lt hi)
  have hle : i * entry i < i * (k + 1) := by
    rw [Nat.mul_succ]
    omega
  have hge : i * k < i * (entry i + 1) := by
    rw [Nat.mul_succ]
    omega
  have heq : entry i = k := Nat.le_antisymm
    (Nat.le_of_lt_succ (Nat.lt_of_mul_lt_mul_left hle))
    (Nat.le_of_lt_succ (Nat.lt_of_mul_lt_mul_left hge))
  rw [heq]

/-- The multiples within one of a number. -/
theorem exists_dvd_near_iff {i n : Nat} (hn : 0 < n) :
    (∃ m, i ∣ m ∧ n ≤ m + 1 ∧ m ≤ n + 1) ↔ i ∣ n - 1 ∨ i ∣ n ∨ i ∣ n + 1 := by
  constructor
  · rintro ⟨m, hdvd, hlo, hhi⟩
    have hcases : m = n - 1 ∨ m = n ∨ m = n + 1 := by omega
    rcases hcases with rfl | rfl | rfl
    · exact Or.inl hdvd
    · exact Or.inr (Or.inl hdvd)
    · exact Or.inr (Or.inr hdvd)
  · rintro (hdvd | hdvd | hdvd)
    · exact ⟨n - 1, hdvd, by omega, by omega⟩
    · exact ⟨n, hdvd, by omega, by omega⟩
    · exact ⟨n + 1, hdvd, by omega, by omega⟩

/-- **Rounding to an integer is that precise exactly for the divisors of the three
numbers around the scale.** -/
theorem precise_entry_iff {i : Nat} (hi : 0 < i) :
    Precise i (entry i) ↔ i ∣ kDivideLookupScale - 1 ∨ i ∣ kDivideLookupScale ∨
      i ∣ kDivideLookupScale + 1 := by
  have hscale : 0 < kDivideLookupScale := Nat.two_pow_pos kDivideLookupScaleBits
  rw [precise_iff, ← exists_dvd_near_iff hscale]
  constructor
  · intro h
    exact ⟨i * entry i, Nat.dvd_mul_right i (entry i), h⟩
  · rintro ⟨m, hdvd, hlo, hhi⟩
    rcases Nat.lt_or_ge 2 i with hbig | hsmall
    · rw [mul_entry_of_dvd hbig hdvd hlo hhi]
      exact ⟨hlo, hhi⟩
    · -- half of a divisor of at most two is within the bound
      have hbounds := entry_bounds hi
      omega

/-- **When the lookup has its documented precision**: for a count of the table exactly
when the count divides 65535, 65536 or 65537, whatever the size of the table. -/
theorem divideLookup_precise_iff {index : SatisfiedCount Ctx M} (hpos : 1 ≤ Ctx.val index)
    (hle : Ctx.val index ≤ M) :
    Precise (Ctx.val index) (Ctx.val (divideLookup index)) ↔
      Ctx.val index ∣ 65535 ∨ Ctx.val index ∣ 65536 ∨ Ctx.val index ∣ 65537 := by
  have : NeZero M := ⟨by omega⟩
  rw [val_divideLookup_of_pos hpos hle]
  exact precise_entry_iff hpos

/-- The lookup of the count 3 in a table of four entries. -/
theorem divideLookup_precise_iff_three :
    Precise 3 (clearContext.val (@divideLookup clearContext 4 (clearContext.uintConst 3))) :=
  (@divideLookup_precise_iff clearContext 4 (clearContext.uintConst 3) (by decide)
    (by decide)).mpr (Or.inl (by decide))

/-- The entry of 6 is 10923, and 6 * 10923 = 65538. -/
theorem divideLookup_imprecise_six :
    ¬ ∀ index : SatisfiedCount clearContext 6, 1 ≤ clearContext.val index →
      clearContext.val index ≤ 6 →
        Precise (clearContext.val index) (clearContext.val (divideLookup index)) := by
  intro h
  exact absurd (h (clearContext.uintConst 6) (by decide) (by decide)) (by decide)

/-! ## `vazirani_estimate` -/

/-- `gadgets::VaziraniSum<Ctx, M, K>`. -/
abbrev VaziraniSum (Ctx : BooleanContext) (K : Nat) :=
  Ctx.UIntT ((kDivideLookupScaleBits + 1) + Ctx.bitsFor K)

/-- `gadgets::VaziraniEstimate<Ctx, N, M, K>`. -/
abbrev VaziraniEstimate (Ctx : BooleanContext) (N M K : Nat) :=
  Ctx.UIntT ((N + Ctx.bitsFor M) + (kDivideLookupScaleBits + 1) + Ctx.bitsFor K)

/-- The loop of `vazirani_estimate` when its variable has reached `t`. -/
def vaziraniSumFrom (reciprocals : Fin K → DivideLookupResult Ctx) (t : Nat) (h : t ≤ K) :
    VaziraniSum Ctx K :=
  forLoop 0 (fun t sum => Ctx.uintAdd sum (zextTo _ (reciprocals t))) (Ctx.uintConst 0) t h

/-- `gadgets::vazirani_estimate`. -/
def vaziraniEstimate (weight : DnfWeight Ctx N M) (reciprocals : Fin K → DivideLookupResult Ctx) :
    VaziraniEstimate Ctx N M K :=
  Ctx.uintMul (zextTo _ weight) (zextTo _ (vaziraniSumFrom reciprocals K (Nat.le_refl K)))

/-- Every partial sum of `vazirani_estimate` is exact. -/
theorem val_vaziraniSumFrom (reciprocals : Fin K → DivideLookupResult Ctx) (t : Nat)
    (h : t ≤ K) :
    Ctx.val (vaziraniSumFrom reciprocals t h) =
      prefixSum (fun k => Ctx.val (reciprocals k)) t := by
  have hfit := sum_weights_lt Ctx (N := kDivideLookupScaleBits + 1)
    fun k => Nat.le_of_lt (Ctx.val_lt (reciprocals k))
  refine val_sumLoop (fun k => val_zextTo _ (Nat.le_add_right _ _)) ?_ hfit t h (Nat.zero_le _)
  rw [prefixSum_zero, Ctx.val_const (Nat.two_pow_pos _)]

/-- **The estimate is the weight times the sum of the reciprocals.** -/
theorem val_vaziraniEstimate (weight : DnfWeight Ctx N M)
    (reciprocals : Fin K → DivideLookupResult Ctx) :
    Ctx.val (vaziraniEstimate weight reciprocals) =
      Ctx.val weight * ∑ t, Ctx.val (reciprocals t) := by
  rw [vaziraniEstimate, val_mul_zextTo (by omega), val_vaziraniSumFrom,
    prefixSum_of_le _ (Nat.le_refl K)]

end MpcVazirani
