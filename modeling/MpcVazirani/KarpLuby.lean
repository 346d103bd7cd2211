import MpcVazirani.SelectCube

/-! # The Karp-Luby gadgets

`gadgets/karp_luby/is_canonical_sample.h` and `karp_luby_estimate.h`.  A trial
asks whether the sampled cube is the first one its assignment satisfies.  The
scan carries two bits: `b2` says whether a cube scanned so far is satisfied, and
`b1` is frozen to the negation of `b2` when the scan comes to the sampled index.
The estimate is the total weight times the number of trials that say yes.
-/
namespace MpcVazirani
open Finset ForLoop PrefixSums

variable {Ctx : BooleanContext} {N M K : Nat}

/-! ## `is_canonical_sample` -/

/-- The two running bits of `is_canonical_sample`. -/
structure CanonicalScan (Ctx : BooleanContext) where
  b1 : Ctx.BitT
  b2 : Ctx.BitT

/-- The loop of `is_canonical_sample` when its variable has reached `j`. -/
def isCanonicalSampleFrom (index : CubeIndex Ctx M) (assignment : Ctx.BitVecT N)
    (cubes : Fin M → CircuitCube Ctx N) (j : Nat) (h : j ≤ M) : CanonicalScan Ctx :=
  forLoop 0 (fun j (scan : CanonicalScan Ctx) =>
      let isCurrent := Ctx.uintEq index (Ctx.uintConst (j + 1))
      -- b1 reads the b2 of before this cube
      { b1 := Ctx.bitSelect scan.b1 isCurrent (Ctx.bitNot scan.b2)
        b2 := Ctx.bitOr scan.b2 (satisfied assignment (cubes j)) })
    ⟨Ctx.bitConst true, Ctx.bitConst false⟩ j h

/-- `gadgets::is_canonical_sample`. -/
def isCanonicalSample (index : CubeIndex Ctx M) (assignment : Ctx.BitVecT N)
    (cubes : Fin M → CircuitCube Ctx N) : Ctx.BitT :=
  (isCanonicalSampleFrom index assignment cubes M (Nat.le_refl M)).b1

/-- `b2` has seen a satisfied cube. -/
theorem bit_isCanonicalSampleFrom_b2 (index : CubeIndex Ctx M) (assignment : Ctx.BitVecT N)
    (cubes : Fin M → CircuitCube Ctx N) (j : Nat) (h : j ≤ M) :
    Ctx.bit (isCanonicalSampleFrom index assignment cubes j h).b2 = true ↔
      ∃ k : Fin M, k.val < j ∧ (cubes k).value.check (Ctx.bits assignment) = true := by
  refine forLoop_rule (fun j (scan : CanonicalScan Ctx) => Ctx.bit scan.b2 = true ↔
    ∃ k : Fin M, k.val < j ∧ (cubes k).value.check (Ctx.bits assignment) = true) ?_ ?_ j h
    (Nat.zero_le j)
  · simp
  · intro j scan _ ih
    rw [Ctx.bit_or, Bool.or_eq_true, ih, bit_satisfied]
    constructor
    · rintro (⟨k, hk, hsat⟩ | hsat)
      · exact ⟨k, Nat.lt_succ_of_lt hk, hsat⟩
      · exact ⟨j, Nat.lt_succ_self _, hsat⟩
    · rintro ⟨k, hk, hsat⟩
      rcases Nat.lt_succ_iff_lt_or_eq.mp hk with hlt | heq
      · exact Or.inl ⟨k, hlt, hsat⟩
      · exact Or.inr (Fin.ext heq ▸ hsat)

/-- `b1` has been frozen once the scan has passed the sampled index. -/
theorem bit_isCanonicalSampleFrom_b1 {index : CubeIndex Ctx M} {i : Fin M}
    (hi : Ctx.val index = i + 1) (assignment : Ctx.BitVecT N) (cubes : Fin M → CircuitCube Ctx N)
    (j : Nat) (h : j ≤ M) (hlt : i.val < j) :
    Ctx.bit (isCanonicalSampleFrom index assignment cubes j h).b1 = true ↔
      ∀ k < i, (cubes k).value.check (Ctx.bits assignment) = false := by
  induction j with
  | zero => exact absurd hlt (Nat.not_lt_zero _)
  | succ j ih =>
    have hcurrent : Ctx.bit (Ctx.uintEq index (Ctx.uintConst (j + 1))) = decide (i.val = j) := by
      rw [Ctx.bit_uintEq, val_indexConst ⟨j, h⟩, hi, decide_eq_decide]
      exact Nat.succ_inj
    rw [isCanonicalSampleFrom, forLoop_succ (Nat.zero_le j)]
    simp only [Ctx.bit_select, hcurrent, decide_eq_true_iff]
    by_cases hij : i.val = j
    · -- the sampled cube itself: b1 becomes the negation of b2
      rw [if_pos hij, Ctx.bit_not, Bool.not_eq_true', ← Bool.not_eq_true]
      change ¬ Ctx.bit (isCanonicalSampleFrom index assignment cubes j _).b2 = true ↔ _
      rw [bit_isCanonicalSampleFrom_b2, not_exists, ← hij]
      refine forall_congr' fun k => ?_
      rw [not_and, Bool.not_eq_true]
      rfl
    · rw [if_neg hij]
      exact ih (Nat.le_of_succ_le h) (by omega)

/-- **The scan asks whether an earlier cube is satisfied.** -/
theorem bit_isCanonicalSample {index : CubeIndex Ctx M} {i : Fin M}
    (hi : Ctx.val index = i + 1) (assignment : Ctx.BitVecT N)
    (cubes : Fin M → CircuitCube Ctx N) :
    Ctx.bit (isCanonicalSample index assignment cubes) = true ↔
      ∀ k < i, (cubes k).value.check (Ctx.bits assignment) = false :=
  bit_isCanonicalSampleFrom_b1 hi assignment cubes M (Nat.le_refl M) i.isLt

/-- The reduction the scan stands for: some cube at an earlier position than `index` is
satisfied. -/
def earlierSatisfied (index : CubeIndex Ctx M) (assignment : Ctx.BitVecT N)
    (cubes : Fin M → CircuitCube Ctx N) : Bool :=
  (List.finRange M).any fun j =>
    Ctx.bit (satisfied assignment (cubes j)) && decide (j + 1 < Ctx.val index)

theorem earlierSatisfied_eq_false_iff {index : CubeIndex Ctx M} {i : Fin M}
    (hi : Ctx.val index = i + 1) (assignment : Ctx.BitVecT N) (cubes : Fin M → CircuitCube Ctx N) :
    earlierSatisfied index assignment cubes = false ↔
      ∀ k < i, (cubes k).value.check (Ctx.bits assignment) = false := by
  rw [earlierSatisfied, List.any_eq_false]
  refine forall_congr' fun k => ?_
  rw [imp_iff_right (List.mem_finRange k), bit_satisfied, hi, Bool.and_eq_true, decide_eq_true_iff,
    Nat.succ_lt_succ_iff, ← Fin.lt_def, not_and', Bool.not_eq_true]

/-- **The scan is the explicit reduction**, for any cubes, assignment and index in range.
So among the indices of the cubes an assignment satisfies exactly one is canonical, the
least. -/
theorem isCanonicalSample_eq_reduction (assignment : Ctx.BitVecT N)
    (cubes : Fin M → CircuitCube Ctx N) :
    (∀ index : CubeIndex Ctx M, 1 ≤ Ctx.val index → Ctx.val index ≤ M →
      Ctx.bit (isCanonicalSample index assignment cubes) =
        !earlierSatisfied index assignment cubes) ∧
    ((∃ j, Ctx.bit (satisfied assignment (cubes j)) = true) →
      ∃ i, Ctx.bit (satisfied assignment (cubes i)) = true ∧
        (∀ j, Ctx.bit (satisfied assignment (cubes j)) = true → i ≤ j) ∧
        ∀ (j : Fin M) (index : CubeIndex Ctx M), Ctx.val index = j + 1 →
          Ctx.bit (satisfied assignment (cubes j)) = true →
            (Ctx.bit (isCanonicalSample index assignment cubes) = true ↔ j = i)) := by
  constructor
  · intro index hpos hle
    have hi : Ctx.val index = (⟨Ctx.val index - 1, by omega⟩ : Fin M) + 1 :=
      (Nat.sub_add_cancel hpos).symm
    rw [Bool.eq_iff_iff, bit_isCanonicalSample hi, Bool.not_eq_true',
      earlierSatisfied_eq_false_iff hi]
  · simp only [bit_satisfied]
    intro hsat
    obtain ⟨i, hi, hleast⟩ :=
      exists_min_image (univ.filter fun j => (cubes j).value.check (Ctx.bits assignment) = true) id
        (filter_nonempty_iff.mpr (hsat.imp fun j hj => ⟨mem_univ j, hj⟩))
    simp only [mem_filter, mem_univ, true_and, id_eq] at hi hleast
    refine ⟨i, hi, hleast, fun j index hindex hj => ?_⟩
    rw [bit_isCanonicalSample hindex]
    constructor
    · intro hnone
      rcases lt_or_eq_of_le (hleast j hj) with hlt | heq
      · exact absurd hi (by rw [hnone i hlt]; decide)
      · exact heq.symm
    · rintro rfl k hk
      exact Bool.eq_false_iff.mpr fun hsatk => absurd (hleast k hsatk) (not_le.mpr hk)

/-- Alice's demo cubes x1 and ~x2 under an assignment that satisfies both: only the
first index is canonical. -/
theorem isCanonicalSample_eq_reduction_alice :
    (clearContext.bit (isCanonicalSample (M := 2) (clearContext.uintConst 2)
        (clearContext.bitVecConst fun v => v = 0) (clearCubes aliceDnf)) =
      !@earlierSatisfied clearContext 4 2 (clearContext.uintConst 2)
        (clearContext.bitVecConst fun v => v = 0) (clearCubes aliceDnf)) ∧
    ∃ i, ∀ j : Fin 2, clearContext.bit (satisfied (clearContext.bitVecConst fun v => v = 0)
        (clearCubes aliceDnf j)) = true → i ≤ j :=
  have h := isCanonicalSample_eq_reduction (clearContext.bitVecConst fun v => v = 0)
    (clearCubes aliceDnf)
  ⟨h.1 _ (by decide) (by decide), (h.2 ⟨0, by decide⟩).imp fun _ hi => hi.2.1⟩

/-! ## `karp_luby_estimate` -/

/-- `gadgets::GoodCount<Ctx, K>`. -/
abbrev GoodCount (Ctx : BooleanContext) (K : Nat) := Ctx.UIntT (Ctx.bitsFor (K + 1))

/-- `gadgets::KarpLubyEstimate<Ctx, N, M, K>`. -/
abbrev KarpLubyEstimate (Ctx : BooleanContext) (N M K : Nat) :=
  Ctx.UIntT ((N + Ctx.bitsFor M) + Ctx.bitsFor (K + 1))

/-- The loop of `karp_luby_estimate` when its variable has reached `t`. -/
def goodCountFrom (indicators : Fin K → Ctx.BitT) (t : Nat) (h : t ≤ K) : GoodCount Ctx K :=
  forLoop 0 (fun t good => Ctx.uintAdd good (indicator (indicators t))) (Ctx.uintConst 0) t h

/-- `gadgets::karp_luby_estimate`. -/
def karpLubyEstimate (weight : DnfWeight Ctx N M) (indicators : Fin K → Ctx.BitT) :
    KarpLubyEstimate Ctx N M K :=
  Ctx.uintMul (zextTo _ weight) (zextTo _ (goodCountFrom indicators K (Nat.le_refl K)))

/-- Every partial count of `karp_luby_estimate` is exact. -/
theorem val_goodCountFrom (indicators : Fin K → Ctx.BitT) (t : Nat) (h : t ≤ K) :
    Ctx.val (goodCountFrom indicators t h) =
      #{k : Fin K | k.val < t ∧ Ctx.bit (indicators k) = true} := by
  rw [goodCountFrom, val_countLoop]
  exact (Nat.lt_succ_self K).trans (Ctx.lt_two_pow_bitsFor (K + 1))

/-- **The estimate is the weight times the number of canonical trials.** -/
theorem val_karpLubyEstimate (weight : DnfWeight Ctx N M) (indicators : Fin K → Ctx.BitT) :
    Ctx.val (karpLubyEstimate weight indicators) =
      Ctx.val weight * #{t : Fin K | Ctx.bit (indicators t) = true} := by
  rw [karpLubyEstimate, val_mul_zextTo (Nat.le_refl _), val_goodCountFrom]
  simp only [Fin.is_lt, true_and]

end MpcVazirani
