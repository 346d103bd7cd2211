import Mathlib.Algebra.BigOperators.Field
import Mathlib.Algebra.Module.Defs
import Mathlib.Algebra.Order.BigOperators.Ring.Finset
import Mathlib.Data.Rat.BigOperators
import Mathlib.Order.Preorder.Finite
import Mathlib.Tactic.FieldSimp

/-! # Counting a union by its members

A family of finite sets `A i` covers its union with multiplicity: summing a
quantity over every pair `(i, x)` with `x ∈ A i` counts `x` once for each set
that contains it.  Two ways of undoing the multiplicity turn such a sum into the
size of the union.  Either every pair weighs one over the multiplicity
(`sum_inv_multiplicity`), or only the pair whose set is the first to contain
the point counts (`sum_card_first`).  The sum of the sizes itself lies between
the size of the union and that size times the number of sets, and equals it
exactly when the sets are pairwise disjoint.
-/
namespace Coverage
open Finset

variable {ι X : Type*} [Fintype ι] [DecidableEq X] (A : ι → Finset X)

/-- The union of the family. -/
def union : Finset X := univ.biUnion A

/-- The number of sets of the family that contain `x`. -/
def multiplicity (x : X) : Nat := #{i | x ∈ A i}

variable {A}

@[simp] theorem mem_union {x : X} : x ∈ union A ↔ ∃ i, x ∈ A i := by simp [union]

theorem multiplicity_pos {x : X} : 0 < multiplicity A x ↔ x ∈ union A := by
  rw [multiplicity, card_pos, mem_union]
  constructor
  · rintro ⟨i, hi⟩
    exact ⟨i, (mem_filter.mp hi).2⟩
  · rintro ⟨i, hi⟩
    exact ⟨i, mem_filter.mpr ⟨mem_univ i, hi⟩⟩

theorem multiplicity_le (x : X) : multiplicity A x ≤ Fintype.card ι := card_filter_le _ _

variable (A)

/-- Summing over the pairs is summing over the union, a point once per set that
contains it. -/
theorem sum_sum_eq {R : Type*} [AddCommMonoid R] (f : ι → X → R) :
    ∑ i, ∑ x ∈ A i, f i x = ∑ x ∈ union A, ∑ i with x ∈ A i, f i x := by
  refine sum_comm' ?_
  intro i x
  simp only [mem_univ, true_and, mem_filter, mem_union]
  exact ⟨fun h => ⟨h, i, h⟩, fun h => h.1⟩

/-- The sizes add up to the multiplicities. -/
theorem sum_card : ∑ i, #(A i) = ∑ x ∈ union A, multiplicity A x := by
  have h := sum_sum_eq A (fun _ _ => 1)
  simpa only [multiplicity, sum_const, smul_eq_mul, mul_one] using h

theorem card_union_le : #(union A) ≤ ∑ i, #(A i) := card_biUnion_le

theorem sum_card_le : ∑ i, #(A i) ≤ Fintype.card ι * #(union A) := by
  rw [sum_card, mul_comm, ← smul_eq_mul]
  exact sum_le_card_nsmul _ _ _ (fun x _ => multiplicity_le x)

/-- **The sizes add up to the size of the union exactly when the sets are
pairwise disjoint.** -/
theorem sum_card_eq_card_union_iff :
    ∑ i, #(A i) = #(union A) ↔ ∀ i j, i ≠ j → Disjoint (A i) (A j) := by
  constructor
  · intro h i j hij
    rw [disjoint_left]
    intro x hi hj
    -- a shared point has multiplicity two, and no point of the union has less than one
    have htwo : 1 < multiplicity A x := one_lt_card.mpr
      ⟨i, mem_filter.mpr ⟨mem_univ i, hi⟩, j, mem_filter.mpr ⟨mem_univ j, hj⟩, hij⟩
    have hlt : ∑ x ∈ union A, 1 < ∑ x ∈ union A, multiplicity A x :=
      sum_lt_sum (fun y hy => multiplicity_pos.mpr hy) ⟨x, mem_union.mpr ⟨i, hi⟩, htwo⟩
    rw [← sum_card, h, ← card_eq_sum_ones] at hlt
    exact absurd hlt (lt_irrefl _)
  · intro h
    exact (card_biUnion (fun i _ j _ hij => h i j hij)).symm

/-- **Every point weighed by one over its multiplicity counts once.** -/
theorem sum_inv_multiplicity (c : ℚ) :
    ∑ i, ∑ x ∈ A i, c / multiplicity A x = c * #(union A) := by
  rw [sum_sum_eq, sum_congr rfl (g := fun _ => c), sum_const, nsmul_eq_mul, mul_comm]
  intro x hx
  have hpos : (multiplicity A x : ℚ) ≠ 0 :=
    Nat.cast_ne_zero.mpr (Nat.ne_of_gt (multiplicity_pos.mpr hx))
  rw [sum_const, nsmul_eq_mul]
  change (multiplicity A x : ℚ) * (c / multiplicity A x) = c
  field_simp

section First
variable [LinearOrder ι]

/-- **Only the first set that contains a point counts it**: the pairs whose set
has no earlier one through the same point are as many as the points. -/
theorem sum_card_first :
    ∑ i, #{x ∈ A i | ∀ j < i, x ∉ A j} = #(union A) := by
  have hcard : ∀ i, #{x ∈ A i | ∀ j < i, x ∉ A j} =
      ∑ x ∈ A i, if ∀ j < i, x ∉ A j then 1 else 0 := fun i => card_filter _ _
  rw [sum_congr rfl (fun i _ => hcard i), sum_sum_eq, card_eq_sum_ones]
  refine sum_congr rfl ?_
  intro x hx
  rw [← card_filter, filter_filter, card_eq_one]
  obtain ⟨i, hi⟩ := mem_union.mp hx
  obtain ⟨m, hm⟩ := (univ.filter fun i => x ∈ A i).exists_minimal
    ⟨i, mem_filter.mpr ⟨mem_univ i, hi⟩⟩
  have hmA : x ∈ A m := (mem_filter.mp hm.1).2
  have hleast : ∀ j, x ∈ A j → m ≤ j := fun j hj =>
    (le_total m j).elim id (hm.2 (mem_filter.mpr ⟨mem_univ j, hj⟩))
  refine ⟨m, ?_⟩
  ext j
  simp only [mem_filter, mem_univ, true_and, mem_singleton]
  constructor
  · rintro ⟨hj, hfirst⟩
    exact le_antisymm (not_lt.mp fun hlt => hfirst m hlt hmA) (hleast j hj)
  · rintro rfl
    exact ⟨hmA, fun k hk hkA => absurd (hleast k hkA) (not_le.mpr hk)⟩

end First

end Coverage
