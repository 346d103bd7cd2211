import MpcVazirani.BitStrings
import MpcVazirani.Coverage
import MpcVazirani.Cube
import MpcVazirani.PrefixSums

/-! # What the estimators count

The number both estimators are after is the number of assignments that satisfy
some cube of an array, padding counting for nothing.  The satisfying sets of the
cubes cover that set with multiplicity (`Dnf.satisfiedCount`), and the weights
are their sizes, so the counting facts are those of a cover.

A trial picks `z` of `1, …, totalWeight`, takes the cube in whose block `z` lies,
and completes it by a string.  Over all pairs of a number and a string every cube
and every assignment that satisfies it come up `2 ^ N` times (`Dnf.sum_trials`):
a cube with `r` constrained variables has weight `2 ^ (N - r)`, and `2 ^ r`
strings complete it to the same assignment.
-/
namespace MpcVazirani
open Finset PrefixSums

namespace Dnf
variable {N M : Nat} (d : Dnf N M)

/-- Every cube keeps the representation invariant. -/
def WellFormed : Prop := ∀ i, (d.cubes i).WellFormed

instance : Decidable d.WellFormed := inferInstanceAs (Decidable (∀ _, _))

/-- `x` satisfies some cube. -/
def Sat (x : Fin N → Bool) : Prop := ∃ i, (d.cubes i).Sat x

instance (x : Fin N → Bool) : Decidable (d.Sat x) := inferInstanceAs (Decidable (∃ _, _))

/-- The satisfying assignments. -/
def models : Finset (Fin N → Bool) := univ.filter d.Sat

/-- The number of cubes that `x` satisfies. -/
def satisfiedCount (x : Fin N → Bool) : Nat := #{i | (d.cubes i).Sat x}

/-- The weights of the cubes, in whose blocks a trial selects. -/
def weights : Fin M → Nat := fun i => (d.cubes i).weight

/-- The sum of the weights. -/
def totalWeight : Nat := ∑ i, d.weights i

variable {d}

@[simp] theorem mem_models {x : Fin N → Bool} : x ∈ d.models ↔ d.Sat x := by simp [models]

variable (d)

/-- The satisfying assignments are the union of those of the cubes. -/
theorem union_models : Coverage.union (fun i => (d.cubes i).models) = d.models := by
  ext x
  simp [Sat]

/-- The multiplicity of the cover is the number of satisfied cubes. -/
theorem multiplicity_models (x : Fin N → Bool) :
    Coverage.multiplicity (fun i => (d.cubes i).models) x = d.satisfiedCount x := by
  simp [Coverage.multiplicity, satisfiedCount]

variable {d} in
theorem satisfiedCount_pos {x : Fin N → Bool} : 0 < d.satisfiedCount x ↔ d.Sat x := by
  rw [← multiplicity_models, Coverage.multiplicity_pos, union_models, mem_models]

variable {d} in
theorem satisfiedCount_le (x : Fin N → Bool) : d.satisfiedCount x ≤ M := by
  rw [← multiplicity_models]
  exact (Coverage.multiplicity_le x).trans_eq (Fintype.card_fin M)

theorem totalWeight_eq_sum_card : d.totalWeight = ∑ i, #(d.cubes i).models :=
  sum_congr rfl fun i _ => Cube.weight_eq_card_models (d.cubes i)

/-- The total weight counts an assignment once per cube it satisfies. -/
theorem totalWeight_eq_sum : d.totalWeight = ∑ x, d.satisfiedCount x := by
  rw [totalWeight_eq_sum_card, Coverage.sum_card, union_models]
  simp only [multiplicity_models]
  refine sum_subset (subset_univ _) fun x _ hx => ?_
  have hnone : ¬ d.Sat x := fun h => hx (mem_models.mpr h)
  rw [← satisfiedCount_pos] at hnone
  exact Nat.eq_zero_of_not_pos hnone

theorem card_models_le : #d.models ≤ d.totalWeight := by
  rw [← union_models, totalWeight_eq_sum_card]
  exact Coverage.card_union_le _

theorem totalWeight_le : d.totalWeight ≤ M * #d.models := by
  have h := Coverage.sum_card_le fun i => (d.cubes i).models
  rwa [union_models, ← totalWeight_eq_sum_card, Fintype.card_fin] at h

/-- **The total weight is the number of satisfying assignments exactly when no
assignment satisfies two cubes.** -/
theorem totalWeight_eq_card_models_iff :
    d.totalWeight = #d.models ↔
      ∀ i j, i ≠ j → ¬ ∃ x, (d.cubes i).Sat x ∧ (d.cubes j).Sat x := by
  rw [totalWeight_eq_sum_card, ← union_models, Coverage.sum_card_eq_card_union_iff]
  refine forall_congr' fun i => forall_congr' fun j => imp_congr_right fun _ => ?_
  rw [disjoint_left, not_exists]
  refine forall_congr' fun x => ?_
  rw [Cube.mem_models, Cube.mem_models, not_and]

/-- Where no assignment satisfies two cubes, one that satisfies a cube satisfies
just that one. -/
theorem satisfiedCount_eq_one (hdisj : ∀ i j, i ≠ j → ¬ ∃ x, (d.cubes i).Sat x ∧ (d.cubes j).Sat x)
    {j : Fin M} {x : Fin N → Bool} (hj : (d.cubes j).Sat x) : d.satisfiedCount x = 1 := by
  rw [satisfiedCount, card_eq_one]
  refine ⟨j, ?_⟩
  ext i
  rw [mem_filter, mem_singleton]
  constructor
  · rintro ⟨-, hi⟩
    by_contra hne
    exact hdisj i j hne ⟨x, hi, hj⟩
  · rintro rfl
    exact ⟨mem_univ i, hj⟩

theorem totalWeight_pos_iff : 0 < d.totalWeight ↔ d.models.Nonempty := by
  rw [← card_pos]
  constructor
  · intro h
    by_contra hn
    have hzero : #d.models = 0 := Nat.eq_zero_of_not_pos hn
    have hle := d.totalWeight_le
    rw [hzero, Nat.mul_zero] at hle
    omega
  · intro h
    exact lt_of_lt_of_le h d.card_models_le

/-! ## Summing over all trials -/

/-- A selected cube is real. -/
theorem pad_of_inBlock {j : Fin M} {z : Nat} (h : InBlock d.weights j z) :
    (d.cubes j).pad = false := by
  have hpos := pos_of_inBlock d.weights h
  cases hpad : (d.cubes j).pad with
  | false => rfl
  | true =>
    rw [weights, Cube.weight, if_pos hpad] at hpos
    exact absurd hpos (Nat.lt_irrefl 0)

variable {d}

/-- **Selection and completion together are uniform over the pairs of a cube and
an assignment that satisfies it**, each pair coming up `2 ^ N` times; also when
the string is xored with a fixed one. -/
theorem sum_trials {R : Type*} [AddCommMonoid R] (hwf : d.WellFormed) (b : Fin N → Bool)
    {F : Nat → (Fin N → Bool) → R} {g : Fin M → (Fin N → Bool) → R}
    (hF : ∀ j z, InBlock d.weights j z →
      ∀ r, F z r = g j ((d.cubes j).fill fun v => r v ^^ b v)) :
    ∑ z ∈ Icc 1 d.totalWeight, ∑ r, F z r = 2 ^ N • ∑ j, ∑ x ∈ (d.cubes j).models, g j x := by
  have hcoin : ∀ j z, InBlock d.weights j z →
      ∑ r, F z r = ∑ r, g j ((d.cubes j).fill r) := by
    intro j z hz
    rw [sum_congr rfl fun r _ => hF j z hz r,
      BitStrings.sum_xor b fun r => g j ((d.cubes j).fill r)]
  rw [totalWeight, sum_inBlock d.weights hcoin, ← sum_nsmul]
  exact sum_congr rfl fun j _ => Cube.weight_nsmul_sum_fill (hwf j) (g j)

variable (d) in
/-- Summed over the cubes and their assignments, an assignment counts once per cube it
satisfies. -/
theorem sum_models {R : Type*} [AddCommMonoid R] (f : (Fin N → Bool) → R) :
    ∑ j, ∑ x ∈ (d.cubes j).models, f x = ∑ x ∈ d.models, d.satisfiedCount x • f x := by
  rw [Coverage.sum_sum_eq, union_models]
  refine sum_congr rfl fun x _ => ?_
  rw [sum_const, ← multiplicity_models]
  rfl

/-- An assignment counts for the first cube it satisfies. -/
theorem sum_canonical :
    ∑ j, ∑ x ∈ (d.cubes j).models, (if ∀ k < j, ¬ (d.cubes k).Sat x then 1 else 0) =
      #d.models := by
  rw [← union_models, ← Coverage.sum_card_first]
  refine sum_congr rfl fun j _ => ?_
  rw [card_filter]
  simp only [Cube.mem_models]

/-- An assignment counts for one over the number of cubes it satisfies in each of
them. -/
theorem sum_reciprocal (c : ℚ) :
    ∑ j, ∑ x ∈ (d.cubes j).models, c / d.satisfiedCount x = c * #d.models := by
  rw [← union_models, ← Coverage.sum_inv_multiplicity]
  simp only [multiplicity_models]

end Dnf
end MpcVazirani
