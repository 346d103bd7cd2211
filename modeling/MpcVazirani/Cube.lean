import Mathlib.Algebra.BigOperators.Ring.Finset
import Mathlib.Data.Fintype.BigOperators
import MpcVazirani.Emp

/-! # Cubes, in the clear and as wires

`Cube` and `Dnf` are the parsed formulas of `utils/dimacs_dnf.h`, `CircuitCube`
and `CubeData` their wire-level counterparts of `gadgets/circuit_cube.h`.  A cube
of the file is a conjunction of literals; a padding cube fills an array up to
its fixed capacity and stands for no disjunct at all.

`Cube.Sat` is what a cube means.  The circuits never look at `pad` to decide it:
they compare `assignment & mask` with `bits` (`Cube.check`), which agrees with
the meaning on well-formed cubes only (`Cube.check_iff_sat`), and for padding by
the choice of an encoding no assignment can pass.  `Cube.fill` is the map by
which the circuits complete a cube to an assignment; on a well-formed real cube
every satisfying assignment is the completion of equally many strings
(`Cube.sum_fill`).
-/
namespace MpcVazirani
open Finset

/-- `dimacs_dnf::Cube<VARS>`: `bits[v]` is the polarity of variable `v` where
`mask[v]` says the cube constrains it; `pad` marks filler. -/
structure Cube (VARS : Nat) where
  bits : Fin VARS → Bool
  mask : Fin VARS → Bool
  pad : Bool
  deriving DecidableEq

/-- `dimacs_dnf::Dnf<VARS, CUBES>`. -/
structure Dnf (VARS CUBES : Nat) where
  cubes : Fin CUBES → Cube VARS

namespace Cube
variable {N : Nat}

/-- The filler cube: bits all 1, mask all 0. -/
def padding : Cube N := ⟨fun _ => true, fun _ => false, true⟩

/-- The representation invariant: a padding cube is the filler, and a real cube
has bit 0 wherever it does not constrain the variable. -/
def WellFormed (c : Cube N) : Prop :=
  (c.pad = true → ∀ v, c.bits v = true ∧ c.mask v = false) ∧
    (c.pad = false → ∀ v, c.mask v = false → c.bits v = false)

instance (c : Cube N) : Decidable c.WellFormed := inferInstanceAs (Decidable (_ ∧ _))

theorem padding_wellFormed : (padding : Cube N).WellFormed :=
  ⟨fun _ _ => ⟨rfl, rfl⟩, fun h => Bool.noConfusion h⟩

/-- `x` satisfies the cube: the cube is real, and `x` agrees with every literal. -/
def Sat (c : Cube N) (x : Fin N → Bool) : Prop :=
  c.pad = false ∧ ∀ v, c.mask v = true → x v = c.bits v

instance (c : Cube N) (x : Fin N → Bool) : Decidable (c.Sat x) := inferInstanceAs (Decidable (_ ∧ _))

/-- The gadgets' test, `(x & mask) == bits`. -/
def check (c : Cube N) (x : Fin N → Bool) : Bool := decide ((fun v => x v && c.mask v) = c.bits)

/-- **The gadgets' test decides the meaning of a well-formed cube.**  A padding
cube fails it because over at least one variable all zeros are not all ones. -/
theorem check_iff_sat [NeZero N] {c : Cube N} (h : c.WellFormed) (x : Fin N → Bool) :
    c.check x = true ↔ c.Sat x := by
  rw [check, decide_eq_true_iff, Sat]
  cases hpad : c.pad with
  | true =>
    obtain ⟨hbits, hmask⟩ := h.1 hpad 0
    constructor
    · intro heq
      have h0 := congrFun heq 0
      simp [hbits, hmask] at h0
    · rintro ⟨hp, -⟩
      cases hp
  | false =>
    constructor
    · intro heq
      refine ⟨rfl, fun v hv => ?_⟩
      have hv' := congrFun heq v
      simpa [hv] using hv'
    · rintro ⟨-, hlit⟩
      funext v
      cases hv : c.mask v with
      | true => rw [hlit v hv, Bool.and_true]
      | false => rw [h.2 hpad v hv, Bool.and_false]

/-- The satisfying assignments. -/
def models (c : Cube N) : Finset (Fin N → Bool) := univ.filter c.Sat

@[simp] theorem mem_models {c : Cube N} {x : Fin N → Bool} : x ∈ c.models ↔ c.Sat x := by
  simp [models]

/-- The number of variables the cube constrains. -/
def fixed (c : Cube N) : Nat := #{v | c.mask v = true}

theorem fixed_le (c : Cube N) : c.fixed ≤ N := (card_filter_le _ _).trans_eq (by simp)

/-- Choosing one of two values where `p` fails and having no choice where it
holds. -/
theorem prod_one_or_two (p : Fin N → Prop) [DecidablePred p] :
    ∏ v, (if p v then 1 else 2) = 2 ^ (N - #{v | p v}) := by
  have hcard : #{v | ¬ p v} = N - #{v | p v} := by
    rw [filter_not, card_sdiff_of_subset (filter_subset _ _), card_univ, Fintype.card_fin]
  rw [prod_ite, prod_const_one, prod_const, one_mul, hcard]

/-- A real cube has two to the number of free variables satisfying assignments. -/
theorem card_models_of_real {c : Cube N} (h : c.pad = false) :
    #c.models = 2 ^ (N - c.fixed) := by
  have hset : c.models = Fintype.piFinset fun v => if c.mask v = true then {c.bits v} else univ := by
    ext x
    rw [mem_models, Fintype.mem_piFinset, Sat]
    constructor
    · rintro ⟨-, hlit⟩ v
      split_ifs with hv
      · exact mem_singleton.mpr (hlit v hv)
      · exact mem_univ _
    · intro hx
      refine ⟨h, fun v hv => ?_⟩
      have hv' := hx v
      rw [if_pos hv] at hv'
      exact mem_singleton.mp hv'
  rw [hset, Fintype.card_piFinset, fixed, ← prod_one_or_two]
  refine prod_congr rfl fun v _ => ?_
  split_ifs <;> simp

theorem models_of_padding {c : Cube N} (h : c.pad = true) : c.models = ∅ := by
  ext x
  simp [Sat, h]

/-- The weight of a cube: its satisfying assignments, none for padding. -/
def weight (c : Cube N) : Nat := if c.pad = true then 0 else 2 ^ (N - c.fixed)

theorem weight_of_padding {c : Cube N} (h : c.pad = true) : c.weight = 0 := if_pos h

theorem weight_eq_card_models (c : Cube N) : c.weight = #c.models := by
  rw [weight]
  split_ifs with h
  · rw [models_of_padding h, card_empty]
  · rw [card_models_of_real (Bool.eq_false_iff.mpr h)]

theorem weight_le (c : Cube N) : c.weight ≤ 2 ^ N := by
  rw [weight]
  split_ifs
  · exact Nat.zero_le _
  · exact Nat.pow_le_pow_right (by decide) (Nat.sub_le _ _)

/-! ## Completing a cube to an assignment -/

/-- `bits | (~mask & r)`. -/
def fill (c : Cube N) (r : Fin N → Bool) : Fin N → Bool := fun v => c.bits v || (!c.mask v && r v)

theorem fill_of_fixed {c : Cube N} {v : Fin N} (h : c.mask v = true) (r : Fin N → Bool) :
    c.fill r v = c.bits v := by
  simp [fill, h]

theorem fill_of_free {c : Cube N} (hwf : c.WellFormed) (hreal : c.pad = false) {v : Fin N}
    (h : c.mask v = false) (r : Fin N → Bool) : c.fill r v = r v := by
  simp [fill, h, hwf.2 hreal v h]

theorem fill_sat {c : Cube N} (hreal : c.pad = false) (r : Fin N → Bool) : c.Sat (c.fill r) :=
  ⟨hreal, fun _ hv => fill_of_fixed hv r⟩

/-- A satisfying assignment is the completion of the strings that agree with it on
the free variables. -/
theorem card_fill_eq {c : Cube N} (hwf : c.WellFormed) {x : Fin N → Bool} (hx : c.Sat x) :
    #{r | c.fill r = x} = 2 ^ c.fixed := by
  have hset : (univ.filter fun r => c.fill r = x) =
      Fintype.piFinset fun v => if c.mask v = false then {x v} else univ := by
    ext r
    rw [mem_filter, Fintype.mem_piFinset]
    constructor
    · rintro ⟨-, hr⟩ v
      split_ifs with hv
      · rw [mem_singleton, ← hr, fill_of_free hwf hx.1 hv]
      · exact mem_univ _
    · intro hr
      refine ⟨mem_univ r, funext fun v => ?_⟩
      cases hv : c.mask v with
      | true => rw [fill_of_fixed hv, hx.2 v hv]
      | false =>
        have hr' := hr v
        rw [if_pos hv] at hr'
        rw [fill_of_free hwf hx.1 hv, mem_singleton.mp hr']
  have hfree : #{v | c.mask v = false} = N - c.fixed := by
    have hnot : (univ.filter fun v => c.mask v = false) = univ.filter fun v => ¬ c.mask v = true := by
      simp
    rw [hnot, filter_not, card_sdiff_of_subset (filter_subset _ _), card_univ, Fintype.card_fin,
      fixed]
  have hle := c.fixed_le
  calc #{r | c.fill r = x} = ∏ v, if c.mask v = false then 1 else 2 := by
        rw [hset, Fintype.card_piFinset]
        refine prod_congr rfl fun v _ => ?_
        split_ifs <;> simp
    _ = 2 ^ c.fixed := by
        rw [prod_one_or_two, hfree]
        congr 1
        omega

/-- **The completions of a real cube are its satisfying assignments, each one
`2 ^ fixed` times.** -/
theorem sum_fill {R : Type*} [AddCommMonoid R] {c : Cube N} (hwf : c.WellFormed)
    (hreal : c.pad = false) (f : (Fin N → Bool) → R) :
    ∑ r, f (c.fill r) = 2 ^ c.fixed • ∑ x ∈ c.models, f x := by
  have hmaps : ∀ r ∈ (univ : Finset (Fin N → Bool)), c.fill r ∈ c.models :=
    fun r _ => mem_models.mpr (fill_sat hreal r)
  rw [← sum_fiberwise_of_maps_to hmaps, ← sum_nsmul]
  refine sum_congr rfl fun x hx => ?_
  rw [sum_congr rfl (g := fun _ => f x), sum_const, card_fill_eq hwf (mem_models.mp hx)]
  intro r hr
  rw [(mem_filter.mp hr).2]

/-- Selecting a cube by weight and completing it takes each of its satisfying
assignments `2 ^ N` times, whatever the cube; padding has weight zero. -/
theorem weight_nsmul_sum_fill {R : Type*} [AddCommMonoid R] {c : Cube N} (hwf : c.WellFormed)
    (f : (Fin N → Bool) → R) :
    c.weight • ∑ r, f (c.fill r) = 2 ^ N • ∑ x ∈ c.models, f x := by
  cases hpad : c.pad with
  | true => rw [weight_eq_card_models, models_of_padding hpad, card_empty, zero_nsmul, sum_empty,
      nsmul_zero]
  | false =>
    have hle := c.fixed_le
    rw [sum_fill hwf hpad, weight, hpad, if_neg (by decide), ← mul_nsmul', ← pow_add]
    congr 2
    omega

end Cube
end MpcVazirani
