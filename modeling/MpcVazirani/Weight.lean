import MpcVazirani.BitStrings
import MpcVazirani.CircuitCube
import MpcVazirani.DnfCount

/-! # Weights and interval boundaries

`gadgets/general/cube_weight.h`, `dnf_weight.h` and `cube_intervals.h`.  The
weight of a cube is `2 ^ (N - popcount(mask))`, zero for padding, and fits its
`N + 1` bits with `2 ^ N` to spare for nothing; a sum of `M` weights fits
`N + bits_for(M)` bits only because no weight exceeds `2 ^ N`, which is therefore
the hypothesis `hw` the sums below carry.  Under it the total and every boundary
are exact.
-/
namespace MpcVazirani
open Finset ForLoop PrefixSums

variable {Ctx : BooleanContext} {N M : Nat}

/-! ## `cube_weight` -/

/-- The local `r` of `cube_weight`, the number of constrained variables. -/
def cubeWeightR (c : CircuitCube Ctx N) : CubeWeight Ctx N :=
  Ctx.popcount (N + 1) (Ctx.asUint c.mask)

/-- The local `shift`, the number of free variables. -/
def cubeWeightShift (c : CircuitCube Ctx N) : CubeWeight Ctx N :=
  Ctx.uintSub (Ctx.uintConst N) (cubeWeightR c)

/-- The local `weight`, before padding is masked out. -/
def cubeWeightPow (c : CircuitCube Ctx N) : CubeWeight Ctx N :=
  Ctx.uintShl (Ctx.uintConst 1) (cubeWeightShift c)

/-- `gadgets::cube_weight`. -/
def cubeWeight (c : CircuitCube Ctx N) : CubeWeight Ctx N :=
  -- pad ? 0 : weight
  Ctx.uintSelect (cubeWeightPow c) c.pad (Ctx.uintConst 0)

/-- `gadgets::cube_weights`. -/
def cubeWeights (cubes : Fin M → CircuitCube Ctx N) : Fin M → CubeWeight Ctx N :=
  fun i => cubeWeight (cubes i)

/-- The number of variables fits the width of a weight. -/
theorem lt_two_pow_succ (N : Nat) : N < 2 ^ (N + 1) :=
  Nat.lt_two_pow_self.trans (Nat.pow_lt_pow_succ (by decide))

theorem val_cubeWeightR (c : CircuitCube Ctx N) : Ctx.val (cubeWeightR c) = c.value.fixed := by
  have hcount : (List.range N).countP (fun i => (Ctx.val (Ctx.asUint c.mask)).testBit i) =
      c.value.fixed := by
    rw [Ctx.val_asUint, BitStrings.countP_testBit]
    rfl
  have hfit : c.value.fixed < 2 ^ (N + 1) :=
    lt_of_le_of_lt c.value.fixed_le (lt_two_pow_succ N)
  rw [cubeWeightR, Ctx.val_popcount _ (by rwa [hcount]), hcount]

theorem val_varsConst : Ctx.val (Ctx.uintConst (n := N + 1) N) = N :=
  Ctx.val_const (lt_two_pow_succ N)

theorem val_cubeWeightShift (c : CircuitCube Ctx N) :
    Ctx.val (cubeWeightShift c) = N - c.value.fixed := by
  have hN := lt_two_pow_succ N
  have hle := c.value.fixed_le
  have hwrap : N + (2 ^ (N + 1) - c.value.fixed) = (N - c.value.fixed) + 2 ^ (N + 1) := by omega
  rw [cubeWeightShift, Ctx.val_sub, val_cubeWeightR, val_varsConst, hwrap,
    Nat.add_mod_right, Nat.mod_eq_of_lt (by omega)]

theorem val_cubeWeightPow (c : CircuitCube Ctx N) :
    Ctx.val (cubeWeightPow c) = 2 ^ (N - c.value.fixed) := by
  have hshift := val_cubeWeightShift c
  have hfit : 2 ^ (N - c.value.fixed) < 2 ^ (N + 1) :=
    Nat.pow_lt_pow_right (by decide) (by omega)
  rw [cubeWeightPow, Ctx.val_shl _ _ (by omega), hshift,
    Ctx.val_const (Nat.one_lt_two_pow (by omega)), Nat.one_mul, Nat.mod_eq_of_lt hfit]

/-- **The circuit computes the weight of the cube its wires stand for.** -/
theorem val_cubeWeight (c : CircuitCube Ctx N) : Ctx.val (cubeWeight c) = c.value.weight := by
  rw [cubeWeight, Ctx.val_select, val_cubeWeightPow, Ctx.val_const (Nat.two_pow_pos _)]
  rfl

theorem val_cubeWeights_le (cubes : Fin M → CircuitCube Ctx N) (i : Fin M) :
    Ctx.val (cubeWeights cubes i) ≤ 2 ^ N :=
  (val_cubeWeight (cubes i)).trans_le (Cube.weight_le _)

/-! ## `dnf_weight` and `cube_intervals` -/

/-- The loop of `dnf_weight` when its variable has reached `i`. -/
def dnfWeightFrom [NeZero M] (weights : Fin M → CubeWeight Ctx N) (i : Nat) (h : i ≤ M) :
    DnfWeight Ctx N M :=
  forLoop 1 (fun i total => Ctx.uintAdd total (zextTo _ (weights i))) (zextTo _ (weights 0)) i h

/-- `gadgets::dnf_weight`. -/
def dnfWeight [NeZero M] (weights : Fin M → CubeWeight Ctx N) : DnfWeight Ctx N M :=
  dnfWeightFrom weights M (Nat.le_refl M)

/-- `gadgets::cube_intervals`: `intervals[0] = 0` and `intervals[i + 1] =
intervals[i] + weights[i]`, so boundary `i` is what the loop has added when its
variable reaches `i`. -/
def cubeIntervals (weights : Fin M → CubeWeight Ctx N) (i : Fin (M + 1)) : DnfWeight Ctx N M :=
  forLoop 0 (fun i interval => Ctx.uintAdd interval (zextTo _ (weights i))) (Ctx.uintConst 0) i
    (Nat.le_of_lt_succ i.isLt)

variable (Ctx) in
/-- A weight's wires fit the width of a total. -/
theorem cubeWeight_width_le (N : Nat) (hM : 0 < M) : N + 1 ≤ N + Ctx.bitsFor M :=
  Nat.add_le_add_left (Ctx.bitsFor_pos hM) N

variable (Ctx) in
/-- `M` weights of at most `2 ^ N` add up to less than `2 ^ (N + bits_for(M))`. -/
theorem sum_weights_lt {w : Fin M → Nat} (hw : ∀ i, w i ≤ 2 ^ N) :
    ∑ i, w i < 2 ^ (N + Ctx.bitsFor M) := by
  have hle : ∑ i, w i ≤ M * 2 ^ N := by
    have h := sum_le_card_nsmul univ w (2 ^ N) fun i _ => hw i
    simpa using h
  calc ∑ i, w i ≤ M * 2 ^ N := hle
    _ < 2 ^ Ctx.bitsFor M * 2 ^ N :=
        Nat.mul_lt_mul_of_pos_right (Ctx.lt_two_pow_bitsFor M) (Nat.two_pow_pos N)
    _ = 2 ^ (N + Ctx.bitsFor M) := by rw [← pow_add, Nat.add_comm]

section Sums
variable {weights : Fin M → CubeWeight Ctx N}

theorem val_zextTo_weight (i : Fin M) :
    Ctx.val (zextTo (N + Ctx.bitsFor M) (weights i)) = Ctx.val (weights i) :=
  val_zextTo _ (cubeWeight_width_le Ctx N (Nat.lt_of_le_of_lt (Nat.zero_le _) i.isLt))

/-- Every partial total of `dnf_weight` is exact. -/
theorem val_dnfWeightFrom [NeZero M] (hw : ∀ i, Ctx.val (weights i) ≤ 2 ^ N) (i : Nat)
    (h : i ≤ M) (hi : 1 ≤ i) :
    Ctx.val (dnfWeightFrom weights i h) = prefixSum (fun k => Ctx.val (weights k)) i := by
  refine val_sumLoop (fun k => val_zextTo_weight k) ?_ (sum_weights_lt Ctx hw) i h hi
  rw [val_zextTo_weight, prefixSum_succ _ (Nat.pos_of_neZero M), prefixSum_zero, Nat.zero_add]
  rfl

theorem val_dnfWeight [NeZero M] (hw : ∀ i, Ctx.val (weights i) ≤ 2 ^ N) :
    Ctx.val (dnfWeight weights) = ∑ i, Ctx.val (weights i) := by
  rw [dnfWeight, val_dnfWeightFrom hw _ _ (Nat.pos_of_neZero M),
    prefixSum_of_le _ (Nat.le_refl M)]

/-- Every boundary of `cube_intervals` is exact. -/
theorem val_cubeIntervals (hw : ∀ i, Ctx.val (weights i) ≤ 2 ^ N) (i : Fin (M + 1)) :
    Ctx.val (cubeIntervals weights i) = prefixSum (fun k => Ctx.val (weights k)) i := by
  refine val_sumLoop (fun k => val_zextTo_weight k) ?_ (sum_weights_lt Ctx hw) i _ (Nat.zero_le _)
  rw [prefixSum_zero, Ctx.val_const (Nat.two_pow_pos _)]

end Sums

/-! ## The weights of an array of cubes -/

theorem val_cubeWeights (cubes : Fin M → CircuitCube Ctx N) :
    (fun i => Ctx.val (cubeWeights cubes i)) = (dnfValue cubes).weights :=
  funext fun i => val_cubeWeight (cubes i)

/-- **The total is the total weight of the formula the wires stand for.** -/
theorem val_dnfWeight_cubeWeights [NeZero M] (cubes : Fin M → CircuitCube Ctx N) :
    Ctx.val (dnfWeight (cubeWeights cubes)) = (dnfValue cubes).totalWeight := by
  rw [val_dnfWeight (val_cubeWeights_le cubes), Dnf.totalWeight, ← val_cubeWeights]

end MpcVazirani
