import MpcVazirani.Cube
import MpcVazirani.ForLoop
import MpcVazirani.PrefixSums

/-! # Wire-level cubes and the loops every gadget shares

The shared types of `gadgets/circuit_cube.h`, the two helpers of
`gadgets/common.h`, and the two loops the gadgets are made of: adding up zero-
extended numbers, and counting conditions with `indicator`.  Both are one fact.
While the loop runs, its accumulator is the exact prefix sum of what has been
added, provided the whole sum fits the width (`val_sumLoop`); so no partial sum
wraps.
-/
namespace MpcVazirani
open Finset ForLoop PrefixSums

variable {Ctx : BooleanContext} {N M : Nat}

/-- `gadgets::CircuitCube<Ctx, N>`. -/
structure CircuitCube (Ctx : BooleanContext) (N : Nat) where
  bits : Ctx.BitVecT N
  mask : Ctx.BitVecT N
  pad : Ctx.BitT

/-- `gadgets::CubeData<Ctx, N>`: a selected cube, without `pad`. -/
structure CubeData (Ctx : BooleanContext) (N : Nat) where
  bits : Ctx.BitVecT N
  mask : Ctx.BitVecT N

/-- `gadgets::CubeWeight<Ctx, N>`. -/
abbrev CubeWeight (Ctx : BooleanContext) (N : Nat) := Ctx.UIntT (N + 1)

/-- `gadgets::DnfWeight<Ctx, N, M>`. -/
abbrev DnfWeight (Ctx : BooleanContext) (N M : Nat) := Ctx.UIntT (N + Ctx.bitsFor M)

/-- The cube the wires stand for. -/
def CircuitCube.value (c : CircuitCube Ctx N) : Cube N :=
  ⟨Ctx.bits c.bits, Ctx.bits c.mask, Ctx.bit c.pad⟩

@[simp] theorem CircuitCube.value_bits (c : CircuitCube Ctx N) :
    c.value.bits = Ctx.bits c.bits := rfl

@[simp] theorem CircuitCube.value_mask (c : CircuitCube Ctx N) :
    c.value.mask = Ctx.bits c.mask := rfl

@[simp] theorem CircuitCube.value_pad (c : CircuitCube Ctx N) : c.value.pad = Ctx.bit c.pad := rfl

/-- The formula an array of wires stands for. -/
def dnfValue (cubes : Fin M → CircuitCube Ctx N) : Dnf N M := ⟨fun i => (cubes i).value⟩

@[simp] theorem dnfValue_cubes (cubes : Fin M → CircuitCube Ctx N) (i : Fin M) :
    (dnfValue cubes).cubes i = (cubes i).value := rfl

/-- A formula on the wires of the clear context. -/
def clearCubes (d : Dnf N M) : Fin M → CircuitCube clearContext N := fun i =>
  ⟨(d.cubes i).bits, (d.cubes i).mask, (d.cubes i).pad⟩

/-- The demo's `alice.dnf`: cube 0 is x1, cube 1 is ~x2. -/
def aliceDnf : Dnf 4 2 where
  cubes := ![⟨![true, false, false, false], ![true, false, false, false], false⟩,
    ⟨![false, false, false, false], ![false, true, false, false], false⟩]

/-- The demo's `bob.dnf`: cube 0 is x1, cube 1 is x3. -/
def bobDnf : Dnf 4 2 where
  cubes := ![⟨![true, false, false, false], ![true, false, false, false], false⟩,
    ⟨![false, false, true, false], ![false, false, true, false], false⟩]

/-- `gadgets::zext_to<W>(v)`. -/
def zextTo {n : Nat} (W : Nat) (v : Ctx.UIntT n) : Ctx.UIntT W := Ctx.zext W v

/-- `gadgets::indicator<Count>(ctx, cond)`: `cond ? 1 : 0`. -/
def indicator {n : Nat} (cond : Ctx.BitT) : Ctx.UIntT n :=
  Ctx.uintSelect (Ctx.uintConst 0) cond (Ctx.uintConst 1)

theorem val_zextTo {n W : Nat} (v : Ctx.UIntT n) (h : n ≤ W) :
    Ctx.val (zextTo W v) = Ctx.val v := Ctx.val_zext v h

theorem val_indicator {n : Nat} (hn : 0 < n) (cond : Ctx.BitT) :
    Ctx.val (indicator (n := n) cond) = if Ctx.bit cond = true then 1 else 0 := by
  have h1 : 1 < 2 ^ n := Nat.one_lt_two_pow (by omega)
  rw [indicator, Ctx.val_select, Ctx.val_const h1, Ctx.val_const (by omega)]

/-- **A sum loop does not wrap.**  `acc = acc + term i` holds the exact prefix sum
of the terms at every value of the loop variable, if the whole sum fits. -/
theorem val_sumLoop {n lo : Nat} {term : Fin M → Ctx.UIntT n} {f : Fin M → Nat}
    (hterm : ∀ i, Ctx.val (term i) = f i) {init : Ctx.UIntT n}
    (hinit : Ctx.val init = prefixSum f lo) (hfit : ∑ i, f i < 2 ^ n) (i : Nat) (h : i ≤ M)
    (hlo : lo ≤ i) :
    Ctx.val (forLoop lo (fun i acc => Ctx.uintAdd acc (term i)) init i h) = prefixSum f i := by
  refine forLoop_rule (fun i acc => Ctx.val acc = prefixSum f i) hinit ?_ i h hlo
  intro i acc _ hacc
  have hlt : prefixSum f (i + 1) < 2 ^ n := lt_of_le_of_lt (prefixSum_le_sum f _) hfit
  rw [prefixSum_succ f i.isLt] at hlt ⊢
  rw [Ctx.val_add, hacc, hterm, Nat.mod_eq_of_lt hlt]

/-- A count loop holds the number of conditions met so far. -/
theorem val_countLoop {n : Nat} (hfit : M < 2 ^ n) (cond : Fin M → Ctx.BitT) (i : Nat)
    (h : i ≤ M) :
    Ctx.val (forLoop 0 (fun i acc => Ctx.uintAdd acc (indicator (cond i)))
      (Ctx.uintConst (n := n) 0) i h) = #{k : Fin M | k.val < i ∧ Ctx.bit (cond k) = true} := by
  rcases Nat.eq_zero_or_pos M with rfl | hM
  · obtain rfl : i = 0 := Nat.le_zero.mp h
    simp [Ctx.val_const hfit]
  · have hn : 0 < n := by
      rcases Nat.eq_zero_or_pos n with rfl | hn
      · rw [Nat.pow_zero] at hfit
        omega
      · exact hn
    have hsum : ∑ k : Fin M, (if Ctx.bit (cond k) = true then 1 else 0) < 2 ^ n := by
      rw [← card_filter]
      exact lt_of_le_of_lt (card_filter_le _ _) (by simpa using hfit)
    rw [val_sumLoop (fun k => val_indicator hn (cond k)) ?_ hsum i h (Nat.zero_le i),
      prefixSum_indicator]
    rw [prefixSum_zero, Ctx.val_const (by omega)]

/-- **A product does not wrap** in a width that holds the widths of both factors. -/
theorem val_mul_zextTo {n m W : Nat} (hW : n + m ≤ W) (a : Ctx.UIntT n) (b : Ctx.UIntT m) :
    Ctx.val (Ctx.uintMul (zextTo W a) (zextTo W b)) = Ctx.val a * Ctx.val b := by
  have hfit : Ctx.val a * Ctx.val b < 2 ^ W := by
    calc Ctx.val a * Ctx.val b < 2 ^ n * 2 ^ m :=
          Nat.mul_lt_mul'' (Ctx.val_lt a) (Ctx.val_lt b)
      _ = 2 ^ (n + m) := (pow_add 2 n m).symm
      _ ≤ 2 ^ W := Nat.pow_le_pow_right (by decide) hW
  rw [Ctx.val_mul, val_zextTo a (by omega), val_zextTo b (by omega), Nat.mod_eq_of_lt hfit]

/-! ## The test of a cube -/

/-- `(assignment & cube.mask) == cube.bits`, the local `satisfied` of both
estimators' loops. -/
def satisfied (assignment : Ctx.BitVecT N) (cube : CircuitCube Ctx N) : Ctx.BitT :=
  Ctx.bitVecEq (Ctx.bitVecAnd assignment cube.mask) cube.bits

@[simp] theorem bit_satisfied (assignment : Ctx.BitVecT N) (cube : CircuitCube Ctx N) :
    Ctx.bit (satisfied assignment cube) = cube.value.check (Ctx.bits assignment) := by
  rw [satisfied, Ctx.bit_bitVecEq, Ctx.bits_and]
  rfl

end MpcVazirani
