import Mathlib.Data.Fin.VecNotation
import Mathlib.Data.Fintype.Pi
import Mathlib.Data.Nat.Size
import Mathlib.Tactic.Common

/-! # What the circuits need of emp-tool

Every gadget is generic over a context: the same code runs on public wires in
the unit tests and on garbled wires between the two parties.  emp-tool itself is
not part of the repository, so it enters as a parameter.  A `BooleanContext` is
the wire types and operations the gadgets call, together with what they rely on:
each wire stands for a value (`bit`, `bits`, `val`), each operation computes the
documented function of the values, and `UInt_T` arithmetic is modulo two to the
width.  Nothing is assumed of an operation outside the range the gadgets use it
in: a constant or a popcount that does not fit its width, a shift by the width
or more, and above all `%` by zero are left open.

A `SH2PCSession` adds what the two-party pipelines call: private input by one
named owner, and the public reveal of at most 64 bits.
-/
namespace MpcVazirani

/-- The wire types and operations of an `emp::BooleanContext`, with the values
the wires stand for. -/
structure BooleanContext where
  /-- `emp::Bit_T<Ctx>`. -/
  BitT : Type
  /-- `emp::BitVec_T<Ctx, n>`. -/
  BitVecT : Nat → Type
  /-- `emp::UInt_T<Ctx, n>`. -/
  UIntT : Nat → Type
  /-- `emp::kernel::bits_for`. -/
  bitsFor : Nat → Nat
  bitConst : Bool → BitT
  bitNot : BitT → BitT
  bitOr : BitT → BitT → BitT
  /-- `x.select(sel, y)`, which is `sel ? y : x`; so for the other two types. -/
  bitSelect : BitT → BitT → BitT → BitT
  bitVecConst : {n : Nat} → (Fin n → Bool) → BitVecT n
  bitVecXor : {n : Nat} → BitVecT n → BitVecT n → BitVecT n
  bitVecAnd : {n : Nat} → BitVecT n → BitVecT n → BitVecT n
  bitVecOr : {n : Nat} → BitVecT n → BitVecT n → BitVecT n
  bitVecNot : {n : Nat} → BitVecT n → BitVecT n
  bitVecEq : {n : Nat} → BitVecT n → BitVecT n → BitT
  bitVecSelect : {n : Nat} → BitVecT n → BitT → BitVecT n → BitVecT n
  /-- `v.as_uint()`: the same wires read as a number, bit 0 lowest. -/
  asUint : {n : Nat} → BitVecT n → UIntT n
  uintConst : {n : Nat} → Nat → UIntT n
  uintAdd : {n : Nat} → UIntT n → UIntT n → UIntT n
  uintSub : {n : Nat} → UIntT n → UIntT n → UIntT n
  uintMul : {n : Nat} → UIntT n → UIntT n → UIntT n
  uintMod : {n : Nat} → UIntT n → UIntT n → UIntT n
  uintShl : {n : Nat} → UIntT n → UIntT n → UIntT n
  uintGt : {n : Nat} → UIntT n → UIntT n → BitT
  uintEq : {n : Nat} → UIntT n → UIntT n → BitT
  uintSelect : {n : Nat} → UIntT n → BitT → UIntT n → UIntT n
  /-- `v.template zext<m>()`. -/
  zext : {n : Nat} → (m : Nat) → UIntT n → UIntT m
  /-- `v.template popcount<m>()`. -/
  popcount : {n : Nat} → (m : Nat) → UIntT n → UIntT m
  /-- `v.template slice<lo, hi>()`. -/
  slice : {n : Nat} → (lo hi : Nat) → UIntT n → UIntT (hi - lo)
  /-- The bit a wire stands for. -/
  bit : BitT → Bool
  /-- The bits a vector of wires stands for. -/
  bits : {n : Nat} → BitVecT n → Fin n → Bool
  /-- The number a `UInt_T` stands for. -/
  val : {n : Nat} → UIntT n → Nat
  /-- `bits_for(n)` is the least width that holds `n`. -/
  bitsFor_le : ∀ {n b : Nat}, bitsFor n ≤ b ↔ n < 2 ^ b
  bit_const : ∀ b, bit (bitConst b) = b
  bit_not : ∀ a, bit (bitNot a) = !bit a
  bit_or : ∀ a b, bit (bitOr a b) = (bit a || bit b)
  bit_select : ∀ a sel b, bit (bitSelect a sel b) = if bit sel then bit b else bit a
  bits_const : ∀ {n} (v : Fin n → Bool), bits (bitVecConst v) = v
  bits_xor : ∀ {n} (a b : BitVecT n), bits (bitVecXor a b) = fun i => bits a i ^^ bits b i
  bits_and : ∀ {n} (a b : BitVecT n), bits (bitVecAnd a b) = fun i => bits a i && bits b i
  bits_or : ∀ {n} (a b : BitVecT n), bits (bitVecOr a b) = fun i => bits a i || bits b i
  bits_not : ∀ {n} (a : BitVecT n), bits (bitVecNot a) = fun i => !bits a i
  bit_bitVecEq : ∀ {n} (a b : BitVecT n), bit (bitVecEq a b) = decide (bits a = bits b)
  bits_select : ∀ {n} (a : BitVecT n) (sel : BitT) (b : BitVecT n),
    bits (bitVecSelect a sel b) = if bit sel then bits b else bits a
  val_lt : ∀ {n} (a : UIntT n), val a < 2 ^ n
  val_asUint : ∀ {n} (a : BitVecT n), val (asUint a) = Nat.ofBits (bits a)
  val_const : ∀ {n c : Nat}, c < 2 ^ n → val (uintConst (n := n) c) = c
  val_add : ∀ {n} (a b : UIntT n), val (uintAdd a b) = (val a + val b) % 2 ^ n
  val_sub : ∀ {n} (a b : UIntT n), val (uintSub a b) = (val a + (2 ^ n - val b)) % 2 ^ n
  val_mul : ∀ {n} (a b : UIntT n), val (uintMul a b) = val a * val b % 2 ^ n
  /-- A remainder by zero is some value of the width, and no more is known. -/
  val_mod : ∀ {n} (a b : UIntT n), 0 < val b → val (uintMod a b) = val a % val b
  val_shl : ∀ {n} (a s : UIntT n), val s < n → val (uintShl a s) = val a * 2 ^ val s % 2 ^ n
  bit_gt : ∀ {n} (a b : UIntT n), bit (uintGt a b) = decide (val b < val a)
  bit_uintEq : ∀ {n} (a b : UIntT n), bit (uintEq a b) = decide (val a = val b)
  val_select : ∀ {n} (a : UIntT n) (sel : BitT) (b : UIntT n),
    val (uintSelect a sel b) = if bit sel then val b else val a
  val_zext : ∀ {n m : Nat} (a : UIntT n), n ≤ m → val (zext m a) = val a
  val_popcount : ∀ {n m : Nat} (a : UIntT n),
    (List.range n).countP (fun i => (val a).testBit i) < 2 ^ m →
      val (popcount m a) = (List.range n).countP (fun i => (val a).testBit i)
  val_slice : ∀ {n lo hi : Nat} (a : UIntT n), lo ≤ hi → hi ≤ n →
    val (slice lo hi a) = val a / 2 ^ lo % 2 ^ (hi - lo)

namespace BooleanContext

attribute [simp] bit_const bit_not bit_or bit_select bits_const bits_xor bits_and bits_or bits_not
  bit_bitVecEq bits_select val_asUint bit_gt bit_uintEq val_select

variable (Ctx : BooleanContext)

theorem val_lt_of_le {n m : Nat} (h : n ≤ m) (a : Ctx.UIntT n) : Ctx.val a < 2 ^ m :=
  lt_of_lt_of_le (Ctx.val_lt a) (Nat.pow_le_pow_right (by decide) h)

theorem lt_two_pow_bitsFor (n : Nat) : n < 2 ^ Ctx.bitsFor n :=
  Ctx.bitsFor_le.mp (Nat.le_refl _)

theorem bitsFor_pos {n : Nat} (hn : 0 < n) : 0 < Ctx.bitsFor n := by
  rcases Nat.eq_zero_or_pos (Ctx.bitsFor n) with h | h
  · have := Ctx.lt_two_pow_bitsFor n
    rw [h, Nat.pow_zero] at this
    omega
  · exact h

/-- The widths are the same in every context. -/
theorem bitsFor_congr (Ctx' : BooleanContext) (n : Nat) : Ctx.bitsFor n = Ctx'.bitsFor n :=
  le_antisymm (Ctx.bitsFor_le.mpr (Ctx'.lt_two_pow_bitsFor n))
    (Ctx'.bitsFor_le.mpr (Ctx.lt_two_pow_bitsFor n))

end BooleanContext

/-! ## The clear context -/

/-- Wires that are their values, as in the unit tests' `emp::ClearSession`.  It
meets every assumption of `BooleanContext`. -/
def clearContext : BooleanContext where
  BitT := Bool
  BitVecT n := Fin n → Bool
  UIntT n := Fin (2 ^ n)
  bitsFor := Nat.size
  bitConst b := b
  bitNot a := !a
  bitOr a b := a || b
  bitSelect a sel b := if sel then b else a
  bitVecConst v := v
  bitVecXor a b := fun i => a i ^^ b i
  bitVecAnd a b := fun i => a i && b i
  bitVecOr a b := fun i => a i || b i
  bitVecNot a := fun i => !a i
  bitVecEq a b := decide (a = b)
  bitVecSelect a sel b := if sel then b else a
  asUint a := ⟨Nat.ofBits a, Nat.ofBits_lt_two_pow a⟩
  uintConst c := Fin.ofNat _ c
  uintAdd a b := a + b
  uintSub a b := a - b
  uintMul a b := a * b
  uintMod a b := a % b
  uintShl a s := Fin.ofNat _ (a.val * 2 ^ s.val)
  uintGt a b := decide (b < a)
  uintEq a b := decide (a = b)
  uintSelect a sel b := if sel then b else a
  zext m a := Fin.ofNat _ a.val
  popcount m a := Fin.ofNat _ ((List.range _).countP (fun i => a.val.testBit i))
  slice lo hi a := Fin.ofNat _ (a.val / 2 ^ lo)
  bit a := a
  bits a := a
  val a := a.val
  bitsFor_le := Nat.size_le
  bit_const _ := rfl
  bit_not _ := rfl
  bit_or _ _ := rfl
  bit_select _ _ _ := rfl
  bits_const _ := rfl
  bits_xor _ _ := rfl
  bits_and _ _ := rfl
  bits_or _ _ := rfl
  bits_not _ := rfl
  bit_bitVecEq _ _ := rfl
  bits_select _ _ _ := rfl
  val_lt a := a.isLt
  val_asUint _ := rfl
  val_const h := Nat.mod_eq_of_lt h
  val_add a b := Fin.val_add a b
  val_sub a b := by rw [Fin.val_sub, Nat.add_comm]
  val_mul a b := Fin.val_mul a b
  val_mod a b _ := Fin.mod_val a b
  val_shl _ _ _ := rfl
  bit_gt _ _ := rfl
  bit_uintEq a b := decide_eq_decide.mpr Fin.ext_iff
  val_select a sel b := by cases sel <;> rfl
  val_zext a h := Nat.mod_eq_of_lt (Nat.lt_of_lt_of_le a.isLt (Nat.pow_le_pow_right (by decide) h))
  val_popcount _ h := Nat.mod_eq_of_lt h
  val_slice _ _ _ := rfl

/-! ## The two-party session -/

/-- The owner of a private input, `emp::ALICE` or `emp::BOB`. -/
inductive Party where
  | alice
  | bob
  deriving DecidableEq

/-- What the pipelines call on an `emp::SH2PCSession`.  Both processes make every
`input` call, each with its own local argument, so an input is a function of the
party; only the named owner's argument is used. -/
structure SH2PCSession where
  /-- `SH2PCSession::ctx_t`. -/
  ctx : BooleanContext
  /-- `sess.input<BitVec_T<Ctx, n>>(owner, mine)`. -/
  inputBitVec : {n : Nat} → Party → (Party → Fin n → Bool) → ctx.BitVecT n
  /-- `sess.input<Bit_T<Ctx>>(owner, mine)`. -/
  inputBit : Party → (Party → Bool) → ctx.BitT
  /-- `sess.reveal(value, PUBLIC).value()`, a `uint64_t`. -/
  reveal : {n : Nat} → ctx.UIntT n → Nat
  bits_input : ∀ {n} (owner : Party) (mine : Party → Fin n → Bool),
    ctx.bits (inputBitVec owner mine) = mine owner
  bit_input : ∀ (owner : Party) (mine : Party → Bool), ctx.bit (inputBit owner mine) = mine owner
  /-- Only a value of at most 64 bits survives a single reveal. -/
  reveal_eq : ∀ {n} (v : ctx.UIntT n), n ≤ 64 → reveal v = ctx.val v

attribute [simp] SH2PCSession.bits_input SH2PCSession.bit_input

/-- The session over clear wires. -/
def clearSession : SH2PCSession where
  ctx := clearContext
  inputBitVec owner mine := mine owner
  inputBit owner mine := mine owner
  reveal v := v.val % 2 ^ 64
  bits_input _ _ := rfl
  bit_input _ _ := rfl
  reveal_eq v h := Nat.mod_eq_of_lt
    (Nat.lt_of_lt_of_le v.isLt (Nat.pow_le_pow_right (by decide) h))

end MpcVazirani
