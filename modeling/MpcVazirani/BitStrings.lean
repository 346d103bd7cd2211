import Mathlib.Algebra.BigOperators.Fin
import Mathlib.Data.Fintype.BigOperators
import Mathlib.Data.Fintype.Pi
import Mathlib.Logic.Equiv.Fin.Basic

/-! # Strings of bits as numbers and as coins

The `n`-bit strings, read lowest bit first, are the numbers below `2 ^ n`
(`sum_ofBits`); a string is xored with a fixed one without repeating or missing
any (`sum_xor`), so a sum over all strings does not see the fixed one; bits that are
not looked at double the sum each (`sum_castLE`); and the set bits of the number are
the set positions of the string (`countP_testBit`).
-/
namespace BitStrings
open Finset

variable {n : Nat}

/-- The `n`-bit strings are the numbers below `2 ^ n`. -/
def ofBitsEquiv (n : Nat) : (Fin n → Bool) ≃ Fin (2 ^ n) where
  toFun v := ⟨Nat.ofBits v, Nat.ofBits_lt_two_pow v⟩
  invFun a := fun i => a.val.testBit i
  left_inv v := by
    funext i
    simp
  right_inv a := by
    ext
    simp [Nat.ofBits_testBit, Nat.mod_eq_of_lt a.isLt]

/-- Summing over the strings is summing over the numbers they stand for. -/
theorem sum_ofBits {R : Type*} [AddCommMonoid R] (f : Nat → R) :
    ∑ v : Fin n → Bool, f (Nat.ofBits v) = ∑ a ∈ range (2 ^ n), f a := by
  rw [← Fin.sum_univ_eq_sum_range]
  exact Fintype.sum_equiv (ofBitsEquiv n) _ _ fun _ => rfl

/-- Xoring with a fixed string, which undoes itself. -/
def xorEquiv (b : Fin n → Bool) : (Fin n → Bool) ≃ (Fin n → Bool) where
  toFun a := fun i => a i ^^ b i
  invFun a := fun i => a i ^^ b i
  left_inv a := by
    funext i
    simp
  right_inv a := by
    funext i
    simp

/-- A coin flipped against a fixed string is still every string once. -/
theorem sum_xor {R : Type*} [AddCommMonoid R] (b : Fin n → Bool) (f : (Fin n → Bool) → R) :
    ∑ a : Fin n → Bool, f (fun i => a i ^^ b i) = ∑ r, f r :=
  Fintype.sum_equiv (xorEquiv b) _ _ fun _ => rfl

/-- Each bit that is not looked at doubles the sum. -/
theorem sum_castLE {R : Type*} [AddCommMonoid R] {m : Nat} (h : n ≤ m)
    (f : (Fin n → Bool) → R) :
    ∑ x : Fin m → Bool, f (fun i => x (i.castLE h)) = 2 ^ (m - n) • ∑ y, f y := by
  obtain ⟨k, rfl⟩ := Nat.exists_eq_add_of_le h
  rw [Nat.add_sub_cancel_left, ← (Fin.appendEquiv n k).sum_comp, Fintype.sum_prod_type,
    ← sum_nsmul]
  refine sum_congr rfl fun y _ => ?_
  have hleft : ∀ u : Fin k → Bool, (fun i : Fin n => Fin.appendEquiv n k (y, u) (i.castLE h)) = y :=
    fun u => funext fun i => Fin.append_left y u i
  simp only [hleft, sum_const, card_univ, Fintype.card_fun, Fintype.card_bool, Fintype.card_fin]

/-- The set bits of the number are the set positions of the string. -/
theorem countP_testBit (v : Fin n → Bool) :
    (List.range n).countP (fun i => (Nat.ofBits v).testBit i) = #{i | v i = true} := by
  have hrange : List.range n = (List.finRange n).map Fin.val := List.map_coe_finRange_eq_range.symm
  have hbit : ((fun i => (Nat.ofBits v).testBit i) ∘ Fin.val) = v := by
    funext i
    simp
  rw [hrange, List.countP_map, hbit, List.countP_eq_length_filter, Fin.univ_def]
  change _ = Multiset.card (Multiset.filter (fun i => v i = true) (List.finRange n))
  rw [Multiset.filter_coe, Multiset.coe_card]
  simp

end BitStrings
