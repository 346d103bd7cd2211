import MpcVazirani.Emp

/-! # Revealing more than 64 bits

`reveal_wide` of `pipeline/instrumentation.h`.  A single reveal round-trips at
most 64 bits, so a wider value is revealed in a low chunk of 64 bits and a high
rest, recursively, and put together in 128-bit unsigned arithmetic.  That keeps
the lowest 128 bits of the value, whatever its width.
-/
namespace MpcVazirani

variable (sess : SH2PCSession)

/-- `reveal_wide<W>(sess, value)`. -/
def revealWide (W : Nat) (value : sess.ctx.UIntT W) : BitVec 128 :=
  if W ≤ 64 then BitVec.ofNat 128 (sess.reveal value)
  else
    let lo := revealWide 64 (sess.ctx.slice 0 64 value)
    let hi := revealWide (W - 64) (sess.ctx.slice 64 W value)
    lo ||| (hi <<< 64)
termination_by W

/-- Within a single reveal the value comes back whole. -/
theorem revealWide_of_le {W : Nat} (h : W ≤ 64) (value : sess.ctx.UIntT W) :
    (revealWide sess W value).toNat = sess.ctx.val value := by
  have hlt : sess.ctx.val value < 2 ^ 128 := sess.ctx.val_lt_of_le (by omega) value
  rw [revealWide, if_pos h, BitVec.toNat_ofNat, sess.reveal_eq value h, Nat.mod_eq_of_lt hlt]

/-- A low chunk and a shifted high one do not meet. -/
theorem toNat_or_shiftLeft {lo hi : BitVec 128} (h : lo.toNat < 2 ^ 64) :
    (lo ||| (hi <<< 64)).toNat = lo.toNat + hi.toNat % 2 ^ 64 * 2 ^ 64 := by
  have hshift : (hi <<< 64).toNat = (hi.toNat % 2 ^ 64) <<< 64 := by
    rw [BitVec.toNat_shiftLeft, Nat.shiftLeft_eq, Nat.shiftLeft_eq,
      show (2 : Nat) ^ 128 = 2 ^ 64 * 2 ^ 64 from rfl, Nat.mul_mod_mul_right]
  rw [BitVec.toNat_or, hshift, Nat.or_comm, ← Nat.shiftLeft_add_eq_or_of_lt h, Nat.shiftLeft_eq,
    Nat.add_comm]

/-- **`reveal_wide` keeps the lowest 128 bits.** -/
theorem revealWide_toNat (W : Nat) (value : sess.ctx.UIntT W) :
    (revealWide sess W value).toNat = sess.ctx.val value % 2 ^ 128 := by
  induction W using Nat.strong_induction_on with
  | _ W ih =>
    rcases Nat.lt_or_ge 64 W with hW | hW
    · have hlo : (revealWide sess 64 (sess.ctx.slice 0 64 value)).toNat =
          sess.ctx.val value % 2 ^ 64 := by
        rw [revealWide_of_le sess (Nat.le_refl 64)]
        have h := sess.ctx.val_slice value (Nat.zero_le 64) (Nat.le_of_lt hW)
        rwa [Nat.pow_zero, Nat.div_one] at h
      have hhi : (revealWide sess (W - 64) (sess.ctx.slice 64 W value)).toNat % 2 ^ 64 =
          sess.ctx.val value / 2 ^ 64 % 2 ^ 64 := by
        have hlt : sess.ctx.val value / 2 ^ 64 < 2 ^ (W - 64) := by
          rw [Nat.div_lt_iff_lt_mul (Nat.two_pow_pos 64), ← Nat.pow_add,
            Nat.sub_add_cancel (Nat.le_of_lt hW)]
          exact sess.ctx.val_lt value
        rw [ih (W - 64) (by omega), sess.ctx.val_slice value (Nat.le_of_lt hW) (Nat.le_refl W),
          Nat.mod_eq_of_lt hlt, show (2 : Nat) ^ 128 = 2 ^ 64 * 2 ^ 64 from rfl,
          Nat.mod_mul_right_mod]
      have hlt : (revealWide sess 64 (sess.ctx.slice 0 64 value)).toNat < 2 ^ 64 := by
        rw [hlo]
        exact Nat.mod_lt _ (Nat.two_pow_pos 64)
      rw [revealWide, if_neg (by omega), toNat_or_shiftLeft hlt, hlo, hhi,
        show (2 : Nat) ^ 128 = 2 ^ 64 * 2 ^ 64 from rfl, Nat.mod_mul, Nat.mul_comm]
    · have hlt : sess.ctx.val value < 2 ^ 128 := sess.ctx.val_lt_of_le (by omega) value
      rw [revealWide_of_le sess hW, Nat.mod_eq_of_lt hlt]

/-- A value of at most 128 bits comes back whole. -/
theorem revealWide_eq {W : Nat} (h : W ≤ 128) (value : sess.ctx.UIntT W) :
    (revealWide sess W value).toNat = sess.ctx.val value := by
  rw [revealWide_toNat, Nat.mod_eq_of_lt (sess.ctx.val_lt_of_le h value)]

/-- **`reveal_wide` at every width**: it returns the value modulo `2 ^ 128`, so the value
itself up to 128 bits. -/
theorem revealWide_exact (W : Nat) (value : sess.ctx.UIntT W) :
    revealWide sess W value = BitVec.ofNat 128 (sess.ctx.val value) ∧
      (revealWide sess W value).toNat = sess.ctx.val value % 2 ^ 128 ∧
      (W ≤ 128 → (revealWide sess W value).toNat = sess.ctx.val value) := by
  have hmod := revealWide_toNat sess W value
  refine ⟨?_, hmod, fun h => revealWide_eq sess h value⟩
  apply BitVec.eq_of_toNat_eq
  rw [hmod, BitVec.toNat_ofNat]

/-- One bit more than the accumulator holds: the value `2 ^ 128 + 5` comes back as 5, and
a value of 128 bits whole. -/
theorem revealWide_exact_boundary :
    (revealWide clearSession 129 (clearContext.uintConst (2 ^ 128 + 5))).toNat =
        clearContext.val (clearContext.uintConst (n := 129) (2 ^ 128 + 5)) % 2 ^ 128 ∧
      (revealWide clearSession 128 (clearContext.uintConst (2 ^ 127 + 5))).toNat =
        clearContext.val (clearContext.uintConst (n := 128) (2 ^ 127 + 5)) :=
  ⟨(revealWide_exact clearSession 129 (clearContext.uintConst (2 ^ 128 + 5))).2.1,
    (revealWide_exact clearSession 128 (clearContext.uintConst (2 ^ 127 + 5))).2.2 (by decide)⟩

end MpcVazirani
