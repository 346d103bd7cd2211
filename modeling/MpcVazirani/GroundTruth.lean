import MpcVazirani.Conjunction
import MpcVazirani.DimacsDnf

/-! # The plaintext conjunction of the benchmarks

`plain_conjoin` and `plain_conjoin_dnf` of `bench/ground_truth.h`, which compute
on `dimacs_dnf::Cube` what `conjoin` and `conjoin_dnf` compute on wires.  Where the
circuit works on whole vectors, the host goes through the variables one by one and
returns early; where the circuit's outputs come as one array, the host writes them
one by one at `out[idx++]`.  Both arrive at the meet, whatever the cubes hold.
-/
namespace MpcVazirani
open ForLoop

variable {Ctx : BooleanContext} {VARS CUBES : Nat}

/-! ## `plain_conjoin` -/

/-- The loop of `plain_conjoin` that sets `disagree`, when its variable has reached
`v`. -/
def plainDisagreeFrom (a b : Cube VARS) (v : Nat) (h : v ≤ VARS) : Bool :=
  forLoop 0 (fun v disagree =>
    if a.mask v = true ∧ b.mask v = true ∧ a.bits v ≠ b.bits v then true else disagree) false v h

/-- The loop of `plain_conjoin` that fills in `out`, when its variable has reached
`v`. -/
def plainMergeFrom (a b out : Cube VARS) (v : Nat) (h : v ≤ VARS) : Cube VARS :=
  forLoop 0 (fun v out =>
    { out with
      mask := Function.update out.mask v (a.mask v || b.mask v)
      bits := Function.update out.bits v (if a.mask v = true then a.bits v else b.bits v) }) out v h

/-- `ground_truth::plain_conjoin`. -/
def plainConjoin (a b : Cube VARS) : Cube VARS :=
  let disagree := plainDisagreeFrom a b VARS (Nat.le_refl VARS)
  let out : Cube VARS := { Cube.empty with pad := a.pad || b.pad || disagree }
  if out.pad = true then { out with bits := fun _ => true, mask := fun _ => false }
  else plainMergeFrom a b out VARS (Nat.le_refl VARS)

theorem plainDisagreeFrom_iff (a b : Cube VARS) (v : Nat) (h : v ≤ VARS) :
    plainDisagreeFrom a b v h = true ↔
      ∃ w : Fin VARS, w.val < v ∧ a.mask w = true ∧ b.mask w = true ∧ a.bits w ≠ b.bits w := by
  refine forLoop_rule (fun v disagree => disagree = true ↔
    ∃ w : Fin VARS, w.val < v ∧ a.mask w = true ∧ b.mask w = true ∧ a.bits w ≠ b.bits w)
    ?_ ?_ v h (Nat.zero_le v)
  · simp
  · intro v disagree _ ih
    by_cases hv : a.mask v = true ∧ b.mask v = true ∧ a.bits v ≠ b.bits v
    · rw [if_pos hv]
      exact iff_of_true rfl ⟨v, Nat.lt_succ_self _, hv⟩
    · rw [if_neg hv, ih]
      constructor
      · rintro ⟨w, hw, hdis⟩
        exact ⟨w, Nat.lt_succ_of_lt hw, hdis⟩
      · rintro ⟨w, hw, hdis⟩
        rcases Nat.lt_succ_iff_lt_or_eq.mp hw with hlt | heq
        · exact ⟨w, hlt, hdis⟩
        · exact absurd (Fin.ext heq ▸ hdis) hv

/-- The filling loop has dealt with the variables below `v` and leaves `pad`
alone. -/
theorem plainMergeFrom_spec (a b out : Cube VARS) (v : Nat) (h : v ≤ VARS) :
    (plainMergeFrom a b out v h).pad = out.pad ∧ ∀ w : Fin VARS, w.val < v →
      (plainMergeFrom a b out v h).mask w = (Cube.merge a b).mask w ∧
        (plainMergeFrom a b out v h).bits w = (Cube.merge a b).bits w := by
  refine forLoop_rule (fun v (c : Cube VARS) => c.pad = out.pad ∧ ∀ w : Fin VARS, w.val < v →
    c.mask w = (Cube.merge a b).mask w ∧ c.bits w = (Cube.merge a b).bits w) ?_ ?_ v h
    (Nat.zero_le v)
  · exact ⟨rfl, fun w hw => absurd hw (Nat.not_lt_zero _)⟩
  · rintro v c - ⟨hpad, ih⟩
    refine ⟨hpad, fun w hw => ?_⟩
    rcases Nat.lt_succ_iff_lt_or_eq.mp hw with hlt | heq
    · have hne : w ≠ v := fun he => absurd hlt (he ▸ Nat.lt_irrefl _)
      simp only [Function.update_of_ne hne]
      exact ih w hlt
    · obtain rfl : w = v := Fin.ext heq
      simp only [Function.update_self]
      exact ⟨rfl, rfl⟩

/-- **The host's loops compute the meet.** -/
theorem plainConjoin_eq_meet (a b : Cube VARS) : plainConjoin a b = a.meet b := by
  have hdis : plainDisagreeFrom a b VARS (Nat.le_refl VARS) = true ↔ a.Disagree b := by
    rw [plainDisagreeFrom_iff]
    exact exists_congr fun w => ⟨fun hw => hw.2, fun hw => ⟨w.isLt, hw⟩⟩
  have hpad : (a.pad || b.pad || plainDisagreeFrom a b VARS (Nat.le_refl VARS)) = true ↔
      a.pad = true ∨ b.pad = true ∨ a.Disagree b := by
    rw [Bool.or_eq_true, Bool.or_eq_true, hdis, or_assoc]
  rw [plainConjoin]
  by_cases h : a.pad = true ∨ b.pad = true ∨ a.Disagree b
  · rw [Cube.meet_eq_padding h]
    simp only [hpad.mpr h, if_true]
    rfl
  · have hfalse := Bool.eq_false_iff.mpr fun hp => h (hpad.mp hp)
    rw [Cube.meet_eq_merge h]
    simp only [hfalse]
    rw [if_neg Bool.false_ne_true]
    obtain ⟨hp, hall⟩ := plainMergeFrom_spec a b
      { Cube.empty with pad := false } VARS (Nat.le_refl VARS)
    generalize plainMergeFrom a b { Cube.empty with pad := false } VARS (Nat.le_refl VARS) = c
      at hp hall
    obtain ⟨bits, mask, pad⟩ := c
    rw [Cube.merge, Cube.mk.injEq]
    exact ⟨funext fun w => (hall w w.isLt).2, funext fun w => (hall w w.isLt).1, hp⟩

/-! ## `plain_conjoin_dnf` -/

/-- The array being written and the position that comes next. -/
structure PlainOutput (VARS n : Nat) where
  idx : Nat
  out : Fin n → Cube VARS

/-- `out[idx++] = c;` -/
def PlainOutput.push {n : Nat} (s : PlainOutput VARS n) (c : Cube VARS) : PlainOutput VARS n where
  idx := s.idx + 1
  out := if h : s.idx < n then Function.update s.out ⟨s.idx, h⟩ c else s.out

/-- The inner loop of `plain_conjoin_dnf` for the cube `a`, when it has come to cube
`j` of `d2`. -/
def plainRowFrom (a : Cube VARS) (d2 : Dnf VARS CUBES) (s : PlainOutput VARS (CUBES * CUBES))
    (j : Nat) (h : j ≤ CUBES) : PlainOutput VARS (CUBES * CUBES) :=
  forLoop 0 (fun j s => s.push (plainConjoin a (d2.cubes j))) s j h

/-- The outer loop, when it has come to cube `i` of `d1`. -/
def plainConjoinDnfFrom (d1 d2 : Dnf VARS CUBES) (i : Nat) (h : i ≤ CUBES) :
    PlainOutput VARS (CUBES * CUBES) :=
  forLoop 0 (fun i s => plainRowFrom (d1.cubes i) d2 s CUBES (Nat.le_refl CUBES))
    ⟨0, fun _ => Cube.empty⟩ i h

/-- `ground_truth::plain_conjoin_dnf`. -/
def plainConjoinDnf (d1 d2 : Dnf VARS CUBES) : Fin (CUBES * CUBES) → Cube VARS :=
  (plainConjoinDnfFrom d1 d2 CUBES (Nat.le_refl CUBES)).out

/-- `s` has written `n` positions, in the order of `f`. -/
def PlainOutput.Written {m : Nat} (f : Fin m → Cube VARS) (n : Nat) (s : PlainOutput VARS m) : Prop :=
  s.idx = n ∧ ∀ k : Fin m, k.val < n → s.out k = f k

theorem PlainOutput.Written.push {m n : Nat} {f : Fin m → Cube VARS} {s : PlainOutput VARS m}
    (h : s.Written f n) (k : Fin m) (hk : k.val = n) : (s.push (f k)).Written f (n + 1) := by
  obtain ⟨hidx, hout⟩ := h
  have hlt : s.idx < m := by
    have := k.isLt
    omega
  refine ⟨congrArg Nat.succ hidx, fun w hw => ?_⟩
  simp only [PlainOutput.push, dif_pos hlt]
  rcases Nat.lt_succ_iff_lt_or_eq.mp hw with hlt' | heq
  · have hne : w ≠ ⟨s.idx, hlt⟩ := fun he => by
      have := congrArg Fin.val he
      dsimp only at this
      omega
    rw [Function.update_of_ne hne]
    exact hout w hlt'
  · obtain rfl : w = k := Fin.ext (heq.trans hk.symm)
    obtain rfl : w = ⟨s.idx, hlt⟩ := Fin.ext (heq.trans hidx.symm)
    rw [Function.update_self]

section Loops
variable (d1 d2 : Dnf VARS CUBES)

/-- The conjunction of the pair at position `k`. -/
def pairMeet (k : Fin (CUBES * CUBES)) : Cube VARS :=
  (d1.cubes k.divNat).meet (d2.cubes k.modNat)

theorem pairMeet_pairIndex (i j : Fin CUBES) :
    pairMeet d1 d2 (pairIndex i j) = plainConjoin (d1.cubes i) (d2.cubes j) := by
  rw [pairMeet, divNat_pairIndex, modNat_pairIndex, plainConjoin_eq_meet]

/-- The row of `i` goes to the positions from `i * CUBES` on. -/
theorem plainRowFrom_written {s : PlainOutput VARS (CUBES * CUBES)} {i : Fin CUBES}
    (hs : s.Written (pairMeet d1 d2) (i * CUBES)) (j : Nat) (h : j ≤ CUBES) :
    (plainRowFrom (d1.cubes i) d2 s j h).Written (pairMeet d1 d2) (i * CUBES + j) := by
  refine forLoop_rule (fun j (s : PlainOutput VARS (CUBES * CUBES)) =>
    s.Written (pairMeet d1 d2) (i * CUBES + j)) hs ?_ j h (Nat.zero_le j)
  intro j s _ ih
  rw [← pairMeet_pairIndex]
  exact ih.push (pairIndex i j) (val_pairIndex i j)

theorem plainConjoinDnfFrom_written (i : Nat) (h : i ≤ CUBES) :
    (plainConjoinDnfFrom d1 d2 i h).Written (pairMeet d1 d2) (i * CUBES) := by
  refine forLoop_rule (fun i (s : PlainOutput VARS (CUBES * CUBES)) =>
    s.Written (pairMeet d1 d2) (i * CUBES)) ?_ ?_ i h (Nat.zero_le i)
  · rw [Nat.zero_mul]
    exact ⟨rfl, fun k hk => absurd hk (Nat.not_lt_zero _)⟩
  · intro i s _ ih
    rw [Nat.succ_mul]
    exact plainRowFrom_written d1 d2 ih CUBES (Nat.le_refl CUBES)

theorem plainConjoinDnf_apply (k : Fin (CUBES * CUBES)) :
    plainConjoinDnf d1 d2 k = pairMeet d1 d2 k :=
  (plainConjoinDnfFrom_written d1 d2 CUBES (Nat.le_refl CUBES)).2 k k.isLt

end Loops

/-- **The host and the circuit agree bit for bit** on the same cubes, well-formed or
not, at every position of the conjunction. -/
theorem plainConjoinDnf_eq_conjoinDnf {d1 d2 : Dnf VARS CUBES}
    {w1 w2 : Fin CUBES → CircuitCube Ctx VARS} (h1 : dnfValue w1 = d1) (h2 : dnfValue w2 = d2)
    (k : Fin (CUBES * CUBES)) :
    Ctx.bits (conjoinDnf w1 w2 k).bits = (plainConjoinDnf d1 d2 k).bits ∧
      Ctx.bits (conjoinDnf w1 w2 k).mask = (plainConjoinDnf d1 d2 k).mask ∧
      Ctx.bit (conjoinDnf w1 w2 k).pad = (plainConjoinDnf d1 d2 k).pad := by
  have hvalue : (conjoinDnf w1 w2 k).value = plainConjoinDnf d1 d2 k := by
    rw [plainConjoinDnf_apply, pairMeet, ← h1, ← h2]
    exact dnfValue_conjoinDnf w1 k
  rw [← hvalue]
  exact ⟨rfl, rfl, rfl⟩

/-- Stale bits under a clear mask, on a real cube and on padding. -/
def staleDnf : Dnf 2 2 where
  cubes := ![⟨![true, true], ![false, true], false⟩, ⟨![true, false], ![true, false], true⟩]

/-- The conjunction of the stale cubes with themselves. -/
theorem plainConjoinDnf_eq_conjoinDnf_stale :
    (conjoinDnf (clearCubes staleDnf) (clearCubes staleDnf) 0).bits =
      (plainConjoinDnf staleDnf staleDnf 0).bits :=
  (@plainConjoinDnf_eq_conjoinDnf clearContext _ _ _ _ (clearCubes staleDnf) (clearCubes staleDnf)
    rfl rfl 0).1

end MpcVazirani
