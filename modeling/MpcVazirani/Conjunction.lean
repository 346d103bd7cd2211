import Mathlib.Data.List.OfFn
import MpcVazirani.CircuitCube
import MpcVazirani.DnfCount

/-! # Conjunction of two DNFs

`gadgets/general/dnf_distribute.h`.  `conjoin` is the conjunction of two cubes,
and `conjoinDnf` distributes it over two arrays.  A conjunction that no
assignment satisfies has no cube of its own and comes back as padding, so on the
cubes the wires stand for it is the meet: `Cube.meet` keeps the representation
invariant, its satisfying assignments are the common ones, and it is padding
exactly when there are none.
-/
namespace MpcVazirani
open Finset

namespace Cube
variable {N : Nat}

/-- Two cubes demand opposite values of some variable. -/
def Disagree (a b : Cube N) : Prop :=
  ∃ v, a.mask v = true ∧ b.mask v = true ∧ a.bits v ≠ b.bits v

instance (a b : Cube N) : Decidable (a.Disagree b) := inferInstanceAs (Decidable (∃ _, _))

/-- The literals of both cubes, the first cube's value winning. -/
def merge (a b : Cube N) : Cube N where
  bits v := if a.mask v = true then a.bits v else b.bits v
  mask v := a.mask v || b.mask v
  pad := false

theorem merge_mask {a b : Cube N} {v : Fin N} :
    (merge a b).mask v = true ↔ a.mask v = true ∨ b.mask v = true := Bool.or_eq_true_iff

theorem merge_bits_left {a b : Cube N} {v : Fin N} (h : a.mask v = true) :
    (merge a b).bits v = a.bits v := if_pos h

theorem merge_bits_right {a b : Cube N} {v : Fin N} (h : a.mask v = false) :
    (merge a b).bits v = b.bits v := if_neg (Bool.eq_false_iff.mp h)

/-- The cube of the assignments that satisfy both. -/
def meet (a b : Cube N) : Cube N :=
  if a.pad = true ∨ b.pad = true ∨ a.Disagree b then padding else merge a b

theorem meet_eq_padding {a b : Cube N} (h : a.pad = true ∨ b.pad = true ∨ a.Disagree b) :
    meet a b = padding := if_pos h

theorem meet_eq_merge {a b : Cube N} (h : ¬ (a.pad = true ∨ b.pad = true ∨ a.Disagree b)) :
    meet a b = merge a b := if_neg h

/-- The conjunction is well-formed again; of `a` not even that is needed, since a
bit is only taken from `a` where `a` constrains the variable. -/
theorem meet_wellFormed {a b : Cube N} (hb : b.WellFormed) : (meet a b).WellFormed := by
  by_cases h : a.pad = true ∨ b.pad = true ∨ a.Disagree b
  · rw [meet_eq_padding h]
    exact padding_wellFormed
  · rw [meet_eq_merge h]
    refine ⟨fun hp => Bool.noConfusion hp, fun _ v hv => ?_⟩
    obtain ⟨hav, hbv⟩ := Bool.or_eq_false_iff.mp hv
    have hreal : b.pad = false := Bool.eq_false_iff.mpr fun hp => h (Or.inr (Or.inl hp))
    rw [merge_bits_right hav, hb.2 hreal v hbv]

/-- Without a disagreement, the merged literals are the literals of both. -/
theorem merge_literals {a b : Cube N} (hdis : ¬ a.Disagree b) {x : Fin N → Bool} :
    (∀ v, (merge a b).mask v = true → x v = (merge a b).bits v) ↔
      (∀ v, a.mask v = true → x v = a.bits v) ∧ ∀ v, b.mask v = true → x v = b.bits v := by
  constructor
  · intro hlit
    have ha : ∀ v, a.mask v = true → x v = a.bits v := fun v hv =>
      (hlit v (merge_mask.mpr (Or.inl hv))).trans (merge_bits_left hv)
    refine ⟨ha, fun v hv => ?_⟩
    cases hav : a.mask v with
    | false => rw [hlit v (merge_mask.mpr (Or.inr hv)), merge_bits_right hav]
    | true =>
      rw [ha v hav]
      by_contra hne
      exact hdis ⟨v, hav, hv, hne⟩
  · rintro ⟨ha, hb⟩ v hv
    cases hav : a.mask v with
    | true => rw [merge_bits_left hav, ha v hav]
    | false =>
      have hbv := (merge_mask.mp hv).resolve_left (by simp [hav])
      rw [merge_bits_right hav, hb v hbv]

/-- **The conjunction is satisfied by the common satisfying assignments.** -/
theorem meet_sat {a b : Cube N} {x : Fin N → Bool} : (meet a b).Sat x ↔ a.Sat x ∧ b.Sat x := by
  by_cases h : a.pad = true ∨ b.pad = true ∨ a.Disagree b
  · rw [meet_eq_padding h]
    refine iff_of_false (fun hs => Bool.noConfusion hs.1) ?_
    rintro ⟨⟨hpa, hla⟩, hpb, hlb⟩
    rcases h with hp | hp | ⟨v, hva, hvb, hne⟩
    · rw [hpa] at hp
      cases hp
    · rw [hpb] at hp
      cases hp
    · exact hne ((hla v hva).symm.trans (hlb v hvb))
  · rw [meet_eq_merge h]
    simp only [not_or, Bool.not_eq_true] at h
    obtain ⟨hpa, hpb, hdis⟩ := h
    rw [Sat, Sat, Sat, merge_literals hdis]
    exact ⟨fun hs => ⟨⟨hpa, hs.2.1⟩, hpb, hs.2.2⟩, fun hs => ⟨rfl, hs.1.2, hs.2.2⟩⟩

/-- **The conjunction is padding exactly when nothing satisfies both cubes.** -/
theorem meet_pad_iff {a b : Cube N} : (meet a b).pad = true ↔ ¬ ∃ x, a.Sat x ∧ b.Sat x := by
  constructor
  · rintro hp ⟨x, hx⟩
    have hs := (meet_sat.mpr hx).1
    rw [hp] at hs
    cases hs
  · intro hno
    by_contra hp
    exact hno ⟨(meet a b).bits, meet_sat.mp ⟨Bool.eq_false_iff.mpr hp, fun _ _ => rfl⟩⟩

end Cube

variable {Ctx : BooleanContext} {N CUBES : Nat}

/-- `gadgets::conjoin`. -/
def conjoin (a b : CircuitCube Ctx N) : CircuitCube Ctx N :=
  let zero := Ctx.bitVecConst fun _ => false
  let disagreement := Ctx.bitVecAnd (Ctx.bitVecAnd (Ctx.bitVecXor a.bits b.bits) a.mask) b.mask
  let disagree := Ctx.bitNot (Ctx.bitVecEq disagreement zero)
  let pad := Ctx.bitOr (Ctx.bitOr a.pad b.pad) disagree
  let bits := Ctx.bitVecOr (Ctx.bitVecAnd a.bits a.mask) (Ctx.bitVecAnd b.bits (Ctx.bitVecNot a.mask))
  let mask := Ctx.bitVecOr a.mask b.mask
  { bits := Ctx.bitVecSelect bits pad (Ctx.bitVecNot zero)
    mask := Ctx.bitVecSelect mask pad zero
    pad := pad }

/-- The wire for `pad` decides whether the conjunction is padding. -/
theorem bit_pad_conjoin (a b : CircuitCube Ctx N) :
    Ctx.bit (conjoin a b).pad = true ↔
      a.value.pad = true ∨ b.value.pad = true ∨ a.value.Disagree b.value := by
  have hdis : (fun v => ((Ctx.bits a.bits v ^^ Ctx.bits b.bits v) && Ctx.bits a.mask v)
      && Ctx.bits b.mask v) ≠ (fun _ => false) ↔ a.value.Disagree b.value := by
    rw [ne_eq, funext_iff, not_forall]
    refine exists_congr fun v => ?_
    simp only [CircuitCube.value_mask, CircuitCube.value_bits]
    cases Ctx.bits a.bits v <;> cases Ctx.bits b.bits v <;> cases Ctx.bits a.mask v <;>
      cases Ctx.bits b.mask v <;> decide
  simp only [conjoin, Ctx.bit_or, Ctx.bit_not, Ctx.bit_bitVecEq, Ctx.bits_and, Ctx.bits_xor,
    Ctx.bits_const, Bool.or_eq_true, ← decide_not, decide_eq_true_iff, hdis, or_assoc,
    CircuitCube.value_pad]

/-- What the two final muxes of `conjoin` hand on. -/
theorem bits_select_pad (a b : CircuitCube Ctx N) (u v : Ctx.BitVecT N) :
    Ctx.bits (Ctx.bitVecSelect u (conjoin a b).pad v) =
      if a.value.pad = true ∨ b.value.pad = true ∨ a.value.Disagree b.value then Ctx.bits v
      else Ctx.bits u := by
  rw [Ctx.bits_select]
  simp only [bit_pad_conjoin]

/-- **`conjoin` computes the meet of the cubes its wires stand for.** -/
theorem value_conjoin (a b : CircuitCube Ctx N) :
    (conjoin a b).value = a.value.meet b.value := by
  change (⟨Ctx.bits (Ctx.bitVecSelect _ (conjoin a b).pad _),
    Ctx.bits (Ctx.bitVecSelect _ (conjoin a b).pad _), Ctx.bit (conjoin a b).pad⟩ : Cube N) = _
  rw [bits_select_pad, bits_select_pad]
  by_cases h : a.value.pad = true ∨ b.value.pad = true ∨ a.value.Disagree b.value
  · rw [Cube.meet_eq_padding h, if_pos h, if_pos h, (bit_pad_conjoin a b).mpr h]
    simp [Cube.padding]
  · have hpad : Ctx.bit (conjoin a b).pad = false :=
      Bool.eq_false_iff.mpr fun hp => h ((bit_pad_conjoin a b).mp hp)
    rw [Cube.meet_eq_merge h, if_neg h, if_neg h, hpad]
    simp only [Cube.merge, Cube.mk.injEq, and_true, Ctx.bits_or, Ctx.bits_and, Ctx.bits_not,
      CircuitCube.value_mask, CircuitCube.value_bits]
    funext v
    by_cases hv : Ctx.bits a.mask v = true <;> simp [hv]

/-- Position `i * CUBES + j`, the `idx` of the two loops at `i` and `j`. -/
def pairIndex (i j : Fin CUBES) : Fin (CUBES * CUBES) :=
  ⟨i * CUBES + j, by
    have h : (i.val + 1) * CUBES ≤ CUBES * CUBES := Nat.mul_le_mul_right CUBES i.isLt
    rw [Nat.succ_mul] at h
    omega⟩

@[simp] theorem val_pairIndex (i j : Fin CUBES) : (pairIndex i j).val = i * CUBES + j := rfl

theorem divNat_pairIndex (i j : Fin CUBES) : (pairIndex i j).divNat = i := by
  have hpos : 0 < CUBES := Nat.lt_of_le_of_lt (Nat.zero_le _) j.isLt
  refine Fin.ext ?_
  rw [Fin.coe_divNat, val_pairIndex, Nat.mul_comm, Nat.mul_add_div hpos, Nat.div_eq_of_lt j.isLt,
    Nat.add_zero]

theorem modNat_pairIndex (i j : Fin CUBES) : (pairIndex i j).modNat = j := by
  refine Fin.ext ?_
  rw [Fin.coe_modNat, val_pairIndex, Nat.mul_comm, Nat.mul_add_mod, Nat.mod_eq_of_lt j.isLt]

/-- The conjunctions in the order the two nested loops of `conjoin_dnf` write
them, `out[idx++]`. -/
def crossProduct (d1 d2 : Fin CUBES → CircuitCube Ctx N) : List (CircuitCube Ctx N) :=
  (List.ofFn d1).flatMap fun a => (List.ofFn d2).map fun b => conjoin a b

theorem crossProduct_eq (d1 d2 : Fin CUBES → CircuitCube Ctx N) :
    crossProduct d1 d2 =
      List.ofFn fun k : Fin (CUBES * CUBES) => conjoin (d1 k.divNat) (d2 k.modNat) := by
  rw [List.ofFn_mul, crossProduct, List.flatMap_def, List.map_ofFn]
  congr 2
  funext i
  rw [Function.comp_apply, List.map_ofFn]
  congr 1
  funext j
  change conjoin (d1 i) (d2 j) = conjoin (d1 (pairIndex i j).divNat) (d2 (pairIndex i j).modNat)
  rw [divNat_pairIndex, modNat_pairIndex]

theorem length_crossProduct (d1 d2 : Fin CUBES → CircuitCube Ctx N) :
    (crossProduct d1 d2).length = CUBES * CUBES := by
  rw [crossProduct_eq, List.length_ofFn]

/-- `gadgets::conjoin_dnf`. -/
def conjoinDnf (d1 d2 : Fin CUBES → CircuitCube Ctx N) : Fin (CUBES * CUBES) → CircuitCube Ctx N :=
  fun k => (crossProduct d1 d2).get (k.cast (length_crossProduct d1 d2).symm)

/-- **Position `k` conjoins cube `k / CUBES` of the first array with cube
`k % CUBES` of the second.** -/
theorem conjoinDnf_apply (d1 d2 : Fin CUBES → CircuitCube Ctx N) (k : Fin (CUBES * CUBES)) :
    conjoinDnf d1 d2 k = conjoin (d1 k.divNat) (d2 k.modNat) := by
  simp only [conjoinDnf, List.get_eq_getElem, crossProduct_eq, List.getElem_ofFn, Fin.val_cast]

theorem conjoinDnf_pairIndex (d1 d2 : Fin CUBES → CircuitCube Ctx N) (i j : Fin CUBES) :
    conjoinDnf d1 d2 (pairIndex i j) = conjoin (d1 i) (d2 j) := by
  rw [conjoinDnf_apply, divNat_pairIndex, modNat_pairIndex]

/-! ## The conjunction of two formulas -/

section Formulas
variable (d1 : Fin CUBES → CircuitCube Ctx N) {d2 : Fin CUBES → CircuitCube Ctx N}

theorem dnfValue_conjoinDnf (k : Fin (CUBES * CUBES)) :
    (dnfValue (conjoinDnf d1 d2)).cubes k = (d1 k.divNat).value.meet (d2 k.modNat).value := by
  rw [dnfValue_cubes, conjoinDnf_apply, value_conjoin]

theorem conjoinDnf_wellFormed (h2 : (dnfValue d2).WellFormed) :
    (dnfValue (conjoinDnf d1 d2)).WellFormed := by
  intro k
  rw [dnfValue_conjoinDnf]
  exact Cube.meet_wellFormed (h2 k.modNat)

/-- **The conjunction is satisfied by what satisfies both formulas.** -/
theorem conjoinDnf_sat (x : Fin N → Bool) :
    (dnfValue (conjoinDnf d1 d2)).Sat x ↔ (dnfValue d1).Sat x ∧ (dnfValue d2).Sat x := by
  constructor
  · rintro ⟨k, hk⟩
    rw [dnfValue_conjoinDnf, Cube.meet_sat] at hk
    exact ⟨⟨k.divNat, hk.1⟩, k.modNat, hk.2⟩
  · rintro ⟨⟨i, hi⟩, j, hj⟩
    refine ⟨pairIndex i j, ?_⟩
    rw [dnfValue_conjoinDnf, divNat_pairIndex, modNat_pairIndex, Cube.meet_sat]
    exact ⟨hi, hj⟩

theorem conjoinDnf_models :
    (dnfValue (conjoinDnf d1 d2)).models = (dnfValue d1).models ∩ (dnfValue d2).models := by
  ext x
  rw [Dnf.mem_models, conjoinDnf_sat, mem_inter, Dnf.mem_models, Dnf.mem_models]

/-- An assignment satisfies as many conjunctions as there are pairs of cubes it
satisfies. -/
theorem conjoinDnf_satisfiedCount (x : Fin N → Bool) :
    (dnfValue (conjoinDnf d1 d2)).satisfiedCount x =
      (dnfValue d1).satisfiedCount x * (dnfValue d2).satisfiedCount x := by
  rw [Dnf.satisfiedCount, Dnf.satisfiedCount, Dnf.satisfiedCount, ← card_product]
  refine card_equiv finProdFinEquiv.symm fun k => ?_
  rw [mem_filter, mem_product, mem_filter, mem_filter, dnfValue_conjoinDnf, Cube.meet_sat]
  exact ⟨fun hk => ⟨⟨mem_univ _, hk.2.1⟩, mem_univ _, hk.2.2⟩,
    fun hk => ⟨mem_univ k, hk.1.2, hk.2.2⟩⟩

/-- **`conjoin_dnf` computes the conjunction of two formulas**, of which only the
second has to be well-formed.  Every output is well-formed.  The output for cubes
`i` and `j` is a real cube that passes the test for exactly the assignments that
satisfy both, and padding exactly when there is nothing to pass: one of the two is
padding, or nothing satisfies both.  So the test passes on some output exactly for
the assignments that satisfy both formulas. -/
theorem conjoinDnf_spec [NeZero N] (h2 : (dnfValue d2).WellFormed) :
    (∀ k, (conjoinDnf d1 d2 k).value.WellFormed) ∧
    (∀ i j x, ((conjoinDnf d1 d2 (pairIndex i j)).value.pad = false ∧
        Ctx.bit (satisfied (Ctx.bitVecConst x) (conjoinDnf d1 d2 (pairIndex i j))) = true) ↔
      ((d1 i).value.pad = false ∧ (d2 j).value.pad = false ∧
        (d1 i).value.Sat x ∧ (d2 j).value.Sat x)) ∧
    (∀ i j, (conjoinDnf d1 d2 (pairIndex i j)).value.pad = true ↔
      ((d1 i).value.pad = true ∨ (d2 j).value.pad = true ∨
        ¬ ∃ x, (d1 i).value.Sat x ∧ (d2 j).value.Sat x)) ∧
    ∀ x, (∃ k, Ctx.bit (satisfied (Ctx.bitVecConst x) (conjoinDnf d1 d2 k)) = true) ↔
      (∃ i, (d1 i).value.Sat x) ∧ ∃ j, (d2 j).value.Sat x := by
  have hwf := conjoinDnf_wellFormed d1 h2
  have htest : ∀ x k, Ctx.bit (satisfied (Ctx.bitVecConst x) (conjoinDnf d1 d2 k)) = true ↔
      (conjoinDnf d1 d2 k).value.Sat x := by
    intro x k
    rw [bit_satisfied, Ctx.bits_const]
    exact Cube.check_iff_sat (hwf k) x
  have hsat : ∀ i j x, (conjoinDnf d1 d2 (pairIndex i j)).value.Sat x ↔
      (d1 i).value.Sat x ∧ (d2 j).value.Sat x := by
    intro i j x
    rw [conjoinDnf_pairIndex, value_conjoin, Cube.meet_sat]
  refine ⟨hwf, ?_, ?_, ?_⟩
  · -- `Sat` has `pad` in it, so the padding bits come with the literals
    intro i j x
    rw [htest, hsat]
    constructor
    · rintro ⟨-, hi, hj⟩
      exact ⟨hi.1, hj.1, hi, hj⟩
    · rintro ⟨-, -, hs⟩
      exact ⟨((hsat i j x).mpr hs).1, hs⟩
  · intro i j
    rw [conjoinDnf_pairIndex, value_conjoin, Cube.meet_pad_iff]
    constructor
    · exact fun hno => Or.inr (Or.inr hno)
    · rintro (hi | hj | hno)
      · exact fun ⟨x, hx, _⟩ => Bool.noConfusion (hx.1.symm.trans hi)
      · exact fun ⟨x, _, hx⟩ => Bool.noConfusion (hx.1.symm.trans hj)
      · exact hno
  · intro x
    simp only [htest]
    exact conjoinDnf_sat d1 x

/-- The demo's two formulas. -/
theorem conjoinDnf_spec_demo :
    (∀ k, (conjoinDnf (clearCubes aliceDnf) (clearCubes bobDnf) k).value.WellFormed) ∧
      ((conjoinDnf (clearCubes aliceDnf) (clearCubes bobDnf) (pairIndex 1 1)).value.pad = true ↔
        ((clearCubes aliceDnf 1).value.pad = true ∨ (clearCubes bobDnf 1).value.pad = true ∨
          ¬ ∃ x, (clearCubes aliceDnf 1).value.Sat x ∧ (clearCubes bobDnf 1).value.Sat x)) :=
  have hwf : (dnfValue (clearCubes bobDnf)).WellFormed := by decide
  ⟨(conjoinDnf_spec (clearCubes aliceDnf) hwf).1,
    (conjoinDnf_spec (clearCubes aliceDnf) hwf).2.2.1 1 1⟩

end Formulas

end MpcVazirani
