import Mathlib.Order.BoundedOrder.Lattice
import MpcVazirani.Conjunction
import MpcVazirani.DimacsDnf
import MpcVazirani.Vazirani

/-! # The lattice of cubes

The representation invariant makes the encoding of a cube unique: well-formed
cubes that the same assignments satisfy are equal, bits, mask and padding bit
(`Cube.ext_of_models`).  So `NormalCube`, the well-formed cubes ordered by their
satisfying assignments, is a partial order, in which the empty cube is the top,
padding the bottom and `Cube.meet` the meet; the laws of `conjoin` are those of a
meet, although it reads its two arguments differently.  Swapping the parties'
formulas then only permutes the cubes of the conjunction.
-/
namespace MpcVazirani
open Finset

namespace Cube
variable {N : Nat}

theorem empty_wellFormed : (empty : Cube N).WellFormed :=
  ⟨fun h => Bool.noConfusion h, fun _ _ _ => rfl⟩

/-- The bits of a real cube satisfy it. -/
theorem bits_sat {c : Cube N} (h : c.pad = false) : c.Sat c.bits := ⟨h, fun _ _ => rfl⟩

/-- Where a real cube constrains nothing, a satisfying assignment may be changed. -/
theorem Sat.update {c : Cube N} {x : Fin N → Bool} (h : c.Sat x) {v : Fin N}
    (hv : c.mask v = false) (b : Bool) : c.Sat (Function.update x v b) := by
  refine ⟨h.1, fun w hw => ?_⟩
  have hne : w ≠ v := by
    rintro rfl
    rw [hv] at hw
    cases hw
  rw [Function.update_of_ne hne]
  exact h.2 w hw

/-- What everything satisfying `a` also satisfies constrains at most what `a` does. -/
theorem mask_le_of_models_subset {a b : Cube N} (ha : a.pad = false)
    (hsub : a.models ⊆ b.models) {v : Fin N} (hv : b.mask v = true) : a.mask v = true := by
  by_contra hav
  have hsat := bits_sat ha
  have hflip := hsat.update (Bool.eq_false_iff.mpr hav) (!a.bits v)
  have hb := (mem_models.mp (hsub (mem_models.mpr hsat))).2 v hv
  have hb' := (mem_models.mp (hsub (mem_models.mpr hflip))).2 v hv
  rw [Function.update_self, ← hb] at hb'
  exact Bool.not_ne_self _ hb'

theorem pad_eq_false_iff {c : Cube N} : c.pad = false ↔ c.models.Nonempty :=
  ⟨fun h => ⟨c.bits, mem_models.mpr (bits_sat h)⟩, fun ⟨_, hx⟩ => (mem_models.mp hx).1⟩

theorem WellFormed.eq_padding {c : Cube N} (h : c.WellFormed) (hpad : c.pad = true) :
    c = padding := by
  obtain ⟨bits, mask, pad⟩ := c
  obtain rfl : pad = true := hpad
  have hbits : bits = fun _ => true := funext fun v => (h.1 rfl v).1
  have hmask : mask = fun _ => false := funext fun v => (h.1 rfl v).2
  rw [hbits, hmask, padding]

/-- **A well-formed cube is determined by its satisfying assignments.** -/
theorem ext_of_models {a b : Cube N} (ha : a.WellFormed) (hb : b.WellFormed)
    (h : a.models = b.models) : a = b := by
  have hpad : a.pad = false ↔ b.pad = false := by rw [pad_eq_false_iff, pad_eq_false_iff, h]
  cases hap : a.pad with
  | true =>
    have hbp : b.pad = true := Bool.eq_true_of_not_eq_false fun hp => by simp [hpad.mpr hp] at hap
    rw [ha.eq_padding hap, hb.eq_padding hbp]
  | false =>
    have hbp := hpad.mp hap
    have hmask : ∀ v, a.mask v = true ↔ b.mask v = true := fun v =>
      ⟨mask_le_of_models_subset hbp h.superset, mask_le_of_models_subset hap h.subset⟩
    have hbits : ∀ v, a.bits v = b.bits v := by
      intro v
      by_cases hv : b.mask v = true
      · exact (mem_models.mp (h.subset (mem_models.mpr (bits_sat hap)))).2 v hv
      · have hav : a.mask v = false := Bool.eq_false_iff.mpr fun ht => hv ((hmask v).mp ht)
        rw [ha.2 hap v hav, hb.2 hbp v (Bool.eq_false_iff.mpr hv)]
    obtain ⟨abits, amask, apad⟩ := a
    obtain ⟨bbits, bmask, bpad⟩ := b
    rw [mk.injEq]
    exact ⟨funext hbits, funext fun v => Bool.eq_iff_iff.mpr (hmask v), hap.trans hbp.symm⟩

theorem models_meet (a b : Cube N) : (meet a b).models = a.models ∩ b.models := by
  ext x
  rw [mem_models, meet_sat, mem_inter, mem_models, mem_models]

theorem models_empty : (empty : Cube N).models = univ := by
  ext x
  simp [Sat, empty]

end Cube

/-- A cube that keeps the representation invariant. -/
@[ext] structure NormalCube (N : Nat) where
  cube : Cube N
  wellFormed : cube.WellFormed

namespace NormalCube
variable {N : Nat}

/-- Ordered by implication: `a ≤ b` when all that satisfies `a` satisfies `b`. -/
instance : PartialOrder (NormalCube N) :=
  PartialOrder.lift (fun c => c.cube.models) fun a b h =>
    NormalCube.ext (Cube.ext_of_models a.wellFormed b.wellFormed h)

theorem le_iff {a b : NormalCube N} : a ≤ b ↔ a.cube.models ⊆ b.cube.models := Iff.rfl

instance : SemilatticeInf (NormalCube N) where
  inf a b := ⟨a.cube.meet b.cube, Cube.meet_wellFormed b.wellFormed⟩
  inf_le_left a b := by
    rw [le_iff, Cube.models_meet]
    exact inter_subset_left
  inf_le_right a b := by
    rw [le_iff, Cube.models_meet]
    exact inter_subset_right
  le_inf a b c hab hac := by
    rw [le_iff, Cube.models_meet]
    exact subset_inter hab hac

instance : BoundedOrder (NormalCube N) where
  top := ⟨Cube.empty, Cube.empty_wellFormed⟩
  le_top a := by
    rw [le_iff, Cube.models_empty]
    exact subset_univ _
  bot := ⟨Cube.padding, Cube.padding_wellFormed⟩
  bot_le a := by
    rw [le_iff, Cube.models_of_padding rfl]
    exact empty_subset _

@[simp] theorem cube_inf (a b : NormalCube N) : (a ⊓ b).cube = a.cube.meet b.cube := rfl

@[simp] theorem cube_top : (⊤ : NormalCube N).cube = Cube.empty := rfl

@[simp] theorem cube_bot : (⊥ : NormalCube N).cube = Cube.padding := rfl

end NormalCube

variable {Ctx : BooleanContext} {N CUBES : Nat}

/-- The conjunction with the cubes on the wires known to be well-formed. -/
theorem value_conjoin_eq_inf {a b : CircuitCube Ctx N} {x y : NormalCube N}
    (ha : a.value = x.cube) (hb : b.value = y.cube) : (conjoin a b).value = (x ⊓ y).cube := by
  rw [value_conjoin, ha, hb, NormalCube.cube_inf]

theorem pairIndex_divNat_modNat (k : Fin (CUBES * CUBES)) : pairIndex k.divNat k.modNat = k :=
  Fin.ext (Nat.div_add_mod' k CUBES)

/-- The position of the same pair when the two arrays are exchanged. -/
def swapPairs (k : Fin (CUBES * CUBES)) : Fin (CUBES * CUBES) := pairIndex k.modNat k.divNat

theorem swapPairs_pairIndex (i j : Fin CUBES) : swapPairs (pairIndex i j) = pairIndex j i := by
  rw [swapPairs, divNat_pairIndex, modNat_pairIndex]

theorem swapPairs_involutive : Function.Involutive (@swapPairs CUBES) := fun k => by
  rw [swapPairs.eq_def k, swapPairs_pairIndex, pairIndex_divNat_modNat]

/-! ## Exchanging the formulas -/

section Exchange
variable {d1 d2 : Fin CUBES → CircuitCube Ctx N} (h1 : (dnfValue d1).WellFormed)
  (h2 : (dnfValue d2).WellFormed)
include h1 h2

/-- The conjunctions are the same ones, at exchanged positions. -/
theorem value_conjoinDnf_swap (k : Fin (CUBES * CUBES)) :
    (conjoinDnf d2 d1 (swapPairs k)).value = (conjoinDnf d1 d2 k).value := by
  rw [swapPairs, conjoinDnf_pairIndex, conjoinDnf_apply,
    value_conjoin_eq_inf (x := ⟨_, h2 k.modNat⟩) (y := ⟨_, h1 k.divNat⟩) rfl rfl,
    value_conjoin_eq_inf (x := ⟨_, h1 k.divNat⟩) (y := ⟨_, h2 k.modNat⟩) rfl rfl, inf_comm]

theorem val_dnfWeight_swap [NeZero CUBES] :
    Ctx.val (dnfWeight (cubeWeights (conjoinDnf d2 d1))) =
      Ctx.val (dnfWeight (cubeWeights (conjoinDnf d1 d2))) := by
  rw [val_dnfWeight_cubeWeights, val_dnfWeight_cubeWeights]
  refine (Equiv.sum_comp swapPairs_involutive.toPerm _).symm.trans (sum_congr rfl fun k _ => ?_)
  exact congrArg Cube.weight (value_conjoinDnf_swap h1 h2 k)

theorem val_countSatisfiedCubes_swap (assignment : Ctx.BitVecT N) :
    Ctx.val (countSatisfiedCubes assignment (conjoinDnf d2 d1)) =
      Ctx.val (countSatisfiedCubes assignment (conjoinDnf d1 d2)) := by
  rw [val_countSatisfiedCubes, val_countSatisfiedCubes]
  refine (card_equiv swapPairs_involutive.toPerm fun k => ?_).symm
  rw [mem_filter, mem_filter, Function.Involutive.coe_toPerm, value_conjoinDnf_swap h1 h2]
  exact ⟨fun hk => ⟨mem_univ _, hk.2⟩, fun hk => ⟨mem_univ k, hk.2⟩⟩

end Exchange

/-- **`conjoin` is a meet on well-formed cubes**, equality being of bits, mask and
padding bit: commutative, associative and idempotent, with the empty cube as
identity and padding absorbing.  Hence exchanging the two arrays exchanges the
positions `i * CUBES + j` and `j * CUBES + i` of `conjoin_dnf`, and changes neither
the total weight nor the satisfied count of an assignment. -/
theorem conjoin_is_meet [NeZero CUBES] :
    (∀ a b : CircuitCube Ctx N, a.value.WellFormed → b.value.WellFormed →
      (conjoin a b).value = (conjoin b a).value) ∧
    (∀ a b c : CircuitCube Ctx N, a.value.WellFormed → b.value.WellFormed → c.value.WellFormed →
      (conjoin (conjoin a b) c).value = (conjoin a (conjoin b c)).value) ∧
    (∀ a : CircuitCube Ctx N, a.value.WellFormed → (conjoin a a).value = a.value) ∧
    (∀ a e : CircuitCube Ctx N, a.value.WellFormed → e.value = ⟨fun _ => false, fun _ => false, false⟩ →
      (conjoin a e).value = a.value ∧ (conjoin e a).value = a.value) ∧
    (∀ a p : CircuitCube Ctx N, a.value.WellFormed → p.value = Cube.padding →
      (conjoin a p).value = Cube.padding ∧ (conjoin p a).value = Cube.padding) ∧
    ∀ d1 d2 : Fin CUBES → CircuitCube Ctx N, (dnfValue d1).WellFormed → (dnfValue d2).WellFormed →
      (∀ i j, (conjoinDnf d2 d1 (pairIndex j i)).value = (conjoinDnf d1 d2 (pairIndex i j)).value) ∧
      Ctx.val (dnfWeight (cubeWeights (conjoinDnf d2 d1))) =
        Ctx.val (dnfWeight (cubeWeights (conjoinDnf d1 d2))) ∧
      ∀ assignment, Ctx.val (countSatisfiedCubes assignment (conjoinDnf d2 d1)) =
        Ctx.val (countSatisfiedCubes assignment (conjoinDnf d1 d2)) := by
  refine ⟨?_, ?_, ?_, ?_, ?_, ?_⟩
  · intro a b ha hb
    rw [value_conjoin_eq_inf (x := ⟨_, ha⟩) (y := ⟨_, hb⟩) rfl rfl,
      value_conjoin_eq_inf (x := ⟨_, hb⟩) (y := ⟨_, ha⟩) rfl rfl, inf_comm]
  · intro a b c ha hb hc
    have hab := value_conjoin_eq_inf (x := ⟨_, ha⟩) (y := ⟨_, hb⟩) rfl rfl
    have hbc := value_conjoin_eq_inf (x := ⟨_, hb⟩) (y := ⟨_, hc⟩) rfl rfl
    rw [value_conjoin_eq_inf hab (y := ⟨_, hc⟩) rfl, value_conjoin_eq_inf (x := ⟨_, ha⟩) rfl hbc,
      inf_assoc]
  · intro a ha
    rw [value_conjoin_eq_inf (x := ⟨_, ha⟩) (y := ⟨_, ha⟩) rfl rfl, inf_idem]
  · intro a e ha he
    rw [value_conjoin_eq_inf (x := ⟨_, ha⟩) (y := ⊤) rfl he,
      value_conjoin_eq_inf (x := ⊤) (y := ⟨_, ha⟩) he rfl, inf_top_eq, top_inf_eq]
    exact ⟨rfl, rfl⟩
  · intro a p ha hp
    rw [value_conjoin_eq_inf (x := ⟨_, ha⟩) (y := ⊥) rfl hp,
      value_conjoin_eq_inf (x := ⊥) (y := ⟨_, ha⟩) hp rfl, inf_bot_eq, bot_inf_eq]
    exact ⟨rfl, rfl⟩
  · intro d1 d2 h1 h2
    refine ⟨fun i j => ?_, val_dnfWeight_swap h1 h2,
      val_countSatisfiedCubes_swap h1 h2⟩
    rw [← swapPairs_pairIndex]
    exact value_conjoinDnf_swap h1 h2 _

/-- The demo's formulas the other way round. -/
theorem conjoin_is_meet_demo :
    clearContext.val (dnfWeight (cubeWeights (conjoinDnf (clearCubes bobDnf) (clearCubes aliceDnf)))) =
      clearContext.val
        (dnfWeight (cubeWeights (conjoinDnf (clearCubes aliceDnf) (clearCubes bobDnf)))) :=
  (conjoin_is_meet.2.2.2.2.2 (clearCubes aliceDnf) (clearCubes bobDnf) (by decide) (by decide)).2.1

end MpcVazirani
