import MpcVazirani.Trial
import MpcVazirani.WriteDimacs

/-! # The public capacity

A file is parsed at a capacity that the parties agree on, and what it leaves is
filled up with padding.  Conjoined, the filler ends up between the real cubes; but it
has weight zero and passes no test, so what the gadgets compute depends on the list of
the real cubes alone (`SameTrials.of_realCubes`), and that list is the same at every
capacity (`realCubes_conjoinDnf`).

Variables that no file mentions are free: each of them doubles the assignments.
-/
namespace MpcVazirani
open Finset PrefixSums

variable {Ctx : BooleanContext} {VARS CUBES N M M' : Nat}

/-! ## The real cubes of an array -/

/-- A sum over an array that padding adds nothing to. -/
theorem sum_realCubes {f : Cube N → Nat} (hf : ∀ c, c.pad = true → f c = 0)
    (cubes : Fin M → Cube N) : ((realCubes cubes).map f).sum = ∑ k, f (cubes k) := by
  rw [realCubes, sum_map_filter fun c _ hc => hf c (by simpa using hc), List.map_ofFn,
    List.sum_ofFn]
  rfl

theorem totalWeight_eq_sum_realCubes (d : Dnf N M) :
    d.totalWeight = ((realCubes d.cubes).map Cube.weight).sum :=
  (sum_realCubes (fun _ hc => Cube.weight_of_padding hc) d.cubes).symm

theorem satisfiedCount_eq_sum_realCubes (d : Dnf N M) (x : Fin N → Bool) :
    d.satisfiedCount x = ((realCubes d.cubes).map fun c => if c.Sat x then 1 else 0).sum := by
  rw [sum_realCubes _ d.cubes, Dnf.satisfiedCount, card_filter]
  intro c hc
  exact if_neg fun hs => Bool.noConfusion (hs.1.symm.trans hc)

/-- The real cubes in front of a position. -/
def realBefore (cubes : Fin M → Cube N) (j : Fin M) : List (Cube N) :=
  ((List.ofFn cubes).take j).filter fun c => !c.pad

/-- A number picks the cube of its block from the real cubes. -/
theorem pick_realCubes {d : Dnf N M} {j : Fin M} {z : Nat} (h : InBlock d.weights j z) :
    pick Cube.weight (realCubes d.cubes) z = some (realBefore d.cubes j, d.cubes j) := by
  have hz : 0 < z := Nat.lt_of_le_of_lt (Nat.zero_le _) h.1
  have hpad : ∀ c ∈ List.ofFn d.cubes, (!c.pad) = false → c.weight = 0 := fun c _ hc =>
    Cube.weight_of_padding (by simpa using hc)
  have hblock : InBlock (fun k => (d.cubes k).weight) j z := h
  rw [realCubes, pick_filter _ hpad hz, pick_ofFn hblock]
  rfl

/-- No earlier cube is satisfied if no earlier real one is. -/
theorem forall_realBefore_iff {cubes : Fin M → Cube N} {j : Fin M} {x : Fin N → Bool} :
    (∀ c ∈ realBefore cubes j, ¬ c.Sat x) ↔ ∀ k < j, ¬ (cubes k).Sat x := by
  constructor
  · intro h k hk hs
    refine h (cubes k) (List.mem_filter.mpr ⟨?_, by rw [hs.1]; rfl⟩) hs
    have hlen : k.val < ((List.ofFn cubes).take j).length := by
      rw [List.length_take, List.length_ofFn]
      exact lt_min hk k.isLt
    have hget := List.getElem_mem hlen
    rwa [List.getElem_take, List.getElem_ofFn] at hget
  · intro h c hc
    obtain ⟨i, hi, rfl⟩ := List.mem_take_iff_getElem.mp (List.mem_filter.mp hc).1
    rw [List.getElem_ofFn]
    exact h _ (lt_min_iff.mp hi).1

/-! ## Two arrays with the same real cubes -/

/-- What two arrays of different lengths have in common when their real cubes are the
same: the total, and on each sample and joint string the literals selected, the
assignment, its count and the canonical bit. -/
structure SameTrials [NeZero M] [NeZero M'] (cubes : Fin M → CircuitCube Ctx N)
    (cubes' : Fin M' → CircuitCube Ctx N) : Prop where
  real : realCubes (dnfValue cubes').cubes = realCubes (dnfValue cubes).cubes
  total : Ctx.val (dnfWeight (cubeWeights cubes')) = Ctx.val (dnfWeight (cubeWeights cubes))
  trial : ∀ (z : DnfWeight Ctx N M) (z' : DnfWeight Ctx N M') (a b a' b' : Ctx.BitVecT N),
    Ctx.val z' = Ctx.val z → 1 ≤ Ctx.val z → Ctx.val z ≤ Ctx.val (dnfWeight (cubeWeights cubes)) →
    (∀ v, (Ctx.bits a' v ^^ Ctx.bits b' v) = (Ctx.bits a v ^^ Ctx.bits b v)) →
    let t := trialFrom cubes (cubeIntervals (cubeWeights cubes)) z a b
    let t' := trialFrom cubes' (cubeIntervals (cubeWeights cubes')) z' a' b'
    (Ctx.bits t'.selected.bits = Ctx.bits t.selected.bits ∧
      Ctx.bits t'.selected.mask = Ctx.bits t.selected.mask) ∧
    Ctx.bits t'.assignment = Ctx.bits t.assignment ∧
    Ctx.val (countSatisfiedCubes t'.assignment cubes') =
      Ctx.val (countSatisfiedCubes t.assignment cubes) ∧
    Ctx.bit (isCanonicalSample t'.index t'.assignment cubes') =
      Ctx.bit (isCanonicalSample t.index t.assignment cubes)

section Arrays
variable {d : Dnf N M} {d' : Dnf N M'} (h : realCubes d'.cubes = realCubes d.cubes)
include h

theorem totalWeight_congr : d'.totalWeight = d.totalWeight := by
  rw [totalWeight_eq_sum_realCubes, totalWeight_eq_sum_realCubes, h]

theorem satisfiedCount_congr (x : Fin N → Bool) : d'.satisfiedCount x = d.satisfiedCount x := by
  rw [satisfiedCount_eq_sum_realCubes, satisfiedCount_eq_sum_realCubes, h]

/-- The blocks a number lies in are those of the same cube, with the same real cubes
in front of it. -/
theorem cube_congr {j : Fin M} {j' : Fin M'} {z : Nat} (hj : InBlock d.weights j z)
    (hj' : InBlock d'.weights j' z) :
    realBefore d'.cubes j' = realBefore d.cubes j ∧ d'.cubes j' = d.cubes j := by
  have hpick := pick_realCubes hj'
  rw [h, pick_realCubes hj] at hpick
  exact Prod.ext_iff.mp (Option.some.inj hpick).symm

end Arrays

/-- **Only the real cubes count**, whatever padding stands between them. -/
theorem SameTrials.of_realCubes [NeZero N] [NeZero M] [NeZero M'] {cubes : Fin M → CircuitCube Ctx N}
    {cubes' : Fin M' → CircuitCube Ctx N} (hwf : (dnfValue cubes).WellFormed)
    (hwf' : (dnfValue cubes').WellFormed)
    (h : realCubes (dnfValue cubes').cubes = realCubes (dnfValue cubes).cubes) :
    SameTrials cubes cubes' := by
  have htotal : Ctx.val (dnfWeight (cubeWeights cubes')) =
      Ctx.val (dnfWeight (cubeWeights cubes)) := by
    rw [val_dnfWeight_cubeWeights, val_dnfWeight_cubeWeights, totalWeight_congr h]
  refine ⟨h, htotal, fun z z' a b a' b' hz hone hle hr => ?_⟩
  obtain ⟨j, hj⟩ : ∃ j, InBlock (dnfValue cubes).weights j (Ctx.val z) :=
    exists_inBlock _ hone (by rwa [val_dnfWeight_cubeWeights] at hle)
  obtain ⟨j', hj'⟩ : ∃ j', InBlock (dnfValue cubes').weights j' (Ctx.val z') := by
    refine exists_inBlock _ (by rwa [hz]) ?_
    rw [hz]
    rwa [← htotal, val_dnfWeight_cubeWeights] at hle
  obtain ⟨hbefore, hcube⟩ := cube_congr h hj (hz ▸ hj')
  have hcube' : (cubes' j').value = (cubes j).value := hcube
  -- both trials complete the same cube by the same string
  have hassign : Ctx.bits (trialFrom cubes' (cubeIntervals (cubeWeights cubes')) z' a' b').assignment =
      Ctx.bits (trialFrom cubes (cubeIntervals (cubeWeights cubes)) z a b).assignment := by
    rw [bits_assignment_trialFrom hj', bits_assignment_trialFrom hj, hcube', funext hr]
  refine ⟨?_, hassign, ?_, ?_⟩
  · obtain ⟨hbits, hmask⟩ := bits_selected_trialFrom hj a b
    obtain ⟨hbits', hmask'⟩ := bits_selected_trialFrom hj' a' b'
    exact ⟨(hbits'.trans (congrArg Cube.bits hcube')).trans hbits.symm,
      (hmask'.trans (congrArg Cube.mask hcube')).trans hmask.symm⟩
  · rw [val_countSatisfiedCubes_eq hwf', val_countSatisfiedCubes_eq hwf, hassign,
      satisfiedCount_congr h]
  · rw [Bool.eq_iff_iff, bit_canonical_trialFrom hwf' hj', bit_canonical_trialFrom hwf hj, hcube',
      funext hr]
    have hiff := @forall_realBefore_iff _ _ (dnfValue cubes').cubes j'
      ((cubes j).value.fill fun v => Ctx.bits a v ^^ Ctx.bits b v)
    rw [hbefore] at hiff
    exact hiff.symm.trans forall_realBefore_iff

/-! ## The conjunction -/

/-- The real conjunctions of two lists of cubes, in the order of `conjoin_dnf`. -/
def realMeets (as bs : List (Cube N)) : List (Cube N) :=
  (as.flatMap fun a => bs.map a.meet).filter fun c => !c.pad

/-- Padding on the right has no real conjunction. -/
theorem filter_map_meet (a : Cube N) (bs : List (Cube N)) :
    ((bs.filter fun b => !b.pad).map a.meet).filter (fun c => !c.pad) =
      (bs.map a.meet).filter fun c => !c.pad := by
  rw [List.filter_map, List.filter_map, List.filter_filter]
  congr 1
  refine List.filter_congr fun b _ => ?_
  cases hb : b.pad with
  | true => simp [Cube.meet_eq_padding (Or.inr (Or.inl hb)), Cube.padding]
  | false => rw [Bool.not_false, Bool.and_true]

/-- **Padding has no real conjunction**, on either side. -/
theorem realMeets_filter (as bs : List (Cube N)) :
    realMeets (as.filter fun a => !a.pad) (bs.filter fun b => !b.pad) = realMeets as bs := by
  unfold realMeets
  induction as with
  | nil => rfl
  | cons a as ih =>
    rw [List.flatMap_cons, List.filter_append, ← ih]
    cases ha : a.pad with
    | true =>
      have hpad : ∀ c ∈ bs.map a.meet, ¬ (!c.pad) = true := by
        refine List.forall_mem_map.mpr fun b _ => ?_
        rw [Cube.meet_eq_padding (Or.inl ha)]
        exact Bool.noConfusion
      rw [List.filter_cons_of_neg (by rw [ha]; exact Bool.noConfusion),
        List.filter_eq_nil_iff.mpr hpad, List.nil_append]
    | false =>
      rw [List.filter_cons_of_pos (by rw [ha]; rfl), List.flatMap_cons, List.filter_append,
        filter_map_meet]

theorem ofFn_conjoinDnf (d1 d2 : Fin CUBES → CircuitCube Ctx N) :
    List.ofFn (dnfValue (conjoinDnf d1 d2)).cubes =
      (List.ofFn (dnfValue d1).cubes).flatMap fun a => (List.ofFn (dnfValue d2).cubes).map a.meet := by
  have hvalues : ∀ d : Fin CUBES → CircuitCube Ctx N,
      List.ofFn (dnfValue d).cubes = (List.ofFn d).map CircuitCube.value := fun d => by
    rw [List.map_ofFn]
    rfl
  have hcross : List.ofFn (dnfValue (conjoinDnf d1 d2)).cubes =
      (crossProduct d1 d2).map CircuitCube.value := by
    rw [crossProduct_eq, List.map_ofFn]
    refine congrArg List.ofFn (funext fun k => ?_)
    rw [dnfValue_conjoinDnf, Function.comp_apply, value_conjoin]
  rw [hcross, hvalues, hvalues, crossProduct, List.map_flatMap, List.flatMap_map]
  simp only [List.map_map, Function.comp_def, value_conjoin]

/-- **The real cubes of a conjunction** are made of the real cubes of the two
formulas. -/
theorem realCubes_conjoinDnf (d1 d2 : Fin CUBES → CircuitCube Ctx N) :
    realCubes (dnfValue (conjoinDnf d1 d2)).cubes =
      realMeets (realCubes (dnfValue d1).cubes) (realCubes (dnfValue d2).cubes) := by
  rw [realCubes, realCubes, realCubes, realMeets_filter, realMeets, ofFn_conjoinDnf]

/-! ## A file at two capacities -/

/-- What one capacity parses, every larger one parses with the same groups. -/
theorem parse_mono {f : List Char} {d : Dnf VARS CUBES}
    (h : parse VARS CUBES (some f) = .ok d) :
    ∃ gs : List (List Int), d = fillTo gs Cube.padding ∧ gs.length ≤ CUBES ∧
      (∀ g ∈ gs, ∀ lit ∈ g, lit.natAbs ≤ VARS) ∧
      ∀ VARS' CUBES', VARS ≤ VARS' → CUBES ≤ CUBES' →
        parse VARS' CUBES' (some f) = .ok (fillTo gs Cube.padding) := by
  obtain ⟨gs, hgs, rfl⟩ := (parse_eq_ok_iff f d).mp h
  obtain ⟨V, hV, hread⟩ := hgs.readable
  refine ⟨gs, rfl, hgs.length_le, fun g hg lit hlit => ?_, fun VARS' CUBES' hvars hcubes => ?_⟩
  · have hle := hread.range g (List.mem_append_left _ hg) lit hlit
    omega
  · exact (parse_eq_ok_iff f _).mpr ⟨gs, hgs.mono hvars hcubes, rfl⟩

/-- A cube does not look at variables beyond its literals. -/
theorem sat_cubeOf_castLE {VARS' : Nat} (h : VARS ≤ VARS') {g : List Int}
    (hrange : ∀ lit ∈ g, lit.natAbs ≤ VARS) (x : Fin VARS' → Bool) :
    (cubeOf g : Cube VARS').Sat x ↔ (cubeOf g : Cube VARS).Sat fun v => x (v.castLE h) := by
  constructor
  · rintro ⟨-, hlit⟩
    exact ⟨rfl, fun v hv => hlit (v.castLE h) hv⟩
  · rintro ⟨-, hlit⟩
    refine ⟨rfl, fun v hv => ?_⟩
    obtain ⟨lit, hmem, hn⟩ := (mask_cubeOf rfl).mp hv
    have hlt : v.val < VARS := by
      have hle := hrange lit hmem
      omega
    exact hlit ⟨v.val, hlt⟩ hv

/-- Nor does the count of a formula. -/
theorem satisfiedCount_castLE {VARS' CUBES' : Nat} (hvars : VARS ≤ VARS') (hcubes : CUBES ≤ CUBES')
    {gs : List (List Int)} (hlength : gs.length ≤ CUBES)
    (hrange : ∀ g ∈ gs, ∀ lit ∈ g, lit.natAbs ≤ VARS) (x : Fin VARS' → Bool) :
    (fillTo gs Cube.padding : Dnf VARS' CUBES').satisfiedCount x =
      (fillTo gs Cube.padding : Dnf VARS CUBES).satisfiedCount fun v => x (v.castLE hvars) := by
  rw [satisfiedCount_eq_sum_realCubes, satisfiedCount_eq_sum_realCubes, realCubes_fillTo hlength,
    realCubes_fillTo (hlength.trans hcubes), List.map_map, List.map_map]
  refine congrArg List.sum (List.map_congr_left fun g hg => ?_)
  exact if_congr (sat_cubeOf_castLE hvars (hrange g hg) x) rfl rfl

theorem card_common_eq_sum (d1 : Dnf N M) (d2 : Dnf N M') :
    #(d1.models ∩ d2.models) =
      ∑ x, if 0 < d1.satisfiedCount x ∧ 0 < d2.satisfiedCount x then 1 else 0 := by
  rw [← card_filter]
  congr 1
  ext x
  rw [mem_inter, mem_filter, Dnf.mem_models, Dnf.mem_models, Dnf.satisfiedCount_pos,
    Dnf.satisfiedCount_pos, and_iff_right (mem_univ x)]

/-- The total of a conjunction counts, for each assignment, the pairs of cubes it
satisfies. -/
theorem val_total_conjoinDnf [NeZero CUBES] (wa wb : Fin CUBES → CircuitCube Ctx N) :
    Ctx.val (dnfWeight (cubeWeights (conjoinDnf wa wb))) =
      ∑ x, (dnfValue wa).satisfiedCount x * (dnfValue wb).satisfiedCount x := by
  rw [val_dnfWeight_cubeWeights, Dnf.totalWeight_eq_sum]
  simp only [conjoinDnf_satisfiedCount]

/-- **The capacity changes nothing.**  Two files that are accepted are accepted at
every larger capacity.  With more cubes the conjunction has the same real cubes in the
same order, so the same total, and every sample and joint string lead to the same
literals, assignment, count and canonical bit.  Each further variable doubles the total
and the number of common assignments. -/
theorem capacity_irrelevant [NeZero VARS] [NeZero CUBES] {fa fb : List Char}
    {da db : Dnf VARS CUBES} (ha : parse VARS CUBES (some fa) = .ok da)
    (hb : parse VARS CUBES (some fb) = .ok db) (wa wb : Fin CUBES → CircuitCube Ctx VARS)
    (hwa : dnfValue wa = da) (hwb : dnfValue wb = db) :
    (∀ CUBES' [NeZero CUBES'], CUBES ≤ CUBES' →
      ∃ da' db' : Dnf VARS CUBES', parse VARS CUBES' (some fa) = .ok da' ∧
        parse VARS CUBES' (some fb) = .ok db' ∧
        ∀ wa' wb' : Fin CUBES' → CircuitCube Ctx VARS, dnfValue wa' = da' → dnfValue wb' = db' →
          SameTrials (conjoinDnf wa wb) (conjoinDnf wa' wb')) ∧
    ∀ VARS' CUBES' [NeZero CUBES'], VARS ≤ VARS' → CUBES ≤ CUBES' →
      ∃ da' db' : Dnf VARS' CUBES', parse VARS' CUBES' (some fa) = .ok da' ∧
        parse VARS' CUBES' (some fb) = .ok db' ∧
        #(da'.models ∩ db'.models) = 2 ^ (VARS' - VARS) * #(da.models ∩ db.models) ∧
        ∀ wa' wb' : Fin CUBES' → CircuitCube Ctx VARS', dnfValue wa' = da' → dnfValue wb' = db' →
          Ctx.val (dnfWeight (cubeWeights (conjoinDnf wa' wb'))) =
            2 ^ (VARS' - VARS) * Ctx.val (dnfWeight (cubeWeights (conjoinDnf wa wb))) := by
  obtain ⟨gsa, rfl, hlengtha, hrangea, hparsea⟩ := parse_mono ha
  obtain ⟨gsb, rfl, hlengthb, hrangeb, hparseb⟩ := parse_mono hb
  constructor
  · intro CUBES' _ hcubes
    refine ⟨_, _, hparsea VARS CUBES' (Nat.le_refl _) hcubes,
      hparseb VARS CUBES' (Nat.le_refl _) hcubes, fun wa' wb' hwa' hwb' => ?_⟩
    refine SameTrials.of_realCubes (conjoinDnf_wellFormed wa ?_) (conjoinDnf_wellFormed wa' ?_) ?_
    · rw [hwb]
      exact fillTo_wellFormed gsb
    · rw [hwb']
      exact fillTo_wellFormed gsb
    · rw [realCubes_conjoinDnf, realCubes_conjoinDnf, hwa, hwb, hwa', hwb',
        realCubes_fillTo hlengtha, realCubes_fillTo hlengthb,
        realCubes_fillTo (hlengtha.trans hcubes), realCubes_fillTo (hlengthb.trans hcubes)]
  · intro VARS' CUBES' _ hvars hcubes
    refine ⟨_, _, hparsea VARS' CUBES' hvars hcubes, hparseb VARS' CUBES' hvars hcubes, ?_,
      fun wa' wb' hwa' hwb' => ?_⟩
    · rw [card_common_eq_sum, card_common_eq_sum, ← smul_eq_mul, ← BitStrings.sum_castLE hvars]
      simp only [satisfiedCount_castLE hvars hcubes hlengtha hrangea,
        satisfiedCount_castLE hvars hcubes hlengthb hrangeb]
    · rw [val_total_conjoinDnf, val_total_conjoinDnf, hwa, hwb, hwa', hwb', ← smul_eq_mul,
        ← BitStrings.sum_castLE hvars]
      simp only [satisfiedCount_castLE hvars hcubes hlengtha hrangea,
        satisfiedCount_castLE hvars hcubes hlengthb hrangeb]

/-- x1 or not x2, and x1. -/
def twoCubesFile : List Char := "p dnf 2 2\n1 0\n-2 0\n".toList

def oneCubeFile : List Char := "p dnf 1 1\n1 0\n".toList

/-- Both at two variables and two cubes, then with a third cube, and with a third
variable as well. -/
theorem capacity_irrelevant_threeCubes :
    ∃ (da db : Dnf 2 2) (da' db' : Dnf 2 3) (da'' db'' : Dnf 3 3),
      parse 2 2 (some twoCubesFile) = .ok da ∧ parse 2 2 (some oneCubeFile) = .ok db ∧
      parse 2 3 (some twoCubesFile) = .ok da' ∧ parse 2 3 (some oneCubeFile) = .ok db' ∧
      SameTrials (conjoinDnf (clearCubes da) (clearCubes db))
        (conjoinDnf (clearCubes da') (clearCubes db')) ∧
      #(da''.models ∩ db''.models) = 2 * #(da.models ∩ db.models) ∧
      clearContext.val (dnfWeight (cubeWeights (conjoinDnf (clearCubes da'') (clearCubes db'')))) =
        2 * clearContext.val (dnfWeight (cubeWeights (conjoinDnf (clearCubes da) (clearCubes db)))) := by
  obtain ⟨da, ha⟩ : ∃ d : Dnf 2 2, parse 2 2 (some twoCubesFile) = .ok d := ⟨_, rfl⟩
  obtain ⟨db, hb⟩ : ∃ d : Dnf 2 2, parse 2 2 (some oneCubeFile) = .ok d := ⟨_, rfl⟩
  obtain ⟨hcubes, hvars⟩ := capacity_irrelevant ha hb (clearCubes da) (clearCubes db) rfl rfl
  obtain ⟨da', db', ha', hb', htrials⟩ := hcubes 3 (by decide)
  obtain ⟨da'', db'', -, -, hcommon, htotal⟩ := hvars 3 3 (by decide) (by decide)
  exact ⟨da, db, da', db', da'', db'', ha, hb, ha', hb', htrials _ _ rfl rfl, hcommon,
    htotal _ _ rfl rfl⟩

end MpcVazirani
