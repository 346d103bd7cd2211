import Mathlib.Data.List.Nodup
import MpcVazirani.DimacsDnf
import MpcVazirani.Recognizer

/-! # The integers of a file as groups

Without its layout a DNF file is a sequence of integers, cut into groups by the
zeros: the finished groups are the cubes, and what follows the last zero is a cube
that was not finished.  `groups` is that reading, one integer at a time, and after
the header it is all the parser's state amounts to (`stateOf`): the cubes written
are the finished groups, the pending cube is the unfinished one.

The parser gives up at the first integer that breaks a rule, while the rules are
about the groups as a whole (`Readable`).  No later integer mends a broken rule, so
the two come to the same (`parseLiterals_decides`).
-/
namespace MpcVazirani
open ForLoop IStream Recognizer

variable {VARS CUBES : Nat}

/-! ## Groups -/

/-- A zero finishes the current group, anything else joins it. -/
def addToken (p : List (List Int) × List Int) (x : Int) : List (List Int) × List Int :=
  if x = 0 then (p.1 ++ [p.2], []) else (p.1, p.2 ++ [x])

/-- The finished groups of a sequence of integers, and the unfinished one. -/
def groups (xs : List Int) : List (List Int) × List Int := xs.foldl addToken ([], [])

theorem addToken_zero (p : List (List Int) × List Int) : addToken p 0 = (p.1 ++ [p.2], []) := rfl

theorem addToken_of_ne {x : Int} (hx : x ≠ 0) (p : List (List Int) × List Int) :
    addToken p x = (p.1, p.2 ++ [x]) := if_neg hx

/-- **The groups spell the sequence**: each finished group followed by a zero, then
the unfinished one, and no other zeros. -/
theorem groups_spec (xs : List Int) :
    xs = (groups xs).1.flatMap (· ++ [0]) ++ (groups xs).2 ∧
      ∀ g ∈ (groups xs).1 ++ [(groups xs).2], 0 ∉ g := by
  -- on the last integer: what comes later only ever extends the last group
  induction xs using List.reverseRecOn with
  | nil => simp [groups]
  | append_singleton xs x ih =>
    obtain ⟨hspell, hzero⟩ := ih
    have hstep : groups (xs ++ [x]) = addToken (groups xs) x := by
      rw [groups, List.foldl_append]
      rfl
    rw [hstep]
    rw [List.forall_mem_append, List.forall_mem_singleton] at hzero
    by_cases hx : x = 0
    · subst hx
      rw [addToken_zero, List.flatMap_append, List.flatMap_singleton, List.append_nil,
        ← List.append_assoc, ← hspell, List.forall_mem_append, List.forall_mem_singleton,
        List.forall_mem_append, List.forall_mem_singleton]
      exact ⟨rfl, hzero, List.not_mem_nil⟩
    · rw [addToken_of_ne hx, ← List.append_assoc, ← hspell, List.forall_mem_append,
        List.forall_mem_singleton, List.mem_append, List.mem_singleton]
      refine ⟨rfl, hzero.1, ?_⟩
      rintro (h | h)
      · exact hzero.2 h
      · exact hx h.symm

theorem groups_append (xs ys : List Int) : groups (xs ++ ys) = ys.foldl addToken (groups xs) :=
  List.foldl_append

theorem foldl_addToken {g : List Int} (hg : 0 ∉ g) (p : List (List Int) × List Int) :
    g.foldl addToken p = (p.1, p.2 ++ g) := by
  induction g generalizing p with
  | nil => rw [List.append_nil, List.foldl_nil]
  | cons x g ih =>
    have hx : x ≠ 0 := fun h => hg (h ▸ List.mem_cons_self)
    rw [List.foldl_cons, addToken_of_ne hx, ih fun h => hg (List.mem_cons_of_mem x h),
      List.append_assoc, List.singleton_append]

/-- Finished groups are read back from how they are spelled. -/
theorem groups_flatMap {gs : List (List Int)} (hzero : ∀ g ∈ gs, 0 ∉ g) :
    groups (gs.flatMap (· ++ [0])) = (gs, []) := by
  induction gs using List.reverseRecOn with
  | nil => rfl
  | append_singleton gs g ih =>
    obtain ⟨hgs, hg⟩ := List.forall_mem_append.mp hzero
    rw [List.flatMap_append, List.flatMap_singleton, groups_append, ih hgs, List.foldl_append,
      foldl_addToken (hg g (List.mem_singleton_self g))]
    rfl

/-- Groups are all finished exactly if they spell the whole sequence. -/
theorem groups_eq_iff {xs : List Int} {gs : List (List Int)} :
    groups xs = (gs, []) ↔ xs = gs.flatMap (· ++ [0]) ∧ ∀ g ∈ gs, 0 ∉ g := by
  constructor
  · intro h
    obtain ⟨hspell, hzero⟩ := groups_spec xs
    rw [h, List.append_nil] at hspell
    rw [h] at hzero
    exact ⟨hspell, fun g hg => hzero g (List.mem_append_left _ hg)⟩
  · rintro ⟨rfl, hzero⟩
    exact groups_flatMap hzero

/-! ## The state after the header -/

/-- The cube of a group: its mask is the variables of the group, its bits the
positive literals. -/
def cubeOf (g : List Int) : Cube VARS where
  bits v := decide ((v.val : Int) + 1 ∈ g)
  mask v := decide ((v.val : Int) + 1 ∈ g ∨ -((v.val : Int) + 1) ∈ g)
  pad := false

/-- The cubes of the groups, and `c` from there on. -/
def fillTo (gs : List (List Int)) (c : Cube VARS) : Dnf VARS CUBES :=
  ⟨fun k => (gs[k.val]?).elim c cubeOf⟩

theorem fillTo_cubes (gs : List (List Int)) (c : Cube VARS) (k : Fin CUBES) :
    (fillTo gs c : Dnf VARS CUBES).cubes k = (gs[k.val]?).elim c cubeOf := rfl

/-- A group has no bit where it has no variable. -/
theorem bits_cubeOf {g : List Int} {v : Fin VARS} (h : (cubeOf g : Cube VARS).mask v = false) :
    (cubeOf g : Cube VARS).bits v = false := by
  simp only [cubeOf, decide_eq_false_iff_not, not_or] at h ⊢
  exact h.1

theorem cubeOf_wellFormed (g : List Int) : (cubeOf g : Cube VARS).WellFormed :=
  ⟨fun h => Bool.noConfusion h, fun _ _ => bits_cubeOf⟩

/-- What the parser returns is well-formed. -/
theorem fillTo_wellFormed (gs : List (List Int)) (k : Fin CUBES) :
    ((fillTo gs Cube.padding : Dnf VARS CUBES).cubes k).WellFormed := by
  rw [fillTo_cubes]
  cases gs[k.val]? with
  | none => exact Cube.padding_wellFormed
  | some g => exact cubeOf_wellFormed g

/-- The array as a list: the cubes of the groups, and then filler. -/
theorem ofFn_fillTo {gs : List (List Int)} (h : gs.length ≤ CUBES) (c : Cube VARS) :
    List.ofFn (fillTo gs c : Dnf VARS CUBES).cubes =
      gs.map cubeOf ++ List.replicate (CUBES - gs.length) c := by
  refine List.ext_getElem (by simp; omega) fun k hk hk' => ?_
  rw [List.getElem_ofFn, fillTo_cubes]
  rcases Nat.lt_or_ge k gs.length with hlt | hge
  · rw [List.getElem_append_left (by rwa [List.length_map]), List.getElem_map,
      List.getElem?_eq_getElem hlt]
    rfl
  · rw [List.getElem_append_right (by rwa [List.length_map]), List.getElem_replicate,
      List.getElem?_eq_none hge]
    rfl

/-- What `parse` carries after a header that declares `V` variables, when it has
read the groups `p`. -/
def stateOf (V : Int) (p : List (List Int) × List Int) : ParseState VARS CUBES where
  dnf := fillTo p.1 Cube.empty
  haveHeader := true
  fileVars := V
  cubeCount := p.1.length
  current := cubeOf p.2
  literalsInCurrent := p.2.length

theorem cubeOf_nil : (cubeOf [] : Cube VARS) = Cube.empty := by simp [cubeOf, Cube.empty]

/-- Writing the next group. -/
theorem setCube_fillTo {gs : List (List Int)} (h : gs.length < CUBES) (g : List Int)
    (c : Cube VARS) :
    (fillTo gs c : Dnf VARS CUBES).setCube ⟨gs.length, h⟩ (cubeOf g) = fillTo (gs ++ [g]) c := by
  refine congrArg Dnf.mk (funext fun k => ?_)
  by_cases hk : k = ⟨gs.length, h⟩
  · subst hk
    rw [Function.update_self, List.getElem?_concat_length]
    rfl
  · rw [Function.update_of_ne hk, fillTo_cubes]
    rcases Nat.lt_or_ge k.val gs.length with hlt | hge
    · rw [List.getElem?_append_left hlt]
    · have hne : k.val ≠ gs.length := fun he => hk (Fin.ext he)
      have hlen : (gs ++ [g]).length ≤ k.val := by
        rw [List.length_append, List.length_singleton]
        omega
      rw [List.getElem?_eq_none hge, List.getElem?_eq_none hlen]

/-- A literal of a new variable joins the cube of its group. -/
theorem setLiteral_cubeOf {g : List Int} {x : Int} (hx : x ≠ 0)
    (hnew : ∀ y ∈ g, y.natAbs ≠ x.natAbs) {idx : Fin VARS} (hidx : idx.val + 1 = x.natAbs) :
    (cubeOf g).setLiteral idx (decide (0 < x)) = cubeOf (g ++ [x]) := by
  rw [Cube.setLiteral, cubeOf, cubeOf]
  congr 1
  · funext v
    by_cases hv : v = idx
    · subst hv
      have hnot : (v.val : Int) + 1 ∉ g := fun h => hnew _ h (by omega)
      rw [Function.update_self, decide_eq_decide, List.mem_append, List.mem_singleton]
      constructor
      · intro hpos
        exact Or.inr (by omega)
      · rintro (h | h)
        · exact absurd h hnot
        · omega
    · have hne : (v.val : Int) + 1 ≠ x := fun he => hv (Fin.ext (by omega))
      rw [Function.update_of_ne hv, decide_eq_decide, List.mem_append, List.mem_singleton,
        or_iff_left hne]
  · funext v
    by_cases hv : v = idx
    · subst hv
      rw [Function.update_self, eq_comm, decide_eq_true_iff]
      rcases Int.lt_or_gt_of_ne hx with hneg | hpos
      · exact Or.inr (List.mem_append_right _ (List.mem_singleton.mpr (by omega)))
      · exact Or.inl (List.mem_append_right _ (List.mem_singleton.mpr (by omega)))
    · have hne : (v.val : Int) + 1 ≠ x := fun he => hv (Fin.ext (by omega))
      have hne' : -((v.val : Int) + 1) ≠ x := fun he => hv (Fin.ext (by omega))
      rw [Function.update_of_ne hv, decide_eq_decide, List.mem_append, List.mem_append,
        List.mem_singleton, List.mem_singleton, or_iff_left hne, or_iff_left hne']

theorem mask_cubeOf {g : List Int} {idx : Fin VARS} {n : Nat} (hidx : idx.val + 1 = n) :
    (cubeOf g).mask idx = true ↔ ∃ y ∈ g, y.natAbs = n := by
  rw [cubeOf, decide_eq_true_iff]
  constructor
  · rintro (h | h)
    · exact ⟨_, h, by omega⟩
    · exact ⟨_, h, by omega⟩
  · rintro ⟨y, hy, hn⟩
    rcases Int.natAbs_eq y with h | h
    · have hyv : (idx.val : Int) + 1 = y := by omega
      exact Or.inl (hyv ▸ hy)
    · have hyv : -((idx.val : Int) + 1) = y := by omega
      exact Or.inr (hyv ▸ hy)

/-! ## One integer -/

theorem literalVar_eq {x : Int} (hmin : x ≠ intMin) : literalVar x = .ok (x.natAbs : Int) := by
  unfold literalVar
  by_cases hpos : 0 < x
  · rw [if_pos hpos]
    congr 1
    omega
  · rw [if_neg hpos, if_neg hmin]
    congr 1
    omega

/-- A zero writes the pending cube, if there is room. -/
theorem parseLiteral_zero (V : Int) (p : List (List Int) × List Int) :
    parseLiteral (stateOf V p : ParseState VARS CUBES) 0 =
      if p.1.length < CUBES then .ok (stateOf V (addToken p 0))
      else .error (.thrown .tooManyCubes) := by
  rw [parseLiteral, if_pos rfl]
  by_cases h : p.1.length < CUBES
  · have h' : (stateOf V p : ParseState VARS CUBES).cubeCount < CUBES := h
    rw [if_pos h, dif_pos h']
    simp only [ParseState.resetCurrent, stateOf, addToken_zero, setCube_fillTo h,
      List.length_append, List.length_singleton, List.length_nil, cubeOf_nil]
  · have h' : ¬ (stateOf V p : ParseState VARS CUBES).cubeCount < CUBES := h
    rw [if_neg h, dif_neg h']

/-- A literal joins the pending cube, if its variable was declared and is new. -/
theorem parseLiteral_of_ne {V : Int} (hV : V ≤ VARS) (p : List (List Int) × List Int) {x : Int}
    (hx : x ≠ 0) (hmin : x ≠ intMin) :
    parseLiteral (stateOf V p : ParseState VARS CUBES) x =
      if V < x.natAbs then .error (.thrown (.literalOutOfRange x V))
      else if ∃ y ∈ p.2, y.natAbs = x.natAbs then .error (.thrown (.bothPolarities x.natAbs))
      else .ok (stateOf V (addToken p x)) := by
  rw [parseLiteral, if_neg hx, literalVar_eq hmin]
  have hone : ¬ (x.natAbs : Int) < 1 := by omega
  by_cases hrange : V < x.natAbs
  · rw [if_pos hrange]
    exact if_pos (Or.inr hrange)
  · -- a declared variable has an index, because no more than `VARS` are declared
    have hlt : ((x.natAbs : Int) - 1).toNat < VARS := by omega
    have hidx : ((x.natAbs : Int) - 1).toNat + 1 = x.natAbs := by omega
    have hcheck : ¬ ((x.natAbs : Int) < 1 ∨ (stateOf V p : ParseState VARS CUBES).fileVars <
        x.natAbs) := not_or.mpr ⟨hone, hrange⟩
    have hmask : (cubeOf p.2).mask ⟨((x.natAbs : Int) - 1).toNat, hlt⟩ = true ↔
        ∃ y ∈ p.2, y.natAbs = x.natAbs := mask_cubeOf hidx
    simp only [if_neg hcheck, dif_pos hlt, if_neg hrange]
    by_cases hseen : ∃ y ∈ p.2, y.natAbs = x.natAbs
    · rw [if_pos hseen]
      exact if_pos (hmask.mpr hseen)
    · have hnew : ∀ y ∈ p.2, y.natAbs ≠ x.natAbs := fun y hy he => hseen ⟨y, hy, he⟩
      have hset : (cubeOf p.2).setLiteral ⟨((x.natAbs : Int) - 1).toNat, hlt⟩ (decide (0 < x)) =
          cubeOf (p.2 ++ [x]) := setLiteral_cubeOf hx hnew hidx
      rw [if_neg hseen]
      refine (if_neg fun h => hseen (hmask.mp h)).trans ?_
      simp only [stateOf, addToken_of_ne hx, List.length_append, List.length_singleton, hset]

/-! ## The rules -/

/-- The rules, for the groups read so far and the unfinished one. -/
structure Readable (V : Int) (CUBES : Nat) (p : List (List Int) × List Int) : Prop where
  length : p.1.length ≤ CUBES
  range : ∀ g ∈ p.1 ++ [p.2], ∀ x ∈ g, (x.natAbs : Int) ≤ V
  distinct : ∀ g ∈ p.1 ++ [p.2], g.Pairwise fun x y => x.natAbs ≠ y.natAbs

/-- The rules for the finished groups, and for the unfinished one. -/
theorem readable_iff {V : Int} {p : List (List Int) × List Int} :
    Readable V CUBES p ↔ p.1.length ≤ CUBES ∧
      ((∀ g ∈ p.1, ∀ x ∈ g, (x.natAbs : Int) ≤ V) ∧ ∀ x ∈ p.2, (x.natAbs : Int) ≤ V) ∧
      (∀ g ∈ p.1, g.Pairwise fun x y => x.natAbs ≠ y.natAbs) ∧
        p.2.Pairwise fun x y => x.natAbs ≠ y.natAbs := by
  constructor
  · rintro ⟨hlength, hrange, hdistinct⟩
    rw [List.forall_mem_append, List.forall_mem_singleton] at hrange hdistinct
    exact ⟨hlength, hrange, hdistinct⟩
  · rintro ⟨hlength, ⟨hrange, hrange'⟩, hdistinct, hdistinct'⟩
    exact ⟨hlength, List.forall_mem_append.mpr ⟨hrange, List.forall_mem_singleton.mpr hrange'⟩,
      List.forall_mem_append.mpr ⟨hdistinct, List.forall_mem_singleton.mpr hdistinct'⟩⟩

theorem readable_nil (V : Int) (CUBES : Nat) : Readable V CUBES ([], []) :=
  readable_iff.mpr (by simp)

/-- A zero needs room for one more cube. -/
theorem readable_addToken_zero {V : Int} {p : List (List Int) × List Int} :
    Readable V CUBES (addToken p 0) ↔ Readable V CUBES p ∧ p.1.length < CUBES := by
  rw [addToken_zero, readable_iff, readable_iff, List.length_append, List.length_singleton,
    List.forall_mem_append, List.forall_mem_singleton, List.forall_mem_append,
    List.forall_mem_singleton]
  constructor
  · rintro ⟨hroom, ⟨hrange, -⟩, hdistinct, -⟩
    exact ⟨⟨Nat.le_of_succ_le hroom, hrange, hdistinct⟩, hroom⟩
  · rintro ⟨⟨-, hrange, hdistinct⟩, hroom⟩
    exact ⟨hroom, ⟨hrange, fun x hx => absurd hx List.not_mem_nil⟩, hdistinct, List.Pairwise.nil⟩

/-- A literal needs a declared variable that its group does not have yet. -/
theorem readable_addToken_of_ne {V : Int} {p : List (List Int) × List Int} {x : Int}
    (hx : x ≠ 0) :
    Readable V CUBES (addToken p x) ↔
      Readable V CUBES p ∧ (x.natAbs : Int) ≤ V ∧ ∀ y ∈ p.2, y.natAbs ≠ x.natAbs := by
  have hpair : (p.2 ++ [x]).Pairwise (fun x y => x.natAbs ≠ y.natAbs) ↔
      p.2.Pairwise (fun x y => x.natAbs ≠ y.natAbs) ∧ ∀ y ∈ p.2, y.natAbs ≠ x.natAbs := by
    rw [List.pairwise_append, and_iff_right (List.pairwise_singleton _ _)]
    simp only [List.forall_mem_singleton]
  rw [addToken_of_ne hx, readable_iff, readable_iff, List.forall_mem_append,
    List.forall_mem_singleton, hpair]
  constructor
  · rintro ⟨hlength, ⟨hrange, hlast, hle⟩, hdistinct, hgroup, hnew⟩
    exact ⟨⟨hlength, ⟨hrange, hlast⟩, hdistinct, hgroup⟩, hle, hnew⟩
  · rintro ⟨⟨hlength, ⟨hrange, hlast⟩, hdistinct, hgroup⟩, hle, hnew⟩
    exact ⟨hlength, ⟨hrange, hlast, hle⟩, hdistinct, hgroup, hnew⟩

/-- No later integer mends a broken rule. -/
theorem Readable.of_addToken {V : Int} {p : List (List Int) × List Int} {x : Int}
    (h : Readable V CUBES (addToken p x)) : Readable V CUBES p := by
  by_cases hx : x = 0
  · subst hx
    exact (readable_addToken_zero.mp h).1
  · exact ((readable_addToken_of_ne hx).mp h).1

theorem Readable.of_foldl {V : Int} {ys : List Int} {p : List (List Int) × List Int}
    (h : Readable V CUBES (ys.foldl addToken p)) : Readable V CUBES p := by
  induction ys generalizing p with
  | nil => exact h
  | cons y ys ih => exact (ih h).of_addToken

/-- An integer that cannot be negated is beyond every declared variable. -/
theorem not_readable_intMin {V : Int} (hint : V ≤ intMax) (p : List (List Int) × List Int) :
    ¬ Readable V CUBES (addToken p intMin) := by
  intro h
  obtain ⟨-, hle, -⟩ := (readable_addToken_of_ne (by decide)).mp h
  exact absurd (hle.trans hint) (by decide)

/-- Negating it is the one thing the body does that is not defined. -/
theorem parseLiteral_intMin (st : ParseState VARS CUBES) :
    parseLiteral st intMin = .error .undefined := by
  have hzero : intMin ≠ 0 := by decide
  have hpos : ¬ 0 < intMin := by decide
  rw [parseLiteral, if_neg hzero, literalVar, if_neg hpos, if_pos rfl]

/-- The failures of `parse` that are its own errors. -/
def Thrown (f : ParseFailure) : Prop := ∃ e, f = .thrown e

/-- **One integer**: the body accepts it exactly if the rules are still kept, and
otherwise throws, or the integer cannot be negated. -/
theorem parseLiteral_decides {V : Int} (hV : V ≤ VARS) (hint : V ≤ intMax)
    {p : List (List Int) × List Int} (h : Readable V CUBES p) (x : Int) :
    Decides (fun f => Thrown f ∨ x = intMin) (Readable V CUBES (addToken p x))
      (stateOf V (addToken p x)) (parseLiteral (stateOf V p : ParseState VARS CUBES) x) := by
  by_cases hmin : x = intMin
  · subst hmin
    rw [parseLiteral_intMin]
    exact decides_error (not_readable_intMin hint p) (Or.inr rfl)
  · by_cases hx : x = 0
    · subst hx
      rw [parseLiteral_zero, readable_addToken_zero]
      by_cases hroom : p.1.length < CUBES
      · rw [if_pos hroom]
        exact decides_ok ⟨h, hroom⟩
      · rw [if_neg hroom]
        exact decides_error (fun hn => hroom hn.2) (Or.inl ⟨_, rfl⟩)
    · rw [parseLiteral_of_ne hV p hx hmin, readable_addToken_of_ne hx]
      by_cases hrange : V < x.natAbs
      · rw [if_pos hrange]
        exact decides_error (fun hn => Int.not_lt.mpr hn.2.1 hrange) (Or.inl ⟨_, rfl⟩)
      · rw [if_neg hrange]
        by_cases hseen : ∃ y ∈ p.2, y.natAbs = x.natAbs
        · obtain ⟨y, hy, he⟩ := hseen
          rw [if_pos ⟨y, hy, he⟩]
          exact decides_error (fun hn => hn.2.2 y hy he) (Or.inl ⟨_, rfl⟩)
        · rw [if_neg hseen]
          exact decides_ok ⟨h, Int.not_lt.mp hrange, fun y hy he => hseen ⟨y, hy, he⟩⟩

/-- In a state of the reading loop the body is undefined only on the integer that
cannot be negated. -/
theorem parseLiteral_undefined_iff {V : Int} (hV : V ≤ VARS) (hint : V ≤ intMax)
    {p : List (List Int) × List Int} (h : Readable V CUBES p) (x : Int) :
    parseLiteral (stateOf V p : ParseState VARS CUBES) x = .error .undefined ↔ x = intMin := by
  constructor
  · intro hundef
    have hdec := parseLiteral_decides hV hint h x
    by_cases hread : Readable V CUBES (addToken p x)
    · rw [hdec.1 hread] at hundef
      cases hundef
    · obtain ⟨e, hthrown | hmin, he⟩ := hdec.2 hread
      · obtain ⟨e', rfl⟩ := hthrown
        rw [he] at hundef
        cases hundef
      · exact hmin
  · rintro rfl
    exact parseLiteral_intMin _

/-- **All the integers of a line**, after the integers `xs` of the lines before it. -/
theorem parseLiterals_decides {V : Int} (hV : V ≤ VARS) (hint : V ≤ intMax) {xs : List Int}
    (ys : List Int) (h : Readable V CUBES (groups xs)) :
    Decides (fun _ => True) (Readable V CUBES (groups (xs ++ ys)))
      (stateOf V (groups (xs ++ ys)))
      (ys.foldlM parseLiteral (stateOf V (groups xs) : ParseState VARS CUBES)) := by
  refine foldlM_decides (fun zs => (stateOf V (groups zs) : ParseState VARS CUBES))
    (fun zs => Readable V CUBES (groups zs)) (fun s x => s = x) ?_ ?_ ?_ h
  · intro zs x hx
    rw [groups_append] at hx
    exact hx.of_addToken
  · rintro zs x s rfl hzs
    rw [groups_append]
    exact (parseLiteral_decides hV hint hzs s).mono fun _ _ => trivial
  · exact List.forall₂_same.mpr fun _ _ => rfl

/-- The integers of a line are undefined to read exactly if one of them cannot be
negated and those before it keep the rules. -/
theorem parseLiterals_undefined_iff {V : Int} (hV : V ≤ VARS) (hint : V ≤ intMax) {xs : List Int}
    (ys : List Int) (h : Readable V CUBES (groups xs)) :
    ys.foldlM parseLiteral (stateOf V (groups xs) : ParseState VARS CUBES) = .error .undefined ↔
      ∃ pre post, ys = pre ++ intMin :: post ∧ Readable V CUBES (groups (xs ++ pre)) := by
  rw [foldlM_eq_error_iff]
  constructor
  · rintro ⟨pre, x, post, st, rfl, hpre, hx⟩
    obtain ⟨hread, rfl⟩ := ((parseLiterals_decides hV hint pre h).eq_ok_iff st).mp hpre
    obtain rfl := (parseLiteral_undefined_iff hV hint hread x).mp hx
    exact ⟨pre, post, rfl, hread⟩
  · rintro ⟨pre, post, rfl, hread⟩
    exact ⟨pre, intMin, post, _, rfl, (parseLiterals_decides hV hint pre h).1 hread,
      parseLiteral_intMin _⟩

/-! ## The end of the file -/

/-- While the padding loop runs: padded below `i`, still empty from `i` on. -/
def PaddedTo (gs : List (List Int)) (i : Nat) (dnf : Dnf VARS CUBES) : Prop :=
  ∀ k : Fin CUBES,
    dnf.cubes k = (gs[k.val]?).elim (if k.val < i then Cube.padding else Cube.empty) cubeOf

theorem paddedTo_fillTo (gs : List (List Int)) :
    PaddedTo gs gs.length (fillTo gs Cube.empty : Dnf VARS CUBES) := by
  intro k
  rw [fillTo_cubes]
  by_cases hk : k.val < gs.length
  · rw [List.getElem?_eq_getElem hk]
    rfl
  · rw [if_neg hk]

theorem PaddedTo.setCube {gs : List (List Int)} {i : Fin CUBES} {dnf : Dnf VARS CUBES}
    (hi : gs.length ≤ i) (h : PaddedTo gs i dnf) :
    PaddedTo gs (i + 1) (dnf.setCube i Cube.padding) := by
  intro k
  rw [Dnf.setCube_cubes]
  by_cases hk : k = i
  · subst hk
    rw [Function.update_self, List.getElem?_eq_none hi, if_pos (Nat.lt_succ_self _)]
    rfl
  · have hne : k.val ≠ i.val := fun he => hk (Fin.ext he)
    rw [Function.update_of_ne hk, h k]
    congr 1
    exact if_congr (by omega) rfl rfl

/-- The loop fills up what the groups leave. -/
theorem padding_loop {gs : List (List Int)} (h : gs.length ≤ CUBES) :
    forLoop gs.length (fun k (dnf : Dnf VARS CUBES) => dnf.setCube k Cube.padding)
      (fillTo gs Cube.empty) CUBES (Nat.le_refl CUBES) = fillTo gs Cube.padding := by
  have hloop := forLoop_rule (PaddedTo gs) (paddedTo_fillTo gs)
    (fun _ (_ : Dnf VARS CUBES) hi hdnf => hdnf.setCube hi) CUBES (Nat.le_refl CUBES) h
  refine congrArg Dnf.mk (funext fun k => ?_)
  rw [hloop k, if_pos k.isLt]

/-- **The end of the file**: the groups must all be finished. -/
theorem parseEnd_decides {V : Int} {p : List (List Int) × List Int}
    (h : Readable V CUBES p) :
    Decides Thrown (p.2 = []) (fillTo p.1 Cube.padding)
      (parseEnd (stateOf V p : ParseState VARS CUBES)) := by
  have hheader : ¬ (stateOf V p : ParseState VARS CUBES).haveHeader = false := Bool.noConfusion
  rw [parseEnd, if_neg hheader]
  by_cases hlast : p.2 = []
  · have hnone : ¬ 0 < (stateOf V p : ParseState VARS CUBES).literalsInCurrent :=
      (List.length_eq_zero_iff.mpr hlast).not_gt
    rw [if_neg hnone]
    refine ⟨fun _ => congrArg Except.ok (padding_loop h.length), fun hn => absurd hlast hn⟩
  · have hsome : 0 < (stateOf V p : ParseState VARS CUBES).literalsInCurrent :=
      List.length_pos_iff.mpr hlast
    rw [if_pos hsome]
    exact decides_error hlast ⟨_, rfl⟩

end MpcVazirani
