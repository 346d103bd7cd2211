import Mathlib.Data.Fin.VecNotation
import MpcVazirani.DimacsGrammar
import MpcVazirani.OStream

/-! # Writing a formula to a file

`write_dimacs_dnf` of `bench/ground_truth.h`.  The padding cubes are left out, and of
each other cube the literals are written in the order of the variables, with a zero at
the end of the line; so the file is well-lexed, its groups are the literals of the real
cubes, and `parse` recovers from them exactly the cubes that have no stale bit.
-/
namespace MpcVazirani
open ForLoop IStream OStream

variable {VARS CUBES M : Nat}

/-- The local `real`: the cubes that are not padding. -/
def realCubes (cubes : Fin M → Cube VARS) : List (Cube VARS) :=
  (List.ofFn cubes).filter fun c => !c.pad

/-- `c->bits[v] ? (v + 1) : -(v + 1)`. -/
def literalAt (c : Cube VARS) (v : Fin VARS) : Int :=
  if c.bits v = true then (v.val : Int) + 1 else -((v.val : Int) + 1)

/-- The body of the loop over `real`: what the file holds after the line of `c`. -/
def writeCube (out : List Char) (c : Cube VARS) : List Char :=
  forLoop 0 (fun v out =>
      if c.mask v = true then out ++ (showInt (literalAt c v) ++ [' ']) else out)
    out VARS (Nat.le_refl VARS) ++ ['0', '\n']

/-- `(int)n`, which wraps. -/
def castInt (n : Nat) : Int := (n : Int).bmod (2 ^ 32)

/-- `ground_truth::write_dimacs_dnf`: the content of the file, and the value
returned. -/
def writeDimacsDnf (cubes : Fin M → Cube VARS) : List Char × Int :=
  let real := realCubes cubes
  let header := "p dnf ".toList ++ showInt VARS ++ [' '] ++ showNat real.length ++ ['\n']
  (real.foldl writeCube header, castInt real.length)

theorem castInt_of_le {n : Nat} (h : (n : Int) ≤ intMax) : castInt n = n := by
  rw [intMax] at h
  exact Int.bmod_eq_of_le (by omega) (by omega)

/-! ## The literals of a cube -/

/-- The literals of a cube, in the order of the variables. -/
def literals (c : Cube VARS) : List Int :=
  ((List.finRange VARS).filter fun v => c.mask v).map (literalAt c)

theorem natAbs_literalAt (c : Cube VARS) (v : Fin VARS) : (literalAt c v).natAbs = v.val + 1 := by
  unfold literalAt
  split_ifs <;> omega

theorem mem_literals {c : Cube VARS} {x : Int} :
    x ∈ literals c ↔ ∃ v, c.mask v = true ∧ literalAt c v = x := by
  simp [literals]

theorem zero_not_mem_literals (c : Cube VARS) : 0 ∉ literals c := by
  intro h
  obtain ⟨v, -, hv⟩ := mem_literals.mp h
  have hn := natAbs_literalAt c v
  rw [hv] at hn
  cases hn

theorem natAbs_le_of_mem_literals {c : Cube VARS} {x : Int} (h : x ∈ literals c) :
    x.natAbs ≤ VARS := by
  obtain ⟨v, -, rfl⟩ := mem_literals.mp h
  rw [natAbs_literalAt]
  exact v.isLt

/-- Each variable is written once. -/
theorem pairwise_literals (c : Cube VARS) :
    (literals c).Pairwise fun x y => x.natAbs ≠ y.natAbs := by
  refine List.pairwise_map.mpr (((List.nodup_finRange VARS).filter _).imp fun {v w} hne he => ?_)
  rw [natAbs_literalAt, natAbs_literalAt] at he
  exact hne (Fin.ext (Nat.succ.inj he))

theorem literalAt_eq_pos {c : Cube VARS} {v w : Fin VARS} :
    literalAt c w = (v.val : Int) + 1 ↔ w = v ∧ c.bits w = true := by
  unfold literalAt
  split_ifs with hb
  · rw [and_iff_left hb, Fin.ext_iff]
    omega
  · exact iff_of_false (by omega) fun h => hb h.2

theorem literalAt_eq_neg {c : Cube VARS} {v w : Fin VARS} :
    literalAt c w = -((v.val : Int) + 1) ↔ w = v ∧ c.bits w = false := by
  unfold literalAt
  split_ifs with hb
  · exact iff_of_false (by omega) fun h => Bool.noConfusion (hb.symm.trans h.2)
  · rw [and_iff_left (Bool.eq_false_iff.mpr hb), Fin.ext_iff]
    omega

/-- The positive literals are the set bits under the mask. -/
theorem pos_mem_literals {c : Cube VARS} {v : Fin VARS} :
    (v.val : Int) + 1 ∈ literals c ↔ c.mask v = true ∧ c.bits v = true := by
  rw [mem_literals]
  constructor
  · rintro ⟨w, hm, hw⟩
    obtain ⟨rfl, hb⟩ := literalAt_eq_pos.mp hw
    exact ⟨hm, hb⟩
  · rintro ⟨hm, hb⟩
    exact ⟨v, hm, literalAt_eq_pos.mpr ⟨rfl, hb⟩⟩

/-- The negative ones are the clear bits under it. -/
theorem neg_mem_literals {c : Cube VARS} {v : Fin VARS} :
    -((v.val : Int) + 1) ∈ literals c ↔ c.mask v = true ∧ c.bits v = false := by
  rw [mem_literals]
  constructor
  · rintro ⟨w, hm, hw⟩
    obtain ⟨rfl, hb⟩ := literalAt_eq_neg.mp hw
    exact ⟨hm, hb⟩
  · rintro ⟨hm, hb⟩
    exact ⟨v, hm, literalAt_eq_neg.mpr ⟨rfl, hb⟩⟩

/-- **The literals of a cube without stale bits are the cube.** -/
theorem cubeOf_literals {c : Cube VARS} (hpad : c.pad = false)
    (hbits : ∀ v, c.mask v = false → c.bits v = false) : cubeOf (literals c) = c := by
  have hmask_of_bits : ∀ v, c.bits v = true → c.mask v = true := by
    intro v hb
    by_contra hm
    rw [hbits v (Bool.eq_false_iff.mpr hm)] at hb
    cases hb
  have hb : ∀ v, (cubeOf (literals c)).bits v = c.bits v := by
    intro v
    rw [Bool.eq_iff_iff, cubeOf, decide_eq_true_iff, pos_mem_literals]
    exact and_iff_right_of_imp (hmask_of_bits v)
  have hm : ∀ v, (cubeOf (literals c)).mask v = c.mask v := by
    intro v
    rw [Bool.eq_iff_iff, cubeOf, decide_eq_true_iff, pos_mem_literals, neg_mem_literals,
      ← and_or_left]
    exact and_iff_left (Bool.eq_false_or_eq_true _)
  obtain ⟨bits, mask, pad⟩ := c
  rw [cubeOf, Cube.mk.injEq]
  exact ⟨funext hb, funext hm, hpad.symm⟩

/-! ## The lines of the file -/

/-- The header line, for `n` cubes. -/
def headerLine (VARS n : Nat) : List Char :=
  ['p'] ++ ' ' :: (['d', 'n', 'f'] ++ ' ' :: (showInt VARS ++ ' ' :: showNat n))

/-- The line of a cube. -/
def cubeLine (c : Cube VARS) : List Char :=
  (literals c).flatMap (fun x => showInt x ++ [' ']) ++ showInt 0

/-- The lines of the file. -/
def fileLines (cubes : Fin M → Cube VARS) : List (List Char) :=
  headerLine VARS (realCubes cubes).length :: (realCubes cubes).map cubeLine

theorem writeCube_eq (out : List Char) (c : Cube VARS) :
    writeCube out c = out ++ (cubeLine c ++ ['\n']) := by
  have htake : (List.finRange VARS).take VARS = List.finRange VARS :=
    List.take_of_length_le (by rw [List.length_finRange])
  rw [writeCube, forLoop_eq_foldl, htake, ← List.foldl_filter, List.foldl_append_eq_append,
    cubeLine, literals, List.flatMap_map, List.flatMap_def, List.append_assoc, List.append_assoc]
  rfl

/-- **The file is its lines**, each with a newline. -/
theorem writeDimacsDnf_eq (cubes : Fin M → Cube VARS) :
    (writeDimacsDnf cubes).1 = (fileLines cubes).flatMap (· ++ ['\n']) := by
  have hfold : ∀ out : List Char, (realCubes cubes).foldl writeCube out =
      out ++ (realCubes cubes).flatMap fun c => cubeLine c ++ ['\n'] := fun out => by
    rw [List.flatMap_def, ← List.foldl_append_eq_append]
    simp only [← writeCube_eq]
  rw [writeDimacsDnf, hfold, fileLines, List.flatMap_cons, List.flatMap_map, headerLine]
  simp

theorem newline_not_mem_fileLines (cubes : Fin M → Cube VARS) :
    ∀ l ∈ fileLines cubes, '\n' ∉ l := by
  refine List.forall_mem_cons.mpr ⟨?_, List.forall_mem_map.mpr fun c _ => ?_⟩
  · have hV := newline_not_mem_decimal (decimal_showInt VARS)
    have hn := newline_not_mem_decimal (decimal_showNat (realCubes cubes).length)
    simp [headerLine, hV, hn]
  · rw [cubeLine, List.mem_append, List.mem_flatMap]
    rintro (⟨x, -, hx⟩ | hzero)
    · rcases List.mem_append.mp hx with hx | hx
      · exact newline_not_mem_decimal (decimal_showInt x) hx
      · exact absurd hx (by decide)
    · exact newline_not_mem_decimal (decimal_showInt 0) hzero

/-- What the lines say. -/
def fileSays (cubes : Fin M → Cube VARS) : List Line :=
  .header VARS (realCubes cubes).length ::
    (realCubes cubes).map fun c => .ints (literals c ++ [0])

theorem headerLine_isLine {n : Nat} (hV : (VARS : Int) ≤ intMax) (hn : (n : Int) ≤ intMax) :
    IsLine (headerLine VARS n) (.header VARS n) := by
  have hp : ∀ c ∈ ['p'], isSpace c = false := List.forall_mem_singleton.mpr rfl
  have hdnf : ∀ c ∈ ['d', 'n', 'f'], isSpace c = false :=
    List.forall_mem_cons.mpr ⟨rfl, List.forall_mem_cons.mpr ⟨rfl, List.forall_mem_singleton.mpr rfl⟩⟩
  have hwords : words (headerLine VARS n) =
      [['p'], ['d', 'n', 'f'], showInt VARS, showNat n] := by
    rw [headerLine, words_append_blank (List.cons_ne_nil _ _) hp,
      words_append_blank (List.cons_ne_nil _ _) hdnf, words_decimal_append (decimal_showInt VARS),
      words_decimal (decimal_showNat n)]
  have hmin : intMin ≤ 0 := by decide
  exact .header rfl hwords (decimal_showInt VARS) (decimal_showNat n)
    ⟨hmin.trans (Int.natCast_nonneg VARS), hV⟩ ⟨hmin.trans (Int.natCast_nonneg n), hn⟩

theorem cubeLine_isLine (hV : (VARS : Int) ≤ intMax) (c : Cube VARS) :
    IsLine (cubeLine c) (.ints (literals c ++ [0])) := by
  refine .ints (List.append_ne_nil_of_right_ne_nil _ (List.cons_ne_nil _ _)) ?_ fun x hx => ?_
  · rw [cubeLine, words_flatMap_showInt, words_decimal (decimal_showInt 0),
      ← List.map_singleton (f := showInt), ← List.map_append, List.forall₂_map_left_iff,
      List.forall₂_same]
    exact fun x _ => decimal_showInt x
  · rcases List.mem_append.mp hx with hx | hx
    · have hle := natAbs_le_of_mem_literals hx
      omega
    · obtain rfl := List.mem_singleton.mp hx
      decide

/-- **The file is well-lexed**, and says the literals of the real cubes. -/
theorem writeDimacsDnf_isLine (cubes : Fin M → Cube VARS) (hV : (VARS : Int) ≤ intMax)
    (hn : ((realCubes cubes).length : Int) ≤ intMax) :
    List.Forall₂ IsLine (getlines (writeDimacsDnf cubes).1) (fileSays cubes) := by
  rw [writeDimacsDnf_eq, getlines_flatMap (newline_not_mem_fileLines cubes)]
  refine .cons (headerLine_isLine hV hn) ?_
  rw [List.forall₂_map_left_iff, List.forall₂_map_right_iff, List.forall₂_same]
  exact fun c _ => cubeLine_isLine hV c

theorem tokens_fileSays (cubes : Fin M → Cube VARS) :
    tokens (fileSays cubes) = ((realCubes cubes).map literals).flatMap (· ++ [0]) := by
  rw [tokens, fileSays, List.flatMap_cons, List.flatMap_map, List.flatMap_map]
  rfl

theorem groups_fileSays (cubes : Fin M → Cube VARS) :
    groups (tokens (fileSays cubes)) = ((realCubes cubes).map literals, []) := by
  rw [tokens_fileSays]
  exact groups_flatMap (List.forall_mem_map.mpr fun c _ => zero_not_mem_literals c)

/-- The file is accepted. -/
theorem accepts_fileSays [NeZero VARS] {cubes : Fin M → Cube VARS}
    (h : (realCubes cubes).length ≤ CUBES) :
    Accepts VARS CUBES (fileSays cubes) ((realCubes cubes).map literals) := by
  have hgroups := groups_fileSays cubes
  refine ⟨⟨by exact_mod_cast Nat.pos_of_neZero VARS, Int.le_refl _, by omega⟩, ⟨?_, ?_⟩, hgroups⟩
  · exact List.forall_mem_map.mpr fun c _ => rfl
  · have hread : Readable VARS CUBES ((realCubes cubes).map literals, []) := by
      refine readable_iff.mpr ⟨by rwa [List.length_map], ⟨?_, ?_⟩, ?_, List.Pairwise.nil⟩
      · exact List.forall_mem_map.mpr fun c _ x hx => by
          exact_mod_cast natAbs_le_of_mem_literals hx
      · exact fun x hx => absurd hx List.not_mem_nil
      · exact List.forall_mem_map.mpr fun c _ => pairwise_literals c
    rw [← hgroups] at hread
    exact hread

/-! ## The assignments of a file -/

/-- The literal holds. -/
def LiteralHolds (x : Fin VARS → Bool) (lit : Int) : Prop :=
  ∃ v : Fin VARS, v.val + 1 = lit.natAbs ∧ x v = decide (0 < lit)

/-- The text spells the groups `gs`. -/
def Spells (content : List Char) (gs : List (List Int)) : Prop :=
  ∃ ls, List.Forall₂ IsLine (getlines content) ls ∧ tokens ls = gs.flatMap (· ++ [0]) ∧
    ∀ g ∈ gs, 0 ∉ g

/-- `x` satisfies the formula of the file: all the literals of one of its groups
hold. -/
def FileSat (content : List Char) (x : Fin VARS → Bool) : Prop :=
  ∃ gs, Spells content gs ∧ ∃ g ∈ gs, ∀ lit ∈ g, LiteralHolds x lit

/-- A text spells no two formulas. -/
theorem Spells.unique {content : List Char} {gs gs' : List (List Int)} (h : Spells content gs)
    (h' : Spells content gs') : gs = gs' := by
  obtain ⟨ls, hlex, hspells⟩ := h
  obtain ⟨ls', hlex', hspells'⟩ := h'
  obtain rfl : ls = ls' := (map_readLine_eq hlex).symm.trans (map_readLine_eq hlex')
  exact congrArg Prod.fst ((groups_eq_iff.mpr hspells).symm.trans (groups_eq_iff.mpr hspells'))

/-- A literal holds where the assignment has its polarity. -/
theorem literalHolds_literalAt {c : Cube VARS} {v : Fin VARS} {x : Fin VARS → Bool} :
    LiteralHolds x (literalAt c v) ↔ x v = c.bits v := by
  have hsign : decide (0 < literalAt c v) = c.bits v := by
    rw [literalAt, Bool.eq_iff_iff, decide_eq_true_iff]
    split_ifs with hb
    · exact iff_of_true (by omega) hb
    · exact iff_of_false (by omega) hb
  rw [LiteralHolds, natAbs_literalAt, hsign]
  constructor
  · rintro ⟨w, hw, hx⟩
    obtain rfl : w = v := Fin.ext (Nat.succ.inj hw)
    exact hx
  · exact fun hx => ⟨v, rfl, hx⟩

/-- The literals of a real cube without stale bits hold exactly where the check
passes. -/
theorem literals_hold_iff [NeZero VARS] {c : Cube VARS} (hpad : c.pad = false)
    (hbits : ∀ v, c.mask v = false → c.bits v = false) (x : Fin VARS → Bool) :
    (∀ lit ∈ literals c, LiteralHolds x lit) ↔ c.check x = true := by
  have hwf : c.WellFormed := ⟨fun h => absurd h (by rw [hpad]; decide), fun _ => hbits⟩
  rw [Cube.check_iff_sat hwf, Cube.Sat, and_iff_right hpad]
  constructor
  · intro h v hv
    exact literalHolds_literalAt.mp (h _ (mem_literals.mpr ⟨v, hv, rfl⟩))
  · intro h lit hlit
    obtain ⟨v, hv, rfl⟩ := mem_literals.mp hlit
    exact literalHolds_literalAt.mpr (h v hv)

theorem mem_realCubes {cubes : Fin M → Cube VARS} {c : Cube VARS} :
    c ∈ realCubes cubes ↔ ∃ k, cubes k = c ∧ c.pad = false := by
  simp [realCubes, List.mem_ofFn]

/-! ## Reading back -/

section RoundTrip
variable [NeZero VARS] {cubes : Fin M → Cube VARS} (hV : (VARS : Int) ≤ intMax)
  (hbits : ∀ k, (cubes k).pad = false → ∀ v, (cubes k).mask v = false → (cubes k).bits v = false)
include hV hbits

/-- **Reading the file back**: the real cubes in their order, then padding. -/
theorem parse_writeDimacsDnf (hC : (CUBES : Int) ≤ intMax)
    (h : (realCubes cubes).length ≤ CUBES) :
    parse VARS CUBES (some (writeDimacsDnf cubes).1) =
      .ok ⟨fun k => (realCubes cubes)[k.val]?.getD Cube.padding⟩ := by
  have hlex := writeDimacsDnf_isLine cubes hV (by omega)
  rw [parse_eq_ok_iff, readLines, map_readLine_eq hlex]
  refine ⟨_, accepts_fileSays h, congrArg Dnf.mk (funext fun k => ?_)⟩
  rw [List.getElem?_map]
  cases hc : (realCubes cubes)[k.val]? with
  | none => rfl
  | some c =>
    obtain ⟨i, rfl, hpad⟩ := mem_realCubes.mp (List.mem_of_getElem? hc)
    exact (cubeOf_literals hpad (hbits i hpad)).symm

/-- **The assignments of the file** are those that pass the check of a real cube. -/
theorem fileSat_writeDimacsDnf (hn : ((realCubes cubes).length : Int) ≤ intMax)
    (x : Fin VARS → Bool) :
    FileSat (writeDimacsDnf cubes).1 x ↔
      ∃ k, (cubes k).pad = false ∧ (cubes k).check x = true := by
  have hspells : Spells (writeDimacsDnf cubes).1 ((realCubes cubes).map literals) :=
    ⟨_, writeDimacsDnf_isLine cubes hV hn, groups_eq_iff.mp (groups_fileSays cubes)⟩
  constructor
  · rintro ⟨gs, hgs, g, hg, hx⟩
    obtain rfl := hgs.unique hspells
    obtain ⟨c, hc, rfl⟩ := List.mem_map.mp hg
    obtain ⟨k, rfl, hpad⟩ := mem_realCubes.mp hc
    exact ⟨k, hpad, (literals_hold_iff hpad (hbits k hpad) x).mp hx⟩
  · rintro ⟨k, hpad, hcheck⟩
    refine ⟨_, hspells, literals (cubes k), ?_, (literals_hold_iff hpad (hbits k hpad) x).mpr hcheck⟩
    exact List.mem_map.mpr ⟨_, mem_realCubes.mpr ⟨k, rfl, hpad⟩, rfl⟩

end RoundTrip

/-- The real cubes of what the parser returns are those of its groups. -/
theorem realCubes_fillTo {gs : List (List Int)} (h : gs.length ≤ CUBES) :
    realCubes (fillTo gs Cube.padding : Dnf VARS CUBES).cubes = gs.map cubeOf := by
  rw [realCubes, ofFn_fillTo h, List.filter_append,
    List.filter_eq_self.mpr (List.forall_mem_map.mpr fun g _ => rfl),
    List.filter_eq_nil_iff.mpr fun c hc => by
      rw [List.eq_of_mem_replicate hc]
      exact Bool.noConfusion,
    List.append_nil]

/-- **Writing and reading are inverse**, for capacities that are ints.  What is written
of an array whose real cubes have no stale bits is read as these cubes, in their order
and then padding, and their number is the value returned; and what is written of a
formula the parser has returned is read as that formula.  In both directions the file
has the assignments of the array. -/
theorem write_parse_roundtrip [NeZero VARS] (hV : (VARS : Int) ≤ intMax)
    (hC : (CUBES : Int) ≤ intMax) :
    (∀ (M : Nat) (cubes : Fin M → Cube VARS),
      (∀ k, (cubes k).pad = false → ∀ v, (cubes k).mask v = false → (cubes k).bits v = false) →
      max 1 (realCubes cubes).length ≤ CUBES →
        parse VARS CUBES (some (writeDimacsDnf cubes).1) =
            .ok ⟨fun k => (realCubes cubes)[k.val]?.getD Cube.padding⟩ ∧
          (writeDimacsDnf cubes).2 = (realCubes cubes).length ∧
          ∀ x : Fin VARS → Bool, FileSat (writeDimacsDnf cubes).1 x ↔
            ∃ k, (cubes k).pad = false ∧ (cubes k).check x = true) ∧
      ∀ (f : List Char) (d : Dnf VARS CUBES), parse VARS CUBES (some f) = .ok d →
        parse VARS CUBES (some (writeDimacsDnf d.cubes).1) = .ok d ∧
          ∀ x : Fin VARS → Bool, FileSat (writeDimacsDnf d.cubes).1 x ↔
            ∃ k, (d.cubes k).check x = true := by
  constructor
  · intro M cubes hbits hlength
    have hle : (realCubes cubes).length ≤ CUBES := (le_max_right _ _).trans hlength
    have hn : ((realCubes cubes).length : Int) ≤ intMax := (Int.ofNat_le.mpr hle).trans hC
    refine ⟨parse_writeDimacsDnf hV hbits hC hle, ?_, fileSat_writeDimacsDnf hV hbits hn⟩
    rw [writeDimacsDnf, castInt_of_le hn]
  · intro f d hd
    obtain ⟨gs, hgs, rfl⟩ := (parse_eq_ok_iff f d).mp hd
    have hreal := @realCubes_fillTo VARS CUBES gs hgs.length_le
    have hwf := @fillTo_wellFormed VARS CUBES gs
    have hlength : (realCubes (fillTo gs Cube.padding : Dnf VARS CUBES).cubes).length ≤ CUBES := by
      rw [hreal, List.length_map]
      exact hgs.length_le
    refine ⟨?_, fun x => ?_⟩
    · rw [parse_writeDimacsDnf hV (fun k => (hwf k).2) hC hlength, hreal]
      refine congrArg (fun cubes => Except.ok (Dnf.mk cubes)) (funext fun k => ?_)
      rw [List.getElem?_map]
      cases gs[k.val]? <;> rfl
    · rw [fileSat_writeDimacsDnf hV (fun k => (hwf k).2) ((Int.ofNat_le.mpr hlength).trans hC)]
      -- the check no assignment passes on padding
      refine exists_congr fun k => and_iff_right_of_imp fun hcheck => ?_
      exact ((Cube.check_iff_sat (hwf k) x).mp hcheck).1

/-- A real cube, stale padding, and a real cube without literals. -/
def mixedCubes : Fin 3 → Cube 2 :=
  ![⟨![true, false], ![true, true], false⟩, ⟨![true, false], ![true, true], true⟩,
    ⟨![false, false], ![false, false], false⟩]

example : (writeDimacsDnf mixedCubes).1 = "p dnf 2 2\n1 -2 0\n0\n".toList := rfl

theorem write_parse_roundtrip_mixed :
    ∃ d : Dnf 2 3, parse 2 3 (some (writeDimacsDnf mixedCubes).1) = .ok d ∧
      (writeDimacsDnf mixedCubes).2 = 2 ∧
      d.cubes = ![mixedCubes 0, mixedCubes 2, Cube.padding] ∧
      parse 2 3 (some (writeDimacsDnf d.cubes).1) = .ok d := by
  obtain ⟨hwrite, hread⟩ := @write_parse_roundtrip 2 3 _ (by decide) (by decide)
  obtain ⟨hparse, hcount, -⟩ := hwrite 3 mixedCubes (by decide) (by decide)
  exact ⟨_, hparse, hcount, by decide, (hread _ _ hparse).1⟩

end MpcVazirani
