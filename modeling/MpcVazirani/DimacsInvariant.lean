import Mathlib.Data.Finset.Card
import Mathlib.Data.Fintype.Basic
import MpcVazirani.DimacsLines

/-! # What holds at every step of the parser

The circuits rely on the shape of what `parse` returns, and `parse` on its own locals:
the pending cube has no stale bit, `literals_in_current` is the number of its
variables, and a literal that passes the range check has an index.  These hold at the
top of both reading loops, whatever bytes the file has (`Reaches.loopInvariant`), and
so does the shape of the result (`exists_shaped_of_parse`).

What they do not give is the index of the one literal that cannot be negated: `-lit` is
undefined there, before the range check.  So the parser keeps all it promises exactly on the
files that do not make it read that literal (`parse_invariant_iff`).
-/
namespace MpcVazirani
open Finset IStream Recognizer

variable {VARS CUBES : Nat}

/-- The states of `parse` at the top of its two reading loops: when it has read the
lines `pre`, or within the line after them the integers `xs`. -/
inductive Reaches (content : List Char) : ParseState VARS CUBES → Prop
  | line {pre post : List (List Char)} {st : ParseState VARS CUBES}
      (hlines : getlines content = pre ++ post) (hst : pre.foldlM parseLine .init = .ok st) :
      Reaches content st
  | literal {pre post : List (List Char)} {s : List Char} {xs ys : List Int}
      {st0 st : ParseState VARS CUBES} (hlines : getlines content = pre ++ s :: post)
      (hst0 : pre.foldlM parseLine .init = .ok st0) (hheader : st0.haveHeader = true)
      (hints : readLine s = .ints (xs ++ ys)) (hst : xs.foldlM parseLiteral st0 = .ok st) :
      Reaches content st

/-- What the code relies on at the top of its loops. -/
structure LoopInvariant (st : ParseState VARS CUBES) : Prop where
  /-- The cubes written so far have slots. -/
  cubeCount_le : st.cubeCount ≤ CUBES
  /-- Whatever `var` is, if it passes the range check its index is in range. -/
  index_lt : ∀ var : Int, ¬ (var < 1 ∨ st.fileVars < var) → (var - 1).toNat < VARS
  /-- The pending cube has no bit where it has no variable. -/
  bits_of_mask : ∀ v, st.current.mask v = false → st.current.bits v = false
  /-- The literals counted are its variables. -/
  card_mask : #{v | st.current.mask v = true} = st.literalsInCurrent

/-- A group of distinct variables has as many of them as literals. -/
theorem card_mask_cubeOf {g : List Int} (hzero : 0 ∉ g)
    (hrange : ∀ x ∈ g, (x.natAbs : Int) ≤ VARS)
    (hdistinct : g.Pairwise fun x y => x.natAbs ≠ y.natAbs) :
    #{v : Fin VARS | (cubeOf g).mask v = true} = g.length := by
  have himage : (univ.filter fun v : Fin VARS => (cubeOf g).mask v = true).image (fun v => v.val + 1) =
      (g.map Int.natAbs).toFinset := by
    ext n
    rw [mem_image, List.mem_toFinset, List.mem_map]
    constructor
    · rintro ⟨v, hv, hn⟩
      exact (mask_cubeOf hn).mp (mem_filter.mp hv).2
    · rintro ⟨x, hx, rfl⟩
      have hle := hrange x hx
      have hne : x ≠ 0 := fun he => hzero (he ▸ hx)
      have hidx : x.natAbs - 1 + 1 = x.natAbs := by omega
      refine ⟨⟨x.natAbs - 1, by omega⟩, mem_filter.mpr ⟨mem_univ _, ?_⟩, hidx⟩
      exact (mask_cubeOf hidx).mpr ⟨x, hx, rfl⟩
  have hnodup : (g.map Int.natAbs).Nodup := List.pairwise_map.mpr hdistinct
  rw [← List.length_map Int.natAbs, ← List.toFinset_card_of_nodup hnodup, ← himage,
    card_image_of_injective _ fun v w h => Fin.ext (Nat.succ.inj h)]

theorem loopInvariant_init : LoopInvariant (ParseState.init : ParseState VARS CUBES) where
  cubeCount_le := Nat.zero_le _
  index_lt var h := by
    have hzero : (ParseState.init : ParseState VARS CUBES).fileVars = 0 := rfl
    omega
  bits_of_mask _ _ := rfl
  card_mask := by simp [ParseState.init, Cube.empty]

theorem loopInvariant_stateOf {V : Int} (hV : V ≤ VARS) {xs : List Int}
    (h : Readable V CUBES (groups xs)) :
    LoopInvariant (stateOf V (groups xs) : ParseState VARS CUBES) where
  cubeCount_le := h.length
  index_lt var hvar := by
    have hfile : (stateOf V (groups xs) : ParseState VARS CUBES).fileVars = V := rfl
    omega
  bits_of_mask _ := bits_cubeOf
  card_mask := by
    have hlast : (groups xs).2 ∈ (groups xs).1 ++ [(groups xs).2] :=
      List.mem_append_right _ (List.mem_singleton_self _)
    exact card_mask_cubeOf ((groups_spec xs).2 _ hlast)
      (fun x hx => (h.range _ hlast x hx).trans hV) (h.distinct _ hlast)

/-- **The invariant holds in every state a run reaches.** -/
theorem Reaches.loopInvariant {content : List Char} {st : ParseState VARS CUBES}
    (h : Reaches content st) : LoopInvariant st := by
  cases h with
  | line _ hst =>
    rcases parseLines_cases hst with rfl | ⟨V, xs, -, hV, -, hread, rfl⟩
    · exact loopInvariant_init
    · exact loopInvariant_stateOf hV hread
  | @literal pre post s ys zs st0 _ _ hst0 hheader _ hst =>
    rcases parseLines_cases hst0 with rfl | ⟨V, xs, -, hV, hint, hread, rfl⟩
    · cases hheader
    · obtain ⟨hread', rfl⟩ := ((parseLiterals_decides hV hint ys hread).eq_ok_iff st).mp hst
      exact loopInvariant_stateOf hV hread'

/-- Under the invariant no index is out of range: the body is defined on every integer
that can be negated. -/
theorem LoopInvariant.parseLiteral_ne_undefined {st : ParseState VARS CUBES}
    (h : LoopInvariant st) {lit : Int} (hmin : lit ≠ intMin) :
    parseLiteral st lit ≠ .error .undefined := by
  unfold parseLiteral
  rw [literalVar_eq hmin]
  dsimp only
  split_ifs with hzero hroom hcheck hidx hseen
  · exact fun he => by cases he
  · exact fun he => by cases he
  · exact fun he => by cases he
  · exact fun he => by cases he
  · exact fun he => by cases he
  · exact absurd (h.index_lt _ hcheck) hidx

/-- A real cube of the result has no stale bit, and no variable beyond the declared
ones. -/
theorem cubeOf_declared {V : Int} {g : List Int} (hrange : ∀ x ∈ g, (x.natAbs : Int) ≤ V)
    (v : Fin VARS) :
    ((cubeOf g : Cube VARS).mask v = false → (cubeOf g : Cube VARS).bits v = false) ∧
      (V ≤ v.val → (cubeOf g : Cube VARS).mask v = false) := by
  refine ⟨bits_cubeOf, fun hv => Bool.eq_false_iff.mpr fun hmask => ?_⟩
  obtain ⟨x, hx, hn⟩ := (mask_cubeOf rfl).mp hmask
  have hle := hrange x hx
  omega

/-- What is returned after the lines have left the state `st`: the cubes written are real, have
no stale bit and no variable beyond those declared, and the rest is padding. -/
structure Shaped (st : ParseState VARS CUBES) (d : Dnf VARS CUBES) : Prop where
  cubeCount_le : st.cubeCount ≤ CUBES
  real : ∀ k : Fin CUBES, k.val < st.cubeCount → (d.cubes k).pad = false ∧
    ∀ v, ((d.cubes k).mask v = false → (d.cubes k).bits v = false) ∧
      (st.fileVars ≤ v.val → (d.cubes k).mask v = false)
  padding : ∀ k : Fin CUBES, st.cubeCount ≤ k.val → (d.cubes k).pad = true ∧
    ∀ v, (d.cubes k).bits v = true ∧ (d.cubes k).mask v = false

/-- **Everything that is returned has that shape.** -/
theorem exists_shaped_of_parse {content : List Char} {d : Dnf VARS CUBES}
    (hd : parse VARS CUBES (some content) = .ok d) :
    ∃ st : ParseState VARS CUBES, (getlines content).foldlM parseLine .init = .ok st ∧ Shaped st d := by
  obtain ⟨st, hst, hend⟩ := (parse_eq_ok_iff_parseEnd content d).mp hd
  refine ⟨st, hst, ?_⟩
  rcases parseLines_cases hst with rfl | ⟨V, xs, -, -, -, hread, rfl⟩
  · cases hend
  · obtain ⟨hlast, rfl⟩ := ((parseEnd_decides hread).eq_ok_iff d).mp hend
    refine ⟨hread.length, fun k hk => ?_, fun k hk => ?_⟩
    · rw [fillTo_cubes, List.getElem?_eq_getElem hk]
      refine ⟨rfl, cubeOf_declared (hread.range _ (List.mem_append_left _ ?_))⟩
      exact List.getElem_mem hk
    · rw [fillTo_cubes, List.getElem?_eq_none hk]
      exact ⟨rfl, fun v => ⟨rfl, rfl⟩⟩

/-! ## What is executed -/

/-- The body of `while (iss >> lit)` runs on `lit` in the state `st`. -/
def Executes (content : List Char) (st : ParseState VARS CUBES) (lit : Int) : Prop :=
  ∃ pre s post xs ys st0, getlines content = pre ++ s :: post ∧
    pre.foldlM parseLine .init = .ok st0 ∧ st0.haveHeader = true ∧
    readLine s = .ints (xs ++ lit :: ys) ∧ xs.foldlM parseLiteral st0 = .ok st

theorem Executes.reaches {content : List Char} {st : ParseState VARS CUBES} {lit : Int}
    (h : Executes content st lit) : Reaches content st := by
  obtain ⟨pre, s, post, xs, ys, st0, hlines, hst0, hheader, hints, hst⟩ := h
  exact .literal hlines hst0 hheader hints hst

/-- Where the body fails the parser fails. -/
theorem Executes.parse_eq_error {content : List Char} {st : ParseState VARS CUBES} {lit : Int}
    (h : Executes content st lit) {f : ParseFailure} (hf : parseLiteral st lit = .error f) :
    parse VARS CUBES (some content) = .error f := by
  obtain ⟨pre, s, post, xs, ys, st0, hlines, hst0, hheader, hints, hst⟩ := h
  have hline : parseLine st0 s = .error f := by
    rw [parseLine_ints _ hints, hheader, if_neg Bool.noConfusion]
    exact foldlM_eq_error_iff.mpr ⟨xs, lit, ys, st, rfl, hst, hf⟩
  have hfold : (getlines content).foldlM parseLine (ParseState.init : ParseState VARS CUBES) =
      .error f := foldlM_eq_error_iff.mpr ⟨pre, s, post, st0, hlines, hst0, hline⟩
  rw [parse, hfold]
  rfl

/-- Where the parser is defined no literal that it reads is the least int. -/
theorem Executes.ne_intMin {content : List Char} {st : ParseState VARS CUBES} {lit : Int}
    (hexec : Executes content st lit) (h : ¬ parse VARS CUBES (some content) = .error .undefined) :
    lit ≠ intMin := by
  rintro rfl
  exact h (hexec.parse_eq_error (parseLiteral_intMin st))

/-- The header branch is always defined. -/
theorem parseHeader_ne_undefined (st : ParseState VARS CUBES) (line : List Char) :
    parseHeader st line ≠ .error .undefined := by
  unfold parseHeader
  dsimp only
  split_ifs <;> exact fun h => by cases h

/-- Where the parser is undefined the body runs on the least int. -/
theorem executes_of_undefined {content : List Char}
    (h : parse VARS CUBES (some content) = .error .undefined) :
    ∃ st : ParseState VARS CUBES, Executes content st intMin := by
  obtain ⟨pre, s, post, st0, hlines, hst0, hs⟩ :=
    foldlM_eq_error_iff.mp ((parse_undefined_iff_parseLines content).mp h)
  cases hread : readLine s with
  | blank | comment =>
    rw [parseLine_skipped _ (by rw [hread]; rfl)] at hs
    cases hs
  | header V C =>
    rw [parseLine_eq_parseHeader _ hread] at hs
    exact absurd hs (parseHeader_ne_undefined st0 _)
  | ints zs =>
    rw [parseLine_ints _ hread] at hs
    cases hheader : st0.haveHeader with
    | false =>
      rw [hheader, if_pos rfl] at hs
      cases hs
    | true =>
      rw [hheader, if_neg Bool.noConfusion] at hs
      obtain ⟨xs, lit, ys, st, rfl, hst, hlit⟩ := foldlM_eq_error_iff.mp hs
      have hexec : Executes content st lit :=
        ⟨pre, s, post, xs, ys, st0, hlines, hst0, hheader, hread, hst⟩
      by_cases hmin : lit = intMin
      · exact ⟨st, hmin ▸ hexec⟩
      · exact absurd hlit (hexec.reaches.loopInvariant.parseLiteral_ne_undefined hmin)

/-! ## Where the invariants hold -/

/-- The body on `lit` uses `idx` as an index into the pending cube.  It is `var - 1`, past the
range check; where the negation is undefined nothing is known of `var`, nor of what the check
lets through, and the index may be any. -/
def UsesIndex (st : ParseState VARS CUBES) (lit idx : Int) : Prop :=
  lit ≠ 0 ∧
    match literalVar lit with
    | .ok var => ¬ (var < 1 ∨ st.fileVars < var) ∧ idx = var - 1
    | .error _ => True

/-- What the code promises of its loops and of what it returns.  (The slots of the padding loop
are below `CUBES` by the condition of that loop.) -/
structure KeepsInvariant (VARS CUBES : Nat) (content : List Char) : Prop where
  index : ∀ (st : ParseState VARS CUBES) (lit : Int), Executes content st lit →
    ∀ idx : Int, UsesIndex st lit idx → 0 ≤ idx ∧ idx < VARS
  slot : ∀ st st' : ParseState VARS CUBES, Executes content st 0 → parseLiteral st 0 = .ok st' →
    st.cubeCount < CUBES
  loop : ∀ st : ParseState VARS CUBES, Reaches content st → LoopInvariant st
  result : ∀ d : Dnf VARS CUBES, parse VARS CUBES (some content) = .ok d →
    ∃ st : ParseState VARS CUBES, (getlines content).foldlM parseLine .init = .ok st ∧ Shaped st d

/-- A literal that can be negated and passes the range check has an index. -/
theorem LoopInvariant.index_bounds {st : ParseState VARS CUBES} (h : LoopInvariant st) {lit idx : Int}
    (hmin : lit ≠ intMin) (huses : UsesIndex st lit idx) : 0 ≤ idx ∧ idx < VARS := by
  obtain ⟨-, huses⟩ := huses
  rw [literalVar_eq hmin] at huses
  obtain ⟨hcheck, rfl⟩ := huses
  have hlt := h.index_lt _ hcheck
  omega

/-- Of the least int any index may be used. -/
theorem usesIndex_intMin (st : ParseState VARS CUBES) (idx : Int) : UsesIndex st intMin idx :=
  ⟨by decide, trivial⟩

/-- The slot of a finished cube is checked before it is written. -/
theorem cubeCount_lt_of_parseLiteral {st st' : ParseState VARS CUBES}
    (h : parseLiteral st 0 = .ok st') : st.cubeCount < CUBES := by
  rw [parseLiteral, if_pos rfl] at h
  by_contra hroom
  rw [dif_neg hroom] at h
  cases h

/-- Where the parser is undefined an index is out of range: -1, if nothing else. -/
theorem not_keepsInvariant_of_undefined {content : List Char}
    (h : parse VARS CUBES (some content) = .error .undefined) :
    ¬ KeepsInvariant VARS CUBES content := by
  intro hkeeps
  obtain ⟨st, hexec⟩ := executes_of_undefined h
  obtain ⟨hnonneg, -⟩ := hkeeps.index st intMin hexec (-1) (usesIndex_intMin st (-1))
  omega

/-- **The parser keeps its invariants exactly where it does not negate the least int**, whatever
else the file has in it: where that is read as a literal before any rule is broken, its index
may be any. -/
theorem parse_invariant_iff (content : List Char) :
    KeepsInvariant VARS CUBES content ↔ ¬ Overflows VARS CUBES (readLines content) := by
  rw [← parse_undefined_iff]
  constructor
  · intro h hundef
    exact not_keepsInvariant_of_undefined hundef h
  · intro h
    refine ⟨fun st lit hexec idx huses => ?_, fun st st' _ hst => cubeCount_lt_of_parseLiteral hst,
      fun st hst => hst.loopInvariant, fun d hd => exists_shaped_of_parse hd⟩
    exact hexec.reaches.loopInvariant.index_bounds (hexec.ne_intMin h) huses

/-- After a finished cube, a line that starts with a number no int holds. -/
def strayFile : List Char := "p dnf 1 2\n-1 0\n99999999999 x 0\n".toList

/-- Nothing in it is negated but -1. -/
theorem not_overflows_strayFile : ¬ Overflows 2 2 (readLines strayFile) := by
  rw [← parse_undefined_iff]
  obtain ⟨d, hd⟩ : ∃ d : Dnf 2 2, parse 2 2 (some strayFile) = .ok d := ⟨_, rfl⟩
  rw [hd]
  exact fun h => by cases h

theorem parse_invariant_stray : KeepsInvariant 2 2 strayFile :=
  (parse_invariant_iff strayFile).mpr not_overflows_strayFile

/-- One variable, one cube, and the literal out of range with the largest absolute value. -/
def leastIntFile : List Char := "p dnf 1 1\n-2147483648 0\n".toList

/-- That literal is read, and its index may be any. -/
theorem parse_invariant_leastInt : ¬ KeepsInvariant 1 1 leastIntFile :=
  not_keepsInvariant_of_undefined rfl

end MpcVazirani
