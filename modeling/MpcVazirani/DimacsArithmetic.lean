import MpcVazirani.DimacsInvariant

/-! # The int arithmetic of the parser

`parse` computes with ints in four places: it negates a negative literal, counts cubes
and literals up, and turns a variable into an index.  `intResults` are the exact results
of what one turn of the inner loop computes.  The counters stay within the capacity by
the loop invariant, and a variable is declared before its index is computed; but a
literal is negated before anything is known about it, so the least int is the one
literal that overflows (`parse_no_overflow_iff`).
-/
namespace MpcVazirani
open Finset IStream Recognizer

variable {VARS CUBES : Nat}

/-- The exact results of the int computations of the body of `while (iss >> lit)`, up to its
exit. -/
def intResults (st : ParseState VARS CUBES) (lit : Int) : List Int :=
  if lit = 0 then
    -- ++cube_count
    if st.cubeCount < CUBES then [(st.cubeCount : Int) + 1] else []
  else
    (if 0 < lit then [] else [-lit]) ++
      if (lit.natAbs : Int) < 1 ∨ st.fileVars < lit.natAbs then []
      else
        -- var - 1 and, if the variable is new, ++literals_in_current
        [(lit.natAbs : Int) - 1] ++
          if h : ((lit.natAbs : Int) - 1).toNat < VARS then
            if st.current.mask ⟨((lit.natAbs : Int) - 1).toNat, h⟩ = true then []
            else [(st.literalsInCurrent : Int) + 1]
          else []

/-- No int computation of the run overflows, those of the padding loop included, and so a
literal out of range is reported as that. -/
structure NoOverflow (VARS CUBES : Nat) (content : List Char) : Prop where
  body : ∀ (st : ParseState VARS CUBES) (lit : Int), Executes content st lit →
    ∀ n ∈ intResults st lit, FitsInt n
  padding : ∀ st : ParseState VARS CUBES, (getlines content).foldlM parseLine .init = .ok st →
    ∀ cube_count : Nat, st.cubeCount ≤ cube_count → cube_count < CUBES →
      FitsInt ((cube_count : Int) + 1)
  range : ∀ (st : ParseState VARS CUBES) (lit : Int), Executes content st lit → lit ≠ 0 →
    st.fileVars < lit.natAbs →
      parse VARS CUBES (some content) = .error (.thrown (.literalOutOfRange lit st.fileVars))

/-- A literal that is read is an int. -/
theorem Executes.fitsInt {content : List Char} {st : ParseState VARS CUBES} {lit : Int}
    (h : Executes content st lit) : FitsInt lit := by
  obtain ⟨pre, s, post, xs, ys, st0, -, -, -, hints, -⟩ := h
  obtain ⟨hread, -⟩ := readLine_eq_ints hints
  exact fitsInt_of_mem_readInts (hread ▸ List.mem_append_right _ List.mem_cons_self)

/-- A variable that is not masked yet leaves room for one more literal. -/
theorem LoopInvariant.literalsInCurrent_lt {st : ParseState VARS CUBES} (h : LoopInvariant st)
    {v : Fin VARS} (hv : ¬ st.current.mask v = true) : st.literalsInCurrent < VARS := by
  have hlt := card_lt_univ_of_notMem
    (show v ∉ univ.filter fun v => st.current.mask v = true by simpa using hv)
  rwa [h.card_mask, Fintype.card_fin] at hlt

/-- **Under the invariant only the negation can overflow**, if the capacities are ints. -/
theorem LoopInvariant.fitsInt_intResults {st : ParseState VARS CUBES} (h : LoopInvariant st)
    (hvars : (VARS : Int) ≤ intMax) (hcubes : (CUBES : Int) ≤ intMax) {lit : Int}
    (hfit : FitsInt lit) (hmin : lit ≠ intMin) : ∀ n ∈ intResults st lit, FitsInt n := by
  obtain ⟨hlow, hhigh⟩ := hfit
  rw [intMin] at hlow hmin
  rw [intMax] at hhigh hvars hcubes
  intro n hn
  rw [FitsInt, intMin, intMax]
  rw [intResults] at hn
  by_cases hzero : lit = 0
  · rw [if_pos hzero] at hn
    by_cases hroom : st.cubeCount < CUBES
    · rw [if_pos hroom, List.mem_singleton] at hn
      omega
    · rw [if_neg hroom] at hn
      cases hn
  · rw [if_neg hzero, List.mem_append] at hn
    rcases hn with hn | hn
    · by_cases hpos : 0 < lit
      · rw [if_pos hpos] at hn
        cases hn
      · rw [if_neg hpos, List.mem_singleton] at hn
        omega
    · by_cases hrange : (lit.natAbs : Int) < 1 ∨ st.fileVars < lit.natAbs
      · rw [if_pos hrange] at hn
        cases hn
      · rw [if_neg hrange, List.mem_append, List.mem_singleton] at hn
        rcases hn with hn | hn
        · omega
        · have hidx := h.index_lt _ hrange
          rw [dif_pos hidx] at hn
          by_cases hseen : st.current.mask ⟨((lit.natAbs : Int) - 1).toNat, hidx⟩ = true
          · rw [if_pos hseen] at hn
            cases hn
          · rw [if_neg hseen, List.mem_singleton] at hn
            have hlt := h.literalsInCurrent_lt hseen
            omega

/-- The least int is negated, and that overflows. -/
theorem not_fitsInt_intResults_intMin (st : ParseState VARS CUBES) :
    ∃ n ∈ intResults st intMin, ¬ FitsInt n := by
  refine ⟨-intMin, ?_, by decide⟩
  have hzero : ¬ intMin = 0 := by decide
  have hpos : ¬ 0 < intMin := by decide
  rw [intResults, if_neg hzero, if_neg hpos]
  exact List.mem_append_left _ (List.mem_singleton_self _)

/-- A literal whose negation is defined is compared with its true absolute value. -/
theorem parseLiteral_of_range {st : ParseState VARS CUBES} {lit : Int} (hzero : lit ≠ 0)
    (hmin : lit ≠ intMin) (hrange : st.fileVars < lit.natAbs) :
    parseLiteral st lit = .error (.thrown (.literalOutOfRange lit st.fileVars)) := by
  rw [parseLiteral, if_neg hzero, literalVar_eq hmin]
  exact if_pos (Or.inr hrange)

/-- Where the parser is undefined its arithmetic has overflowed. -/
theorem not_noOverflow_of_undefined {content : List Char}
    (h : parse VARS CUBES (some content) = .error .undefined) :
    ¬ NoOverflow VARS CUBES content := by
  intro hbounded
  obtain ⟨st, hexec⟩ := executes_of_undefined h
  obtain ⟨n, hn, hoverflow⟩ := not_fitsInt_intResults_intMin st
  exact hoverflow (hbounded.body st intMin hexec n hn)

/-- **The parser's int arithmetic overflows exactly where it negates the least int**: where
that is read as a literal before any rule is broken. -/
theorem parse_no_overflow_iff (hvars : (VARS : Int) ≤ intMax) (hcubes : (CUBES : Int) ≤ intMax)
    (content : List Char) :
    NoOverflow VARS CUBES content ↔ ¬ Overflows VARS CUBES (readLines content) := by
  rw [← parse_undefined_iff]
  constructor
  · intro h hundef
    exact not_noOverflow_of_undefined hundef h
  · intro h
    refine ⟨fun st lit hexec => ?_, fun st _ cube_count _ hlt => ?_,
      fun st lit hexec hzero hrange => ?_⟩
    · exact hexec.reaches.loopInvariant.fitsInt_intResults hvars hcubes hexec.fitsInt
        (hexec.ne_intMin h)
    · rw [intMax] at hcubes
      rw [FitsInt, intMin, intMax]
      omega
    · exact hexec.parse_eq_error (parseLiteral_of_range hzero (hexec.ne_intMin h) hrange)

/-- The file that ends in a stray token has no literal that cannot be negated. -/
theorem parse_no_overflow_iff_stray : NoOverflow 2 2 strayFile :=
  (parse_no_overflow_iff (by decide) (by decide) strayFile).mpr not_overflows_strayFile

/-- The least int is negated. -/
theorem parse_overflows_leastInt : ¬ NoOverflow 1 1 leastIntFile :=
  not_noOverflow_of_undefined rfl

end MpcVazirani
