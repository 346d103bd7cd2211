import MpcVazirani.DimacsGrammar

/-! # Which cubes the parser calls contradictory

`parse` throws `appears with both polarities` when the variable of a literal already
has its mask bit, without looking at the bit that says the polarity.  In a file whose
header, literals and number of cubes are in order this is the only error there is
(`parse_decides_distinct`), and it is raised for every group with a variable twice:
for the contradictory ones, and for the ones that merely repeat a literal.
-/
namespace MpcVazirani
open IStream Recognizer

variable {VARS CUBES : Nat}

/-- The group has a literal and its negation. -/
def Contradictory (g : List Int) : Prop := ∃ v ∈ g, -v ∈ g

/-- A file in order but for what its groups say: well-lexed lines in any layout, a header
within the capacity, and declared literals in at most `CUBES` finished groups. -/
structure InOrder (VARS CUBES : Nat) (content : List Char) (gs : List (List Int)) : Prop where
  lines : ∃ ls, List.Forall₂ IsLine (getlines content) ls ∧ HeaderOk VARS CUBES ls ∧
    tokens ls = gs.flatMap (· ++ [0])
  nonzero : ∀ g ∈ gs, 0 ∉ g
  length : gs.length ≤ CUBES

/-- Exactly the contradictory groups are rejected: the error is raised if and only if there
is one, and without one the file is accepted and repetitions make no difference. -/
def PolaritiesChecked (VARS CUBES : Nat) (content : List Char) (gs : List (List Int)) : Prop :=
  ((∃ var, parse VARS CUBES (some content) = .error (.thrown (.bothPolarities var))) ↔
    ∃ g ∈ gs, Contradictory g) ∧
  ((∀ g ∈ gs, ¬ Contradictory g) →
    ∃ d, parse VARS CUBES (some content) = .ok d ∧ Encodes d (gs.map List.dedup))

/-- A group has its variables once each exactly if it repeats no literal and is not
contradictory. -/
theorem pairwise_natAbs_iff_nodup {g : List Int} (hzero : 0 ∉ g) :
    g.Pairwise (fun x y => x.natAbs ≠ y.natAbs) ↔ g.Nodup ∧ ¬ Contradictory g := by
  have hcontra : ¬ Contradictory g ↔ ∀ v, v ∈ g → -v ∉ g := by
    rw [Contradictory]
    push Not
    exact Iff.rfl
  rw [hcontra]
  constructor
  · intro h
    have hnodup : g.Nodup := h.imp fun hne he => hne (congrArg Int.natAbs he)
    exact ⟨hnodup, (pairwise_natAbs_iff hnodup hzero).mp h⟩
  · rintro ⟨hnodup, h⟩
    exact (pairwise_natAbs_iff hnodup hzero).mpr h

/-! ## The only error left -/

/-- A declared literal, or a zero for which there is room, can only fail for its variable
being there already. -/
theorem parseLiteral_eq_bothPolarities {V : Int} (hV : V ≤ VARS) {p : List (List Int) × List Int}
    {x : Int} (hmin : x ≠ intMin) (hrange : (x.natAbs : Int) ≤ V)
    (hroom : x = 0 → p.1.length < CUBES) {f : ParseFailure}
    (h : parseLiteral (stateOf V p : ParseState VARS CUBES) x = .error f) :
    ∃ var, f = .thrown (.bothPolarities var) := by
  by_cases hx : x = 0
  · subst hx
    rw [parseLiteral_zero, if_pos (hroom rfl)] at h
    cases h
  · rw [parseLiteral_of_ne hV p hx hmin, if_neg (Int.not_lt.mpr hrange)] at h
    by_cases hseen : ∃ y ∈ p.2, y.natAbs = x.natAbs
    · rw [if_pos hseen] at h
      exact ⟨_, (Except.error.inj h).symm⟩
    · rw [if_neg hseen] at h
      cases h

/-- Reading on only adds to the finished groups. -/
theorem length_groups_le (xs ys : List Int) :
    (groups xs).1.length ≤ (groups (xs ++ ys)).1.length := by
  rw [groups_append]
  generalize groups xs = p
  induction ys generalizing p with
  | nil => exact Nat.le_refl _
  | cons y ys ih =>
    refine Nat.le_trans ?_ (ih (addToken p y))
    by_cases hy : y = 0
    · rw [hy, addToken_zero, List.length_append]
      exact Nat.le_add_right _ _
    · rw [addToken_of_ne hy]

/-- A zero is only read where there is room for its group, if there is room for all. -/
theorem length_groups_lt {xs ys : List Int} {gs : List (List Int)}
    (h : groups (xs ++ 0 :: ys) = (gs, [])) : (groups xs).1.length < gs.length := by
  have hle := length_groups_le (xs ++ [0]) ys
  rw [List.append_assoc, List.singleton_append, h, groups_append] at hle
  change (addToken (groups xs) 0).1.length ≤ gs.length at hle
  rwa [addToken_zero, List.length_append, List.length_singleton] at hle

/-- **A body in order fails for one reason**: declared literals in finished groups for which
there is room can only say a variable twice. -/
theorem parseBody_eq_bothPolarities {V : Int} (hV : V ≤ VARS) (hint : V ≤ intMax)
    {ss : List (List Char)} {gs : List (List Int)}
    (hheader : ∀ l ∈ ss.map readLine, l.isHeader = false)
    (hrange : ∀ x ∈ tokens (ss.map readLine), (x.natAbs : Int) ≤ V)
    (hgroups : groups (tokens (ss.map readLine)) = (gs, [])) (hlength : gs.length ≤ CUBES)
    {f : ParseFailure}
    (h : ss.foldlM parseLine (stateOf V ([], []) : ParseState VARS CUBES) = .error f) :
    ∃ var, f = .thrown (.bothPolarities var) := by
  obtain ⟨body, l, post, hsplit, -, hl | ⟨xs, x, ys, rfl, -, hx⟩⟩ := parseBody_eq_error hV hint h
  · have hnone := hheader l (hsplit ▸ List.mem_append_right _ List.mem_cons_self)
    rw [hl.1] at hnone
    cases hnone
  · have htokens : tokens (ss.map readLine) = tokens body ++ xs ++ x :: (ys ++ tokens post) := by
      rw [hsplit, tokens, List.flatMap_append, List.flatMap_cons]
      simp [Line.tokens, tokens]
    have hle := hrange x (by rw [htokens]; simp)
    have hmin : x ≠ intMin := by
      rintro rfl
      exact absurd (hle.trans hint) (by decide)
    refine parseLiteral_eq_bothPolarities hV hmin hle (fun hx0 => ?_) hx
    rw [htokens, hx0] at hgroups
    exact Nat.lt_of_lt_of_le (length_groups_lt hgroups) hlength

/-- The lines before the header change nothing. -/
theorem foldlM_parseLine_skipped {ss : List (List Char)}
    (h : ∀ l ∈ ss.map readLine, l.isSkipped = true) (st : ParseState VARS CUBES) :
    ss.foldlM parseLine st = .ok st := by
  induction ss with
  | nil => rfl
  | cons s ss ih =>
    rw [List.map_cons] at h
    obtain ⟨hs, hss⟩ := List.forall_mem_cons.mp h
    rw [List.foldlM_cons, parseLine_skipped st hs]
    exact ih hss

/-- What is left of a file when its header has been read. -/
theorem parse_of_header {content : List Char} {pre body : List Line} {V C : Int}
    (hlines : readLines content = pre ++ .header V C :: body)
    (hpre : ∀ l ∈ pre, l.isSkipped = true) (hfits : Fits VARS CUBES V C) :
    V ≤ intMax ∧ ∃ ss : List (List Char), ss.map readLine = body ∧
      parse VARS CUBES (some content) =
        ss.foldlM parseLine (stateOf V ([], []) : ParseState VARS CUBES) >>= parseEnd := by
  obtain ⟨ss, rest, hss, rfl, hrest⟩ := List.map_eq_append_iff.mp hlines
  obtain ⟨s, ss', rfl, hs, rfl⟩ := List.map_eq_cons_iff.mp hrest
  have hheader : Decides Thrown (Fits VARS CUBES V C) (stateOf V ([], [])) _ :=
    parseHeader_decides hs
  refine ⟨le_intMax_of_readLine hs, ss', rfl, ?_⟩
  rw [parse, hss, List.foldlM_append, foldlM_parseLine_skipped hpre]
  change (s :: ss').foldlM parseLine ParseState.init >>= parseEnd = _
  rw [List.foldlM_cons, hheader.1 hfits]
  rfl

/-- **A file in order is accepted exactly if no group has a variable twice**, and otherwise
the error is that one. -/
theorem parse_decides_distinct {content : List Char} {gs : List (List Int)}
    (h : InOrder VARS CUBES content gs) :
    Decides (fun f => ∃ var, f = .thrown (.bothPolarities var))
      (∀ g ∈ gs, g.Pairwise fun x y => x.natAbs ≠ y.natAbs) (fillTo gs Cube.padding)
      (parse VARS CUBES (some content)) := by
  obtain ⟨⟨ls, hlex, ⟨pre, V, C, body, hls, hpre, hheader, hone, hvars, hcubes, hrange⟩,
    hspells⟩, hzero, hlength⟩ := h
  have hlines : readLines content = pre ++ .header V C :: body := (map_readLine_eq hlex).trans hls
  rw [hls, tokens_skipped_append hpre] at hspells hrange
  change tokens body = _ at hspells
  change ∀ x ∈ tokens body, _ at hrange
  have hgroups : groups (tokens body) = (gs, []) := groups_eq_iff.mpr ⟨hspells, hzero⟩
  have hinrange : ∀ g ∈ gs, ∀ x ∈ g, (x.natAbs : Int) ≤ V := by
    rw [hspells, forall_flatMap_natAbs_le (by omega)] at hrange
    exact hrange
  have hreadable : (∀ g ∈ gs, g.Pairwise fun x y => x.natAbs ≠ y.natAbs) ↔
      Readable V CUBES (groups (tokens body)) := by
    rw [hgroups, readable_iff, and_iff_left List.Pairwise.nil, and_iff_right hlength,
      and_iff_right ⟨hinrange, fun x hx => absurd hx List.not_mem_nil⟩]
  obtain ⟨hint, ss, hss, hparse⟩ := parse_of_header hlines hpre ⟨hone, hvars, hcubes⟩
  have hbody : Decides _ (BodyOk V CUBES (ss.map readLine))
      (stateOf V (groups (tokens (ss.map readLine))) : ParseState VARS CUBES) _ :=
    parseBody_decides hvars hint ss
  rw [hss] at hbody
  rw [hparse, hreadable]
  constructor
  · intro hread
    rw [hbody.1 ⟨hheader, hread⟩]
    have hend : Decides Thrown ((groups (tokens body)).2 = [])
        (fillTo (groups (tokens body)).1 Cube.padding : Dnf VARS CUBES) _ := parseEnd_decides hread
    rw [hgroups] at hend ⊢
    exact hend.1 rfl
  · intro hread
    obtain ⟨f, -, hf⟩ := hbody.2 fun hok => hread hok.2
    refine ⟨f, ?_, ?_⟩
    · rw [← hss] at hheader hrange hgroups
      exact parseBody_eq_bothPolarities hvars hint hheader hrange hgroups hlength hf
    · rw [hf]
      rfl

/-! ## Exactly the contradictory groups? -/

/-- **When exactly the contradictory groups are rejected**: in a file in order, if no group
repeats a literal, or if there is a contradictory one anyway. -/
theorem parse_checks_polarities_iff {content : List Char} {gs : List (List Int)}
    (h : InOrder VARS CUBES content gs) :
    PolaritiesChecked VARS CUBES content gs ↔
      (∀ g ∈ gs, g.Nodup) ∨ ∃ g ∈ gs, Contradictory g := by
  have hdistinct : (∀ g ∈ gs, g.Pairwise fun x y => x.natAbs ≠ y.natAbs) ↔
      ∀ g ∈ gs, g.Nodup ∧ ¬ Contradictory g :=
    forall₂_congr fun g hg => pairwise_natAbs_iff_nodup (h.nonzero g hg)
  have hparse := (parse_decides_distinct h).congr hdistinct
  by_cases hcontra : ∃ g ∈ gs, Contradictory g
  · -- the file is rejected, and for the reason given
    obtain ⟨g, hg, hgc⟩ := hcontra
    refine iff_of_true ⟨iff_of_true ?_ ⟨g, hg, hgc⟩, fun hno => absurd hgc (hno g hg)⟩
      (Or.inr ⟨g, hg, hgc⟩)
    obtain ⟨f, ⟨var, rfl⟩, hf⟩ := hparse.2 fun hall => (hall g hg).2 hgc
    exact ⟨var, hf⟩
  · rw [or_iff_left hcontra]
    push Not at hcontra
    constructor
    · rintro ⟨-, haccept⟩ g hg
      obtain ⟨d, hd, -⟩ := haccept hcontra
      exact (((hparse.eq_ok_iff d).mp hd).1 g hg).1
    · intro hnodup
      have hok := hparse.1 fun g hg => ⟨hnodup g hg, hcontra g hg⟩
      have hdedup : gs.map List.dedup = gs :=
        (List.map_congr_left fun g hg => (hnodup g hg).dedup).trans (List.map_id gs)
      refine ⟨iff_of_false ?_ fun ⟨g, hg, hgc⟩ => hcontra g hg hgc, fun _ => ⟨_, hok, ?_⟩⟩
      · rintro ⟨var, hvar⟩
        rw [hok] at hvar
        cases hvar
      · rw [hdedup]
        exact fillTo_encodes gs

/-- The demo file, over two variables with room for three cubes. -/
theorem parse_checks_polarities_iff_demo : PolaritiesChecked 2 3 demoFile [[1, -2], []] := by
  have horder : InOrder 2 3 demoFile [[1, -2], []] := by
    refine ⟨⟨demoLines, demoFile_isLine, ⟨[.comment], 2, 3, [.ints [1], .blank, .ints [-2, 0, 0]],
      rfl, ?_, ?_, ?_⟩, rfl⟩, ?_, ?_⟩
    · decide
    · decide
    · decide
    · decide
    · decide
  exact (parse_checks_polarities_iff horder).mpr (Or.inl (by decide))

/-- One cube that says the same literal twice. -/
def repeatedFile : List Char := "p dnf 1 1\n1 1 0\n".toList

theorem repeatedFile_inOrder : InOrder 1 1 repeatedFile [[1, 1]] := by
  have hone : Decimal ['1'] 1 := .unsigned (by decide) (List.forall_mem_singleton.mpr rfl)
  have hzero : Decimal ['0'] 0 := .unsigned (by decide) (List.forall_mem_singleton.mpr rfl)
  refine ⟨⟨[.header 1 1, .ints [1, 1, 0]], ?_, ⟨[], 1, 1, [.ints [1, 1, 0]], rfl, ?_, ?_, ?_⟩, rfl⟩,
    ?_, ?_⟩
  · refine .cons (.header rfl rfl hone hone ?_ ?_) (.cons (.ints ?_ ?_ ?_) .nil)
    · decide
    · decide
    · decide
    · exact .cons hone (.cons hone (.cons hzero .nil))
    · decide
  · decide
  · decide
  · decide
  · decide
  · decide

/-- The cube is satisfiable, and is rejected as contradictory. -/
theorem parse_checks_polarities_repeated :
    InOrder 1 1 repeatedFile [[1, 1]] ∧ ¬ PolaritiesChecked 1 1 repeatedFile [[1, 1]] := by
  refine ⟨repeatedFile_inOrder, ?_⟩
  rintro ⟨hiff, -⟩
  have hthrown : parse 1 1 (some repeatedFile) = .error (.thrown (.bothPolarities 1)) := rfl
  obtain ⟨g, hg, v, hv, hneg⟩ := hiff.mp ⟨1, hthrown⟩
  obtain rfl := List.mem_singleton.mp hg
  have hone : v = 1 := by simpa using hv
  subst hone
  exact absurd hneg (by decide)

end MpcVazirani
