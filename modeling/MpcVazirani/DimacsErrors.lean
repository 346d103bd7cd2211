import MpcVazirani.DimacsPolarities

/-! # Which error the parser reports

A file that is not accepted is rejected for the first thing that is wrong with it, in the
order in which it is read: its lines, the numbers of its header, its integers, and at last
what is missing at its end (`FirstOffence`).  So the text of an error speaks of the place
where the file first leaves the language, with the numbers that stand there, and what comes
after that place makes no difference (`parse_reports_first_offence`).
-/
namespace MpcVazirani
open IStream Recognizer

variable {VARS CUBES : Nat}

/-- What is wrong with the numbers of a header. -/
inductive HeaderOffends (VARS CUBES : Nat) (V C : Int) : ParseFailure → Prop
  | malformed (h : V ≤ 0) : HeaderOffends VARS CUBES V C (.thrown .malformedHeader)
  | tooManyVars (h : (VARS : Int) < V) : HeaderOffends VARS CUBES V C (.thrown (.tooManyVars V))
  | tooManyCubes (hV : 1 ≤ V) (hV' : V ≤ VARS) (h : (CUBES : Int) < C) :
    HeaderOffends VARS CUBES V C (.thrown (.tooManyCubesDeclared C))

/-- What is wrong with an integer after the groups `p`, where `V` variables are declared. -/
inductive Offends (V : Int) (CUBES : Nat) (p : List (List Int) × List Int) (x : Int) :
    ParseFailure → Prop
  | tooManyCubes (hx : x = 0) (h : CUBES ≤ p.1.length) : Offends V CUBES p x (.thrown .tooManyCubes)
  | undefined (hx : x = intMin) : Offends V CUBES p x .undefined
  | outOfRange (hx : x ≠ intMin) (h : V < x.natAbs) :
    Offends V CUBES p x (.thrown (.literalOutOfRange x V))
  | bothPolarities (hx : x ≠ 0) (h : (x.natAbs : Int) ≤ V) {y : Int} (hy : y ∈ p.2)
      (he : y.natAbs = x.natAbs) : Offends V CUBES p x (.thrown (.bothPolarities x.natAbs))

/-- The first thing that is wrong with a file, and the failure it stands for. -/
inductive FirstOffence (VARS CUBES : Nat) : List Line → ParseFailure → Prop
  | missingHeader {ls : List Line} (h : ∀ l ∈ ls, l.isSkipped = true) :
    FirstOffence VARS CUBES ls (.thrown .missingHeader)
  | literalsBeforeHeader (pre : List Line) {post : List Line} {xs : List Int}
      (hpre : ∀ l ∈ pre, l.isSkipped = true) :
    FirstOffence VARS CUBES (pre ++ .ints xs :: post) (.thrown .literalsBeforeHeader)
  | header (pre : List Line) {post : List Line} {V C : Int} {f : ParseFailure}
      (hpre : ∀ l ∈ pre, l.isSkipped = true) (h : HeaderOffends VARS CUBES V C f) :
    FirstOffence VARS CUBES (pre ++ .header V C :: post) f
  | duplicateHeader (pre : List Line) {body post : List Line} {V C V' C' : Int}
      (hpre : ∀ l ∈ pre, l.isSkipped = true) (hfits : Fits VARS CUBES V C)
      (hbody : BodyOk V CUBES body) :
    FirstOffence VARS CUBES (pre ++ .header V C :: (body ++ .header V' C' :: post))
      (.thrown .duplicateHeader)
  | literal (pre : List Line) {body post : List Line} {V C x : Int} {xs ys : List Int}
      {f : ParseFailure} (hpre : ∀ l ∈ pre, l.isSkipped = true) (hfits : Fits VARS CUBES V C)
      (hbody : BodyOk V CUBES (body ++ [.ints xs]))
      (h : Offends V CUBES (groups (tokens body ++ xs)) x f) :
    FirstOffence VARS CUBES (pre ++ .header V C :: (body ++ .ints (xs ++ x :: ys) :: post)) f
  | endsMidCube (pre : List Line) {body : List Line} {V C : Int}
      (hpre : ∀ l ∈ pre, l.isSkipped = true) (hfits : Fits VARS CUBES V C)
      (hbody : BodyOk V CUBES body) (h : (groups (tokens body)).2 ≠ []) :
    FirstOffence VARS CUBES (pre ++ .header V C :: body) (.thrown .endsMidCube)

/-! ## One item -/

/-- The header branch fails on exactly what offends. -/
theorem parseLine_header_eq_error_iff {s : List Char} {V C : Int} (h : readLine s = .header V C)
    (f : ParseFailure) :
    parseLine (ParseState.init : ParseState VARS CUBES) s = .error f ↔
      HeaderOffends VARS CUBES V C f := by
  rw [parseLine_header rfl rfl h]
  constructor
  · intro hf
    split_ifs at hf with hone hvars hcubes
    · obtain rfl := Except.error.inj hf
      exact .malformed hone
    · obtain rfl := Except.error.inj hf
      exact .tooManyVars hvars
    · obtain rfl := Except.error.inj hf
      exact .tooManyCubes (by omega) (not_lt.mp hvars) hcubes
  · intro hf
    cases hf with
    | malformed hone => rw [if_pos hone]
    | tooManyVars hvars => rw [if_neg (by omega), if_pos hvars]
    | tooManyCubes hone hvars hcubes =>
      rw [if_neg (by omega), if_neg (not_lt.mpr hvars), if_pos hcubes]

section Body
variable {V : Int} (hone : 1 ≤ V) (hV : V ≤ VARS) (hint : V ≤ intMax)
include hone hV hint

/-- So does the body of the inner loop. -/
theorem parseLiteral_eq_error_iff (p : List (List Int) × List Int) (x : Int) (f : ParseFailure) :
    parseLiteral (stateOf V p : ParseState VARS CUBES) x = .error f ↔ Offends V CUBES p x f := by
  by_cases hmin : x = intMin
  · subst hmin
    rw [parseLiteral_intMin]
    constructor
    · intro h
      obtain rfl := Except.error.inj h
      exact .undefined rfl
    · intro h
      cases h with
      | tooManyCubes hx => exact absurd hx (by decide)
      | undefined => rfl
      | outOfRange hx => exact absurd rfl hx
      | bothPolarities _ hle => exact absurd (hle.trans hint) (by decide)
  · by_cases hx : x = 0
    · subst hx
      rw [parseLiteral_zero]
      constructor
      · intro h
        split_ifs at h with hroom
        obtain rfl := Except.error.inj h
        exact .tooManyCubes rfl (not_lt.mp hroom)
      · intro h
        cases h with
        | tooManyCubes _ hfull => rw [if_neg (not_lt.mpr hfull)]
        | undefined hzero => exact absurd hzero hmin
        | outOfRange _ hlt => exact absurd hlt (by simp; omega)
        | bothPolarities hzero => exact absurd rfl hzero
    · rw [parseLiteral_of_ne hV p hx hmin]
      constructor
      · intro h
        split_ifs at h with hlt hseen
        · obtain rfl := Except.error.inj h
          exact .outOfRange hmin hlt
        · obtain rfl := Except.error.inj h
          obtain ⟨y, hy, he⟩ := hseen
          exact .bothPolarities hx (not_lt.mp hlt) hy he
      · intro h
        cases h with
        | tooManyCubes hzero => exact absurd hzero hx
        | undefined hzero => exact absurd hzero hmin
        | outOfRange _ hlt => rw [if_pos hlt]
        | bothPolarities _ hle hy he => rw [if_neg (not_lt.mpr hle), if_pos ⟨_, hy, he⟩]

/-- The lines after the header fail at another header, or at an integer that offends, what
stands before it keeping the rules. -/
theorem parseBody_eq_error_iff (ss : List (List Char)) (f : ParseFailure) :
    ss.foldlM parseLine (stateOf V ([], []) : ParseState VARS CUBES) = .error f ↔
      (∃ body V' C' post, ss.map readLine = body ++ .header V' C' :: post ∧ BodyOk V CUBES body ∧
        f = .thrown .duplicateHeader) ∨
      ∃ body xs x ys post, ss.map readLine = body ++ .ints (xs ++ x :: ys) :: post ∧
        BodyOk V CUBES (body ++ [.ints xs]) ∧ Offends V CUBES (groups (tokens body ++ xs)) x f := by
  constructor
  · intro h
    obtain ⟨body, l, post, hss, hbody, ⟨hl, rfl⟩ | ⟨xs, x, ys, rfl, hread, hx⟩⟩ :=
      parseBody_eq_error hV hint h
    · cases l with
      | header V' C' => exact Or.inl ⟨body, V', C', post, hss, hbody, rfl⟩
      | blank | comment | ints => cases hl
    · exact Or.inr ⟨body, xs, x, ys, post, hss, bodyOk_append.mpr ⟨hbody.1, rfl, hread⟩,
        (parseLiteral_eq_error_iff hone hV hint _ x f).mp hx⟩
  · rintro (⟨body, V', C', post, hss, hbody, rfl⟩ | ⟨body, xs, x, ys, post, hss, hbody, hx⟩)
    · obtain ⟨pre, rest, rfl, rfl, hrest⟩ := List.map_eq_append_iff.mp hss
      obtain ⟨s, post, rfl, hs, rfl⟩ := List.map_eq_cons_iff.mp hrest
      refine foldlM_eq_error_iff.mpr ⟨pre, s, post, _, rfl, (parseBody_decides hV hint pre).1 hbody, ?_⟩
      rw [parseLine_eq_parseHeader _ hs]
      rfl
    · obtain ⟨pre, rest, rfl, rfl, hrest⟩ := List.map_eq_append_iff.mp hss
      obtain ⟨s, post, rfl, hs, rfl⟩ := List.map_eq_cons_iff.mp hrest
      have hpre := (parseBody_decides hV hint pre).1 hbody.of_append
      refine foldlM_eq_error_iff.mpr ⟨pre, s, post, _, rfl, hpre, ?_⟩
      rw [parseLine_ints _ hs, if_neg Bool.noConfusion]
      have hxs := (parseLiterals_decides hV hint xs hbody.of_append.2).1 (bodyOk_append.mp hbody).2.2
      exact foldlM_eq_error_iff.mpr
        ⟨xs, x, ys, _, rfl, hxs, (parseLiteral_eq_error_iff hone hV hint _ x f).mpr hx⟩

omit hone in
/-- The lines after the header and the checks at the end of the file. -/
theorem parseFrom_eq_error_iff (ss : List (List Char)) (f : ParseFailure) :
    (ss.foldlM parseLine (stateOf V ([], []) : ParseState VARS CUBES) >>= parseEnd) = .error f ↔
      ss.foldlM parseLine (stateOf V ([], []) : ParseState VARS CUBES) = .error f ∨
      (BodyOk V CUBES (ss.map readLine) ∧ (groups (tokens (ss.map readLine))).2 ≠ [] ∧
        f = .thrown .endsMidCube) := by
  have hbody : Decides _ (BodyOk V CUBES (ss.map readLine))
      (stateOf V (groups (tokens (ss.map readLine))) : ParseState VARS CUBES) _ :=
    parseBody_decides hV hint ss
  by_cases hok : BodyOk V CUBES (ss.map readLine)
  · rw [hbody.1 hok]
    change parseEnd (stateOf V (groups (tokens (ss.map readLine)))) = _ ↔ _
    have hend : parseEnd (stateOf V (groups (tokens (ss.map readLine))) : ParseState VARS CUBES) =
        if 0 < (groups (tokens (ss.map readLine))).2.length then .error (.thrown .endsMidCube)
        else .ok _ := rfl
    rw [hend]
    constructor
    · intro h
      split_ifs at h with hlast
      exact Or.inr ⟨hok, List.length_pos_iff.mp hlast, (Except.error.inj h).symm⟩
    · rintro (h | ⟨-, hlast, rfl⟩)
      · cases h
      · rw [if_pos (List.length_pos_iff.mpr hlast)]
  · obtain ⟨e, -, he⟩ := hbody.2 hok
    rw [he]
    exact ⟨fun h => Or.inl (congrArg Except.error (Except.error.inj h)),
      fun h => congrArg Except.error (Except.error.inj (h.resolve_right fun hn => hok hn.1))⟩

end Body

/-! ## The whole file -/

/-- Lines that are skipped do not change what is wrong. -/
theorem FirstOffence.cons_skipped {l : Line} (hl : l.isSkipped = true) {ls : List Line}
    {f : ParseFailure} (h : FirstOffence VARS CUBES ls f) : FirstOffence VARS CUBES (l :: ls) f := by
  have hcons : ∀ {pre : List Line}, (∀ l ∈ pre, l.isSkipped = true) →
      ∀ l' ∈ l :: pre, l'.isSkipped = true := fun h => List.forall_mem_cons.mpr ⟨hl, h⟩
  cases h with
  | missingHeader h => exact .missingHeader (hcons h)
  | literalsBeforeHeader pre hpre => exact .literalsBeforeHeader (l :: pre) (hcons hpre)
  | header pre hpre h => exact .header (l :: pre) (hcons hpre) h
  | duplicateHeader pre hpre hfits hbody =>
    exact .duplicateHeader (l :: pre) (hcons hpre) hfits hbody
  | literal pre hpre hfits hbody h => exact .literal (l :: pre) (hcons hpre) hfits hbody h
  | endsMidCube pre hpre hfits hbody h => exact .endsMidCube (l :: pre) (hcons hpre) hfits hbody h

/-- What is wrong before the end of a file is wrong with every file that goes on after it. -/
theorem FirstOffence.append {ls : List Line} {f : ParseFailure} (h : FirstOffence VARS CUBES ls f)
    (hheader : f ≠ .thrown .missingHeader) (hend : f ≠ .thrown .endsMidCube) (rest : List Line) :
    FirstOffence VARS CUBES (ls ++ rest) f := by
  cases h with
  | missingHeader => exact absurd rfl hheader
  | literalsBeforeHeader pre hpre =>
    rw [List.append_assoc, List.cons_append]
    exact .literalsBeforeHeader pre hpre
  | header pre hpre h =>
    rw [List.append_assoc, List.cons_append]
    exact .header pre hpre h
  | duplicateHeader pre hpre hfits hbody =>
    simp only [List.append_assoc, List.cons_append]
    exact .duplicateHeader pre hpre hfits hbody
  | literal pre hpre hfits hbody h =>
    rw [List.append_assoc, List.cons_append, List.append_assoc, List.cons_append]
    exact .literal pre hpre hfits hbody h
  | endsMidCube => exact absurd rfl hend

/-- The parser fails on the first offence. -/
theorem FirstOffence.parse_eq {content : List Char} {f : ParseFailure}
    (h : FirstOffence VARS CUBES (readLines content) f) :
    parse VARS CUBES (some content) = .error f := by
  obtain ⟨ls, hls⟩ : ∃ ls, ls = readLines content := ⟨_, rfl⟩
  rw [← hls] at h
  cases h with
  | missingHeader h =>
    rw [hls] at h
    rw [parse, foldlM_parseLine_skipped h]
    rfl
  | literalsBeforeHeader pre hpre =>
    obtain ⟨ss, rest, hss, rfl, hrest⟩ := List.map_eq_append_iff.mp hls.symm
    obtain ⟨s, post, rfl, hs, rfl⟩ := List.map_eq_cons_iff.mp hrest
    rw [parse, hss, List.foldlM_append, foldlM_parseLine_skipped hpre]
    change (s :: post).foldlM parseLine ParseState.init >>= parseEnd = _
    rw [List.foldlM_cons, parseLine_init_ints hs]
    rfl
  | header pre hpre h =>
    obtain ⟨ss, rest, hss, rfl, hrest⟩ := List.map_eq_append_iff.mp hls.symm
    obtain ⟨s, post, rfl, hs, rfl⟩ := List.map_eq_cons_iff.mp hrest
    rw [parse, hss, List.foldlM_append, foldlM_parseLine_skipped hpre]
    change (s :: post).foldlM parseLine ParseState.init >>= parseEnd = _
    rw [List.foldlM_cons, (parseLine_header_eq_error_iff hs f).mpr h]
    rfl
  | duplicateHeader pre hpre hfits hbody =>
    obtain ⟨hint, ss, hss, hparse⟩ := parse_of_header hls.symm hpre hfits
    rw [hparse, parseFrom_eq_error_iff hfits.2.1 hint,
      parseBody_eq_error_iff hfits.1 hfits.2.1 hint]
    exact Or.inl (Or.inl ⟨_, _, _, _, hss, hbody, rfl⟩)
  | literal pre hpre hfits hbody h =>
    obtain ⟨hint, ss, hss, hparse⟩ := parse_of_header hls.symm hpre hfits
    rw [hparse, parseFrom_eq_error_iff hfits.2.1 hint,
      parseBody_eq_error_iff hfits.1 hfits.2.1 hint]
    exact Or.inl (Or.inr ⟨_, _, _, _, _, hss, hbody, h⟩)
  | endsMidCube pre hpre hfits hbody h =>
    obtain ⟨hint, ss, hss, hparse⟩ := parse_of_header hls.symm hpre hfits
    rw [hparse, parseFrom_eq_error_iff hfits.2.1 hint, hss]
    exact Or.inr ⟨hbody, h, rfl⟩

/-- Where the loop over the lines fails, or the checks after it, something offends. -/
theorem firstOffence_of_parseLines {ss : List (List Char)} {f : ParseFailure}
    (h : (ss.foldlM parseLine (ParseState.init : ParseState VARS CUBES) >>= parseEnd) = .error f) :
    FirstOffence VARS CUBES (ss.map readLine) f := by
  induction ss with
  | nil =>
    obtain rfl := Except.error.inj h
    exact .missingHeader fun l hl => absurd hl List.not_mem_nil
  | cons s ss ih =>
    rw [List.map_cons]
    rw [List.foldlM_cons] at h
    cases hs : readLine s with
    | blank | comment =>
      rw [parseLine_skipped _ (by rw [hs]; rfl)] at h
      exact (ih h).cons_skipped rfl
    | ints xs =>
      rw [parseLine_init_ints hs] at h
      obtain rfl := Except.error.inj h
      exact .literalsBeforeHeader [] fun l hl => absurd hl List.not_mem_nil
    | header V C =>
      have hnil : ∀ l ∈ ([] : List Line), l.isSkipped = true := fun l hl => absurd hl List.not_mem_nil
      have hheader : Decides Thrown (Fits VARS CUBES V C) (stateOf V ([], [])) _ :=
        parseHeader_decides hs
      by_cases hfits : Fits VARS CUBES V C
      · rw [hheader.1 hfits] at h
        have hint := le_intMax_of_readLine hs
        rcases (parseFrom_eq_error_iff hfits.2.1 hint ss f).mp h with hlines | ⟨hbody, hlast, rfl⟩
        · rcases (parseBody_eq_error_iff hfits.1 hfits.2.1 hint ss f).mp hlines with
            ⟨body, V', C', post, hss, hbody, rfl⟩ | ⟨body, xs, x, ys, post, hss, hbody, hx⟩
          · rw [hss]
            exact .duplicateHeader [] hnil hfits hbody
          · rw [hss]
            exact .literal [] hnil hfits hbody hx
        · exact .endsMidCube [] hnil hfits hbody hlast
      · obtain ⟨e, -, he⟩ := hheader.2 hfits
        rw [he] at h
        obtain rfl : e = f := Except.error.inj h
        exact .header [] hnil ((parseLine_header_eq_error_iff hs e).mp he)

/-- More lines after a text; an empty one if its last line was already finished. -/
theorem getlines_append_newline (s more : List Char) :
    ∃ rest, getlines (s ++ '\n' :: more) = getlines s ++ rest := by
  induction s with
  | nil => exact ⟨_, rfl⟩
  | cons c s ih =>
    obtain ⟨rest, hrest⟩ := ih
    rw [List.cons_append, getlines, getlines]
    by_cases hc : c = '\n'
    · rw [if_pos hc, if_pos hc, hrest]
      exact ⟨rest, rfl⟩
    · rw [if_neg hc, if_neg hc, hrest]
      cases hs : getlines s with
      | cons l ls => exact ⟨rest, rfl⟩
      | nil =>
        -- only the empty text has no lines
        have hnil : s = [] := by
          cases s with
          | nil => rfl
          | cons d s =>
            rw [getlines] at hs
            split_ifs at hs
            split at hs <;> cases hs
        subst hnil
        obtain rfl : [] :: getlines more = rest := hrest
        exact ⟨_, rfl⟩

/-- **The parser reports the first offence**, and only that; and what it finds wrong before
the end of a file it reports of every file that goes on after it, whatever comes. -/
theorem parse_reports_first_offence (content : List Char) (f : ParseFailure) :
    (parse VARS CUBES (some content) = .error f ↔ FirstOffence VARS CUBES (readLines content) f) ∧
      (parse VARS CUBES (some content) = .error f → f ≠ .thrown .missingHeader →
        f ≠ .thrown .endsMidCube →
          ∀ more, parse VARS CUBES (some (content ++ '\n' :: more)) = .error f) := by
  have hfirst : parse VARS CUBES (some content) = .error f →
      FirstOffence VARS CUBES (readLines content) f := firstOffence_of_parseLines
  refine ⟨⟨hfirst, FirstOffence.parse_eq⟩, fun h hheader hend more => FirstOffence.parse_eq ?_⟩
  obtain ⟨rest, hrest⟩ := getlines_append_newline content more
  rw [readLines, hrest, List.map_append]
  exact (hfirst h).append hheader hend _

end MpcVazirani
