import MpcVazirani.DimacsGroups

/-! # The lines of a file

Whatever text a line holds, `parse` makes one of four things of it (`readLine`): it
skips it, takes it for a header, with the two numbers that the extractions leave, or
reads the integers it starts with.  What is left of a line after an extraction has
failed is not looked at, so a file is to `parse` the list of these readings
(`readLines`), and its outcome is a matter of them alone: it returns exactly if the
readings are `Accepts`, and it runs into the negation of the least int exactly if
they are `Overflows`.

Both predicates follow the file: lines that are skipped, then a header within the
capacity, then no other header and integers that keep the rules of their groups.
-/
namespace MpcVazirani
open IStream Recognizer

variable {VARS CUBES : Nat}

/-! ## What a line says -/

/-- A line without its text. -/
inductive Line where
  | blank
  | comment
  | header (V C : Int)
  | ints (xs : List Int)

/-- Blank lines and comments. -/
def Line.isSkipped : Line → Bool
  | .blank | .comment => true
  | _ => false

/-- The header lines. -/
def Line.isHeader : Line → Bool
  | .header _ _ => true
  | _ => false

/-- The integers of a line; those of a header do not count. -/
def Line.tokens : Line → List Int
  | .ints xs => xs
  | _ => []

@[simp] theorem tokens_blank : Line.blank.tokens = [] := rfl

@[simp] theorem tokens_comment : Line.comment.tokens = [] := rfl

/-- The integers of a file. -/
def tokens (ls : List Line) : List Int := ls.flatMap Line.tokens

theorem tokens_append (ls : List Line) (l : Line) : tokens (ls ++ [l]) = tokens ls ++ l.tokens := by
  rw [tokens, List.flatMap_append, List.flatMap_singleton, tokens]

theorem tokens_skipped {l : Line} (hl : l.isSkipped = true) (ls : List Line) :
    tokens (l :: ls) = tokens ls := by
  cases l with
  | blank | comment => rfl
  | header | ints => cases hl

theorem tokens_skipped_append {pre : List Line} (hpre : ∀ l ∈ pre, l.isSkipped = true)
    (ls : List Line) : tokens (pre ++ ls) = tokens ls := by
  induction pre with
  | nil => rfl
  | cons l pre ih =>
    obtain ⟨hl, hpre⟩ := List.forall_mem_cons.mp hpre
    rw [List.cons_append, tokens_skipped hl, ih hpre]

/-- The number of variables a `p` line declares.  A line whose second word is not
`dnf` declares none, which is malformed as well. -/
def declaredVars (s : List Char) : Int :=
  let iss1 := (readString ⟨s, false⟩ []).1
  let iss2 := (readString iss1 []).1
  if (readString iss1 []).2 = ['d', 'n', 'f'] then (readInt iss2 0).2 else 0

/-- The number of cubes a `p` line declares, or zero where it is missing. -/
def declaredCubes (s : List Char) : Int :=
  let iss1 := (readString ⟨s, false⟩ []).1
  let iss2 := (readString iss1 []).1
  (readInt (readInt iss2 0).1 0).2

/-- What `parse` makes of a line. -/
def readLine (s : List Char) : Line :=
  match s.dropWhile isBlank with
  | [] => .blank
  | c :: rest =>
    if c = 'c' then .comment
    else if c = 'p' then .header (declaredVars (c :: rest)) (declaredCubes (c :: rest))
    else .ints (readInts ⟨s, false⟩)

/-- What `parse` makes of a file. -/
def readLines (content : List Char) : List Line := (getlines content).map readLine

/-- What the first character that is not skipped decides. -/
theorem readLine_cases (s : List Char) :
    (s.dropWhile isBlank = [] ∧ readLine s = .blank) ∨
    (∃ rest, s.dropWhile isBlank = 'c' :: rest ∧ readLine s = .comment) ∨
    (∃ rest, s.dropWhile isBlank = 'p' :: rest ∧
      readLine s = .header (declaredVars ('p' :: rest)) (declaredCubes ('p' :: rest))) ∨
    ∃ c rest, s.dropWhile isBlank = c :: rest ∧ c ≠ 'c' ∧ c ≠ 'p' ∧
      readLine s = .ints (readInts ⟨s, false⟩) := by
  unfold readLine
  cases s.dropWhile isBlank with
  | nil => exact Or.inl ⟨rfl, rfl⟩
  | cons c rest =>
    dsimp only
    split_ifs with hc hp
    · exact Or.inr (Or.inl ⟨rest, by rw [hc], rfl⟩)
    · exact Or.inr (Or.inr (Or.inl ⟨rest, by rw [hp], by rw [hp]⟩))
    · exact Or.inr (Or.inr (Or.inr ⟨c, rest, rfl, hc, hp, rfl⟩))

theorem readLine_eq_header {s : List Char} {V C : Int} (h : readLine s = .header V C) :
    ∃ rest, s.dropWhile isBlank = 'p' :: rest ∧ V = declaredVars ('p' :: rest) ∧
      C = declaredCubes ('p' :: rest) := by
  rcases readLine_cases s with ⟨-, hs⟩ | ⟨_, -, hs⟩ | ⟨rest, hdrop, hs⟩ | ⟨_, _, -, -, -, hs⟩
  all_goals rw [hs] at h
  · cases h
  · cases h
  · obtain ⟨rfl, rfl⟩ := Line.header.inj h
    exact ⟨rest, hdrop, rfl, rfl⟩
  · cases h

theorem readLine_eq_ints {s : List Char} {xs : List Int} (h : readLine s = .ints xs) :
    xs = readInts ⟨s, false⟩ ∧ ∃ c rest, s.dropWhile isBlank = c :: rest ∧ c ≠ 'c' ∧ c ≠ 'p' := by
  rcases readLine_cases s with ⟨-, hs⟩ | ⟨_, -, hs⟩ | ⟨_, -, hs⟩ | ⟨c, rest, hdrop, hc, hp, hs⟩
  all_goals rw [hs] at h
  · cases h
  · cases h
  · cases h
  · exact ⟨(Line.ints.inj h).symm, c, rest, hdrop, hc, hp⟩

/-- A declared number of variables is an int. -/
theorem declaredVars_le (s : List Char) : declaredVars s ≤ intMax := by
  unfold declaredVars
  dsimp only
  split_ifs with hfmt
  · exact (fitsInt_readInt _ (by decide)).2
  · decide

theorem le_intMax_of_readLine {s : List Char} {V C : Int} (h : readLine s = .header V C) :
    V ≤ intMax := by
  obtain ⟨rest, -, rfl, -⟩ := readLine_eq_header h
  exact declaredVars_le _

/-! ## One line -/

theorem parseLine_skipped (st : ParseState VARS CUBES) {s : List Char}
    (h : (readLine s).isSkipped = true) : parseLine st s = .ok st := by
  unfold parseLine
  rcases readLine_cases s with ⟨hdrop, -⟩ | ⟨_, hdrop, -⟩ | ⟨_, -, hs⟩ | ⟨_, _, -, -, -, hs⟩
  · rw [hdrop]
  · rw [hdrop]
    rfl
  · rw [hs] at h
    cases h
  · rw [hs] at h
    cases h

theorem parseLine_eq_parseHeader (st : ParseState VARS CUBES) {s : List Char} {V C : Int}
    (h : readLine s = .header V C) : parseLine st s = parseHeader st (s.dropWhile isBlank) := by
  obtain ⟨rest, hdrop, -, -⟩ := readLine_eq_header h
  rw [parseLine, hdrop]
  rfl

/-- The header branch, given what the line declares. -/
theorem parseLine_header {st : ParseState VARS CUBES} (hst : st.haveHeader = false)
    (hvars : st.fileVars = 0) {s : List Char} {V C : Int} (h : readLine s = .header V C) :
    parseLine st s =
      if V ≤ 0 then .error (.thrown .malformedHeader)
      else if (VARS : Int) < V then .error (.thrown (.tooManyVars V))
      else if (CUBES : Int) < C then .error (.thrown (.tooManyCubesDeclared C))
      else .ok ({ st with haveHeader := true, fileVars := V } : ParseState _ _).resetCurrent := by
  obtain ⟨rest, hdrop, rfl, rfl⟩ := readLine_eq_header h
  rw [parseLine_eq_parseHeader st h, hdrop]
  unfold parseHeader declaredVars declaredCubes
  rw [hst, hvars, if_neg Bool.false_ne_true]
  dsimp only
  by_cases hfmt : (readString (readString ⟨'p' :: rest, false⟩ []).1 []).2 = ['d', 'n', 'f']
  · rw [if_pos hfmt]
    simp only [hfmt, ne_eq, not_true_eq_false, false_or]
  · have hmalformed : ∀ V : Int, ((readString (readString ⟨'p' :: rest, false⟩ []).1 []).2 ≠
        ['d', 'n', 'f'] ∨ V ≤ 0) := fun _ => Or.inl hfmt
    rw [if_neg hfmt, if_pos (hmalformed _), if_pos (Int.le_refl 0)]

/-- A line of integers: each goes through the body of the inner loop. -/
theorem parseLine_ints (st : ParseState VARS CUBES) {s : List Char} {xs : List Int}
    (h : readLine s = .ints xs) :
    parseLine st s =
      if st.haveHeader = false then .error (.thrown .literalsBeforeHeader)
      else xs.foldlM parseLiteral st := by
  obtain ⟨rfl, c, rest, hdrop, hc, hp⟩ := readLine_eq_ints h
  rw [parseLine, hdrop]
  dsimp only
  rw [if_neg hc, if_neg hp]

/-! ## The lines after the header -/

/-- What has been read after the header breaks no rule. -/
def BodyOk (V : Int) (CUBES : Nat) (ls : List Line) : Prop :=
  (∀ l ∈ ls, l.isHeader = false) ∧ Readable V CUBES (groups (tokens ls))

theorem bodyOk_nil (V : Int) (CUBES : Nat) : BodyOk V CUBES [] :=
  ⟨fun _ h => absurd h List.not_mem_nil, readable_nil V CUBES⟩

theorem bodyOk_append {V : Int} {ls : List Line} {l : Line} :
    BodyOk V CUBES (ls ++ [l]) ↔ (∀ l' ∈ ls, l'.isHeader = false) ∧ l.isHeader = false ∧
      Readable V CUBES (groups (tokens ls ++ l.tokens)) := by
  rw [BodyOk, tokens_append, List.forall_mem_append, List.forall_mem_singleton, and_assoc]

/-- No later line mends a broken rule. -/
theorem BodyOk.of_append {V : Int} {ls : List Line} {l : Line} (h : BodyOk V CUBES (ls ++ [l])) :
    BodyOk V CUBES ls := by
  obtain ⟨hheader, _, hread⟩ := bodyOk_append.mp h
  rw [groups_append] at hread
  exact ⟨hheader, hread.of_foldl⟩

section Body
variable {V : Int} (hV : V ≤ VARS) (hint : V ≤ intMax)
include hV hint

/-- One line after the header. -/
theorem parseLine_decides {ls : List Line} (h : BodyOk V CUBES ls) (s : List Char) :
    Decides (fun _ => True) (BodyOk V CUBES (ls ++ [readLine s]))
      (stateOf V (groups (tokens (ls ++ [readLine s]))))
      (parseLine (stateOf V (groups (tokens ls)) : ParseState VARS CUBES) s) := by
  obtain ⟨hheader, hread⟩ := h
  rw [tokens_append, bodyOk_append]
  cases hs : readLine s with
  | blank | comment =>
    rw [parseLine_skipped _ (by rw [hs]; rfl)]
    simp only [tokens_blank, tokens_comment, List.append_nil]
    exact decides_ok ⟨hheader, rfl, hread⟩
  | header V' C =>
    rw [parseLine_eq_parseHeader _ hs, parseHeader]
    exact decides_error (fun hn => Bool.noConfusion hn.2.1) trivial
  | ints xs =>
    rw [parseLine_ints _ hs, if_neg Bool.noConfusion]
    exact (parseLiterals_decides hV hint xs hread).congr
      ⟨fun hr => ⟨hheader, rfl, hr⟩, fun hn => hn.2.2⟩

/-- **All the lines after the header.** -/
theorem parseBody_decides (ss : List (List Char)) :
    Decides (fun _ => True) (BodyOk V CUBES (ss.map readLine))
      (stateOf V (groups (tokens (ss.map readLine))))
      (ss.foldlM parseLine (stateOf V ([], []) : ParseState VARS CUBES)) := by
  refine foldlM_decides (fun ls => (stateOf V (groups (tokens ls)) : ParseState VARS CUBES))
    (BodyOk V CUBES) (fun s l => readLine s = l) (fun _ _ => BodyOk.of_append) ?_
    (List.forall₂_map_right_iff.mpr (List.forall₂_same.mpr fun _ _ => rfl)) (bodyOk_nil V CUBES)
  rintro ls - s rfl h
  exact parseLine_decides hV hint h s

/-- **Where the lines after the header fail**: at another header, or at an integer on which
the body of the inner loop fails, what stands before it keeping the rules. -/
theorem parseBody_eq_error {ss : List (List Char)} {f : ParseFailure}
    (h : ss.foldlM parseLine (stateOf V ([], []) : ParseState VARS CUBES) = .error f) :
    ∃ body l post, ss.map readLine = body ++ l :: post ∧ BodyOk V CUBES body ∧
      ((l.isHeader = true ∧ f = .thrown .duplicateHeader) ∨
        ∃ xs x ys, l = .ints (xs ++ x :: ys) ∧ Readable V CUBES (groups (tokens body ++ xs)) ∧
          parseLiteral (stateOf V (groups (tokens body ++ xs)) : ParseState VARS CUBES) x =
            .error f) := by
  obtain ⟨pre, s, post, st, rfl, hpre, hs⟩ := foldlM_eq_error_iff.mp h
  obtain ⟨hbody, rfl⟩ := ((parseBody_decides hV hint pre).eq_ok_iff st).mp hpre
  refine ⟨pre.map readLine, readLine s, post.map readLine, ?_, hbody, ?_⟩
  · rw [List.map_append, List.map_cons]
  · cases hread : readLine s with
    | blank | comment =>
      rw [parseLine_skipped _ (by rw [hread]; rfl)] at hs
      cases hs
    | header V' C =>
      rw [parseLine_eq_parseHeader _ hread, parseHeader] at hs
      exact Or.inl ⟨rfl, (Except.error.inj hs).symm⟩
    | ints zs =>
      rw [parseLine_ints _ hread, if_neg Bool.noConfusion] at hs
      obtain ⟨xs, x, ys, st, rfl, hxs, hx⟩ := foldlM_eq_error_iff.mp hs
      obtain ⟨hread', rfl⟩ := ((parseLiterals_decides hV hint xs hbody.2).eq_ok_iff st).mp hxs
      exact Or.inr ⟨xs, x, ys, rfl, hread', hx⟩

/-- The lines after the header are undefined to read exactly if some integer cannot be
negated and what stands before it keeps the rules. -/
theorem parseBody_undefined_iff (ss : List (List Char)) :
    ss.foldlM parseLine (stateOf V ([], []) : ParseState VARS CUBES) = .error .undefined ↔
      ∃ body xs ys post, ss.map readLine = body ++ .ints (xs ++ intMin :: ys) :: post ∧
        BodyOk V CUBES (body ++ [.ints xs]) := by
  constructor
  · intro h
    obtain ⟨body, l, post, hss, hbody, hheader | ⟨xs, x, ys, rfl, hread, hx⟩⟩ :=
      parseBody_eq_error hV hint h
    · cases hheader.2
    · obtain rfl := (parseLiteral_undefined_iff hV hint hread x).mp hx
      exact ⟨body, xs, ys, post, hss, bodyOk_append.mpr ⟨hbody.1, rfl, hread⟩⟩
  · rintro ⟨body, xs, ys, post, hss, hok⟩
    obtain ⟨pre, rest, rfl, rfl, hrest⟩ := List.map_eq_append_iff.mp hss
    obtain ⟨s, post, rfl, hs, rfl⟩ := List.map_eq_cons_iff.mp hrest
    have hbody := (parseBody_decides hV hint pre).1 hok.of_append
    refine foldlM_eq_error_iff.mpr ⟨pre, s, post, _, rfl, hbody, ?_⟩
    rw [parseLine_ints _ hs, if_neg Bool.noConfusion,
      parseLiterals_undefined_iff hV hint _ hok.of_append.2]
    exact ⟨xs, ys, rfl, (bodyOk_append.mp hok).2.2⟩

end Body

/-! ## The whole file -/

/-- A header within the capacity. -/
def Fits (VARS CUBES : Nat) (V C : Int) : Prop := 1 ≤ V ∧ V ≤ VARS ∧ C ≤ CUBES

/-- The state after lines that break no rule. -/
def StateAfter : List Line → ParseState VARS CUBES → Prop
  | [], st => st = .init
  | .blank :: ls, st | .comment :: ls, st => StateAfter ls st
  | .header V C :: ls, st =>
    Fits VARS CUBES V C ∧ BodyOk V CUBES ls ∧ st = stateOf V (groups (tokens ls))
  | .ints _ :: _, _ => False

/-- The lines are those of a file that is accepted, and its cubes are the groups
`gs`. -/
def Accepts (VARS CUBES : Nat) : List Line → List (List Int) → Prop
  | [], _ => False
  | .blank :: ls, gs | .comment :: ls, gs => Accepts VARS CUBES ls gs
  | .header V C :: ls, gs =>
    Fits VARS CUBES V C ∧ BodyOk V CUBES ls ∧ groups (tokens ls) = (gs, [])
  | .ints _ :: _, _ => False

/-- Some integer is the one that cannot be negated, and what stands before it breaks
no rule. -/
def Overflows (VARS CUBES : Nat) : List Line → Prop
  | [] => False
  | .blank :: ls | .comment :: ls => Overflows VARS CUBES ls
  | .header V C :: ls =>
    Fits VARS CUBES V C ∧ ∃ body xs ys post,
      ls = body ++ .ints (xs ++ intMin :: ys) :: post ∧ BodyOk V CUBES (body ++ [.ints xs])
  | .ints _ :: _ => False

/-- The state after the header. -/
theorem init_header (V : Int) :
    ({ (ParseState.init : ParseState VARS CUBES) with
      haveHeader := true, fileVars := V } : ParseState _ _).resetCurrent = stateOf V ([], []) := by
  simp only [ParseState.init, ParseState.resetCurrent, stateOf, fillTo, cubeOf_nil,
    List.getElem?_nil, Option.elim_none, List.length_nil]

/-- The first line that is not skipped, when it is a header. -/
theorem parseHeader_decides {s : List Char} {V C : Int} (h : readLine s = .header V C) :
    Decides Thrown (Fits VARS CUBES V C) (stateOf V ([], []))
      (parseLine (ParseState.init : ParseState VARS CUBES) s) := by
  rw [parseLine_header rfl rfl h, init_header, Fits]
  by_cases hone : V ≤ 0
  · rw [if_pos hone]
    exact decides_error (by omega) ⟨_, rfl⟩
  · rw [if_neg hone]
    by_cases hvars : (VARS : Int) < V
    · rw [if_pos hvars]
      exact decides_error (by omega) ⟨_, rfl⟩
    · rw [if_neg hvars]
      by_cases hcubes : (CUBES : Int) < C
      · rw [if_pos hcubes]
        exact decides_error (by omega) ⟨_, rfl⟩
      · rw [if_neg hcubes]
        exact decides_ok (by omega)

/-- Where integers come before any header, the run ends at once. -/
theorem parseLine_init_ints {s : List Char} {xs : List Int} (h : readLine s = .ints xs) :
    parseLine (ParseState.init : ParseState VARS CUBES) s =
      .error (.thrown .literalsBeforeHeader) := by
  rw [parseLine_ints _ h]
  rfl

/-- A header and the lines after it. -/
theorem parseFrom_header_decides {s : List Char} {V C : Int} (h : readLine s = .header V C)
    (ss : List (List Char)) :
    Decides (fun _ => True) (Fits VARS CUBES V C ∧ BodyOk V CUBES (ss.map readLine))
      (stateOf V (groups (tokens (ss.map readLine))))
      ((s :: ss).foldlM parseLine (ParseState.init : ParseState VARS CUBES)) := by
  rw [List.foldlM_cons]
  refine Decides.bind ((parseHeader_decides h).mono fun _ _ => trivial) (fun hq => hq.1) ?_
  intro hfits
  exact (parseBody_decides hfits.2.1 (le_intMax_of_readLine h) ss).congr
    ⟨fun hbody => ⟨hfits, hbody⟩, fun hq => hq.2⟩

/-- **The states of a run**, after any number of lines. -/
theorem parseLines_eq_ok_iff (ss : List (List Char)) (st : ParseState VARS CUBES) :
    ss.foldlM parseLine .init = .ok st ↔ StateAfter (ss.map readLine) st := by
  induction ss with
  | nil => exact ⟨fun h => (Except.ok.inj h).symm, fun h => congrArg Except.ok h.symm⟩
  | cons s ss ih =>
    rw [List.map_cons]
    cases hs : readLine s with
    | blank | comment =>
      rw [List.foldlM_cons, parseLine_skipped _ (by rw [hs]; rfl)]
      exact ih
    | header V C =>
      rw [(parseFrom_header_decides hs ss).eq_ok_iff, and_assoc]
      rfl
    | ints xs =>
      rw [List.foldlM_cons, parseLine_init_ints hs]
      exact iff_of_false (fun h => by cases h) id

/-- What a run carries is the initial state, or under a header that of the groups read. -/
theorem parseLines_cases {ss : List (List Char)} {st : ParseState VARS CUBES}
    (h : ss.foldlM parseLine .init = .ok st) :
    st = .init ∨ ∃ (V : Int) (xs : List Int), 1 ≤ V ∧ V ≤ VARS ∧ V ≤ intMax ∧
      Readable V CUBES (groups xs) ∧ st = stateOf V (groups xs) := by
  rw [parseLines_eq_ok_iff] at h
  induction ss with
  | nil => exact Or.inl h
  | cons s ss ih =>
    rw [List.map_cons] at h
    cases hs : readLine s with
    | blank | comment =>
      rw [hs] at h
      exact ih h
    | header V C =>
      rw [hs] at h
      obtain ⟨hfits, hbody, rfl⟩ := h
      exact Or.inr ⟨V, _, hfits.1, hfits.2.1, le_intMax_of_readLine hs, hbody.2, rfl⟩
    | ints xs =>
      rw [hs] at h
      exact h.elim

theorem accepts_skipped_append {pre : List Line} (hpre : ∀ l ∈ pre, l.isSkipped = true)
    (ls : List Line) (gs : List (List Int)) :
    Accepts VARS CUBES (pre ++ ls) gs ↔ Accepts VARS CUBES ls gs := by
  induction pre with
  | nil => exact Iff.rfl
  | cons l pre ih =>
    obtain ⟨hl, hrest⟩ := List.forall_mem_cons.mp hpre
    cases l with
    | blank | comment => exact ih hrest
    | header | ints => cases hl

/-- **An accepted file**: lines that are skipped, a header within the capacity, and then
finished groups that break no rule. -/
theorem accepts_iff {ls : List Line} {gs : List (List Int)} :
    Accepts VARS CUBES ls gs ↔ ∃ pre V C body, ls = pre ++ .header V C :: body ∧
      (∀ l ∈ pre, l.isSkipped = true) ∧ Fits VARS CUBES V C ∧ BodyOk V CUBES body ∧
      groups (tokens body) = (gs, []) := by
  constructor
  · intro h
    induction ls with
    | nil => exact h.elim
    | cons l ls ih =>
      cases l with
      | blank | comment =>
        obtain ⟨pre, V, C, body, rfl, hpre, hrest⟩ := ih h
        exact ⟨_ :: pre, V, C, body, rfl, List.forall_mem_cons.mpr ⟨rfl, hpre⟩, hrest⟩
      | ints => exact h.elim
      | header V C => exact ⟨[], V, C, ls, rfl, fun _ hl => absurd hl List.not_mem_nil, h⟩
  · rintro ⟨pre, V, C, body, rfl, hpre, hrest⟩
    exact (accepts_skipped_append hpre _ gs).mpr hrest

/-- The cubes of an accepted file keep the rules, under its header. -/
theorem Accepts.readable {ls : List Line} {gs : List (List Int)} (h : Accepts VARS CUBES ls gs) :
    ∃ V : Int, V ≤ VARS ∧ Readable V CUBES (gs, []) := by
  obtain ⟨_, V, _, _, -, -, hfits, hbody, hgroups⟩ := accepts_iff.mp h
  exact ⟨V, hfits.2.1, hgroups ▸ hbody.2⟩

theorem Accepts.length_le {ls : List Line} {gs : List (List Int)} (h : Accepts VARS CUBES ls gs) :
    gs.length ≤ CUBES := by
  obtain ⟨V, -, hread⟩ := h.readable
  exact hread.length

/-- Its integers are those of its cubes. -/
theorem Accepts.groups_eq {ls : List Line} {gs : List (List Int)} (h : Accepts VARS CUBES ls gs) :
    groups (tokens ls) = (gs, []) := by
  obtain ⟨pre, V, C, body, rfl, hpre, -, -, hgroups⟩ := accepts_iff.mp h
  rw [tokens_skipped_append hpre]
  exact hgroups

/-- What one capacity accepts is accepted by every larger one, with the same cubes. -/
theorem Accepts.mono {VARS' CUBES' : Nat} (hvars : VARS ≤ VARS') (hcubes : CUBES ≤ CUBES')
    {ls : List Line} {gs : List (List Int)} (h : Accepts VARS CUBES ls gs) :
    Accepts VARS' CUBES' ls gs := by
  obtain ⟨pre, V, C, body, rfl, hpre, ⟨hone, hV, hC⟩, ⟨hheader, hread⟩, hgroups⟩ := accepts_iff.mp h
  refine accepts_iff.mpr ⟨pre, V, C, body, rfl, hpre, ⟨hone, ?_, ?_⟩, ⟨hheader, ?_⟩, hgroups⟩
  · exact hV.trans (Int.ofNat_le.mpr hvars)
  · exact hC.trans (Int.ofNat_le.mpr hcubes)
  · exact ⟨hread.length.trans hcubes, hread.range, hread.distinct⟩

/-- The last checks, after lines that break no rule: the header must be there and the
groups all finished. -/
theorem parseEnd_eq_ok_iff {ls : List Line} {d : Dnf VARS CUBES} :
    (∃ st, StateAfter ls st ∧ parseEnd st = .ok d) ↔
      ∃ gs, Accepts VARS CUBES ls gs ∧ d = fillTo gs Cube.padding := by
  induction ls with
  | nil =>
    refine iff_of_false ?_ fun ⟨gs, hgs, _⟩ => hgs
    rintro ⟨st, rfl, hd⟩
    cases hd
  | cons l ls ih =>
    cases l with
    | blank | comment => exact ih
    | ints xs => exact iff_of_false (fun ⟨st, hst, _⟩ => hst) fun ⟨gs, hgs, _⟩ => hgs
    | header V C =>
      constructor
      · rintro ⟨st, ⟨hfits, hbody, rfl⟩, hd⟩
        obtain ⟨hlast, rfl⟩ := ((parseEnd_decides hbody.2).eq_ok_iff d).mp hd
        exact ⟨_, ⟨hfits, hbody, Prod.ext rfl hlast⟩, rfl⟩
      · rintro ⟨gs, ⟨hfits, hbody, hgroups⟩, rfl⟩
        refine ⟨_, ⟨hfits, hbody, rfl⟩, ?_⟩
        rw [(parseEnd_decides hbody.2).1 (by rw [hgroups]), hgroups]

theorem parse_eq_ok_iff_parseEnd (content : List Char) (d : Dnf VARS CUBES) :
    parse VARS CUBES (some content) = .ok d ↔
      ∃ st, (getlines content).foldlM parseLine .init = .ok st ∧ parseEnd st = .ok d := by
  rw [parse]
  cases (getlines content).foldlM parseLine (ParseState.init : ParseState VARS CUBES) with
  | error e => exact iff_of_false (fun h => by cases h) fun ⟨st, hst, _⟩ => by cases hst
  | ok st => exact ⟨fun h => ⟨st, rfl, h⟩, fun ⟨st', hst, h⟩ => Except.ok.inj hst ▸ h⟩

/-- **The parser returns exactly on the files it accepts**, whatever they hold, and
the cubes are those of their groups. -/
theorem parse_eq_ok_iff (content : List Char) (d : Dnf VARS CUBES) :
    parse VARS CUBES (some content) = .ok d ↔
      ∃ gs, Accepts VARS CUBES (readLines content) gs ∧ d = fillTo gs Cube.padding := by
  rw [parse_eq_ok_iff_parseEnd, ← parseEnd_eq_ok_iff]
  simp only [readLines, parseLines_eq_ok_iff]

/-- The last checks are always defined. -/
theorem parseEnd_ne_undefined (st : ParseState VARS CUBES) : parseEnd st ≠ .error .undefined := by
  unfold parseEnd
  split_ifs <;> exact fun h => by cases h

/-- Only the lines can be undefined to read. -/
theorem parse_undefined_iff_parseLines (content : List Char) :
    parse VARS CUBES (some content) = .error .undefined ↔
      (getlines content).foldlM parseLine (ParseState.init : ParseState VARS CUBES) =
        .error .undefined := by
  rw [parse]
  cases (getlines content).foldlM parseLine (ParseState.init : ParseState VARS CUBES) with
  | error e =>
    exact ⟨fun h => congrArg Except.error (Except.error.inj h),
      fun h => congrArg Except.error (Except.error.inj h)⟩
  | ok st => exact iff_of_false (parseEnd_ne_undefined st) fun h => by cases h

/-- **The parser runs into the negation of the least int exactly on the files that
overflow.** -/
theorem parse_undefined_iff (content : List Char) :
    parse VARS CUBES (some content) = .error .undefined ↔
      Overflows VARS CUBES (readLines content) := by
  rw [parse_undefined_iff_parseLines, readLines]
  induction getlines content with
  | nil => exact iff_of_false (fun h => by cases h) id
  | cons s ss ih =>
    rw [List.map_cons]
    cases hs : readLine s with
    | blank | comment =>
      rw [List.foldlM_cons, parseLine_skipped _ (by rw [hs]; rfl)]
      exact ih
    | ints xs =>
      rw [List.foldlM_cons, parseLine_init_ints hs]
      exact iff_of_false (fun h => by cases h) id
    | header V C =>
      have hheader : Decides Thrown (Fits VARS CUBES V C) (stateOf V ([], [])) _ :=
        parseHeader_decides hs
      by_cases hfits : Fits VARS CUBES V C
      · rw [List.foldlM_cons, hheader.1 hfits]
        change ss.foldlM parseLine (stateOf V ([], [])) = .error .undefined ↔ _
        rw [parseBody_undefined_iff hfits.2.1 (le_intMax_of_readLine hs)]
        exact (and_iff_right hfits).symm
      · obtain ⟨_, ⟨e, rfl⟩, he⟩ := hheader.2 hfits
        rw [List.foldlM_cons, he]
        exact iff_of_false (fun h => by cases h) fun h => hfits h.1

/-- On every other file it throws. -/
theorem parse_thrown_iff (content : List Char) :
    (∃ e, parse VARS CUBES (some content) = .error (.thrown e)) ↔
      (¬ ∃ gs, Accepts VARS CUBES (readLines content) gs) ∧
        ¬ Overflows VARS CUBES (readLines content) := by
  rw [← parse_undefined_iff]
  have hok : (∃ gs, Accepts VARS CUBES (readLines content) gs) ↔
      ∃ d, parse VARS CUBES (some content) = .ok d := by
    simp only [parse_eq_ok_iff]
    exact ⟨fun ⟨gs, hgs⟩ => ⟨_, gs, hgs, rfl⟩, fun ⟨_, gs, hgs, _⟩ => ⟨gs, hgs⟩⟩
  rw [hok]
  cases parse VARS CUBES (some content) with
  | ok d => simp
  | error f => cases f <;> simp

/-- **Accepting only good files.**  If good files are accepted with a right result, then to
return only right results and throw on the others is to have good files only, apart from
those that are rejected whether good or not. -/
theorem throws_unless_iff {content : List Char} {Good : Prop} {Right : Dnf VARS CUBES → Prop}
    (h : Good → ∀ d, parse VARS CUBES (some content) = .ok d → Right d) :
    ((∀ d, parse VARS CUBES (some content) = .ok d → Right d) ∧
        (¬ Good → ∃ e, parse VARS CUBES (some content) = .error (.thrown e))) ↔
      Good ∨ ((¬ ∃ gs, Accepts VARS CUBES (readLines content) gs) ∧
        ¬ Overflows VARS CUBES (readLines content)) := by
  rw [← parse_thrown_iff]
  constructor
  · rintro ⟨-, hreject⟩
    by_cases hgood : Good
    · exact Or.inl hgood
    · exact Or.inr (hreject hgood)
  · rintro (hgood | ⟨e, he⟩)
    · exact ⟨h hgood, fun hno => absurd hgood hno⟩
    · refine ⟨fun d hd => ?_, fun _ => ⟨e, he⟩⟩
      rw [he] at hd
      cases hd

end MpcVazirani
