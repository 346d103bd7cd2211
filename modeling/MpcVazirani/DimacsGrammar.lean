import MpcVazirani.DimacsLines

/-! # The language of the parser

A well-lexed file is a list of lines, each blank, a comment, a header or some
integers (`IsLine`).  Which of these files are accepted is said without the parser,
on the integers of the whole file (`Says`): where a line ends, and what blank lines
and comments stand between, makes no difference.

Malformed tokens are outside this language, and so are the cubes that repeat a
literal, which the parser rejects although they are satisfiable.
-/
namespace MpcVazirani
open IStream Recognizer

variable {VARS CUBES : Nat}

/-! ## Lines -/

/-- The text `s` is written as the line. -/
inductive IsLine : List Char → Line → Prop
  | blank {s : List Char} (h : ∀ c ∈ s, isBlank c = true) : IsLine s .blank
  | comment {s rest : List Char} (h : s.dropWhile isBlank = 'c' :: rest) : IsLine s .comment
  | header {s rest tV tC : List Char} {V C : Int} (h : s.dropWhile isBlank = 'p' :: rest)
      (hwords : words s = [['p'], ['d', 'n', 'f'], tV, tC])
      (hV : Decimal tV V) (hC : Decimal tC C) (hVfits : FitsInt V) (hCfits : FitsInt C) :
      IsLine s (.header V C)
  | ints {s : List Char} {xs : List Int} (hne : xs ≠ [])
      (hwords : List.Forall₂ Decimal (words s) xs) (hfits : ∀ x ∈ xs, (x.natAbs : Int) ≤ intMax) :
      IsLine s (.ints xs)

/-! ## The language -/

/-- One header, before every line of integers, with numbers within the capacity and
no literal beyond what it declares. -/
def HeaderOk (VARS CUBES : Nat) (ls : List Line) : Prop :=
  ∃ pre V C body, ls = pre ++ Line.header V C :: body ∧ (∀ l ∈ pre, l.isSkipped = true) ∧
    (∀ l ∈ body, l.isHeader = false) ∧ 1 ≤ V ∧ V ≤ VARS ∧ C ≤ CUBES ∧
    ∀ x ∈ tokens ls, (x.natAbs : Int) ≤ V

/-- The file is in the language, and its cubes are the groups `gs`: its integers are
these groups with a zero after each, none of them has a literal and its negation, and
they fit. -/
structure Says (VARS CUBES : Nat) (ls : List Line) (gs : List (List Int)) : Prop where
  header : HeaderOk VARS CUBES ls
  spells : tokens ls = gs.flatMap (· ++ [0])
  nonzero : ∀ g ∈ gs, 0 ∉ g
  length : gs.length ≤ CUBES
  consistent : ∀ g ∈ gs, ∀ v, v ∈ g → -v ∉ g

/-- The cubes are those of the groups, and then padding. -/
structure Encodes (d : Dnf VARS CUBES) (gs : List (List Int)) : Prop where
  cube : ∀ (k : Fin CUBES) (hk : k.val < gs.length), (d.cubes k).pad = false ∧
    ∀ v : Fin VARS,
      ((d.cubes k).mask v = true ↔ (v.val : Int) + 1 ∈ gs[k] ∨ -((v.val : Int) + 1) ∈ gs[k]) ∧
        ((d.cubes k).bits v = true ↔ (v.val : Int) + 1 ∈ gs[k])
  padding : ∀ k : Fin CUBES, gs.length ≤ k.val → (d.cubes k).pad = true ∧
    ∀ v : Fin VARS, (d.cubes k).bits v = true ∧ (d.cubes k).mask v = false

theorem fillTo_encodes (gs : List (List Int)) :
    Encodes (fillTo gs Cube.padding : Dnf VARS CUBES) gs where
  cube k hk := by
    rw [fillTo_cubes, List.getElem?_eq_getElem hk]
    exact ⟨rfl, fun v => ⟨decide_eq_true_iff, decide_eq_true_iff⟩⟩
  padding k hk := by
    rw [fillTo_cubes, List.getElem?_eq_none hk]
    exact ⟨rfl, fun v => ⟨rfl, rfl⟩⟩

/-- The cubes of a file in the language are its groups. -/
theorem Says.groups_eq {ls : List Line} {gs : List (List Int)} (h : Says VARS CUBES ls gs) :
    groups (tokens ls) = (gs, []) := groups_eq_iff.mpr ⟨h.spells, h.nonzero⟩

/-! ## Reading a line -/

theorem isSpace_of_isBlank {c : Char} (h : isBlank c = true) : isSpace c = true := by
  simp only [isBlank, Bool.or_eq_true, beq_iff_eq] at h
  rcases h with ((rfl | rfl) | rfl) | rfl <;> rfl

/-- What `find_first_not_of` skips is white space. -/
theorem words_dropWhile_isBlank (s : List Char) : words (s.dropWhile isBlank) = words s := by
  induction s with
  | nil => rfl
  | cons c s ih =>
    by_cases hc : isBlank c = true
    · rw [List.dropWhile_cons_of_pos hc, ih, words_cons_space (isSpace_of_isBlank hc)]
    · rw [List.dropWhile_cons_of_neg hc]

/-- A decimal is not started by a letter. -/
theorem ne_head_of_words {t rest : List Char} {x : Int} {ts : List (List Char)} {c d : Char}
    (h : Decimal t x) (hwords : words (c :: rest) = t :: ts) (hspace : isSpace d = false)
    (hdigit : d.isDigit = false) (hplus : d ≠ '+') (hminus : d ≠ '-') : c ≠ d := by
  rintro rfl
  obtain ⟨c', hc', hsign⟩ := h.head?
  rw [head?_of_words hspace hwords] at hc'
  obtain rfl := Option.some.inj hc'
  rcases hsign with h | h | h
  · rw [hdigit] at h
    cases h
  · exact hplus h
  · exact hminus h

/-- **A well-lexed line is read as what it is written as.** -/
theorem IsLine.readLine_eq {s : List Char} {l : Line} (h : IsLine s l) : readLine s = l := by
  unfold readLine
  cases h with
  | blank h => rw [List.dropWhile_eq_nil_iff.mpr h]
  | comment h =>
    rw [h]
    rfl
  | header h hwords hV hC hVfits hCfits =>
    rw [← words_dropWhile_isBlank, h] at hwords
    obtain ⟨s1, hread1, hwords1⟩ := readString_of_words hwords []
    obtain ⟨s2, hread2, hwords2⟩ := readString_of_words hwords1 []
    obtain ⟨s3, hread3, hwords3⟩ := readInt_of_words hwords2 hV hVfits 0
    obtain ⟨s4, hread4, _⟩ := readInt_of_words hwords3 hC hCfits 0
    rw [h]
    change Line.header (declaredVars _) (declaredCubes _) = _
    unfold declaredVars declaredCubes
    dsimp only
    rw [hread1, hread2, hread3, hread4, if_pos rfl]
  | @ints xs hne hwords hfits =>
    have hread : readInts ⟨s, false⟩ = xs := readInts_of_words hwords fun x hx => by
      have hx' := hfits x hx
      rw [intMax] at hx'
      rw [FitsInt, intMin, intMax]
      omega
    obtain ⟨x, xs', rfl⟩ := List.exists_cons_of_ne_nil hne
    obtain ⟨t, ts, ht, _, hs⟩ := List.forall₂_cons_right_iff.mp hwords
    rw [← words_dropWhile_isBlank] at hs
    rw [hread]
    cases hdrop : s.dropWhile isBlank with
    | nil =>
      rw [hdrop] at hs
      cases hs
    | cons c rest =>
      -- a `c` or a `p` would start the first word, which is a decimal
      rw [hdrop] at hs
      have hcomment : c ≠ 'c' :=
        ne_head_of_words ht hs (by decide) (by decide) (by decide) (by decide)
      have hheader : c ≠ 'p' :=
        ne_head_of_words ht hs (by decide) (by decide) (by decide) (by decide)
      dsimp only
      rw [if_neg hcomment, if_neg hheader]

/-- A well-lexed file is read as its lines. -/
theorem map_readLine_eq {ss : List (List Char)} {ls : List Line}
    (hlex : List.Forall₂ IsLine ss ls) : ss.map readLine = ls := by
  induction hlex with
  | nil => rfl
  | cons hs _ ih => rw [List.map_cons, hs.readLine_eq, ih]

/-- No integer of a well-lexed file is the one that cannot be negated. -/
theorem intMin_not_mem_tokens {ss : List (List Char)} {ls : List Line}
    (hlex : List.Forall₂ IsLine ss ls) : intMin ∉ tokens ls := by
  induction hlex with
  | nil => exact List.not_mem_nil
  | cons hs _ ih =>
    rw [tokens, List.flatMap_cons, List.mem_append]
    rintro (h | h)
    · cases hs with
      | blank | comment | header => cases h
      | ints _ _ hfits => exact absurd (hfits intMin h) (by decide)
    · exact ih h

/-- A file that overflows has that integer. -/
theorem Overflows.mem_tokens {ls : List Line} (h : Overflows VARS CUBES ls) :
    intMin ∈ tokens ls := by
  induction ls with
  | nil => exact h.elim
  | cons l ls ih =>
    cases l with
    | blank | comment => exact ih h
    | ints => exact h.elim
    | header =>
      obtain ⟨-, body, xs, ys, post, rfl, -⟩ := h
      exact List.mem_flatMap.mpr ⟨.ints (xs ++ intMin :: ys), by simp, by simp [Line.tokens]⟩

/-! ## The rules and the language -/

/-- In a group without repetitions the variables are distinct exactly if no literal
stands beside its negation. -/
theorem pairwise_natAbs_iff {g : List Int} (hnodup : g.Nodup) (hzero : 0 ∉ g) :
    g.Pairwise (fun x y => x.natAbs ≠ y.natAbs) ↔ ∀ v, v ∈ g → -v ∉ g := by
  constructor
  · intro hpair v hv hneg
    have hne : v ≠ -v := by
      intro he
      have hv0 : v = 0 := by omega
      exact hzero (hv0 ▸ hv)
    have hsymm : Std.Symm fun x y : Int => x.natAbs ≠ y.natAbs := ⟨fun _ _ h => h.symm⟩
    exact hpair.forall hv hneg hne (Int.natAbs_neg v).symm
  · intro hcons
    refine hnodup.pairwise_of_forall_ne fun x hx y hy hne he => ?_
    rcases Int.natAbs_eq_natAbs_iff.mp he with h | h
    · exact hne h
    · exact hcons y hy (h ▸ hx)

/-- The rules, when every group is finished. -/
theorem readable_finished_iff {V : Int} {gs : List (List Int)} (hnodup : ∀ g ∈ gs, g.Nodup)
    (hzero : ∀ g ∈ gs, 0 ∉ g) :
    Readable V CUBES (gs, []) ↔ gs.length ≤ CUBES ∧ (∀ g ∈ gs, ∀ x ∈ g, (x.natAbs : Int) ≤ V) ∧
      ∀ g ∈ gs, ∀ v, v ∈ g → -v ∉ g := by
  have hpair : (∀ g ∈ gs, g.Pairwise fun x y => x.natAbs ≠ y.natAbs) ↔
      ∀ g ∈ gs, ∀ v, v ∈ g → -v ∉ g :=
    forall₂_congr fun g hg => pairwise_natAbs_iff (hnodup g hg) (hzero g hg)
  rw [readable_iff, hpair, and_iff_left List.Pairwise.nil,
    and_iff_left fun x hx => absurd hx List.not_mem_nil]

/-- The integers of finished groups are in range if the literals are. -/
theorem forall_flatMap_natAbs_le {V : Int} (hV : 0 ≤ V) {gs : List (List Int)} :
    (∀ x ∈ gs.flatMap (· ++ [0]), (x.natAbs : Int) ≤ V) ↔
      ∀ g ∈ gs, ∀ x ∈ g, (x.natAbs : Int) ≤ V := by
  constructor
  · intro h g hg x hx
    exact h x (List.mem_flatMap.mpr ⟨g, hg, List.mem_append_left _ hx⟩)
  · intro h x hx
    obtain ⟨g, hg, hxg⟩ := List.mem_flatMap.mp hx
    rcases List.mem_append.mp hxg with hxg | hxg
    · exact h g hg x hxg
    · rw [List.mem_singleton.mp hxg, Int.natAbs_zero]
      exact hV

/-! ## The whole file -/

/-- **Where no cube repeats a literal, what the parser accepts is the language.** -/
theorem accepts_iff_language {ls : List Line} {gs : List (List Int)}
    (hnodup : ∀ g ∈ (groups (tokens ls)).1, g.Nodup) :
    Accepts VARS CUBES ls gs ↔ Says VARS CUBES ls gs := by
  have hbody : ∀ {pre : List Line} {V C : Int} {body : List Line},
      (∀ l ∈ pre, l.isSkipped = true) → tokens (pre ++ .header V C :: body) = tokens body :=
    fun hpre => tokens_skipped_append hpre _
  rw [accepts_iff]
  constructor
  · rintro ⟨pre, V, C, body, rfl, hpre, ⟨hone, hvars, hcubes⟩, ⟨hheader, hread⟩, hgroups⟩
    rw [hbody hpre, hgroups] at hnodup
    obtain ⟨hspells, hzero⟩ := groups_eq_iff.mp hgroups
    rw [hgroups, readable_finished_iff hnodup hzero] at hread
    obtain ⟨hlength, hrange, hcons⟩ := hread
    refine ⟨⟨pre, V, C, body, rfl, hpre, hheader, hone, hvars, hcubes, ?_⟩,
      (hbody hpre).trans hspells, hzero, hlength, hcons⟩
    rw [hbody hpre, hspells, forall_flatMap_natAbs_le (by omega)]
    exact hrange
  · rintro ⟨⟨pre, V, C, body, rfl, hpre, hheader, hone, hvars, hcubes, hrange⟩, hspells, hzero,
      hlength, hcons⟩
    rw [hbody hpre] at hnodup hspells
    have hgroups : groups (tokens body) = (gs, []) := groups_eq_iff.mpr ⟨hspells, hzero⟩
    rw [hgroups] at hnodup
    rw [hbody hpre, hspells, forall_flatMap_natAbs_le (by omega)] at hrange
    refine ⟨pre, V, C, body, rfl, hpre, ⟨hone, hvars, hcubes⟩, ⟨hheader, ?_⟩, hgroups⟩
    rw [hgroups, readable_finished_iff hnodup hzero]
    exact ⟨hlength, hrange, hcons⟩

/-- **The parser accepts the documented language and returns what the file says.**
On a well-lexed file in which no cube repeats a literal it returns exactly if the file
is in the language and throws otherwise, and the cubes it returns are those of the
file, in order, followed by padding. -/
theorem parse_wellLexed {content : List Char} {ls : List Line}
    (hlex : List.Forall₂ IsLine (getlines content) ls)
    (hnodup : ∀ g ∈ (groups (tokens ls)).1, g.Nodup) :
    ((∃ d, parse VARS CUBES (some content) = .ok d) ↔ ∃ gs, Says VARS CUBES ls gs) ∧
      ((¬ ∃ gs, Says VARS CUBES ls gs) →
        ∃ e, parse VARS CUBES (some content) = .error (.thrown e)) ∧
      ∀ d gs, parse VARS CUBES (some content) = .ok d → Says VARS CUBES ls gs →
        Encodes d gs := by
  have hread : readLines content = ls := map_readLine_eq hlex
  have hlanguage : ∀ gs, Accepts VARS CUBES ls gs ↔ Says VARS CUBES ls gs := fun gs =>
    accepts_iff_language hnodup
  have hok : ∀ d, parse VARS CUBES (some content) = .ok d ↔
      ∃ gs, Says VARS CUBES ls gs ∧ d = fillTo gs Cube.padding := fun d => by
    rw [parse_eq_ok_iff, hread]
    simp only [hlanguage]
  refine ⟨?_, fun hno => ?_, ?_⟩
  · simp only [hok]
    exact ⟨fun ⟨_, gs, hgs, _⟩ => ⟨gs, hgs⟩, fun ⟨gs, hgs⟩ => ⟨_, gs, hgs, rfl⟩⟩
  · rw [parse_thrown_iff, hread]
    simp only [hlanguage]
    exact ⟨hno, fun h => intMin_not_mem_tokens hlex h.mem_tokens⟩
  · intro d gs hd hgs
    obtain ⟨gs', hgs', rfl⟩ := (hok d).mp hd
    obtain rfl : gs' = gs := congrArg Prod.fst (hgs'.groups_eq.symm.trans hgs.groups_eq)
    exact fillTo_encodes gs'

/-- A file with a comment, a blank line, a cube over two lines and an empty cube. -/
def demoFile : List Char := "c demo\np dnf 2 3\n1\n \n-2 0 0\n".toList

/-- Its lines. -/
def demoLines : List Line := [.comment, .header 2 3, .ints [1], .blank, .ints [-2, 0, 0]]

theorem demoFile_isLine : List.Forall₂ IsLine (getlines demoFile) demoLines := by
  have hone : Decimal ['1'] 1 := .unsigned (by decide) (List.forall_mem_singleton.mpr rfl)
  have htwo : Decimal ['2'] 2 := .unsigned (by decide) (List.forall_mem_singleton.mpr rfl)
  have hthree : Decimal ['3'] 3 := .unsigned (by decide) (List.forall_mem_singleton.mpr rfl)
  have hzero : Decimal ['0'] 0 := .unsigned (by decide) (List.forall_mem_singleton.mpr rfl)
  have hneg : Decimal ['-', '2'] (-2) :=
    Decimal.minus (by decide) (List.forall_mem_singleton.mpr rfl)
  refine .cons (.comment rfl) (.cons (.header rfl rfl htwo hthree ?_ ?_) (.cons (.ints ?_ ?_ ?_)
    (.cons (.blank ?_) (.cons (.ints ?_ ?_ ?_) .nil))))
  · decide
  · decide
  · decide
  · exact .cons hone .nil
  · decide
  · exact List.forall_mem_singleton.mpr rfl
  · decide
  · exact .cons hneg (.cons hzero (.cons hzero .nil))
  · decide

theorem parse_wellLexed_demo :
    ∃ d : Dnf 2 3, parse 2 3 (some demoFile) = .ok d ∧ Encodes d [[1, -2], []] := by
  obtain ⟨hiff, _, hencodes⟩ := @parse_wellLexed 2 3 _ _ demoFile_isLine (by decide)
  have hgs : Says 2 3 demoLines [[1, -2], []] := by
    refine ⟨⟨[.comment], 2, 3, [.ints [1], .blank, .ints [-2, 0, 0]], rfl, ?_, ?_, ?_⟩, rfl, ?_,
      ?_, ?_⟩
    · decide
    · decide
    · decide
    · decide
    · decide
    · decide
  obtain ⟨d, hd⟩ := hiff.mpr ⟨_, hgs⟩
  exact ⟨d, hd, hencodes d _ hd hgs⟩

end MpcVazirani
