import MpcVazirani.DimacsTokens

/-! # What the parser takes for a header

The four extractions of a header share one stream, and only two of what they leave is
looked at: the second word, and the number of variables.  So a missing or malformed
number of cubes passes for zero, a negative one is within every capacity, the first
word may be any that starts with a `p`, and nothing looks at what follows the numbers.
A file with such a line is rejected only if it breaks another rule
(`parse_checks_headers_iff`).
-/
namespace MpcVazirani
open IStream

variable {VARS CUBES : Nat}

/-- The lines whose first character that is not blank is a `p`. -/
def isHeaderLine (s : List Char) : Bool :=
  match s.dropWhile isBlank with
  | [] => false
  | c :: _ => c == 'p'

/-- Those lines of a file. -/
def headerLines (content : List Char) : List (List Char) := (getlines content).filter isHeaderLine

/-- Exactly four tokens: `p`, `dnf`, a positive and a non-negative decimal, both in int
range. -/
def IsHeader (s : List Char) : Prop :=
  ∃ tV tC V C, words s = [['p'], ['d', 'n', 'f'], tV, tC] ∧ Decimal tV V ∧ Decimal tC C ∧
    0 < V ∧ 0 ≤ C ∧ FitsInt V ∧ FitsInt C

/-- Headers are checked on the file: if it is accepted it has exactly one header line, and
that one is well-formed; and a malformed one gets it rejected. -/
def HeadersChecked (VARS CUBES : Nat) (content : List Char) : Prop :=
  (∀ d : Dnf VARS CUBES, parse VARS CUBES (some content) = .ok d →
    ∃ s, headerLines content = [s] ∧ IsHeader s) ∧
  ((∃ s ∈ headerLines content, ¬ IsHeader s) →
    ∃ e, parse VARS CUBES (some content) = .error (.thrown e))

/-- They are the lines that are read as headers. -/
theorem isHeader_readLine (s : List Char) : (readLine s).isHeader = isHeaderLine s := by
  unfold isHeaderLine
  rcases readLine_cases s with ⟨hdrop, hs⟩ | ⟨_, hdrop, hs⟩ | ⟨_, hdrop, hs⟩ | ⟨_, _, hdrop, -, hp, hs⟩
  · rw [hdrop, hs]
    rfl
  · rw [hdrop, hs]
    rfl
  · rw [hdrop, hs]
    rfl
  · rw [hdrop, hs]
    exact (beq_eq_false_iff_ne.mpr hp).symm

theorem filter_isHeaderLine (ss : List (List Char)) :
    (ss.filter isHeaderLine).map readLine = (ss.map readLine).filter Line.isHeader := by
  rw [List.filter_map]
  congr 2
  funext s
  exact (isHeader_readLine s).symm

theorem not_isHeader_of_isSkipped {l : Line} (h : l.isSkipped = true) : l.isHeader = false := by
  cases l with
  | blank | comment => rfl
  | header | ints => cases h

/-- An accepted file has one header line. -/
theorem Accepts.headerLines_eq {content : List Char} {gs : List (List Int)}
    (h : Accepts VARS CUBES (readLines content) gs) : ∃ s, headerLines content = [s] := by
  obtain ⟨pre, V, C, body, hlines, hpre, -, ⟨hbody, -⟩, -⟩ := accepts_iff.mp h
  have hfilter : ((readLines content).filter Line.isHeader) = [.header V C] := by
    have hnone : pre.filter Line.isHeader = [] := List.filter_eq_nil_iff.mpr fun l hl => by
      rw [not_isHeader_of_isSkipped (hpre l hl)]
      exact Bool.false_ne_true
    have hnone' : body.filter Line.isHeader = [] := List.filter_eq_nil_iff.mpr fun l hl => by
      rw [hbody l hl]
      exact Bool.false_ne_true
    rw [hlines, List.filter_append, hnone, List.filter_cons_of_pos rfl, hnone', List.nil_append]
  rw [readLines, ← filter_isHeaderLine] at hfilter
  obtain ⟨s, ss, hs, -, hss⟩ := List.map_eq_cons_iff.mp hfilter
  rw [List.map_eq_nil_iff.mp hss] at hs
  exact ⟨s, hs⟩

/-- **Exactly when headers are checked**: every header line of the file is well-formed, or
what the malformed ones are taken for gets the file rejected anyway. -/
theorem parse_checks_headers_iff (content : List Char) :
    HeadersChecked VARS CUBES content ↔
      (∀ s ∈ headerLines content, IsHeader s) ∨
        ((¬ ∃ gs, Accepts VARS CUBES (readLines content) gs) ∧
          ¬ Overflows VARS CUBES (readLines content)) := by
  have hbad : (∃ s ∈ headerLines content, ¬ IsHeader s) ↔
      ¬ ∀ s ∈ headerLines content, IsHeader s := by
    push Not
    exact Iff.rfl
  rw [HeadersChecked, hbad]
  refine throws_unless_iff fun hall d hd => ?_
  obtain ⟨gs, hacc, -⟩ := (parse_eq_ok_iff content d).mp hd
  obtain ⟨s, hs⟩ := hacc.headerLines_eq
  exact ⟨s, hs, hall s (hs ▸ List.mem_singleton_self s)⟩

/-- A header without its number of cubes. -/
def shortHeaderFile : List Char := "p dnf 1\n".toList

/-- The file is accepted. -/
theorem parse_checks_headers_short : ¬ HeadersChecked 1 1 shortHeaderFile := by
  rintro ⟨hone, -⟩
  obtain ⟨d, hd⟩ : ∃ d : Dnf 1 1, parse 1 1 (some shortHeaderFile) = .ok d := ⟨_, rfl⟩
  obtain ⟨s, hs, tV, tC, V, C, hwords, -⟩ := hone d hd
  obtain rfl : "p dnf 1".toList = s := (List.cons.inj hs).1
  have hlength : (words "p dnf 1".toList).length = 4 := congrArg List.length hwords
  exact absurd hlength (by decide)

end MpcVazirani
