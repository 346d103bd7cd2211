import MpcVazirani.DimacsGrammar

/-! # What the parser drops

A malformed token ends the reading of its line as the end of the line would: nothing
tells `while (iss >> lit)` the two apart, and what follows on the line is gone.  So a
file with such a token is rejected only if the integers in front of the malformed
tokens break a rule by themselves (`parse_drops_nothing_iff`).
-/
namespace MpcVazirani
open IStream

variable {VARS CUBES : Nat}

/-- The lines that are read for integers: not blank, no comment and no `p` line. -/
def isBody (s : List Char) : Bool :=
  match s.dropWhile isBlank with
  | [] => false
  | c :: _ => c != 'c' && c != 'p'

/-- The words of those lines. -/
def bodyTokens (content : List Char) : List (List Char) :=
  ((getlines content).filter isBody).flatMap words

/-- A token that is a decimal integer in int range. -/
def IsIntToken (t : List Char) : Prop := ∃ v, Decimal t v ∧ FitsInt v

/-- Nothing is dropped from the file: if it is accepted its tokens are integers, and
its cubes are the groups they form; and a token that is no integer gets it rejected. -/
def NothingDropped (VARS CUBES : Nat) (content : List Char) : Prop :=
  (∀ d : Dnf VARS CUBES, parse VARS CUBES (some content) = .ok d →
    (∀ t ∈ bodyTokens content, IsIntToken t) ∧
    ∃ gs : List (List Int), List.Forall₂ Decimal (bodyTokens content) (gs.flatMap (· ++ [0])) ∧
      (∀ g ∈ gs, 0 ∉ g) ∧ gs.length ≤ CUBES ∧ Encodes d gs) ∧
  ((∃ t ∈ bodyTokens content, ¬ IsIntToken t) →
    ∃ e, parse VARS CUBES (some content) = .error (.thrown e))

theorem readLine_of_isBody {s : List Char} (h : isBody s = true) :
    readLine s = .ints (readInts ⟨s, false⟩) := by
  unfold isBody at h
  rcases readLine_cases s with ⟨hdrop, -⟩ | ⟨_, hdrop, -⟩ | ⟨_, hdrop, -⟩ | ⟨_, _, -, -, -, hs⟩
  · rw [hdrop] at h
    cases h
  · rw [hdrop] at h
    cases h
  · rw [hdrop] at h
    cases h
  · exact hs

/-- The other lines have no integers. -/
theorem tokens_of_not_isBody {s : List Char} (h : isBody s = false) : (readLine s).tokens = [] := by
  cases hs : readLine s with
  | blank | comment | header => rfl
  | ints xs =>
    obtain ⟨-, c, rest, hdrop, hc, hp⟩ := readLine_eq_ints hs
    rw [isBody, hdrop] at h
    simp [hc, hp] at h

/-- Tokens that are all integers stand for a list of them. -/
theorem forall₂_decimal {ts : List (List Char)} (h : ∀ t ∈ ts, IsIntToken t) :
    ∃ vs, List.Forall₂ Decimal ts vs ∧ ∀ v ∈ vs, FitsInt v := by
  induction ts with
  | nil => exact ⟨[], .nil, fun _ hv => absurd hv List.not_mem_nil⟩
  | cons t ts ih =>
    obtain ⟨⟨v, hdec, hfits⟩, hts⟩ := List.forall_mem_cons.mp h
    obtain ⟨vs, hvs, hall⟩ := ih hts
    exact ⟨v :: vs, .cons hdec hvs, List.forall_mem_cons.mpr ⟨hfits, hall⟩⟩

/-- **Where all tokens are integers, they are the integers that are read.** -/
theorem forall₂_tokens {ss : List (List Char)}
    (h : ∀ t ∈ (ss.filter isBody).flatMap words, IsIntToken t) :
    List.Forall₂ Decimal ((ss.filter isBody).flatMap words) (tokens (ss.map readLine)) := by
  induction ss with
  | nil => exact .nil
  | cons s ss ih =>
    rw [List.map_cons, tokens, List.flatMap_cons]
    cases hs : isBody s with
    | false =>
      rw [List.filter_cons_of_neg (by simp [hs])] at h ⊢
      rw [tokens_of_not_isBody hs]
      exact ih h
    | true =>
      rw [List.filter_cons_of_pos hs, List.flatMap_cons] at h ⊢
      obtain ⟨hwords, hrest⟩ := List.forall_mem_append.mp h
      obtain ⟨vs, hvs, hfits⟩ := forall₂_decimal hwords
      rw [readLine_of_isBody hs, readInts_of_words hvs hfits]
      exact List.rel_append hvs (ih hrest)

/-- **Exactly when nothing is dropped**: every token of the file's body is an integer,
or else what is read in front of the malformed ones gets the file rejected anyway. -/
theorem parse_drops_nothing_iff (content : List Char) :
    NothingDropped VARS CUBES content ↔
      (∀ t ∈ bodyTokens content, IsIntToken t) ∨
        ((¬ ∃ gs, Accepts VARS CUBES (readLines content) gs) ∧
          ¬ Overflows VARS CUBES (readLines content)) := by
  have hbad : (∃ t ∈ bodyTokens content, ¬ IsIntToken t) ↔
      ¬ ∀ t ∈ bodyTokens content, IsIntToken t := by
    push Not
    exact Iff.rfl
  rw [NothingDropped, hbad]
  refine throws_unless_iff fun hall d hd => ⟨hall, ?_⟩
  obtain ⟨gs, hacc, rfl⟩ := (parse_eq_ok_iff content d).mp hd
  obtain ⟨hspells, hzero⟩ := groups_eq_iff.mp hacc.groups_eq
  have htokens : List.Forall₂ Decimal (bodyTokens content) (tokens (readLines content)) :=
    forall₂_tokens hall
  rw [hspells] at htokens
  exact ⟨gs, htokens, hzero, hacc.length_le, fillTo_encodes gs⟩

/-- One variable and one cube, whose only literal is beyond the int range. -/
def hugeLiteralFile : List Char := "p dnf 1 1\n99999999999 0\n".toList

/-- The literal and its cube are dropped and the file is accepted. -/
theorem parse_drops_hugeLiteral : ¬ NothingDropped 1 1 hugeLiteralFile := by
  rintro ⟨-, hreject⟩
  have htoken : ¬ IsIntToken "99999999999".toList := by
    rintro ⟨v, hdec, hfits⟩
    cases hdec with
    | unsigned => exact absurd hfits (by decide)
  obtain ⟨e, he⟩ := hreject ⟨"99999999999".toList, by decide, htoken⟩
  have hok : ∃ d : Dnf 1 1, parse 1 1 (some hugeLiteralFile) = .ok d := ⟨_, rfl⟩
  obtain ⟨d, hd⟩ := hok
  rw [hd] at he
  cases he

end MpcVazirani
