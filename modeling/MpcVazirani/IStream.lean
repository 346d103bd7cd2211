import Mathlib.Data.List.Forall2
import Mathlib.Data.List.TakeWhile
import Mathlib.Tactic.Common

/-! # Reading text the way C++ streams do

What a line-oriented C++ parser uses of the standard library, in the "C" locale
and with a 32-bit `int`: `std::getline` on a file, and `>>` into a string and into
an int on an `std::istringstream`.

A stream is its unread text and its fail bit; the end-of-file bit is not needed,
because it is set only when nothing is left to read, and then the next extraction
fails whether or not it is set.  An extraction that finds only white space, or a
stream that has already failed, leaves its variable alone; an extraction into an
int that finds no digits stores zero and fails; and one whose digits do not fit
stores the nearest int and fails.

`words` says what tokenised text is without any stream: the maximal runs of
characters that are not white space.  An extraction takes the first word, and
into an int all of it when the word is a decimal (`readInt_of_words`), so a loop
that reads ints until one fails reads all the words of a line of decimals
(`readInts_of_words`).
-/
namespace IStream

/-- `isspace` in the "C" locale. -/
def isSpace (c : Char) : Bool := c == ' ' || (9 ≤ c.toNat && c.toNat ≤ 13)

/-- The lines that `while (std::getline(in, line))` reads: an unfinished last line
counts, an empty one does not. -/
def getlines : List Char → List (List Char)
  | [] => []
  | c :: s =>
    if c = '\n' then [] :: getlines s
    else match getlines s with
      | [] => [[c]]
      | l :: ls => (c :: l) :: ls

/-- `std::istringstream`. -/
structure IStringStream where
  rest : List Char
  fail : Bool

/-- `INT_MIN`. -/
def intMin : Int := -2147483648

/-- `INT_MAX`. -/
def intMax : Int := 2147483647

/-- The number a string of digits stands for. -/
def digitsValue (ds : List Char) : Nat := ds.foldl (fun v c => 10 * v + (c.toNat - 48)) 0

/-- Whether the text starts with a minus sign. -/
def isNegative : List Char → Bool
  | '-' :: _ => true
  | _ => false

/-- The text after an optional sign. -/
def afterSign : List Char → List Char
  | '-' :: s => s
  | '+' :: s => s
  | s => s

/-- The digits of a number. -/
def digits (s : List Char) : List Char := (afterSign s).takeWhile Char.isDigit

/-- The text after the digits. -/
def afterDigits (s : List Char) : List Char := (afterSign s).dropWhile Char.isDigit

/-- The number at the start of the text, before it is fitted into an int. -/
def signedValue (s : List Char) : Int :=
  if isNegative s = true then -digitsValue (digits s) else digitsValue (digits s)

/-- The text after leading white space. -/
def skipSpace (s : List Char) : List Char := s.dropWhile isSpace

/-- The first run of characters that are not white space. -/
def takeWord (s : List Char) : List Char := s.takeWhile fun c => !isSpace c

/-- The text after it. -/
def dropWord (s : List Char) : List Char := s.dropWhile fun c => !isSpace c

/-- `is >> str`, where `str` was `old`. -/
def readString (is : IStringStream) (old : List Char) : IStringStream × List Char :=
  if is.fail = true then (is, old)
  else if skipSpace is.rest = [] then (⟨[], true⟩, old)
  else (⟨dropWord (skipSpace is.rest), false⟩, takeWord (skipSpace is.rest))

/-- The part of `is >> n` after white space: an optional sign and as many digits as
there are. -/
def getInt (s : List Char) : IStringStream × Int :=
  if digits s = [] then (⟨afterDigits s, true⟩, 0)
  else if signedValue s < intMin then (⟨afterDigits s, true⟩, intMin)
  else if intMax < signedValue s then (⟨afterDigits s, true⟩, intMax)
  else (⟨afterDigits s, false⟩, signedValue s)

/-- `is >> n`, where the int `n` was `old`. -/
def readInt (is : IStringStream) (old : Int) : IStringStream × Int :=
  if is.fail = true then (is, old)
  else if skipSpace is.rest = [] then (⟨[], true⟩, old)
  else getInt (skipSpace is.rest)

/-- The first `fuel` turns of `while (is >> n)`: the values `n` takes. -/
def readIntsFuel : Nat → IStringStream → List Int
  | 0, _ => []
  | fuel + 1, is =>
    if (readInt is 0).1.fail = true then []
    else (readInt is 0).2 :: readIntsFuel fuel (readInt is 0).1

/-- The values `n` takes in `while (is >> n)`.  Every turn but the last consumes a
character (`readInts_eq`). -/
def readInts (is : IStringStream) : List Int := readIntsFuel is.rest.length is

/-! ## The loop runs to its end -/

theorem length_afterSign_le (s : List Char) : (afterSign s).length ≤ s.length := by
  unfold afterSign
  split <;> simp

/-- What is left after the digits, whether or not they fit. -/
theorem rest_getInt (s : List Char) : (getInt s).1.rest = afterDigits s := by
  unfold getInt
  split_ifs <;> rfl

theorem digits_of_getInt {s : List Char} (h : (getInt s).1.fail = false) : digits s ≠ [] := by
  intro hds
  rw [getInt, if_pos hds] at h
  cases h

/-- An extraction that succeeds consumes a digit. -/
theorem length_readInt_lt {is : IStringStream} {old : Int}
    (h : (readInt is old).1.fail = false) : (readInt is old).1.rest.length < is.rest.length := by
  unfold readInt at h ⊢
  by_cases hfail : is.fail = true
  · rw [if_pos hfail, hfail] at h
    cases h
  · rw [if_neg hfail] at h ⊢
    by_cases hempty : skipSpace is.rest = []
    · rw [if_pos hempty] at h
      cases h
    · rw [if_neg hempty] at h ⊢
      -- white space and the sign may be absent, a digit may not
      have hdigits := List.length_pos_iff.mpr (digits_of_getInt h)
      have hsign := length_afterSign_le (skipSpace is.rest)
      have hskip : (skipSpace is.rest).length ≤ is.rest.length :=
        (List.dropWhile_sublist isSpace).length_le
      have hsplit := congrArg List.length (List.takeWhile_append_dropWhile (p := Char.isDigit)
        (l := afterSign (skipSpace is.rest)))
      rw [List.length_append] at hsplit
      rw [rest_getInt]
      change ((afterSign (skipSpace is.rest)).dropWhile Char.isDigit).length < _
      change 0 < ((afterSign (skipSpace is.rest)).takeWhile Char.isDigit).length at hdigits
      omega

/-- Nothing is read from an exhausted stream. -/
theorem readIntsFuel_of_empty {is : IStringStream} (h : is.rest.length = 0) (n : Nat) :
    readIntsFuel n is = [] := by
  cases n with
  | zero => rfl
  | succ n =>
    rw [readIntsFuel]
    by_cases hfail : (readInt is 0).1.fail = true
    · rw [if_pos hfail]
    · have hlt := length_readInt_lt (Bool.eq_false_iff.mpr hfail)
      omega

/-- Fuel for every character is enough. -/
theorem readIntsFuel_eq {n m : Nat} {is : IStringStream} (hn : is.rest.length ≤ n)
    (hm : is.rest.length ≤ m) : readIntsFuel n is = readIntsFuel m is := by
  induction n generalizing m is with
  | zero => rw [readIntsFuel_of_empty (by omega), readIntsFuel_of_empty (by omega)]
  | succ n ih =>
    cases m with
    | zero => rw [readIntsFuel_of_empty (by omega), readIntsFuel_of_empty (by omega)]
    | succ m =>
      rw [readIntsFuel, readIntsFuel]
      by_cases hfail : (readInt is 0).1.fail = true
      · rw [if_pos hfail, if_pos hfail]
      · have hlt := length_readInt_lt (Bool.eq_false_iff.mpr hfail)
        rw [if_neg hfail, if_neg hfail, ih (by omega) (m := m) (by omega)]

/-- **The loop reads until an extraction fails.** -/
theorem readInts_eq (is : IStringStream) :
    readInts is = if (readInt is 0).1.fail = true then []
      else (readInt is 0).2 :: readInts (readInt is 0).1 := by
  rw [readInts, readIntsFuel_eq (Nat.le_refl _) (Nat.le_succ _), readIntsFuel]
  by_cases hfail : (readInt is 0).1.fail = true
  · rw [if_pos hfail, if_pos hfail]
  · have hlt := length_readInt_lt (Bool.eq_false_iff.mpr hfail)
    rw [if_neg hfail, if_neg hfail, readInts, readIntsFuel_eq (Nat.le_of_lt hlt) (Nat.le_refl _)]

/-! ## Words -/

/-- The maximal runs of characters that are not white space. -/
def words (s : List Char) : List (List Char) := (s.splitOnP isSpace).filter (· ≠ [])

/-- The text ends, or a character that is not white space does not follow. -/
def AtSpace (s : List Char) : Prop := ∀ c, s.head? = some c → isSpace c = true

/-- A run of characters, and what follows it. -/
theorem takeWhile_dropWhile_append {p : Char → Bool} {t s : List Char} (ht : ∀ c ∈ t, p c = true)
    (hs : ∀ c, s.head? = some c → p c = false) :
    (t ++ s).takeWhile p = t ∧ (t ++ s).dropWhile p = s := by
  rw [List.takeWhile_append_of_pos ht, List.dropWhile_append_of_pos ht]
  cases s with
  | nil => simp
  | cons c s =>
    have hc := hs c rfl
    simp [hc]

theorem words_cons_space {c : Char} (hc : isSpace c = true) (s : List Char) :
    words (c :: s) = words s := by
  rw [words, List.splitOnP_cons_eq_if_modifyHead, if_pos hc]
  rfl

/-- Leading white space does not matter. -/
theorem words_skipSpace (s : List Char) : words (skipSpace s) = words s := by
  induction s with
  | nil => rfl
  | cons c s ih =>
    by_cases hc : isSpace c = true
    · rw [words_cons_space hc, ← ih, skipSpace, skipSpace, List.dropWhile_cons_of_pos hc]
    · rw [skipSpace, List.dropWhile_cons_of_neg hc]

/-- A run up to white space is the first word. -/
theorem words_append {t s : List Char} (hne : t ≠ []) (ht : ∀ c ∈ t, isSpace c = false)
    (hs : AtSpace s) : words (t ++ s) = t :: words s := by
  cases s with
  | nil =>
    rw [List.append_nil, words, List.splitOnP_eq_singleton ht]
    simp [hne, words]
  | cons c s =>
    have hc : isSpace c = true := hs c rfl
    rw [words_cons_space hc, words, List.splitOnP_append_cons_of_forall_mem ht c hc,
      List.filter_cons_of_pos (by simpa using hne)]
    rfl

theorem takeWord_not_space {s : List Char} : ∀ c ∈ takeWord s, isSpace c = false := fun c h => by
  simpa using List.mem_takeWhile_imp h

theorem atSpace_dropWord (s : List Char) : AtSpace (dropWord s) := by
  intro c h
  have hstop := List.head?_dropWhile_not (fun c => !isSpace c) s
  rw [show s.dropWhile (fun c => !isSpace c) = dropWord s from rfl, h] at hstop
  simpa using hstop

theorem takeWord_append_dropWord (s : List Char) : takeWord s ++ dropWord s = s :=
  List.takeWhile_append_dropWhile

/-- What follows leading white space starts with a word. -/
theorem takeWord_skipSpace_ne_nil {s : List Char} (h : skipSpace s ≠ []) :
    takeWord (skipSpace s) ≠ [] := by
  obtain ⟨c, s', hs'⟩ := List.exists_cons_of_ne_nil h
  have hc := List.head?_dropWhile_not isSpace s
  rw [show s.dropWhile isSpace = c :: s' from hs'] at hc
  have hc' : isSpace c = false := hc
  rw [hs', takeWord, List.takeWhile_cons_of_pos (by rw [hc']; rfl)]
  exact List.cons_ne_nil _ _

/-- **The words of a text are its first run and the words of what follows.** -/
theorem words_eq (s : List Char) :
    words s = if skipSpace s = [] then []
      else takeWord (skipSpace s) :: words (dropWord (skipSpace s)) := by
  rw [← words_skipSpace]
  by_cases hempty : skipSpace s = []
  · rw [if_pos hempty, hempty]
    rfl
  · rw [if_neg hempty, ← words_append (takeWord_skipSpace_ne_nil hempty) takeWord_not_space
      (atSpace_dropWord _), takeWord_append_dropWord]

/-- The first word of a text, found where an extraction looks for it. -/
theorem of_words_eq_cons {s t : List Char} {ts : List (List Char)} (h : words s = t :: ts) :
    skipSpace s ≠ [] ∧ takeWord (skipSpace s) = t ∧ words (dropWord (skipSpace s)) = ts := by
  rw [words_eq] at h
  by_cases hempty : skipSpace s = []
  · rw [if_pos hempty] at h
    cases h
  · rw [if_neg hempty] at h
    exact ⟨hempty, List.cons.inj h⟩

theorem skipSpace_eq_nil {s : List Char} (h : words s = []) : skipSpace s = [] := by
  rw [words_eq] at h
  by_contra hempty
  rw [if_neg hempty] at h
  cases h

/-- A first character that is not white space starts the first word. -/
theorem head?_of_words {c : Char} {s t : List Char} {ts : List (List Char)}
    (hc : isSpace c = false) (h : words (c :: s) = t :: ts) : t.head? = some c := by
  obtain ⟨_, hword, _⟩ := of_words_eq_cons h
  have hskip : skipSpace (c :: s) = c :: s :=
    List.dropWhile_cons_of_neg (Bool.eq_false_iff.mp hc)
  rw [← hword, hskip, takeWord, List.takeWhile_cons_of_pos (by rw [hc]; rfl)]
  rfl

/-! ## Extractions and words -/

/-- A decimal integer: an optional sign and at least one digit. -/
inductive Decimal : List Char → Int → Prop
  | unsigned {ds : List Char} (hne : ds ≠ []) (hds : ∀ c ∈ ds, c.isDigit = true) :
      Decimal ds (digitsValue ds)
  | plus {ds : List Char} (hne : ds ≠ []) (hds : ∀ c ∈ ds, c.isDigit = true) :
      Decimal ('+' :: ds) (digitsValue ds)
  | minus {ds : List Char} (hne : ds ≠ []) (hds : ∀ c ∈ ds, c.isDigit = true) :
      Decimal ('-' :: ds) (-digitsValue ds)

/-- A decimal starts with a digit or a sign. -/
theorem Decimal.head? {t : List Char} {v : Int} (h : Decimal t v) :
    ∃ c, t.head? = some c ∧ (c.isDigit = true ∨ c = '+' ∨ c = '-') := by
  cases h with
  | unsigned hne hds =>
    obtain ⟨c, ds, rfl⟩ := List.exists_cons_of_ne_nil hne
    exact ⟨c, rfl, Or.inl (hds c List.mem_cons_self)⟩
  | plus => exact ⟨'+', rfl, Or.inr (Or.inl rfl)⟩
  | minus => exact ⟨'-', rfl, Or.inr (Or.inr rfl)⟩

/-- A number fits an int. -/
def FitsInt (v : Int) : Prop := intMin ≤ v ∧ v ≤ intMax

instance (v : Int) : Decidable (FitsInt v) := inferInstanceAs (Decidable (_ ∧ _))

/-- Whatever the text, an int is extracted. -/
theorem fitsInt_readInt (is : IStringStream) {old : Int} (h : FitsInt old) :
    FitsInt (readInt is old).2 := by
  unfold readInt getInt
  split_ifs with hfail hempty hdigits hlow hhigh
  · exact h
  · exact h
  · exact (by decide : FitsInt 0)
  · exact (by decide : FitsInt intMin)
  · exact (by decide : FitsInt intMax)
  · exact ⟨Int.not_lt.mp hlow, Int.not_lt.mp hhigh⟩

/-- Every value of `while (is >> n)` is an int. -/
theorem fitsInt_of_mem_readInts {is : IStringStream} {n : Int} (h : n ∈ readInts is) :
    FitsInt n := by
  have hall : ∀ (fuel : Nat) (is : IStringStream), ∀ n ∈ readIntsFuel fuel is, FitsInt n := by
    intro fuel
    induction fuel with
    | zero => exact fun is n hn => absurd hn List.not_mem_nil
    | succ fuel ih =>
      intro is n hn
      rw [readIntsFuel] at hn
      by_cases hfail : (readInt is 0).1.fail = true
      · rw [if_pos hfail] at hn
        cases hn
      · rw [if_neg hfail] at hn
        rcases List.mem_cons.mp hn with rfl | hn
        · exact fitsInt_readInt is (by decide)
        · exact ih _ n hn
  exact hall _ is n h

theorem isDigit_of_isSpace {c : Char} (h : isSpace c = true) : c.isDigit = false := by
  rw [isSpace, Bool.or_eq_true, Bool.and_eq_true, beq_iff_eq, decide_eq_true_iff,
    decide_eq_true_iff] at h
  rcases h with rfl | ⟨_, hhigh⟩
  · rfl
  · rw [Bool.eq_false_iff, ne_eq, Char.isDigit_iff_toNat]
    change ¬ (48 ≤ c.toNat ∧ c.toNat ≤ 57)
    omega

/-- A digit is not a sign. -/
theorem sign_of_isDigit {c : Char} (h : c.isDigit = true) (s : List Char) :
    afterSign (c :: s) = c :: s ∧ isNegative (c :: s) = false := by
  have hminus : c ≠ '-' := by
    rintro rfl
    cases h
  have hplus : c ≠ '+' := by
    rintro rfl
    cases h
  simp [afterSign, isNegative, hminus, hplus]

/-- An extraction into an int takes the whole of a decimal that fits. -/
theorem getInt_append {t s : List Char} {v : Int} (ht : Decimal t v) (hs : AtSpace s)
    (hv : FitsInt v) : getInt (t ++ s) = (⟨s, false⟩, v) := by
  have hstop : ∀ c, s.head? = some c → c.isDigit = false := fun c hc =>
    isDigit_of_isSpace (hs c hc)
  have hread : digits (t ++ s) ≠ [] ∧ afterDigits (t ++ s) = s ∧ signedValue (t ++ s) = v := by
    cases ht with
    | unsigned hne hds =>
      obtain ⟨c, ds', rfl⟩ := List.exists_cons_of_ne_nil hne
      obtain ⟨hsign, hneg⟩ := sign_of_isDigit (hds c List.mem_cons_self) (ds' ++ s)
      obtain ⟨htake, hdrop⟩ := takeWhile_dropWhile_append hds hstop
      rw [signedValue, digits, afterDigits, List.cons_append, hsign, hneg, ← List.cons_append,
        htake, hdrop]
      exact ⟨hne, rfl, rfl⟩
    | plus hne hds =>
      obtain ⟨htake, hdrop⟩ := takeWhile_dropWhile_append hds hstop
      rw [signedValue, digits, afterDigits, List.cons_append, afterSign, htake, hdrop]
      exact ⟨hne, rfl, rfl⟩
    | minus hne hds =>
      obtain ⟨htake, hdrop⟩ := takeWhile_dropWhile_append hds hstop
      rw [signedValue, digits, afterDigits, List.cons_append, afterSign, htake, hdrop]
      exact ⟨hne, rfl, rfl⟩
  obtain ⟨hdigits, hrest, hvalue⟩ := hread
  rw [getInt, if_neg hdigits, hvalue, hrest, if_neg (Int.not_lt.mpr hv.1),
    if_neg (Int.not_lt.mpr hv.2)]

/-- `is >> str` takes the first word. -/
theorem readString_of_words {s t : List Char} {ts : List (List Char)} (h : words s = t :: ts)
    (old : List Char) :
    ∃ s', readString ⟨s, false⟩ old = (⟨s', false⟩, t) ∧ words s' = ts := by
  obtain ⟨hne, hword, hrest⟩ := of_words_eq_cons h
  refine ⟨dropWord (skipSpace s), ?_, hrest⟩
  rw [readString, if_neg Bool.false_ne_true, if_neg hne, hword]

/-- **`is >> n` takes the first word, if it is a decimal that fits.** -/
theorem readInt_of_words {s t : List Char} {ts : List (List Char)} {v : Int}
    (h : words s = t :: ts) (ht : Decimal t v) (hv : FitsInt v) (old : Int) :
    ∃ s', readInt ⟨s, false⟩ old = (⟨s', false⟩, v) ∧ words s' = ts := by
  obtain ⟨hne, hword, hrest⟩ := of_words_eq_cons h
  refine ⟨dropWord (skipSpace s), ?_, hrest⟩
  rw [readInt, if_neg Bool.false_ne_true, if_neg hne]
  have hget := getInt_append ht (atSpace_dropWord (skipSpace s)) hv
  rwa [← hword, takeWord_append_dropWord] at hget

/-- **A line of decimals is read whole**, and the loop ends at its end. -/
theorem readInts_of_words {s : List Char} {vs : List Int}
    (h : List.Forall₂ Decimal (words s) vs) (hv : ∀ v ∈ vs, FitsInt v) :
    readInts ⟨s, false⟩ = vs := by
  induction vs generalizing s with
  | nil =>
    have hempty := skipSpace_eq_nil (List.forall₂_nil_right_iff.mp h)
    rw [readInts_eq, readInt, if_neg Bool.false_ne_true, if_pos hempty]
    rfl
  | cons v vs ih =>
    obtain ⟨t, ts, ht, hts, hwords⟩ := List.forall₂_cons_right_iff.mp h
    obtain ⟨s', hread, hs'⟩ := readInt_of_words hwords ht (hv v List.mem_cons_self) 0
    rw [readInts_eq, hread, if_neg Bool.false_ne_true,
      ih (by rwa [hs']) fun u hu => hv u (List.mem_cons_of_mem v hu)]

end IStream
