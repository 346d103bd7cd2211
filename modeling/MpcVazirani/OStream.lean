import MpcVazirani.IStream

/-! # Writing text the way C++ streams do

`<<` of a number into a file, in the "C" locale: decimal digits, after a minus sign
where the number is negative.  What is written is a decimal and so one word of the
text (`decimal_showInt`, `words_append`); lines that are written one after the other,
each with its newline, are the lines that are read again (`getlines_flatMap`).
-/
namespace OStream
open IStream

/-- `out << n` for an unsigned number. -/
def showNat (n : Nat) : List Char := Nat.toDigits 10 n

/-- `out << n` for an int. -/
def showInt (n : Int) : List Char := if n < 0 then '-' :: showNat n.natAbs else showNat n.natAbs

theorem showNat_ne_nil (n : Nat) : showNat n ≠ [] := Nat.toDigits_ne_nil

/-- The digits of a number stand for it. -/
theorem digitsValue_showNat (n : Nat) : digitsValue (showNat n) = n := by
  have h := Nat.ofDigitChars_ten_toDigits (n := n)
  rwa [Nat.ofDigitChars_eq_foldl] at h

theorem isDigit_of_mem_showNat {n : Nat} : ∀ c ∈ showNat n, c.isDigit = true := fun _ hc =>
  Nat.isDigit_of_mem_toDigits (by decide) (by decide) hc

theorem decimal_showNat (n : Nat) : Decimal (showNat n) n := by
  have h := Decimal.unsigned (showNat_ne_nil n) isDigit_of_mem_showNat
  rwa [digitsValue_showNat] at h

/-- **A number is written as a decimal that stands for it.** -/
theorem decimal_showInt (n : Int) : Decimal (showInt n) n := by
  unfold showInt
  split_ifs with hneg
  · have h := Decimal.minus (showNat_ne_nil n.natAbs) isDigit_of_mem_showNat
    rwa [digitsValue_showNat, show -(n.natAbs : Int) = n by omega] at h
  · have h := decimal_showNat n.natAbs
    rwa [show ((n.natAbs : Nat) : Int) = n by omega] at h

/-! ## Words that have been written -/

theorem isSpace_of_isDigit {c : Char} (h : c.isDigit = true) : isSpace c = false := by
  refine Bool.eq_false_iff.mpr fun hc => ?_
  rw [isDigit_of_isSpace hc] at h
  cases h

/-- A decimal has no white space. -/
theorem not_space_of_decimal {t : List Char} {v : Int} (h : Decimal t v) :
    ∀ c ∈ t, isSpace c = false := by
  cases h with
  | unsigned _ hds => exact fun c hc => isSpace_of_isDigit (hds c hc)
  | plus _ hds =>
    exact List.forall_mem_cons.mpr ⟨rfl, fun c hc => isSpace_of_isDigit (hds c hc)⟩
  | minus _ hds =>
    exact List.forall_mem_cons.mpr ⟨rfl, fun c hc => isSpace_of_isDigit (hds c hc)⟩

theorem ne_nil_of_decimal {t : List Char} {v : Int} (h : Decimal t v) : t ≠ [] := by
  obtain ⟨c, hc, -⟩ := h.head?
  rintro rfl
  cases hc

/-- What is written before a blank is the next word. -/
theorem words_append_blank {t : List Char} (hne : t ≠ []) (ht : ∀ c ∈ t, isSpace c = false)
    (s : List Char) : words (t ++ ' ' :: s) = t :: words s := by
  have hspace : AtSpace (' ' :: s) := fun c hc => by
    obtain rfl := Option.some.inj hc
    rfl
  rw [words_append hne ht hspace, words_cons_space rfl]

theorem words_decimal_append {t : List Char} {v : Int} (h : Decimal t v) (s : List Char) :
    words (t ++ ' ' :: s) = t :: words s :=
  words_append_blank (ne_nil_of_decimal h) (not_space_of_decimal h) s

/-- Numbers written with a blank after each are the next words. -/
theorem words_flatMap_showInt (xs : List Int) (s : List Char) :
    words (xs.flatMap (fun x => showInt x ++ [' ']) ++ s) = xs.map showInt ++ words s := by
  induction xs with
  | nil => rfl
  | cons x xs ih =>
    rw [List.flatMap_cons, List.append_assoc, List.append_assoc, List.singleton_append,
      words_decimal_append (decimal_showInt x), ih]
    rfl

/-- A decimal at the end of a line is its last word. -/
theorem words_decimal {t : List Char} {v : Int} (h : Decimal t v) : words t = [t] := by
  have hend := words_append (ne_nil_of_decimal h) (not_space_of_decimal h) (s := [])
    fun c hc => by cases hc
  rwa [List.append_nil] at hend

/-! ## Lines that have been written -/

theorem newline_not_mem_decimal {t : List Char} {v : Int} (h : Decimal t v) : '\n' ∉ t := fun hc =>
  Bool.noConfusion (not_space_of_decimal h _ hc)

theorem getlines_append {l : List Char} (hl : '\n' ∉ l) (s : List Char) :
    getlines (l ++ '\n' :: s) = l :: getlines s := by
  induction l with
  | nil => rfl
  | cons c l ih =>
    obtain ⟨hc, hl⟩ := List.ne_and_not_mem_of_not_mem_cons hl
    rw [List.cons_append, getlines, if_neg (Ne.symm hc), ih hl]

/-- **The lines written are the lines read.** -/
theorem getlines_flatMap {ls : List (List Char)} (h : ∀ l ∈ ls, '\n' ∉ l) :
    getlines (ls.flatMap (· ++ ['\n'])) = ls := by
  induction ls with
  | nil => rfl
  | cons l ls ih =>
    obtain ⟨hl, hls⟩ := List.forall_mem_cons.mp h
    rw [List.flatMap_cons, List.append_assoc, List.singleton_append, getlines_append hl, ih hls]

end OStream
