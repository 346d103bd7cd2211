import Mathlib.Tactic.Common

/-! # Counted loops over a fixed-size array

`forLoop lo body init i h` is the state of

    s = init;  for (i = lo; i < M; ++i)  s = body(i, s);

when the loop variable has reached `i`, for every `i ≤ M` and not only for the
last one.  Keeping the intermediate states is what lets an invariant speak of
every partial result of a loop: `forLoop_rule` is the invariant rule, and the
state after the loop is the case `i = M`.  A loop from zero is a fold
(`forLoop_eq_foldl`), so one that collects or counts is a filter or a count.
-/
namespace ForLoop
variable {σ : Type*} {M : Nat}

/-- The state of the loop when its variable has reached `i`.  Below `lo` the
body has not run yet. -/
def forLoop (lo : Nat) (body : Fin M → σ → σ) (init : σ) : (i : Nat) → i ≤ M → σ
  | 0, _ => init
  | i + 1, h =>
      if lo ≤ i then body ⟨i, h⟩ (forLoop lo body init i (Nat.le_of_succ_le h)) else init

@[simp] theorem forLoop_zero (lo : Nat) (body : Fin M → σ → σ) (init : σ) (h : 0 ≤ M) :
    forLoop lo body init 0 h = init := rfl

theorem forLoop_succ {lo i : Nat} (hlo : lo ≤ i) (body : Fin M → σ → σ) (init : σ)
    (h : i + 1 ≤ M) :
    forLoop lo body init (i + 1) h =
      body ⟨i, h⟩ (forLoop lo body init i (Nat.le_of_succ_le h)) := by
  rw [forLoop, if_pos hlo]

/-- The loop has not run before its variable passes `lo`. -/
theorem forLoop_start {lo : Nat} (body : Fin M → σ → σ) (init : σ) {i : Nat} (h : i ≤ M)
    (hi : i ≤ lo) : forLoop lo body init i h = init := by
  cases i with
  | zero => rfl
  | succ i => rw [forLoop, if_neg (by omega)]

/-- **The invariant rule.**  A property of the loop variable and the state that
holds on entry and is kept by the body holds at every later value of the
variable. -/
theorem forLoop_rule {lo : Nat} {body : Fin M → σ → σ} {init : σ} (P : Nat → σ → Prop)
    (hinit : P lo init)
    (hstep : ∀ (i : Fin M) (s : σ), lo ≤ i → P i s → P (i + 1) (body i s)) :
    ∀ (i : Nat) (h : i ≤ M), lo ≤ i → P i (forLoop lo body init i h) := by
  intro i
  induction i with
  | zero =>
    intro h hlo
    have hlo0 : lo = 0 := Nat.le_zero.mp hlo
    subst hlo0
    exact hinit
  | succ i ih =>
    intro h hlo
    rcases Nat.lt_or_ge i lo with hlt | hge
    · have he : lo = i + 1 := by omega
      rw [forLoop_start body init h (by omega), ← he]
      exact hinit
    · rw [forLoop_succ hge]
      exact hstep ⟨i, h⟩ _ hge (ih (Nat.le_of_succ_le h) hge)

/-- A loop from zero folds its body over the indices it has passed. -/
theorem forLoop_eq_foldl (body : Fin M → σ → σ) (init : σ) (i : Nat) (h : i ≤ M) :
    forLoop 0 body init i h = ((List.finRange M).take i).foldl (fun s k => body k s) init := by
  induction i with
  | zero => rfl
  | succ i ih =>
    have hi : i < (List.finRange M).length := by
      rw [List.length_finRange]
      exact h
    rw [forLoop_succ (Nat.zero_le i), ih (Nat.le_of_succ_le h),
      List.take_succ_eq_append_getElem hi, List.foldl_append, List.getElem_finRange]
    rfl

/-- Collecting the indices with a property filters them. -/
theorem forLoop_filter (p : Fin M → Bool) :
    forLoop 0 (fun k found => if p k = true then found ++ [k] else found) [] M (Nat.le_refl M) =
      (List.finRange M).filter p := by
  have hfold : ∀ (l found : List (Fin M)),
      l.foldl (fun found k => if p k = true then found ++ [k] else found) found =
        found ++ l.filter p := by
    intro l
    induction l with
    | nil => simp
    | cons k l ih =>
      intro found
      rw [List.foldl_cons, ih]
      cases hk : p k <;> simp [hk]
  rw [forLoop_eq_foldl, List.take_of_length_le (by simp), hfold, List.nil_append]

/-- Counting the indices with a property. -/
theorem forLoop_countP (p : Fin M → Bool) :
    forLoop 0 (fun k n => if p k = true then n + 1 else n) 0 M (Nat.le_refl M) =
      (List.finRange M).countP p := by
  have hfold : ∀ (l : List (Fin M)) (n : Nat),
      l.foldl (fun n k => if p k = true then n + 1 else n) n = n + l.countP p := by
    intro l
    induction l with
    | nil => simp
    | cons k l ih =>
      intro n
      rw [List.foldl_cons, ih, List.countP_cons]
      split_ifs <;> omega
  rw [forLoop_eq_foldl, List.take_of_length_le (by simp), hfold, Nat.zero_add]

end ForLoop
