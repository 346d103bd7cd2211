import Mathlib.Algebra.BigOperators.Group.List.Basic
import Mathlib.Algebra.Group.Basic
import Mathlib.Data.List.Nodup
import Mathlib.Tactic.Abel

/-! # Booking what a meter shows

A process has a state on which a meter is read, and runs one named call after the other.
Around each of them the meter is read, and what it has gone on by is booked under the
name of the call, in a ledger that has one entry for each name.  Whatever the calls do to
the state, nothing is lost and nothing booked twice: the entries add up to what the meter
has gone on by in all, and the entry of a name to what it went on by during the calls of
that name.  Booking is also invisible: the state goes through the same values without a
ledger.

The meter's readings are in a commutative group, so that it may wrap.
-/
namespace Ledger

/-- What is booked under one name. -/
structure Entry (ν A : Type*) where
  name : ν
  amount : A
deriving DecidableEq, Repr

section Entries
variable {ν A : Type*} [DecidableEq ν] [AddCommMonoid A]

/-- Books an amount under a name, which gets an entry when it is first used. -/
def add : List (Entry ν A) → ν → A → List (Entry ν A)
  | [], name, amount => [⟨name, amount⟩]
  | e :: l, name, amount =>
    if e.name = name then ⟨e.name, e.amount + amount⟩ :: l else e :: add l name amount

/-- The names in the order of their first use. -/
def names (l : List (Entry ν A)) : List ν := l.map Entry.name

/-- What the entries add up to. -/
def total (l : List (Entry ν A)) : A := (l.map Entry.amount).sum

/-- What is booked under a name. -/
def amountOf (l : List (Entry ν A)) (name : ν) : A :=
  ((l.filter fun e => e.name = name).map Entry.amount).sum

/-- A name is noted when it is first used. -/
def note (ns : List ν) (name : ν) : List ν := if name ∈ ns then ns else ns ++ [name]

theorem nodup_note {ns : List ν} (h : ns.Nodup) (name : ν) : (note ns name).Nodup := by
  rw [note]
  split_ifs with hmem
  · exact h
  · refine List.Nodup.append h (List.nodup_singleton name) ?_
    simpa using hmem

theorem total_add (l : List (Entry ν A)) (name : ν) (amount : A) :
    total (add l name amount) = total l + amount := by
  induction l with
  | nil => simp [add, total]
  | cons e l ih =>
    rw [add]
    split_ifs with h
    · simp only [total, List.map_cons, List.sum_cons]
      exact add_right_comm _ _ _
    · simp only [total, List.map_cons, List.sum_cons] at ih ⊢
      rw [ih, add_assoc]

theorem names_add (l : List (Entry ν A)) (name : ν) (amount : A) :
    names (add l name amount) = note (names l) name := by
  induction l with
  | nil => rfl
  | cons e l ih =>
    rw [add]
    by_cases h : e.name = name
    · rw [if_pos h, note, if_pos (by simp [names, h])]
      rfl
    · have hmem : name ∈ e.name :: names l ↔ name ∈ names l := by
        rw [List.mem_cons]
        exact or_iff_right (Ne.symm h)
      rw [if_neg h]
      change e.name :: names (add l name amount) = note (e.name :: names l) name
      rw [ih, note, note]
      by_cases hl : name ∈ names l
      · rw [if_pos hl, if_pos (List.mem_cons_of_mem _ hl)]
      · rw [if_neg hl, if_neg fun hc => hl (hmem.mp hc)]
        rfl

theorem amountOf_cons (e : Entry ν A) (l : List (Entry ν A)) (name : ν) :
    amountOf (e :: l) name = (if e.name = name then e.amount else 0) + amountOf l name := by
  rw [amountOf, List.filter_cons]
  by_cases h : e.name = name
  · rw [if_pos (decide_eq_true h), if_pos h]
    rfl
  · rw [if_neg (by simpa using h), if_neg h, zero_add]
    rfl

theorem amountOf_add (l : List (Entry ν A)) (name name' : ν) (amount : A) :
    amountOf (add l name amount) name' =
      amountOf l name' + if name = name' then amount else 0 := by
  induction l with
  | nil => rw [add, amountOf_cons, add_comm]
  | cons e l ih =>
    rw [add]
    split_ifs with h h' h'
    · rw [amountOf_cons, amountOf_cons, if_pos (h.trans h'), if_pos (h.trans h')]
      exact add_right_comm _ _ _
    · rw [amountOf_cons, amountOf_cons, if_neg fun hc => h' (h.symm.trans hc),
        if_neg fun hc => h' (h.symm.trans hc), add_zero]
    · rw [amountOf_cons, amountOf_cons, ih, if_pos h', add_assoc]
    · rw [amountOf_cons, amountOf_cons, ih, if_neg h', add_assoc]

/-- Where no name has two entries, what is booked under a name is its entry. -/
theorem amountOf_eq {l : List (Entry ν A)} (hl : (names l).Nodup) {e : Entry ν A} (he : e ∈ l) :
    amountOf l e.name = e.amount := by
  induction l with
  | nil => exact absurd he List.not_mem_nil
  | cons d l ih =>
    obtain ⟨hfresh, hl'⟩ := List.nodup_cons.mp hl
    have hnone : amountOf l d.name = 0 := by
      rw [amountOf, List.filter_eq_nil_iff.mpr, List.map_nil, List.sum_nil]
      intro e' he' hname
      exact hfresh (of_decide_eq_true hname ▸ List.mem_map_of_mem he')
    rw [amountOf_cons]
    rcases List.mem_cons.mp he with rfl | he'
    · rw [if_pos rfl, hnone, add_zero]
    · have hne : d.name ≠ e.name := fun h => hfresh (h ▸ List.mem_map_of_mem he')
      rw [if_neg hne, zero_add, ih hl' he']

theorem nodup_foldl_note (ms : List ν) {ns : List ν} (h : ns.Nodup) : (ms.foldl note ns).Nodup := by
  induction ms generalizing ns with
  | nil => exact h
  | cons m ms ih => exact ih (nodup_note h m)

theorem mem_foldl_note {ms ns : List ν} {n : ν} (h : n ∈ ns ∨ n ∈ ms) : n ∈ ms.foldl note ns := by
  induction ms generalizing ns with
  | nil => exact h.resolve_right List.not_mem_nil
  | cons m ms ih =>
    refine ih ?_
    rcases h with h | h
    · left
      rw [note]
      split_ifs
      · exact h
      · exact List.mem_append_left _ h
    · rcases List.mem_cons.mp h with rfl | h
      · left
        rw [note]
        split_ifs with hmem
        · exact hmem
        · exact List.mem_append_right _ (List.mem_singleton_self n)
      · exact Or.inr h

/-- Names that have been used are not noted again. -/
theorem foldl_note_of_subset {ms ns : List ν} (h : ∀ m ∈ ms, m ∈ ns) : ms.foldl note ns = ns := by
  induction ms with
  | nil => rfl
  | cons m ms ih =>
    rw [List.foldl_cons, note, if_pos (h m List.mem_cons_self)]
    exact ih fun m' hm' => h m' (List.mem_cons_of_mem m hm')

end Entries

/-! ## Runs -/

/-- A named call and what it does to the state. -/
structure Call (ν σ : Type*) where
  name : ν
  effect : σ → σ

section Runs
variable {ν A σ : Type*} [DecidableEq ν] [AddCommGroup A] (meter : σ → A)

/-- A call, with what the meter goes on by booked, if there is a ledger. -/
def step (p : σ × Option (List (Entry ν A))) (c : Call ν σ) : σ × Option (List (Entry ν A)) :=
  (c.effect p.1, p.2.map fun l => add l c.name (meter (c.effect p.1) - meter p.1))

/-- One call after the other. -/
def run (cs : List (Call ν σ)) (p : σ × Option (List (Entry ν A))) :
    σ × Option (List (Entry ν A)) := cs.foldl (step meter) p

/-- What the meter goes on by during the calls of one name. -/
def usage (name : ν) : List (Call ν σ) → σ → A
  | [], _ => 0
  | c :: cs, s => (if c.name = name then meter (c.effect s) - meter s else 0) +
      usage name cs (c.effect s)

@[simp] theorem run_nil (p : σ × Option (List (Entry ν A))) : run meter [] p = p := rfl

theorem run_cons (c : Call ν σ) (cs : List (Call ν σ)) (p : σ × Option (List (Entry ν A))) :
    run meter (c :: cs) p = run meter cs (step meter p c) := rfl

theorem run_append (cs ds : List (Call ν σ)) (p : σ × Option (List (Entry ν A))) :
    run meter (cs ++ ds) p = run meter ds (run meter cs p) := List.foldl_append

/-- **Booking is invisible**: the state does not depend on the ledger. -/
theorem run_fst (cs : List (Call ν σ)) (p : σ × Option (List (Entry ν A))) :
    (run meter cs p).1 = cs.foldl (fun s c => c.effect s) p.1 := by
  induction cs generalizing p with
  | nil => rfl
  | cons c cs ih => exact ih (step meter p c)

/-- Without a ledger nothing is booked. -/
theorem run_none (cs : List (Call ν σ)) (s : σ) : (run meter cs (s, none)).2 = none := by
  induction cs generalizing s with
  | nil => rfl
  | cons c cs ih => exact ih (c.effect s)

/-- **Nothing is lost and nothing booked twice.** -/
theorem run_some (cs : List (Call ν σ)) (s : σ) (l : List (Entry ν A)) :
    ∃ l', (run meter cs (s, some l)).2 = some l' ∧
      names l' = (cs.map Call.name).foldl note (names l) ∧
      total l' = total l + (meter (run meter cs (s, some l)).1 - meter s) ∧
      ∀ name, amountOf l' name = amountOf l name + usage meter name cs s := by
  induction cs generalizing s l with
  | nil => exact ⟨l, rfl, rfl, by simp, by simp [usage]⟩
  | cons c cs ih =>
    obtain ⟨l', hl', hnames, htotal, hamount⟩ :=
      ih (c.effect s) (add l c.name (meter (c.effect s) - meter s))
    refine ⟨l', hl', ?_, ?_, fun name => ?_⟩
    · rw [hnames, names_add]
      rfl
    · rw [htotal, total_add, run_cons]
      change _ = total l + (meter (run meter cs (c.effect s, some _)).1 - meter s)
      abel
    · rw [hamount, amountOf_add, usage, add_assoc]

end Runs

/-! ## Programs that book what they do -/

section Programs
variable {ν A σ α β : Type} [DecidableEq ν] [AddCommGroup A] {meter : σ → A}

/-- A program that returns `v` and books the calls `cs`. -/
def booked (meter : σ → A) (v : α) (cs : List (Call ν σ)) :
    StateM (σ × Option (List (Entry ν A))) α := fun p => (v, run meter cs p)

theorem pure_eq_booked (meter : σ → A) (v : α) :
    (pure v : StateM (σ × Option (List (Entry ν A))) α) = booked meter v [] := rfl

/-- One program after the other books the calls of both. -/
theorem booked_bind {v : α} {w : β} {cs ds : List (Call ν σ)}
    {f : α → StateM (σ × Option (List (Entry ν A))) β} (h : f v = booked meter w ds) :
    booked meter v cs >>= f = booked meter w (cs ++ ds) := by
  funext p
  change f v (run meter cs p) = (w, run meter (cs ++ ds) p)
  rw [h, run_append]
  rfl

section Loop
variable {ι : Type} [DecidableEq ι] {body : ι → StateM (σ × Option (List (Entry ν A))) α}
  {v : ι → α} {cs : ι → List (Call ν σ)} (h : ∀ t, body t = booked meter (v t) (cs t))
include h

/-- A loop that writes an array books the calls of all turns. -/
theorem foldlM_update_eq_booked (ts : List ι) (a : ι → α) :
    ts.foldlM (fun a t => do
        let x ← body t
        return Function.update a t x) a =
      booked meter (fun t => if t ∈ ts then v t else a t) (ts.flatMap cs) := by
  induction ts generalizing a with
  | nil =>
    rw [List.foldlM_nil, pure_eq_booked meter]
    simp only [List.not_mem_nil, if_false, List.flatMap_nil]
  | cons t ts ih =>
    rw [List.foldlM_cons, h, List.flatMap_cons, bind_assoc]
    refine booked_bind ?_
    rw [pure_bind, ih]
    congr 1
    funext u
    by_cases hu : u = t
    · subst hu
      simp
    · simp [hu]

end Loop

/-- A loop over all indices fills the array. -/
theorem foldlM_finRange_eq_booked {K : Nat}
    {body : Fin K → StateM (σ × Option (List (Entry ν A))) α} {v : Fin K → α}
    {cs : Fin K → List (Call ν σ)} (h : ∀ t, body t = booked meter (v t) (cs t)) (a : Fin K → α) :
    (List.finRange K).foldlM (fun a t => do
        let x ← body t
        return Function.update a t x) a =
      booked meter v ((List.finRange K).flatMap cs) := by
  rw [foldlM_update_eq_booked h]
  simp only [List.mem_finRange, if_true]

end Programs

end Ledger
