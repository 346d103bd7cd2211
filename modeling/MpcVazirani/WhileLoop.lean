import Mathlib.Tactic.Common

/-! # Loops that run until their condition fails

`whileLoop cond body fuel s` is the state in which

    while (cond(s))  s = body(s);

started in `s` is left, if it is left after at most `fuel` rounds; a round that
fails makes the loop fail.  So a loop that returns with fuel `n` makes at most `n`
rounds.  `whileLoop_total` is the rule for total correctness: an invariant the body
keeps and a measure it decreases give that the loop returns, and what holds then.
-/
namespace WhileLoop
variable {σ : Type*}

/-- The state after the loop; `none` if it is not left within `fuel` rounds, or if a round
fails. -/
def whileLoop (cond : σ → Bool) (body : σ → Option σ) : (fuel : Nat) → σ → Option σ
  | 0, s => if cond s = true then none else some s
  | fuel + 1, s =>
      if cond s = true then (body s).bind (whileLoop cond body fuel) else some s

variable {cond : σ → Bool} {body : σ → Option σ}

theorem whileLoop_exit (fuel : Nat) {s : σ} (h : cond s = false) :
    whileLoop cond body fuel s = some s := by
  cases fuel with
  | zero => rw [whileLoop, h, if_neg Bool.false_ne_true]
  | succ fuel => rw [whileLoop, h, if_neg Bool.false_ne_true]

theorem whileLoop_step (fuel : Nat) {s s' : σ} (h : cond s = true) (hbody : body s = some s') :
    whileLoop cond body (fuel + 1) s = whileLoop cond body fuel s' := by
  rw [whileLoop, if_pos h, hbody, Option.bind_some]

/-- What the loop returns does not depend on the fuel it is given beyond what it needs. -/
theorem whileLoop_mono {fuel fuel' : Nat} {s s' : σ} (h : whileLoop cond body fuel s = some s')
    (hle : fuel ≤ fuel') : whileLoop cond body fuel' s = some s' := by
  induction fuel generalizing s fuel' with
  | zero =>
    cases hcond : cond s with
    | true =>
      rw [whileLoop, if_pos hcond] at h
      cases h
    | false =>
      rw [whileLoop_exit 0 hcond] at h
      rw [whileLoop_exit fuel' hcond, h]
  | succ fuel ih =>
    cases hcond : cond s with
    | false =>
      rw [whileLoop_exit (fuel + 1) hcond] at h
      rw [whileLoop_exit fuel' hcond, h]
    | true =>
      obtain ⟨n, rfl⟩ := Nat.exists_eq_add_of_le hle
      rw [whileLoop, if_pos hcond] at h
      obtain ⟨s₁, hbody, hrest⟩ := Option.bind_eq_some_iff.mp h
      rw [Nat.add_right_comm, whileLoop_step (fuel + n) hcond hbody]
      exact ih hrest (Nat.le_add_right fuel n)

/-- **Total correctness.**  If every round from a state of the invariant succeeds, keeps the
invariant and decreases the measure, then as much fuel as the measure is enough, and the
loop is left in a state of the invariant in which the condition fails. -/
theorem whileLoop_total (P : σ → Prop) (measure : σ → Nat)
    (hround : ∀ s, P s → cond s = true → ∃ s', body s = some s' ∧ P s' ∧ measure s' < measure s) :
    ∀ s, P s → ∃ s', P s' ∧ cond s' = false ∧
      ∀ fuel, measure s ≤ fuel → whileLoop cond body fuel s = some s' := by
  suffices hall : ∀ n s, measure s = n → P s → ∃ s', P s' ∧ cond s' = false ∧
      ∀ fuel, n ≤ fuel → whileLoop cond body fuel s = some s' from
    fun s hs => hall (measure s) s rfl hs
  intro n
  induction n using Nat.strongRecOn with
  | ind n ih =>
    intro s hn hs
    cases hcond : cond s with
    | false => exact ⟨s, hs, hcond, fun fuel _ => whileLoop_exit fuel hcond⟩
    | true =>
      obtain ⟨s₁, hbody, hs₁, hlt⟩ := hround s hs hcond
      rw [hn] at hlt
      obtain ⟨s', hs', hleft, hrun⟩ := ih (measure s₁) hlt s₁ rfl hs₁
      refine ⟨s', hs', hleft, fun fuel hle => ?_⟩
      obtain ⟨fuel, rfl⟩ := Nat.exists_eq_add_of_lt (Nat.lt_of_lt_of_le (Nat.zero_lt_of_lt hlt) hle)
      rw [Nat.zero_add, whileLoop_step fuel hcond hbody]
      exact hrun fuel (by omega)

end WhileLoop
