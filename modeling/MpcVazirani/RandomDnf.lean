import MpcVazirani.DimacsDnf
import MpcVazirani.WhileLoop

/-! # Generating a pair of formulas

`utils/random_dnf.h`.  Alice's cubes are drawn freely, Bob's are drawn the same way
and then repaired: for every cube of Alice's with which the candidate shares more
than `max_overlap` literals, the excess is cleared, in an order a shuffle chooses.
Pseudo-random numbers and shuffles are not part of the repository, so they enter as
a parameter of which only one thing is known, that a shuffle permutes; a statement
about every `RandomSource` is one about every outcome.

Clearing a literal only lowers the overlap with every other cube.  So the first pass
over Alice's cubes already meets the cap against all of them, and the second finds
nothing to do.
-/
namespace MpcVazirani
open ForLoop WhileLoop

/-- What the generator uses of `<random>` and of `std::shuffle`. -/
structure RandomSource where
  /-- `std::mt19937_64`. -/
  Engine : Type
  /-- `std::mt19937_64 rng(seed)`. -/
  seeded : UInt64 → Engine
  /-- `std::bernoulli_distribution(p)(rng)`, with the engine after the draw. -/
  bernoulli : Rat → Engine → Bool × Engine
  /-- `std::shuffle(matches.begin(), matches.end(), rng)`, with the engine after it. -/
  shuffle : {α : Type} → List α → Engine → List α × Engine
  shuffle_perm : ∀ {α : Type} (l : List α) (rng : Engine), (shuffle l rng).1.Perm l

variable {VARS CUBES : Nat}

/-- `DnfPair<VARS, CUBES>`. -/
structure DnfPair (VARS CUBES : Nat) where
  alice : Dnf VARS CUBES
  bob : Dnf VARS CUBES

/-- `cand.mask[v] = false; cand.bits[v] = false;` -/
def Cube.clearLiteral (c : Cube VARS) (v : Fin VARS) : Cube VARS :=
  { c with
    mask := Function.update c.mask v false
    bits := Function.update c.bits v false }

/-- Both cubes constrain `v`, with the same polarity. -/
def Cube.agrees (a b : Cube VARS) (v : Fin VARS) : Bool :=
  a.mask v && b.mask v && a.bits v == b.bits v

/-- `detail::literal_overlap`. -/
def literalOverlap (a b : Cube VARS) : Nat :=
  forLoop 0 (fun v n => if a.agrees b v = true then n + 1 else n) 0 VARS (Nat.le_refl VARS)

/-- The vector `matches` of `repair_overlap`. -/
def matchingLiterals (cand other : Cube VARS) : List (Fin VARS) :=
  forLoop 0 (fun v found => if cand.agrees other v = true then found ++ [v] else found) [] VARS
    (Nat.le_refl VARS)

/-- The loop that clears the first `to_clear` of the shuffled matches.  Reading past the
end of the vector is undefined. -/
def clearMatches (shuffled : List (Fin VARS)) (to_clear : Int) (cand : Cube VARS) :
    Option (Cube VARS) :=
  forLoop 0 (fun i cand => cand.bind fun cand => shuffled[i.val]?.map cand.clearLiteral)
    (some cand) to_clear.toNat (Nat.le_refl _)

variable (R : RandomSource)

/-- `detail::random_cube`, with the engine after it. -/
def randomCube (rng : R.Engine) (density : Rat) : Cube VARS × R.Engine :=
  forLoop 0 (fun v (st : Cube VARS × R.Engine) =>
      let constrained := R.bernoulli density st.2
      if constrained.1 = true then
        let polarity := R.bernoulli (1 / 2) constrained.2
        (st.1.setLiteral v polarity.1, polarity.2)
      else (st.1, constrained.2))
    (Cube.empty, rng) VARS (Nat.le_refl VARS)

/-- The locals of `repair_overlap`. -/
structure RepairState (VARS : Nat) where
  rng : R.Engine
  cand : Cube VARS
  changed : Bool

/-- The body of `for (const auto& other : others.cubes)`. -/
def repairAgainst (other : Cube VARS) (max_overlap : Int) (s : RepairState R VARS) :
    Option (RepairState R VARS) :=
  let found := matchingLiterals s.cand other
  if (found.length : Int) ≤ max_overlap then some s
  else
    let shuffled := R.shuffle found s.rng
    let to_clear := (found.length : Int) - max_overlap
    (clearMatches shuffled.1 to_clear s.cand).map fun cand => ⟨shuffled.2, cand, true⟩

/-- The body of `while (changed)`. -/
def repairPass (others : Dnf VARS CUBES) (max_overlap : Int) (s : RepairState R VARS) :
    Option (RepairState R VARS) :=
  forLoop 0 (fun i s => s.bind (repairAgainst R (others.cubes i) max_overlap))
    (some { s with changed := false }) CUBES (Nat.le_refl CUBES)

/-- `detail::repair_overlap`, with the engine after it and at most `fuel` passes. -/
def repairOverlap (fuel : Nat) (rng : R.Engine) (cand : Cube VARS) (others : Dnf VARS CUBES)
    (max_overlap : Int) : Option (Cube VARS × R.Engine) :=
  (whileLoop RepairState.changed (repairPass R others max_overlap) fuel ⟨rng, cand, true⟩).map
    fun s => (s.cand, s.rng)

/-- `std::clamp`. -/
def clamp (x lo hi : Int) : Int := if x < lo then lo else if hi < x then hi else x

/-- The loop that draws Alice's cubes. -/
def randomAlice (rng : R.Engine) (density : Rat) : Dnf VARS CUBES × R.Engine :=
  forLoop 0 (fun i (st : Dnf VARS CUBES × R.Engine) =>
      let c := randomCube R st.2 density
      (st.1.setCube i c.1, c.2))
    (⟨fun _ => Cube.empty⟩, rng) CUBES (Nat.le_refl CUBES)

/-- The loop that draws Bob's cubes and repairs each against Alice's, when its variable has
reached `i`. -/
def randomBobFrom (fuel : Nat) (rng : R.Engine) (density : Rat) (alice : Dnf VARS CUBES)
    (max_overlap : Int) (i : Nat) (h : i ≤ CUBES) : Option (Dnf VARS CUBES × R.Engine) :=
  forLoop 0 (fun i (st : Option (Dnf VARS CUBES × R.Engine)) => st.bind fun st =>
      let c := randomCube R st.2 density
      (repairOverlap R fuel c.2 c.1 alice max_overlap).map fun cand =>
        (st.1.setCube i cand.1, cand.2))
    (some (⟨fun _ => Cube.empty⟩, rng)) i h

/-- `generate_random_dnf_pair`, with at most `fuel` passes for each repair. -/
def generateRandomDnfPair (fuel : Nat) (max_overlap : Int) (seed : UInt64) (density : Rat) :
    Option (DnfPair VARS CUBES) :=
  let max_overlap := clamp max_overlap 0 VARS
  let alice := randomAlice R (R.seeded seed) density
  (randomBobFrom R fuel alice.2 density alice.1 max_overlap CUBES (Nat.le_refl CUBES)).map
    fun bob => ⟨alice.1, bob.1⟩

/-! ## Overlap -/

theorem Cube.agrees_comm (a b : Cube VARS) : a.agrees b = b.agrees a := by
  funext v
  rw [Cube.agrees, Cube.agrees, Bool.and_comm (a.mask v), Bool.beq_comm]

theorem literalOverlap_eq (a b : Cube VARS) :
    literalOverlap a b = (List.finRange VARS).countP (a.agrees b) :=
  forLoop_countP (a.agrees b)

theorem literalOverlap_comm (a b : Cube VARS) : literalOverlap a b = literalOverlap b a := by
  rw [literalOverlap_eq, literalOverlap_eq, Cube.agrees_comm]

theorem matchingLiterals_eq (cand other : Cube VARS) :
    matchingLiterals cand other = (List.finRange VARS).filter (cand.agrees other) :=
  forLoop_filter (cand.agrees other)

/-- The vector of matches is as long as the overlap. -/
theorem length_matchingLiterals (cand other : Cube VARS) :
    (matchingLiterals cand other).length = literalOverlap cand other := by
  rw [matchingLiterals_eq, literalOverlap_eq, List.countP_eq_length_filter]

theorem mem_matchingLiterals {cand other : Cube VARS} {v : Fin VARS} :
    v ∈ matchingLiterals cand other ↔ cand.agrees other v = true := by
  rw [matchingLiterals_eq, List.mem_filter, and_iff_right (List.mem_finRange v)]

/-! ## Clearing literals -/

/-- `c'` is `c` with some of its literals cleared: each variable is as before, or was
constrained and is not any more. -/
structure OnlyClears (c c' : Cube VARS) : Prop where
  pad : c'.pad = c.pad
  literal : ∀ v, (c'.mask v = c.mask v ∧ c'.bits v = c.bits v) ∨
    (c.mask v = true ∧ c'.mask v = false ∧ c'.bits v = false)

namespace OnlyClears

theorem refl (c : Cube VARS) : OnlyClears c c := ⟨rfl, fun _ => Or.inl ⟨rfl, rfl⟩⟩

theorem trans {c₁ c₂ c₃ : Cube VARS} (h : OnlyClears c₁ c₂) (h' : OnlyClears c₂ c₃) :
    OnlyClears c₁ c₃ := by
  refine ⟨h'.pad.trans h.pad, fun v => ?_⟩
  rcases h'.literal v with ⟨hmask', hbits'⟩ | ⟨hmask, hmask', hbits'⟩
  · rw [hmask', hbits']
    exact h.literal v
  · rcases h.literal v with ⟨hkept, -⟩ | ⟨-, hgone, -⟩
    · exact Or.inr ⟨hkept ▸ hmask, hmask', hbits'⟩
    · rw [hgone] at hmask
      cases hmask

/-- One more literal of the original cube is cleared. -/
theorem clearLiteral {c c' : Cube VARS} (h : OnlyClears c c') {v : Fin VARS}
    (hv : c.mask v = true) : OnlyClears c (c'.clearLiteral v) := by
  refine ⟨h.pad, fun u => ?_⟩
  by_cases hu : u = v
  · subst hu
    exact Or.inr ⟨hv, Function.update_self .., Function.update_self ..⟩
  · rw [Cube.clearLiteral]
    simp only [Function.update_of_ne hu]
    exact h.literal u

/-- A variable that still matches another cube matched it before. -/
theorem agrees {c c' : Cube VARS} (h : OnlyClears c c') {other : Cube VARS} {v : Fin VARS}
    (hv : c'.agrees other v = true) : c.agrees other v = true := by
  rcases h.literal v with ⟨hmask, hbits⟩ | ⟨-, hmask, -⟩
  · rwa [Cube.agrees, hmask, hbits] at hv
  · rw [Cube.agrees, hmask] at hv
    cases hv

/-- **Clearing lowers every overlap.** -/
theorem literalOverlap_le {c c' : Cube VARS} (h : OnlyClears c c') (other : Cube VARS) :
    literalOverlap c' other ≤ literalOverlap c other := by
  rw [literalOverlap_eq, literalOverlap_eq]
  exact List.countP_mono_left fun v _ => h.agrees

end OnlyClears

/-- A real cube, with bit 0 wherever it does not constrain the variable. -/
structure Cube.Clean (c : Cube VARS) : Prop where
  real : c.pad = false
  bits : ∀ v, c.mask v = false → c.bits v = false

theorem Cube.Clean.onlyClears {c c' : Cube VARS} (hc : c.Clean) (h : OnlyClears c c') :
    c'.Clean := by
  refine ⟨h.pad.trans hc.real, fun v hv => ?_⟩
  rcases h.literal v with ⟨hmask, hbits⟩ | ⟨-, -, hbits⟩
  · rw [hbits]
    exact hc.bits v (hmask ▸ hv)
  · exact hbits

theorem Cube.clean_empty : (Cube.empty : Cube VARS).Clean := ⟨rfl, fun _ _ => rfl⟩

theorem Cube.Clean.setLiteral {c : Cube VARS} (h : c.Clean) (v : Fin VARS) (positive : Bool) :
    (c.setLiteral v positive).Clean := by
  refine ⟨h.real, fun u hu => ?_⟩
  rw [Cube.setLiteral] at hu ⊢
  by_cases huv : u = v
  · subst huv
    simp at hu
  · simp only [Function.update_of_ne huv] at hu ⊢
    exact h.bits u hu

/-- What the loop that clears does, as long as it stays inside the vector. -/
theorem clearMatches_spec {shuffled : List (Fin VARS)} {cand : Cube VARS}
    (hmask : ∀ v ∈ shuffled, cand.mask v = true) (to_clear : Int)
    (hle : to_clear.toNat ≤ shuffled.length) :
    ∃ c, clearMatches shuffled to_clear cand = some c ∧ OnlyClears cand c ∧
      ∀ v ∈ shuffled.take to_clear.toNat, c.mask v = false := by
  refine forLoop_rule (fun i st => ∃ c, st = some c ∧ OnlyClears cand c ∧
    ∀ v ∈ shuffled.take i, c.mask v = false) ?_ ?_ to_clear.toNat (Nat.le_refl _) (Nat.zero_le _)
  · exact ⟨cand, rfl, OnlyClears.refl cand, by simp⟩
  · rintro i st - ⟨c, rfl, hclears, hcleared⟩
    have hi : i.val < shuffled.length := Nat.lt_of_lt_of_le i.isLt hle
    refine ⟨c.clearLiteral shuffled[i.val], ?_, ?_, ?_⟩
    · rw [Option.bind_some, List.getElem?_eq_getElem hi, Option.map_some]
    · exact hclears.clearLiteral (hmask _ (List.getElem_mem hi))
    · intro v hv
      rw [List.take_succ_eq_append_getElem hi, List.mem_append, List.mem_singleton] at hv
      by_cases hvi : v = shuffled[i.val]
      · rw [hvi]
        exact Function.update_self ..
      · rw [Cube.clearLiteral]
        simp only [Function.update_of_ne hvi]
        exact hcleared v (hv.resolve_right hvi)

/-! ## `repair_overlap` -/

/-- The candidate shares at most `max_overlap` literals with each of the cubes. -/
def MeetsCap (cand : Cube VARS) (others : Dnf VARS CUBES) (max_overlap : Int) : Prop :=
  ∀ i, (literalOverlap cand (others.cubes i) : Int) ≤ max_overlap

variable {R}

/-- After the first literals of a shuffle of the matches are cleared, only the remaining
ones can still match. -/
theorem literalOverlap_le_of_cleared {cand c other : Cube VARS} {shuffled : List (Fin VARS)}
    (hperm : shuffled.Perm (matchingLiterals cand other)) (hclears : OnlyClears cand c) {k : Nat}
    (hcleared : ∀ v ∈ shuffled.take k, c.mask v = false) :
    literalOverlap c other ≤ shuffled.length - k := by
  have hsubset : matchingLiterals c other ⊆ shuffled.drop k := by
    intro v hv
    have hagrees := mem_matchingLiterals.mp hv
    have hmem : v ∈ shuffled :=
      hperm.mem_iff.mpr (mem_matchingLiterals.mpr (hclears.agrees hagrees))
    rw [← List.take_append_drop k shuffled, List.mem_append] at hmem
    rcases hmem with hgone | hkept
    · rw [Cube.agrees, hcleared v hgone] at hagrees
      cases hagrees
    · exact hkept
  have hnodup : (matchingLiterals c other).Nodup := by
    rw [matchingLiterals_eq]
    exact (List.nodup_finRange VARS).filter _
  have hle := (List.subperm_of_subset hnodup hsubset).length_le
  rwa [length_matchingLiterals, List.length_drop] at hle

theorem repairAgainst_of_le {other : Cube VARS} {max_overlap : Int} {s : RepairState R VARS}
    (h : (literalOverlap s.cand other : Int) ≤ max_overlap) :
    repairAgainst R other max_overlap s = some s := by
  rw [repairAgainst, length_matchingLiterals]
  exact if_pos h

theorem repairAgainst_of_not_le {other : Cube VARS} {max_overlap : Int} {s : RepairState R VARS}
    (h : ¬ (literalOverlap s.cand other : Int) ≤ max_overlap) :
    repairAgainst R other max_overlap s =
      (clearMatches (R.shuffle (matchingLiterals s.cand other) s.rng).1
        (literalOverlap s.cand other - max_overlap) s.cand).map fun cand =>
          ⟨(R.shuffle (matchingLiterals s.cand other) s.rng).2, cand, true⟩ := by
  rw [repairAgainst, length_matchingLiterals]
  exact if_neg h

/-- **One other cube.**  The candidate is left alone if it meets the cap against it, and
meets it afterwards. -/
theorem repairAgainst_spec (other : Cube VARS) {max_overlap : Int} (hcap : 0 ≤ max_overlap)
    (s : RepairState R VARS) :
    ∃ s', repairAgainst R other max_overlap s = some s' ∧ OnlyClears s.cand s'.cand ∧
      (literalOverlap s'.cand other : Int) ≤ max_overlap ∧
      ((literalOverlap s.cand other : Int) ≤ max_overlap → s' = s) := by
  have hlength := length_matchingLiterals s.cand other
  by_cases hle : (literalOverlap s.cand other : Int) ≤ max_overlap
  · exact ⟨s, repairAgainst_of_le hle, OnlyClears.refl s.cand, hle, fun _ => rfl⟩
  · have hperm := R.shuffle_perm (matchingLiterals s.cand other) s.rng
    have hshuffled := hperm.length_eq.trans hlength
    have hmask : ∀ v ∈ (R.shuffle (matchingLiterals s.cand other) s.rng).1,
        s.cand.mask v = true := by
      intro v hv
      have hagrees := mem_matchingLiterals.mp (hperm.mem_iff.mp hv)
      simp only [Cube.agrees, Bool.and_eq_true] at hagrees
      exact hagrees.1.1
    obtain ⟨c, hc, hclears, hcleared⟩ :=
      clearMatches_spec hmask (literalOverlap s.cand other - max_overlap) (by omega)
    refine ⟨⟨(R.shuffle (matchingLiterals s.cand other) s.rng).2, c, true⟩, ?_, hclears, ?_,
      fun h => absurd h hle⟩
    · rw [repairAgainst_of_not_le hle, hc, Option.map_some]
    · have hover := literalOverlap_le_of_cleared hperm hclears hcleared
      show (literalOverlap c other : Int) ≤ max_overlap
      omega

/-- **One pass.**  It meets the cap against every cube, since meeting it against one is
kept while the others are dealt with; and where the cap was met it changes nothing. -/
theorem repairPass_spec (others : Dnf VARS CUBES) {max_overlap : Int} (hcap : 0 ≤ max_overlap)
    (s : RepairState R VARS) :
    ∃ s', repairPass R others max_overlap s = some s' ∧ OnlyClears s.cand s'.cand ∧
      MeetsCap s'.cand others max_overlap ∧
      (MeetsCap s.cand others max_overlap → s' = { s with changed := false }) := by
  suffices hloop : ∃ s', repairPass R others max_overlap s = some s' ∧ OnlyClears s.cand s'.cand ∧
      (∀ k : Fin CUBES, k.val < CUBES →
        (literalOverlap s'.cand (others.cubes k) : Int) ≤ max_overlap) ∧
      (MeetsCap s.cand others max_overlap → s' = { s with changed := false }) by
    obtain ⟨s', hs', hclears, hmeets, hsame⟩ := hloop
    exact ⟨s', hs', hclears, fun i => hmeets i i.isLt, hsame⟩
  refine forLoop_rule (fun i st => ∃ s', st = some s' ∧ OnlyClears s.cand s'.cand ∧
    (∀ k : Fin CUBES, k.val < i → (literalOverlap s'.cand (others.cubes k) : Int) ≤ max_overlap) ∧
    (MeetsCap s.cand others max_overlap → s' = { s with changed := false }))
    ?_ ?_ CUBES (Nat.le_refl CUBES) (Nat.zero_le CUBES)
  · exact ⟨_, rfl, OnlyClears.refl s.cand, fun k hk => absurd hk (Nat.not_lt_zero _), fun _ => rfl⟩
  · rintro i st - ⟨s₁, rfl, hclears, hmeets, hsame⟩
    obtain ⟨s₂, hs₂, hclears₂, hmeets₂, hsame₂⟩ := repairAgainst_spec (others.cubes i) hcap s₁
    refine ⟨s₂, hs₂, hclears.trans hclears₂, fun k hk => ?_, fun hmet => ?_⟩
    · rcases Nat.lt_succ_iff_lt_or_eq.mp hk with hlt | heq
      · exact le_trans (Int.ofNat_le.mpr (hclears₂.literalOverlap_le _)) (hmeets k hlt)
      · rw [Fin.ext heq]
        exact hmeets₂
    · have hs₁ := hsame hmet
      rw [hsame₂ (by rw [hs₁]; exact hmet i), hs₁]

/-- **Two passes are enough**: after the first the cap is met, and a pass over a candidate
that meets it changes nothing. -/
theorem repairOverlap_spec (rng : R.Engine) (cand : Cube VARS) (others : Dnf VARS CUBES)
    {max_overlap : Int} (hcap : 0 ≤ max_overlap) :
    ∃ cand' rng', (∀ fuel, 2 ≤ fuel →
        repairOverlap R fuel rng cand others max_overlap = some (cand', rng')) ∧
      OnlyClears cand cand' ∧ MeetsCap cand' others max_overlap ∧
      (MeetsCap cand others max_overlap → cand' = cand) := by
  obtain ⟨s₁, hs₁, hclears₁, hmeets₁, hsame₁⟩ := repairPass_spec others hcap ⟨rng, cand, true⟩
  obtain ⟨s₂, hs₂, -, -, hsame₂⟩ := repairPass_spec others hcap s₁
  have hstable := hsame₂ hmeets₁
  refine ⟨s₁.cand, s₁.rng, fun fuel hfuel => ?_, hclears₁, hmeets₁, fun hmet => ?_⟩
  · obtain ⟨n, rfl⟩ := Nat.exists_eq_add_of_le' hfuel
    rw [repairOverlap, whileLoop_step (n + 1) rfl hs₁]
    cases hchanged : s₁.changed with
    | false => rw [whileLoop_exit (n + 1) hchanged, Option.map_some]
    | true =>
      have hexit : s₂.changed = false := by rw [hstable]
      rw [whileLoop_step n hchanged hs₂, whileLoop_exit n hexit, Option.map_some, hstable]
  · rw [hsame₁ hmet]

/-! ## `generate_random_dnf_pair` -/

theorem randomCube_clean (rng : R.Engine) (density : Rat) :
    (randomCube R rng density : Cube VARS × R.Engine).1.Clean := by
  refine forLoop_rule (fun _ (st : Cube VARS × R.Engine) => st.1.Clean) Cube.clean_empty ?_ VARS
    (Nat.le_refl VARS) (Nat.zero_le VARS)
  intro v st _ hst
  by_cases hconstrained : (R.bernoulli density st.2).1 = true
  · simp only [if_pos hconstrained]
    exact hst.setLiteral v _
  · simp only [if_neg hconstrained]
    exact hst

/-- Writing the next cube of an array whose earlier cubes have a property. -/
theorem Dnf.forall_setCube {P : Cube VARS → Prop} {d : Dnf VARS CUBES} {i : Fin CUBES}
    {c : Cube VARS} (h : ∀ k : Fin CUBES, k.val < i.val → P (d.cubes k)) (hc : P c) :
    ∀ k : Fin CUBES, k.val < i.val + 1 → P ((d.setCube i c).cubes k) := by
  intro k hk
  rw [Dnf.setCube_cubes]
  by_cases hki : k = i
  · rw [hki, Function.update_self]
    exact hc
  · rw [Function.update_of_ne hki]
    exact h k (Nat.lt_of_le_of_ne (Nat.le_of_lt_succ hk) fun he => hki (Fin.ext he))

theorem randomAlice_clean (rng : R.Engine) (density : Rat) (i : Fin CUBES) :
    ((randomAlice R rng density : Dnf VARS CUBES × R.Engine).1.cubes i).Clean := by
  suffices hall : ∀ k : Fin CUBES, k.val < CUBES →
      ((randomAlice R rng density : Dnf VARS CUBES × R.Engine).1.cubes k).Clean from
    hall i i.isLt
  refine forLoop_rule (fun i (st : Dnf VARS CUBES × R.Engine) =>
    ∀ k : Fin CUBES, k.val < i → (st.1.cubes k).Clean) ?_ ?_ CUBES (Nat.le_refl CUBES)
    (Nat.zero_le CUBES)
  · exact fun k hk => absurd hk (Nat.not_lt_zero _)
  · intro i st _ hst
    exact Dnf.forall_setCube hst (randomCube_clean st.2 density)

/-- **Bob's loop.**  What it has written so far is clean and meets the cap against all of
Alice's cubes, and is the same for every fuel of at least two passes. -/
theorem randomBobFrom_spec (rng : R.Engine) (density : Rat) (alice : Dnf VARS CUBES)
    {max_overlap : Int} (hcap : 0 ≤ max_overlap) (i : Nat) (h : i ≤ CUBES) :
    ∃ bob : Dnf VARS CUBES × R.Engine,
      (∀ fuel, 2 ≤ fuel → randomBobFrom R fuel rng density alice max_overlap i h = some bob) ∧
      ∀ k : Fin CUBES, k.val < i →
        (bob.1.cubes k).Clean ∧ MeetsCap (bob.1.cubes k) alice max_overlap := by
  induction i with
  | zero => exact ⟨_, fun _ _ => rfl, fun k hk => absurd hk (Nat.not_lt_zero _)⟩
  | succ i ih =>
    obtain ⟨bob, hbob, hcubes⟩ := ih (Nat.le_of_succ_le h)
    have hclean : (randomCube R bob.2 density : Cube VARS × R.Engine).1.Clean :=
      randomCube_clean bob.2 density
    obtain ⟨c, hc⟩ : ∃ c : Cube VARS × R.Engine, c = randomCube R bob.2 density := ⟨_, rfl⟩
    rw [← hc] at hclean
    obtain ⟨cand, rng', hrepair, hclears, hmeets, -⟩ := repairOverlap_spec c.2 c.1 alice hcap
    refine ⟨(bob.1.setCube ⟨i, h⟩ cand, rng'), fun fuel hfuel => ?_, ?_⟩
    · have hprev := hbob fuel hfuel
      rw [randomBobFrom] at hprev ⊢
      rw [forLoop_succ (Nat.zero_le i), hprev, Option.bind_some, ← hc]
      show (repairOverlap R fuel c.2 c.1 alice max_overlap).map _ = _
      rw [hrepair fuel hfuel, Option.map_some]
    · exact @Dnf.forall_setCube _ _ (fun c => c.Clean ∧ MeetsCap c alice max_overlap) _ ⟨i, h⟩ _
        hcubes ⟨hclean.onlyClears hclears, hmeets⟩

theorem clamp_nonneg (x : Int) (hi : Nat) : 0 ≤ clamp x 0 hi := by
  rw [clamp]
  split_ifs <;> omega

/-- **The generator keeps the cap and the invariant of cubes**, whatever is drawn and
however matches are shuffled.  With fuel for two passes, and so with any more, it returns;
all cubes are real with bit 0 wherever the mask is 0; and no cube of Alice's shares more
literals with one of Bob's than the clamped cap.  And under any cap from 0 on the repair of
any candidate returns after at most two passes, only clears literals, and leaves a candidate
that meets the cap as it is. -/
theorem generateRandomDnfPair_meets_cap (R : RandomSource) (max_overlap : Int) (seed : UInt64)
    (density : Rat) :
    (∃ pair : DnfPair VARS CUBES,
      (∀ fuel, 2 ≤ fuel → generateRandomDnfPair R fuel max_overlap seed density = some pair) ∧
      (∀ i, (pair.alice.cubes i).Clean) ∧ (∀ i, (pair.bob.cubes i).Clean) ∧
      ∀ i j, (literalOverlap (pair.alice.cubes i) (pair.bob.cubes j) : Int) ≤
        clamp max_overlap 0 VARS) ∧
    ∀ (rng : R.Engine) (cand : Cube VARS) (others : Dnf VARS CUBES) (cap : Int), 0 ≤ cap →
      ∃ cand' rng',
        (∀ fuel, 2 ≤ fuel → repairOverlap R fuel rng cand others cap = some (cand', rng')) ∧
        OnlyClears cand cand' ∧ MeetsCap cand' others cap ∧
        (MeetsCap cand others cap → cand' = cand) := by
  refine ⟨?_, fun rng cand others cap hcap => repairOverlap_spec rng cand others hcap⟩
  have hcap := clamp_nonneg max_overlap VARS
  have halice : ∀ i, ((randomAlice R (R.seeded seed) density : Dnf VARS CUBES × R.Engine).1.cubes
      i).Clean := randomAlice_clean (R.seeded seed) density
  obtain ⟨bob, hbob, hcubes⟩ := randomBobFrom_spec (randomAlice R (R.seeded seed) density).2
    density (randomAlice R (R.seeded seed) density).1 hcap CUBES (Nat.le_refl CUBES)
  refine ⟨⟨(randomAlice R (R.seeded seed) density).1, bob.1⟩, fun fuel hfuel => ?_, halice,
    fun i => (hcubes i i.isLt).1, fun i j => ?_⟩
  · rw [generateRandomDnfPair, hbob fuel hfuel, Option.map_some]
  · rw [literalOverlap_comm]
    exact (hcubes j j.isLt).2 i

/-- A source whose draws alternate and whose shuffles reverse. -/
def alternatingSource : RandomSource where
  Engine := Nat
  seeded seed := seed.toNat
  bernoulli _ rng := (rng % 2 == 0, rng + 1)
  shuffle l rng := (l.reverse, rng + 1)
  shuffle_perm l _ := List.reverse_perm l

/-- The cube x1 & ~x2, repaired against itself under a cap of one literal. -/
theorem generateRandomDnfPair_meets_cap_alternating :
    ∃ cand' rng',
      repairOverlap alternatingSource 2 (0 : Nat) (⟨![true, false], ![true, true], false⟩ : Cube 2)
        (⟨fun _ => ⟨![true, false], ![true, true], false⟩⟩ : Dnf 2 1) 1 = some (cand', rng') ∧
      OnlyClears ⟨![true, false], ![true, true], false⟩ cand' := by
  obtain ⟨cand', rng', hrun, hclears, -⟩ :=
    (generateRandomDnfPair_meets_cap alternatingSource 1 0 (1 / 2)).2 (0 : Nat)
      (⟨![true, false], ![true, true], false⟩ : Cube 2)
      (⟨fun _ => ⟨![true, false], ![true, true], false⟩⟩ : Dnf 2 1) 1 (by decide)
  exact ⟨cand', rng', hrun 2 (Nat.le_refl 2), hclears⟩

end MpcVazirani
