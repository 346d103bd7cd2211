import Mathlib.Algebra.BigOperators.Fin
import Mathlib.Algebra.BigOperators.Intervals
import Mathlib.Algebra.Order.BigOperators.Group.Finset
import Mathlib.Order.Interval.Finset.Fin

/-! # Selecting a block by prefix sums

The weights `w 0, …, w (M - 1)` cut `1, …, w 0 + ⋯ + w (M - 1)` into consecutive
blocks, block `j` being the `z` with `prefixSum w j < z ≤ prefixSum w (j + 1)`.
Counting the boundaries strictly below `z` finds the block, because the prefix
sums are non-decreasing (`blockIndex_eq`), also when zero weights repeat a
boundary; and since block `j` has `w j` members, a sum over all `z` is a sum over
the blocks weighted by `w` (`sum_inBlock`).

In a list of weighted items `pick` is that selection without positions, so items of
weight zero can be put in or left out (`pick_filter`).
-/
namespace PrefixSums
open Finset

variable {M : Nat} (w : Fin M → Nat)

/-- The sum of the first `i` weights. -/
def prefixSum (i : Nat) : Nat := ∑ k : Fin M with k.val < i, w k

@[simp] theorem prefixSum_zero : prefixSum w 0 = 0 := by simp [prefixSum]

theorem prefixSum_succ {i : Nat} (h : i < M) :
    prefixSum w (i + 1) = prefixSum w i + w ⟨i, h⟩ := by
  have hsplit : (univ.filter fun k : Fin M => k.val < i + 1) =
      insert ⟨i, h⟩ (univ.filter fun k : Fin M => k.val < i) := by
    ext k
    simp only [mem_filter, mem_univ, true_and, mem_insert, Fin.ext_iff]
    omega
  rw [prefixSum, hsplit, sum_insert (by simp), Nat.add_comm]
  rfl

/-- Past the last weight the prefix sum is the whole sum. -/
theorem prefixSum_of_le {i : Nat} (h : M ≤ i) : prefixSum w i = ∑ k, w k := by
  rw [prefixSum, filter_true_of_mem]
  intro k _
  omega

theorem prefixSum_le_sum (i : Nat) : prefixSum w i ≤ ∑ k, w k :=
  sum_le_sum_of_subset (filter_subset _ _)

theorem prefixSum_mono {i j : Nat} (h : i ≤ j) : prefixSum w i ≤ prefixSum w j := by
  refine sum_le_sum_of_subset ?_
  intro k hk
  rw [mem_filter] at hk ⊢
  exact ⟨mem_univ k, by omega⟩

/-- A prefix sum of indicators counts the indices below `i` with the property. -/
theorem prefixSum_indicator (p : Fin M → Prop) [DecidablePred p] (i : Nat) :
    prefixSum (fun k => if p k then 1 else 0) i = #{k : Fin M | k.val < i ∧ p k} := by
  rw [prefixSum, ← card_filter, filter_filter]

/-! ## The block of a number -/

/-- `z` lies in block `j`. -/
def InBlock (j : Fin M) (z : Nat) : Prop := prefixSum w j < z ∧ z ≤ prefixSum w (j + 1)

/-- A block with a member has positive weight. -/
theorem pos_of_inBlock {j : Fin M} {z : Nat} (h : InBlock w j z) : 0 < w j := by
  have hlt : prefixSum w j < prefixSum w (j + 1) := lt_of_lt_of_le h.1 h.2
  rw [prefixSum_succ w j.isLt] at hlt
  exact Nat.pos_of_lt_add_right hlt

/-- Every number up to the last boundary lies in some block. -/
theorem exists_inBlock {z : Nat} (hz : 0 < z) (hz' : z ≤ ∑ k, w k) : ∃ j, InBlock w j z := by
  have hex : ∃ i, z ≤ prefixSum w i := ⟨M, by rwa [prefixSum_of_le w (Nat.le_refl M)]⟩
  -- the first boundary that reaches `z` ends its block
  cases hfind : Nat.find hex with
  | zero =>
    have h0 := Nat.find_spec hex
    rw [hfind, prefixSum_zero] at h0
    omega
  | succ j =>
    have hreach := Nat.find_spec hex
    rw [hfind] at hreach
    have hbelow : ¬ z ≤ prefixSum w j := Nat.find_min hex (by omega)
    have hj : j < M := by
      by_contra hn
      rw [prefixSum_of_le w (by omega)] at hbelow
      exact hbelow hz'
    exact ⟨⟨j, hj⟩, by simpa using hbelow, hreach⟩

/-- The number of boundaries `prefixSum w 0, …, prefixSum w M` strictly below `z`. -/
def blockIndex (z : Nat) : Nat := #{i : Fin (M + 1) | prefixSum w i < z}

/-- **A number of block `j` has exactly the first `j + 1` boundaries below it.** -/
theorem blockIndex_eq {z : Nat} {j : Fin M} (h : InBlock w j z) : blockIndex w z = j + 1 := by
  have hset : (univ.filter fun i : Fin (M + 1) => prefixSum w i < z) = Iic j.castSucc := by
    ext i
    simp only [mem_filter, mem_univ, true_and, mem_Iic, Fin.le_def, Fin.val_castSucc]
    constructor
    · intro hi
      by_contra hn
      have hle : prefixSum w (j + 1) ≤ prefixSum w i := prefixSum_mono w (by omega)
      exact absurd h.2 (by omega)
    · intro hi
      exact lt_of_le_of_lt (prefixSum_mono w hi) h.1
  rw [blockIndex, hset, Fin.card_Iic, Fin.val_castSucc]

/-- Summing over the first blocks, of a quantity that is constant on each. -/
theorem sum_Ioc_inBlock {R : Type*} [AddCommMonoid R] {f : Nat → R} {F : Fin M → R}
    (hf : ∀ j z, InBlock w j z → f z = F j) (i : Nat) (hi : i ≤ M) :
    ∑ z ∈ Ioc 0 (prefixSum w i), f z = ∑ j : Fin M with j.val < i, w j • F j := by
  induction i with
  | zero => simp
  | succ i ih =>
    have hsplit : (univ.filter fun k : Fin M => k.val < i + 1) =
        insert ⟨i, hi⟩ (univ.filter fun k : Fin M => k.val < i) := by
      ext k
      simp only [mem_filter, mem_univ, true_and, mem_insert, Fin.ext_iff]
      omega
    have hblock : ∑ z ∈ Ioc (prefixSum w i) (prefixSum w (i + 1)), f z =
        w ⟨i, hi⟩ • F ⟨i, hi⟩ := by
      rw [sum_congr rfl (g := fun _ => F ⟨i, hi⟩), sum_const, Nat.card_Ioc,
        prefixSum_succ w hi, Nat.add_sub_cancel_left]
      intro z hz
      exact hf ⟨i, hi⟩ z (mem_Ioc.mp hz)
    rw [← sum_Ioc_consecutive _ (Nat.zero_le _) (prefixSum_mono w (Nat.le_succ i)),
      ih (Nat.le_of_succ_le hi), hblock, hsplit, sum_insert (by simp), add_comm]

/-- **Selection is proportional to weight**: summing over all numbers up to the
total takes what belongs to block `j` with multiplicity `w j`. -/
theorem sum_inBlock {R : Type*} [AddCommMonoid R] {f : Nat → R} {F : Fin M → R}
    (hf : ∀ j z, InBlock w j z → f z = F j) :
    ∑ z ∈ Icc 1 (∑ k, w k), f z = ∑ j, w j • F j := by
  have h := sum_Ioc_inBlock w hf M (Nat.le_refl M)
  rw [prefixSum_of_le w (Nat.le_refl M), filter_true_of_mem (fun k _ => k.isLt)] at h
  exact h

/-! ## Selecting from a list -/

section List
variable {α : Type*} (v : α → Nat)

/-- The item of the list in whose block `z` lies, and the items in front of it. -/
def pick : List α → Nat → Option (List α × α)
  | [], _ => none
  | a :: l, z =>
    if z ≤ v a then some ([], a) else (pick l (z - v a)).map fun p => (a :: p.1, p.2)

/-- What is picked is found by the weights in front of it. -/
theorem pick_append {pre post : List α} {a : α} {z : Nat} (hlow : (pre.map v).sum < z)
    (hhigh : z ≤ (pre.map v).sum + v a) : pick v (pre ++ a :: post) z = some (pre, a) := by
  induction pre generalizing z with
  | nil =>
    rw [List.map_nil, List.sum_nil, Nat.zero_add] at hhigh
    exact if_pos hhigh
  | cons b pre ih =>
    rw [List.map_cons, List.sum_cons] at hlow hhigh
    rw [List.cons_append, pick, if_neg (by omega), ih (by omega) (by omega)]
    rfl

/-- **Items of weight zero do not matter**: without them the same item is picked,
behind what is left in front of it. -/
theorem pick_filter {p : α → Bool} {l : List α} (hp : ∀ a ∈ l, p a = false → v a = 0) {z : Nat}
    (hz : 0 < z) : pick v (l.filter p) z = (pick v l z).map fun q => (q.1.filter p, q.2) := by
  induction l generalizing z with
  | nil => rfl
  | cons a l ih =>
    obtain ⟨ha, hl⟩ := List.forall_mem_cons.mp hp
    rw [pick]
    cases hpa : p a with
    | true =>
      rw [List.filter_cons_of_pos hpa, pick]
      by_cases hle : z ≤ v a
      · rw [if_pos hle, if_pos hle]
        rfl
      · rw [if_neg hle, if_neg hle, ih hl (by omega), Option.map_map, Option.map_map]
        refine congrArg (Option.map · _) (funext fun q => ?_)
        simp only [Function.comp_apply, List.filter_cons_of_pos hpa]
    | false =>
      have hzero := ha hpa
      have hpa' : ¬ p a = true := Bool.eq_false_iff.mp hpa
      rw [List.filter_cons_of_neg hpa', if_neg (by omega), hzero, Nat.sub_zero, ih hl hz,
        Option.map_map]
      refine congrArg (Option.map · _) (funext fun q => ?_)
      simp only [Function.comp_apply, List.filter_cons_of_neg hpa']

variable {v}

/-- Nor do they matter in a sum. -/
theorem sum_map_filter {p : α → Bool} {l : List α} (hp : ∀ a ∈ l, p a = false → v a = 0) :
    ((l.filter p).map v).sum = (l.map v).sum := by
  induction l with
  | nil => rfl
  | cons a l ih =>
    obtain ⟨ha, hl⟩ := List.forall_mem_cons.mp hp
    rw [List.map_cons, List.sum_cons, ← ih hl]
    cases hpa : p a with
    | true => rw [List.filter_cons_of_pos hpa, List.map_cons, List.sum_cons]
    | false =>
      rw [List.filter_cons_of_neg (Bool.eq_false_iff.mp hpa), ha hpa, Nat.zero_add]

theorem prefixSum_eq_sum_take (f : Fin M → α) {i : Nat} (h : i ≤ M) :
    prefixSum (fun k => v (f k)) i = (((List.ofFn f).take i).map v).sum := by
  induction i with
  | zero => simp
  | succ i ih =>
    have hi : i < (List.ofFn f).length := by rwa [List.length_ofFn]
    rw [prefixSum_succ _ h, ih (Nat.le_of_succ_le h), List.take_succ_eq_append_getElem hi,
      List.map_append, List.sum_append, List.getElem_ofFn, List.map_singleton, List.sum_singleton]

/-- In an array the item is that of the block. -/
theorem pick_ofFn {f : Fin M → α} {j : Fin M} {z : Nat}
    (h : InBlock (fun k => v (f k)) j z) :
    pick v (List.ofFn f) z = some ((List.ofFn f).take j, f j) := by
  have hj : j.val < (List.ofFn f).length := by
    rw [List.length_ofFn]
    exact j.isLt
  have hsplit : List.ofFn f = (List.ofFn f).take j ++ f j :: (List.ofFn f).drop (j + 1) := by
    rw [← List.getElem_ofFn hj, ← List.drop_eq_getElem_cons hj, List.take_append_drop]
  obtain ⟨hlow, hhigh⟩ := h
  rw [prefixSum_succ _ j.isLt] at hhigh
  rw [prefixSum_eq_sum_take f (Nat.le_of_lt j.isLt)] at hlow hhigh
  have hpick : pick v ((List.ofFn f).take j ++ f j :: (List.ofFn f).drop (j + 1)) z =
      some ((List.ofFn f).take j, f j) := pick_append v hlow hhigh
  rwa [← hsplit] at hpick

end List

end PrefixSums
