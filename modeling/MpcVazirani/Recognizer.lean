import Mathlib.Data.List.Forall2
import Mathlib.Tactic.Common

/-! # Loops that decide a language

A reader that takes its input one item at a time and gives up at the first item
that breaks a rule accepts exactly the inputs that keep the rules, provided the
rules are such that no later item can repair an earlier one: what is `Good` must be
closed under prefixes.  The state it carries is then a function of the items read,
and `foldlM_decides` reduces the whole loop to its body.

`Decides E P a r` is the contract such a reader meets: `r` returns `a` if `P`, and
otherwise it fails, with one of the errors `E`.
-/
namespace Recognizer
variable {ε ι κ : Type*} {α β : Type} {E : ε → Prop} {P Q : Prop} {a : α} {b : β}

/-- `r` returns `a` where `P` holds, and fails with one of the errors `E` elsewhere. -/
def Decides (E : ε → Prop) (P : Prop) (a : α) (r : Except ε α) : Prop :=
  (P → r = .ok a) ∧ (¬ P → ∃ e, E e ∧ r = .error e)

theorem decides_ok (h : P) : Decides E P a (.ok a) := ⟨fun _ => rfl, fun hn => absurd h hn⟩

theorem decides_error {e : ε} (h : ¬ P) (he : E e) : Decides E P a (.error e) :=
  ⟨fun hp => absurd hp h, fun _ => ⟨e, he, rfl⟩⟩

theorem Decides.congr {r : Except ε α} (h : Decides E P a r) (hpq : P ↔ Q) :
    Decides E Q a r := ⟨fun hq => h.1 (hpq.mpr hq), fun hn => h.2 fun hp => hn (hpq.mp hp)⟩

/-- How a reader fails may be said more loosely, or more strictly where more is known. -/
theorem Decides.mono {E' : ε → Prop} {r : Except ε α} (h : Decides E P a r)
    (hE : ∀ e, r = .error e → E' e) : Decides E' P a r := by
  refine ⟨h.1, fun hn => ?_⟩
  obtain ⟨e, -, he⟩ := h.2 hn
  exact ⟨e, hE e he, he⟩

/-- What is returned is what was announced, and only where it should be. -/
theorem Decides.eq_ok_iff {r : Except ε α} (h : Decides E P a r) (c : α) :
    r = .ok c ↔ P ∧ c = a := by
  constructor
  · intro hr
    by_cases hp : P
    · rw [h.1 hp] at hr
      exact ⟨hp, (Except.ok.inj hr).symm⟩
    · obtain ⟨e, _, he⟩ := h.2 hp
      rw [he] at hr
      cases hr
  · rintro ⟨hp, rfl⟩
    exact h.1 hp

/-- Two readers in a row.  The second one is only asked about where the first one
accepts. -/
theorem Decides.bind {r : Except ε α} {f : α → Except ε β} (hr : Decides E P a r)
    (hsub : Q → P) (hf : P → Decides E Q b (f a)) : Decides E Q b (r >>= f) := by
  by_cases hp : P
  · rw [hr.1 hp]
    exact hf hp
  · obtain ⟨e, he, hre⟩ := hr.2 hp
    rw [hre]
    exact decides_error (fun hq => hp (hsub hq)) he

/-- **A loop decides a prefix-closed language** if its body does: having read good
items `xs`, it accepts the next one exactly if the items are still good.  The loop
runs over `ss`, of which `ys` is the reading. -/
theorem foldlM_decides {f : α → κ → Except ε α} (rep : List ι → α) (Good : List ι → Prop)
    (R : κ → ι → Prop) (hclosed : ∀ xs x, Good (xs ++ [x]) → Good xs)
    (hstep : ∀ xs x s, R s x → Good xs →
      Decides E (Good (xs ++ [x])) (rep (xs ++ [x])) (f (rep xs) s))
    {ss : List κ} {ys : List ι} (h : List.Forall₂ R ss ys) {xs : List ι} (hgood : Good xs) :
    Decides E (Good (xs ++ ys)) (rep (xs ++ ys)) (ss.foldlM f (rep xs)) := by
  have hclosed' : ∀ zs ws, Good (ws ++ zs) → Good ws := by
    intro zs
    induction zs with
    | nil => intro ws hw; rwa [List.append_nil] at hw
    | cons z zs ih =>
      intro ws hw
      rw [List.append_cons] at hw
      exact hclosed ws z (ih _ hw)
  induction h generalizing xs with
  | nil =>
    rw [List.append_nil]
    exact decides_ok hgood
  | @cons s x ss ys hsx _ ih =>
    rw [List.foldlM_cons, List.append_cons]
    exact (hstep xs x s hsx hgood).bind (hclosed' ys (xs ++ [x])) ih

/-- **A loop fails at one item**, having run without failing up to it. -/
theorem foldlM_eq_error_iff {f : α → κ → Except ε α} {a : α} {ss : List κ} {e : ε} :
    ss.foldlM f a = .error e ↔
      ∃ pre s post b, ss = pre ++ s :: post ∧ pre.foldlM f a = .ok b ∧ f b s = .error e := by
  induction ss generalizing a with
  | nil =>
    constructor
    · intro h
      cases h
    · rintro ⟨pre, s, post, b, hss, _⟩
      exact absurd hss (List.append_ne_nil_of_right_ne_nil pre (List.cons_ne_nil _ _)).symm
  | cons x ss ih =>
    rw [List.foldlM_cons]
    constructor
    · intro h
      cases hx : f a x with
      | error e' =>
        rw [hx] at h
        obtain rfl : e' = e := Except.error.inj h
        exact ⟨[], x, ss, a, rfl, rfl, hx⟩
      | ok c =>
        rw [hx] at h
        obtain ⟨pre, s, post, b, rfl, hpre, hs⟩ := ih.mp h
        refine ⟨x :: pre, s, post, b, rfl, ?_, hs⟩
        rw [List.foldlM_cons, hx]
        exact hpre
    · rintro ⟨pre, s, post, b, hss, hpre, hs⟩
      cases pre with
      | nil =>
        obtain ⟨rfl, rfl⟩ := List.cons.inj hss
        obtain rfl : a = b := Except.ok.inj hpre
        rw [hs]
        rfl
      | cons y pre =>
        obtain ⟨rfl, rfl⟩ := List.cons.inj hss
        rw [List.foldlM_cons] at hpre
        cases hx : f a x with
        | error e' =>
          rw [hx] at hpre
          cases hpre
        | ok c =>
          rw [hx] at hpre
          exact ih.mpr ⟨pre, s, post, b, rfl, hpre, hs⟩

end Recognizer
