import MpcVazirani.DimacsErrors
import MpcVazirani.Estimators

/-! # The demo

`main.cpp`, from the two texts to the two lines that are printed.  Each process parses its
own file before it opens a connection, so whether it fails, and with which text, is a matter
of its own arguments and its own file (`run_eq_failed_iff`).  If both files are accepted, the
processes print the same number, and it speaks of the texts: it counts the assignments under
which some group of literals holds in each file, up to the factor four of the two times two
cubes, whatever the coins, and exactly where no assignment satisfies two groups of one file
(`demo_spec`).
-/
namespace MpcVazirani
open Finset IStream

/-! ## The formula of a text -/

section Texts
variable {VARS CUBES : Nat}

instance (x : Fin VARS → Bool) (lit : Int) : Decidable (LiteralHolds x lit) :=
  inferInstanceAs (Decidable (∃ v : Fin VARS, v.val + 1 = lit.natAbs ∧ x v = decide (0 < lit)))

/-- The number of groups of a text whose literals all hold. -/
def groupCount (content : List Char) (x : Fin VARS → Bool) : Nat :=
  ((groups (tokens (readLines content))).1.map fun g =>
    if ∀ lit ∈ g, LiteralHolds x lit then 1 else 0).sum

/-- The cube of a group whose variables are distinct is satisfied where its literals hold. -/
theorem sat_cubeOf {g : List Int} (hzero : 0 ∉ g) (hrange : ∀ lit ∈ g, lit.natAbs ≤ VARS)
    (hdistinct : g.Pairwise fun x y => x.natAbs ≠ y.natAbs) (x : Fin VARS → Bool) :
    (cubeOf g : Cube VARS).Sat x ↔ ∀ lit ∈ g, LiteralHolds x lit := by
  -- a literal is positive exactly if its variable has its bit
  have hsign : ∀ lit ∈ g, ∀ v : Fin VARS, v.val + 1 = lit.natAbs →
      (cubeOf g : Cube VARS).bits v = decide (0 < lit) := by
    intro lit hlit v hv
    have hne : lit ≠ 0 := fun h => hzero (h ▸ hlit)
    simp only [cubeOf]
    refine decide_eq_decide.mpr ⟨fun hmem => ?_, fun hpos => ?_⟩
    · have hsymm : Std.Symm fun x y : Int => x.natAbs ≠ y.natAbs := ⟨fun _ _ h => h.symm⟩
      by_contra hneg
      exact hdistinct.forall hmem hlit (by omega) (by omega)
    · rwa [show (v.val : Int) + 1 = lit by omega]
  constructor
  · rintro ⟨-, hsat⟩ lit hlit
    have hne : lit ≠ 0 := fun h => hzero (h ▸ hlit)
    have hle := hrange lit hlit
    obtain ⟨v, hv⟩ : ∃ v : Fin VARS, v.val + 1 = lit.natAbs := ⟨⟨lit.natAbs - 1, by omega⟩, by
      dsimp only
      omega⟩
    exact ⟨v, hv, (hsat v ((mask_cubeOf hv).mpr ⟨lit, hlit, rfl⟩)).trans (hsign lit hlit v hv)⟩
  · refine fun hall => ⟨rfl, fun v hmask => ?_⟩
    obtain ⟨lit, hlit, hv⟩ := (mask_cubeOf rfl).mp hmask
    obtain ⟨w, hw, hx⟩ := hall lit hlit
    obtain rfl : w = v := Fin.ext (by omega)
    exact hx.trans (hsign lit hlit w hw).symm

/-- **What the parser returns counts the groups of the text.** -/
theorem satisfiedCount_of_parse {content : List Char} {d : Dnf VARS CUBES}
    (h : parse VARS CUBES (some content) = .ok d) (x : Fin VARS → Bool) :
    d.satisfiedCount x = groupCount content x := by
  obtain ⟨gs, hgs, rfl⟩ := (parse_eq_ok_iff content d).mp h
  obtain ⟨V, hV, hread⟩ := hgs.readable
  have hgroups := hgs.groups_eq
  rw [satisfiedCount_eq_sum_realCubes, realCubes_fillTo hgs.length_le, List.map_map, groupCount, hgroups]
  have hzero := (groups_eq_iff.mp hgroups).2
  refine congrArg List.sum (List.map_congr_left fun g hg => if_congr (sat_cubeOf (hzero g hg) ?_ ?_ x) rfl rfl)
  · intro lit hlit
    have hle := hread.range g (List.mem_append_left _ hg) lit hlit
    omega
  · exact hread.distinct g (List.mem_append_left _ hg)

/-- In a well-lexed text that is accepted these are the groups it spells. -/
theorem groupCount_pos_iff {content : List Char} {ls : List Line}
    (hlex : List.Forall₂ IsLine (getlines content) ls) {d : Dnf VARS CUBES}
    (h : parse VARS CUBES (some content) = .ok d) (x : Fin VARS → Bool) :
    0 < groupCount content x ↔ FileSat content x := by
  obtain ⟨gs, hgs, -⟩ := (parse_eq_ok_iff content d).mp h
  have hgroups := hgs.groups_eq
  have hspells : Spells content gs := by
    refine ⟨ls, hlex, ?_⟩
    rw [readLines, map_readLine_eq hlex] at hgroups
    exact groups_eq_iff.mp hgroups
  rw [groupCount, hgroups, List.sum_pos_iff_exists_pos_nat]
  constructor
  · rintro ⟨n, hn, hpos⟩
    obtain ⟨g, hg, rfl⟩ := List.mem_map.mp hn
    split_ifs at hpos with hall
    · exact ⟨gs, hspells, g, hg, hall⟩
    · exact absurd hpos (Nat.lt_irrefl 0)
  · rintro ⟨gs', hgs', g, hg, hall⟩
    obtain rfl := hspells.unique hgs'
    exact ⟨1, List.mem_map.mpr ⟨g, hg, if_pos hall⟩, Nat.one_pos⟩

/-- The common assignments of two texts. -/
theorem commonModels_of_parse {content : Party → List Char} {my_dnf : Party → Dnf VARS CUBES}
    (h : ∀ party, parse VARS CUBES (some (content party)) = .ok (my_dnf party)) :
    commonModels my_dnf =
      univ.filter fun x => 0 < groupCount (content .alice) x ∧ 0 < groupCount (content .bob) x := by
  ext x
  rw [commonModels, mem_inter, Dnf.mem_models, Dnf.mem_models, ← Dnf.satisfiedCount_pos,
    ← Dnf.satisfiedCount_pos, satisfiedCount_of_parse (h .alice), satisfiedCount_of_parse (h .bob),
    mem_filter, and_iff_right (mem_univ x)]

end Texts

/-! ## `main` -/

namespace Demo

/-- `constexpr int VARS`, and the next ones. -/
abbrev VARS : Nat := 4

abbrev CUBES : Nat := 2

abbrev K : Nat := 3

/-- How `main` ends without a result. -/
inductive MainFailure where
  /-- `return 1`, with the text on `std::cerr`. -/
  | exit (text : String)
  /-- The parser has run into something undefined. -/
  | undefined

/-- `main` up to where it opens its connection: the path, and the formula. -/
def prepare (argv0 : String) (args : List String) (read : String → Option (List Char)) :
    Except MainFailure (String × Dnf VARS CUBES) :=
  match args with
  | _ :: path :: _ =>
    match parse VARS CUBES (read path) with
    | .ok my_dnf => .ok (path, my_dnf)
    | .error (.thrown e) => .error (.exit ("error: " ++ e.what path VARS CUBES ++ "\n"))
    | .error .undefined => .error .undefined
  | _ => .error (.exit ("usage: " ++ argv0 ++ " <party: 1=ALICE, 2=BOB> <path-to-dimacs-dnf-file>\n"))

/-- What a process prints. -/
structure Output where
  who : String
  file : String
  vazirani_estimate_raw : BitVec 64
  K : Nat
  scale : BitVec 64
  vazirani_estimate : ℚ

/-- The end of `main`, with the value that the pipeline has returned. -/
def report (party : Party) (path : String) (estimate_raw_out : BitVec 128) : Output :=
  let scale := BitVec.ofNat 64 kDivideLookupScale
  { who := if party = .alice then "[alice]" else "[bob]  "
    file := path
    vazirani_estimate_raw := estimate_raw_out.setWidth 64
    K := K
    scale := scale
    vazirani_estimate := estimate_raw_out.toNat / (BitVec.ofNat 64 K * scale).toNat }

/-- What becomes of a process. -/
inductive Outcome where
  | failed (e : MainFailure)
  /-- Its peer has failed before there was a connection. -/
  | waits
  | printed (output : Output)

/-- Both processes, each with its own arguments and files. -/
def run (sess : SH2PCSession) (argv0 : Party → String) (args : Party → List String)
    (read : Party → String → Option (List Char))
    (coins : Party → Fin K → TrialCoins (VARS + sess.ctx.bitsFor (CUBES * CUBES)) VARS)
    (party : Party) : Outcome :=
  match prepare (argv0 party) (args party) (read party),
      prepare (argv0 .alice) (args .alice) (read .alice),
      prepare (argv0 .bob) (args .bob) (read .bob) with
  | .error e, _, _ => .failed e
  | .ok mine, .ok alice, .ok bob =>
    let my_dnf : Party → Dnf VARS CUBES
      | .alice => alice.2
      | .bob => bob.2
    .printed (report party mine.1 (runVaziraniPipeline sess my_dnf coins))
  | .ok _, _, _ => .waits

section Failures
variable {sess : SH2PCSession} {argv0 : Party → String} {args : Party → List String}
  {read : Party → String → Option (List Char)}
  {coins : Party → Fin K → TrialCoins (VARS + sess.ctx.bitsFor (CUBES * CUBES)) VARS}

/-- **A process fails for its own arguments and its own file**, whatever its peer does. -/
theorem run_eq_failed_iff (party : Party) (e : MainFailure) :
    run sess argv0 args read coins party = .failed e ↔
      prepare (argv0 party) (args party) (read party) = .error e := by
  rw [run]
  cases prepare (argv0 party) (args party) (read party) with
  | error e' =>
    exact ⟨fun h => congrArg Except.error (Outcome.failed.inj h),
      fun h => congrArg Outcome.failed (Except.error.inj h)⟩
  | ok mine =>
    refine iff_of_false ?_ fun h => by cases h
    cases prepare (argv0 .alice) (args .alice) (read .alice) <;>
      cases prepare (argv0 .bob) (args .bob) (read .bob) <;> exact fun h => by cases h

/-- **Nothing is printed unless both files are accepted.** -/
theorem run_eq_printed_iff (party : Party) :
    (∃ output, run sess argv0 args read coins party = .printed output) ↔
      ∀ p, ∃ r, prepare (argv0 p) (args p) (read p) = .ok r := by
  constructor
  · rintro ⟨output, h⟩ p
    rw [run] at h
    split at h
    · cases h
    · rename_i halice hbob
      cases p
      · exact ⟨_, halice⟩
      · exact ⟨_, hbob⟩
    · cases h
  · intro h
    obtain ⟨a, ha⟩ := h .alice
    obtain ⟨b, hb⟩ := h .bob
    obtain ⟨mine, hmine⟩ := h party
    rw [run, hmine, ha, hb]
    exact ⟨_, rfl⟩

/-- If both files are accepted, both processes run the pipeline on the two formulas. -/
theorem run_of_prepare {path : Party → String} {my_dnf : Party → Dnf VARS CUBES}
    (hprepare : ∀ p, prepare (argv0 p) (args p) (read p) = .ok (path p, my_dnf p)) (party : Party) :
    run sess argv0 args read coins party =
      .printed (report party (path party) (runVaziraniPipeline sess my_dnf coins)) := by
  have hboth : (fun | .alice => my_dnf .alice | .bob => my_dnf .bob : Party → Dnf VARS CUBES) =
      my_dnf := by
    funext p
    cases p <;> rfl
  rw [run, hprepare, hprepare, hprepare]
  dsimp only
  rw [hboth]

end Failures

/-- What is parsed is well formed. -/
theorem wellFormed_of_parse {content : List Char} {d : Dnf VARS CUBES}
    (h : parse VARS CUBES (some content) = .ok d) : d.WellFormed := by
  obtain ⟨gs, -, rfl⟩ := (parse_eq_ok_iff _ _).mp h
  exact fillTo_wellFormed gs

section Accepted
variable (sess : SH2PCSession) {my_dnf : Party → Dnf VARS CUBES}
  (coins : Party → Fin K → TrialCoins (VARS + sess.ctx.bitsFor (CUBES * CUBES)) VARS)

/-- The estimate of the demo has 26 bits. -/
theorem width_le : VARS + sess.ctx.bitsFor (CUBES * CUBES) + (kDivideLookupScaleBits + 1) +
    sess.ctx.bitsFor K ≤ 128 := by
  rw [sess.ctx.bitsFor_congr clearContext, sess.ctx.bitsFor_congr clearContext]
  decide

/-- At most `d` groups of each file bound the estimate from both sides. -/
theorem runVaziraniPipeline_within (hb : (my_dnf .bob).WellFormed) {d : Nat}
    (hle : ∀ x party, (my_dnf party).satisfiedCount x ≤ d) :
    3 * entry (d * d) * #(commonModels my_dnf) ≤ (runVaziraniPipeline sess my_dnf coins).toNat ∧
      (runVaziraniPipeline sess my_dnf coins).toNat ≤ 3 * 2 ^ 16 * (d * d) * #(commonModels my_dnf) := by
  have hcounts : ∀ x ∈ commonModels my_dnf,
      1 ≤ (my_dnf .alice).satisfiedCount x * (my_dnf .bob).satisfiedCount x ∧
        (my_dnf .alice).satisfiedCount x * (my_dnf .bob).satisfiedCount x ≤ d * d := by
    intro x hx
    rw [commonModels, mem_inter, Dnf.mem_models, Dnf.mem_models, ← Dnf.satisfiedCount_pos,
      ← Dnf.satisfiedCount_pos] at hx
    exact ⟨Nat.mul_pos hx.1 hx.2, Nat.mul_le_mul (hle x .alice) (hle x .bob)⟩
  obtain ⟨hlow, hhigh⟩ :=
    runVaziraniPipeline_bounds sess hcounts hb Nat.one_pos (width_le sess) coins
  have hone : entry 1 = 2 ^ 16 := by decide
  rw [hone, ← Nat.mul_assoc] at hhigh
  rw [Nat.one_mul] at hlow
  exact ⟨hlow, hhigh⟩

end Accepted

/-- **The demo.**  If both processes are given a file that the parser accepts, they print the
same number, the cast to 64 bits loses nothing, and the estimate is within a factor of four
of the number of assignments under which a group of literals holds in each text, whatever
the coins; it is that number where no assignment satisfies two groups of one text.  In a
well-lexed text these are the groups that it spells. -/
theorem demo_spec (sess : SH2PCSession) {argv0 : Party → String} {args : Party → List String}
    {read : Party → String → Option (List Char)} {first path : Party → String}
    {rest : Party → List String} (hargs : ∀ party, args party = first party :: path party :: rest party)
    {content : Party → List Char} (hread : ∀ party, read party (path party) = some (content party))
    (hparse : ∀ party, ∃ d, parse VARS CUBES (some (content party)) = .ok d)
    (coins : Party → Fin K → TrialCoins (VARS + sess.ctx.bitsFor (CUBES * CUBES)) VARS) :
    ∃ (raw : BitVec 64) (estimate : ℚ),
      (∀ party, run sess argv0 args read coins party = .printed
        { who := if party = .alice then "[alice]" else "[bob]  "
          file := path party
          vazirani_estimate_raw := raw
          K := 3
          scale := 65536
          vazirani_estimate := estimate }) ∧
      estimate = raw.toNat / (3 * 65536) ∧
      let U := univ.filter fun x : Fin VARS → Bool =>
        0 < groupCount (content .alice) x ∧ 0 < groupCount (content .bob) x
      (#U / 4 ≤ estimate ∧ estimate ≤ 4 * #U ∧
        ((∀ (x : Fin VARS → Bool) party, groupCount (content party) x ≤ 1) → estimate = #U)) ∧
      ∀ party ls, List.Forall₂ IsLine (getlines (content party)) ls →
        ∀ x : Fin VARS → Bool, 0 < groupCount (content party) x ↔ FileSat (content party) x := by
  choose my_dnf hmy_dnf using hparse
  have hprepare : ∀ party, prepare (argv0 party) (args party) (read party) =
      .ok (path party, my_dnf party) := by
    intro party
    rw [hargs, prepare, hread, hmy_dnf]
  have hrun := @run_of_prepare sess argv0 args read coins path my_dnf hprepare
  have hwf : (my_dnf .bob).WellFormed := wellFormed_of_parse (hmy_dnf .bob)
  obtain ⟨n, hn⟩ : ∃ n, n = (runVaziraniPipeline sess my_dnf coins).toNat := ⟨_, rfl⟩
  obtain ⟨hlow, hhigh⟩ := runVaziraniPipeline_within sess coins hwf
    fun x _ => Dnf.satisfiedCount_le x
  have hfour : entry (CUBES * CUBES) = 2 ^ 14 := by decide
  rw [hfour, commonModels_of_parse hmy_dnf, ← hn] at hlow
  rw [commonModels_of_parse hmy_dnf, ← hn] at hhigh
  change _ ≤ 3 * 2 ^ 16 * (2 * 2) * _ at hhigh
  have hU : #(univ.filter fun x : Fin VARS → Bool =>
      0 < groupCount (content .alice) x ∧ 0 < groupCount (content .bob) x) ≤ 16 := card_filter_le _ _
  have hraw : ((runVaziraniPipeline sess my_dnf coins).setWidth 64).toNat = n := by
    rw [BitVec.toNat_setWidth, ← hn]
    exact Nat.mod_eq_of_lt (by omega)
  refine ⟨_, n / (3 * 65536), fun party => ?_, by rw [hraw], ⟨?_, ?_, fun hsingle => ?_⟩,
    fun party ls hlex x => groupCount_pos_iff hlex (hmy_dnf party) x⟩
  · have hscale : (BitVec.ofNat 64 K * BitVec.ofNat 64 kDivideLookupScale).toNat = 196608 := by decide
    have hcast : ((196608 : Nat) : ℚ) = 3 * 65536 := by norm_num
    rw [hrun, report, ← hn, hscale, hcast]
    rfl
  · have hlow' : (3 * 2 ^ 14 * #(univ.filter fun x : Fin VARS → Bool =>
        0 < groupCount (content .alice) x ∧ 0 < groupCount (content .bob) x) : ℚ) ≤ n := by
      exact_mod_cast hlow
    rw [le_div_iff₀ (by norm_num)]
    linarith
  · have hhigh' : (n : ℚ) ≤ 3 * 2 ^ 18 * #(univ.filter fun x : Fin VARS → Bool =>
        0 < groupCount (content .alice) x ∧ 0 < groupCount (content .bob) x) := by
      exact_mod_cast hhigh
    rw [div_le_iff₀ (by norm_num)]
    linarith
  · have hcount : ∀ x party, (my_dnf party).satisfiedCount x ≤ 1 := by
      intro x party
      rw [satisfiedCount_of_parse (hmy_dnf party)]
      exact hsingle x party
    obtain ⟨hfrom, hto⟩ := runVaziraniPipeline_within sess coins hwf hcount
    have hone : entry (1 * 1) = 2 ^ 16 := by decide
    rw [hone, commonModels_of_parse hmy_dnf, ← hn] at hfrom
    rw [commonModels_of_parse hmy_dnf, ← hn, Nat.mul_one] at hto
    rw [Nat.le_antisymm hto hfrom]
    push_cast
    ring

/-- The repository's two files, each with one line of its comment. -/
def demoContent : Party → List Char
  | .alice =>
    "c Alice's private DNF for the main.cpp two-party pipeline demo.\np dnf 4 2\n1 0\n-2 0\n".toList
  | .bob =>
    "c Bob's private DNF for the main.cpp two-party pipeline demo.\np dnf 4 2\n1 0\n3 0\n".toList

def demoPath : Party → String
  | .alice => "alice.dnf"
  | .bob => "bob.dnf"

/-- The demo as it is run, with coins that are all zero. -/
theorem demo_spec_files :
    ∃ raw estimate, ∀ party, run clearSession (fun _ => "./sh2pc_demo")
        (fun party => [if party = .alice then "1" else "2", demoPath party])
        (fun party _ => some (demoContent party)) (fun _ _ => ⟨fun _ => false, fun _ => false⟩) party =
      .printed ⟨if party = .alice then "[alice]" else "[bob]  ", demoPath party, raw, 3, 65536,
        estimate⟩ := by
  have hparse : ∀ party, ∃ d, parse VARS CUBES (some (demoContent party)) = .ok d
    | .alice => ⟨_, rfl⟩
    | .bob => ⟨_, rfl⟩
  obtain ⟨raw, estimate, hrun, -⟩ := @demo_spec clearSession (fun _ => "./sh2pc_demo")
    (fun party => [if party = .alice then "1" else "2", demoPath party])
    (fun party _ => some (demoContent party)) _ _ (fun _ => []) (fun _ => rfl) _ (fun _ => rfl)
    hparse fun _ _ => ⟨fun _ => false, fun _ => false⟩
  exact ⟨raw, estimate, hrun⟩

end Demo

end MpcVazirani
