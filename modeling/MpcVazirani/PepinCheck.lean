import Mathlib.SetTheory.Cardinal.Finite
import MpcVazirani.GroundTruth
import MpcVazirani.WriteDimacs

/-! # The ground truth of the benchmarks

`run_pepin` and `run_pepin_sanity_check` of `bench/ground_truth.h`.  The conjunction of the
two formulas is written to a temporary file, a counter is run on the file, and its output is
searched for a number.  The counter is another program, so it enters with the rest of the
host as a parameter: it may print anything, also something else on every file.

What the check itself answers for is shown here.  The file the counter sees is a formula that
the parser accepts, and that the common assignments satisfy and no others; where there are
none the counter is not run and the truth is zero; and nothing is left behind in either
case (`checksTruth`).  So a counter that is right about files makes it right about the
conjunction (`runPepinSanityCheck_accurate`).
-/
namespace MpcVazirani
open Finset IStream

/-! ## Reading what a command prints -/

/-- `fgets` with room for `n` characters: what it reads, and what is left. -/
def fgets : Nat → List Char → List Char × List Char
  | 0, s => ([], s)
  | _, [] => ([], [])
  | n + 1, c :: s =>
    if c = '\n' then ([c], s)
    else
      let r := fgets n s
      (c :: r.1, r.2)

/-- The first `fuel` turns of `while (fgets(buf, sizeof(buf), p)) output += buf;`.  What is
appended ends at the first null character of the buffer. -/
def readPipeFuel : Nat → List Char → List Char
  | 0, _ => []
  | fuel + 1, s =>
    if s = [] then []
    else
      let r := fgets 4095 s
      r.1.takeWhile (· ≠ '\x00') ++ readPipeFuel fuel r.2

/-- The loop that reads the pipe.  Every turn consumes a character (`readPipe_eq`). -/
def readPipe (s : List Char) : List Char := readPipeFuel s.length s

/-- What comes after the first place where `marker` occurs: `output.find(marker)`, and the text
from there on. -/
def afterMarker (marker : List Char) : List Char → Option (List Char)
  | [] => if marker = [] then some [] else none
  | c :: s =>
    if marker.isPrefixOf (c :: s) then some ((c :: s).drop marker.length) else afterMarker marker s

theorem fgets_append (n : Nat) (s : List Char) : (fgets n s).1 ++ (fgets n s).2 = s := by
  induction n generalizing s with
  | zero => rfl
  | succ n ih =>
    cases s with
    | nil => rfl
    | cons c s =>
      rw [fgets]
      split_ifs
      · rfl
      · exact congrArg (c :: ·) (ih s)

/-- A read with room for something reads something. -/
theorem length_fgets_lt (n : Nat) {s : List Char} (hs : s ≠ []) :
    (fgets (n + 1) s).2.length < s.length := by
  obtain ⟨c, s, rfl⟩ := List.exists_cons_of_ne_nil hs
  rw [fgets]
  split_ifs
  · exact Nat.lt_succ_self _
  · have hlen := congrArg List.length (fgets_append n s)
    rw [List.length_append] at hlen
    refine Nat.lt_succ_of_le (Nat.le_of_add_left_le hlen.le)

theorem readPipeFuel_eq {s : List Char} (hs : '\x00' ∉ s) {fuel : Nat} (hfuel : s.length ≤ fuel) :
    readPipeFuel fuel s = s := by
  induction fuel generalizing s with
  | zero => exact (List.length_eq_zero_iff.mp (Nat.eq_zero_of_le_zero hfuel)).symm
  | succ fuel ih =>
    rw [readPipeFuel]
    split_ifs with hnil
    · exact hnil.symm
    · have happend := fgets_append 4095 s
      have hlt : (fgets 4095 s).2.length < s.length := length_fgets_lt 4094 hnil
      rw [← happend, List.mem_append, not_or] at hs
      have htake : (fgets 4095 s).1.takeWhile (· ≠ '\x00') = (fgets 4095 s).1 := by
        refine List.takeWhile_eq_self_iff.mpr fun c hc => ?_
        exact decide_eq_true fun he => hs.1 (he ▸ hc)
      dsimp only
      rw [htake, ih hs.2 (by omega), happend]

/-- **The pipe is read to its end**: lines longer than the buffer are put together again, as
long as no null character is printed. -/
theorem readPipe_eq {s : List Char} (hs : '\x00' ∉ s) : readPipe s = s :=
  readPipeFuel_eq hs (Nat.le_refl _)

/-- **What is found is the first occurrence.** -/
theorem afterMarker_eq_some_iff {marker s rest : List Char} :
    afterMarker marker s = some rest ↔
      ∃ pre, s = pre ++ marker ++ rest ∧
        ∀ pre' rest', s = pre' ++ marker ++ rest' → pre.length ≤ pre'.length := by
  induction s with
  | nil =>
    rw [afterMarker]
    constructor
    · intro h
      split_ifs at h with hm
      obtain rfl := Option.some.inj h
      exact ⟨[], by simp [hm], fun _ _ _ => Nat.zero_le _⟩
    · rintro ⟨pre, hs, -⟩
      obtain ⟨hpre, hrest⟩ := List.append_eq_nil_iff.mp hs.symm
      rw [if_pos (List.append_eq_nil_iff.mp hpre).2, hrest]
  | cons c s ih =>
    rw [afterMarker]
    by_cases hp : marker.isPrefixOf (c :: s) = true
    · obtain ⟨rest₀, hrest₀⟩ := List.isPrefixOf_iff_prefix.mp hp
      rw [if_pos hp, ← hrest₀, List.drop_left]
      constructor
      · intro h
        obtain rfl := Option.some.inj h
        exact ⟨[], rfl, fun _ _ _ => Nat.zero_le _⟩
      · rintro ⟨pre, hs, hleast⟩
        have hpre : pre = [] := List.length_eq_zero_iff.mp
          (Nat.eq_zero_of_le_zero (hleast [] rest₀ rfl))
        rw [hpre, List.nil_append] at hs
        rw [List.append_cancel_left hs]
    · rw [if_neg hp, ih]
      -- the marker is not at the front, so each occurrence is one of the tail
      have htail : ∀ pre rest, c :: s = pre ++ marker ++ rest →
          ∃ pre₁, pre = c :: pre₁ ∧ s = pre₁ ++ marker ++ rest := by
        intro pre rest hs
        cases pre with
        | nil => exact absurd (List.isPrefixOf_iff_prefix.mpr ⟨rest, hs.symm⟩) hp
        | cons d pre =>
          obtain ⟨hcd, hs'⟩ := List.cons.inj hs
          exact ⟨pre, by rw [hcd], hs'⟩
      constructor
      · rintro ⟨pre, rfl, hleast⟩
        refine ⟨c :: pre, rfl, fun pre' rest' hs' => ?_⟩
        obtain ⟨pre₁, rfl, hs₁⟩ := htail pre' rest' hs'
        exact Nat.succ_le_succ (hleast pre₁ rest' hs₁)
      · rintro ⟨pre, hs, hleast⟩
        obtain ⟨pre₁, rfl, hs₁⟩ := htail pre rest hs
        refine ⟨pre₁, hs₁, fun pre' rest' hs' => ?_⟩
        exact Nat.le_of_succ_le_succ (hleast (c :: pre') rest' (congrArg (c :: ·) hs'))

/-! ## `run_pepin` -/

/-- The name of a file. -/
abbrev Path := List Char

/-- What a process sees and does of the host outside itself: the files, and the commands
it has given to `popen`. -/
structure HostState where
  files : Path → Option (List Char)
  commands : List (List Char)

/-- The rest of the host. -/
structure Host where
  /-- `std::getenv("PEPIN_PATH")`. -/
  PEPIN_PATH : Option (List Char)
  /-- `mkstemp`: the name of the file it has created, unless it fails. -/
  mkstemp : (Path → Option (List Char)) → Option Path
  /-- It creates a file that did not exist. -/
  mkstemp_new : ∀ files path, mkstemp files = some path → files path = none
  /-- `popen(cmd, "r")`: what the command prints, if it can be started.  It reads the files and
  changes none. -/
  popen : List Char → (Path → Option (List Char)) → Option (List Char)
  /-- `std::strtod`. -/
  strtod : List Char → ℚ

/-- `"Low-precision approx num points:"`. -/
def marker : List Char := "Low-precision approx num points:".toList

/-- The command, with the default `epsilon`, `delta` and `seed`. -/
def pepinCommand (host : Host) (path : Path) : List Char :=
  host.PEPIN_PATH.getD "./pepin".toList ++ " -e 0.1 -d 0.05 -s 1 ".toList ++ path ++
    " 2>/dev/null".toList

/-- `ground_truth::run_pepin`, without the time it takes. -/
def runPepin (host : Host) (path : Path) : StateM HostState (Option ℚ) := fun st =>
  let cmd := pepinCommand host path
  let st' := { st with commands := st.commands ++ [cmd] }
  match host.popen cmd st.files with
  | none => (none, st')
  | some text =>
    let output := readPipe text
    ((afterMarker marker output).map host.strtod, st')

/-- What the counter says of a file: the number after the first marker in what it prints. -/
def CounterSays (host : Host) (cmd : List Char) (files : Path → Option (List Char)) (v : ℚ) : Prop :=
  ∃ pre rest, host.popen cmd files = some (pre ++ marker ++ rest) ∧ host.strtod rest = v ∧
    ∀ pre' rest', pre ++ marker ++ rest = pre' ++ marker ++ rest' → pre.length ≤ pre'.length

/-- **What `run_pepin` returns** is what the counter says. -/
theorem runPepin_eq_some_iff {host : Host} {path : Path} {st : HostState}
    (hnull : ∀ text, host.popen (pepinCommand host path) st.files = some text → '\x00' ∉ text)
    (v : ℚ) :
    (runPepin host path st).1 = some v ↔
      CounterSays host (pepinCommand host path) st.files v := by
  rw [runPepin, CounterSays]
  cases htext : host.popen (pepinCommand host path) st.files with
  | none =>
    refine iff_of_false ?_ ?_
    · intro h
      cases h
    · rintro ⟨pre, rest, h, -⟩
      cases h
  | some text =>
    dsimp only
    rw [readPipe_eq (hnull text htext), Option.map_eq_some_iff]
    constructor
    · rintro ⟨rest, hrest, hv⟩
      obtain ⟨pre, rfl, hleast⟩ := afterMarker_eq_some_iff.mp hrest
      exact ⟨pre, rest, rfl, hv, hleast⟩
    · rintro ⟨pre, rest, heq, hv, hleast⟩
      obtain rfl := Option.some.inj heq
      exact ⟨rest, afterMarker_eq_some_iff.mpr ⟨pre, rfl, hleast⟩, hv⟩

/-- It runs its command and leaves the files alone. -/
theorem runPepin_snd (host : Host) (path : Path) (st : HostState) :
    (runPepin host path st).2 = { st with commands := st.commands ++ [pepinCommand host path] } := by
  rw [runPepin]
  cases host.popen (pepinCommand host path) st.files <;> rfl

/-! ## `run_pepin_sanity_check` -/

variable {VARS CUBES : Nat}

/-- A file gets a content. -/
def HostState.write (st : HostState) (path : Path) (content : List Char) : HostState :=
  { st with files := Function.update st.files path (some content) }

/-- `std::remove(path)`. -/
def HostState.remove (st : HostState) (path : Path) : HostState :=
  { st with files := Function.update st.files path none }

/-- `ground_truth::run_pepin_sanity_check`. -/
def runPepinSanityCheck (host : Host) (alice bob : Dnf VARS CUBES) : StateM HostState (Option ℚ) :=
  fun st =>
    let conjunction := plainConjoinDnf alice bob
    match host.mkstemp st.files with
    | none => (none, st)
    | some path =>
      let created := st.write path []
      let real_cubes := (writeDimacsDnf conjunction).2
      let written := created.write path (writeDimacsDnf conjunction).1
      let result := if 0 < real_cubes then runPepin host path written else (some 0, written)
      (result.1, result.2.remove path)

section Conjunction
variable {d1 d2 : Dnf VARS CUBES}

/-- The host's conjunction has the common assignments. -/
theorem plainConjoinDnf_sat (x : Fin VARS → Bool) :
    (∃ k, (plainConjoinDnf d1 d2 k).Sat x) ↔ d1.Sat x ∧ d2.Sat x := by
  constructor
  · rintro ⟨k, hk⟩
    rw [plainConjoinDnf_apply, pairMeet, Cube.meet_sat] at hk
    exact ⟨⟨_, hk.1⟩, ⟨_, hk.2⟩⟩
  · rintro ⟨⟨i, hi⟩, ⟨j, hj⟩⟩
    refine ⟨pairIndex i j, ?_⟩
    rw [plainConjoinDnf_apply, pairMeet_pairIndex, plainConjoin_eq_meet, Cube.meet_sat]
    exact ⟨hi, hj⟩

theorem plainConjoinDnf_wellFormed (h : d2.WellFormed) (k : Fin (CUBES * CUBES)) :
    (plainConjoinDnf d1 d2 k).WellFormed := by
  rw [plainConjoinDnf_apply]
  exact Cube.meet_wellFormed (h _)

/-- There is something to write exactly when there is a common assignment. -/
theorem realCubes_plainConjoinDnf_eq_nil_iff :
    realCubes (plainConjoinDnf d1 d2) = [] ↔ d1.models ∩ d2.models = ∅ := by
  rw [List.eq_nil_iff_forall_not_mem, eq_empty_iff_forall_notMem]
  constructor
  · intro h x hx
    rw [mem_inter, Dnf.mem_models, Dnf.mem_models, ← plainConjoinDnf_sat] at hx
    obtain ⟨k, hk⟩ := hx
    exact h _ (mem_realCubes.mpr ⟨k, rfl, hk.1⟩)
  · intro h c hc
    obtain ⟨k, rfl, hpad⟩ := mem_realCubes.mp hc
    rw [plainConjoinDnf_apply, pairMeet, ← Bool.not_eq_true, Cube.meet_pad_iff, not_not] at hpad
    obtain ⟨x, h1, h2⟩ := hpad
    refine h x ?_
    rw [mem_inter, Dnf.mem_models, Dnf.mem_models]
    exact ⟨⟨_, h1⟩, ⟨_, h2⟩⟩

theorem length_realCubes_le {M : Nat} (cubes : Fin M → Cube VARS) : (realCubes cubes).length ≤ M :=
  (List.length_filter_le _ _).trans_eq List.length_ofFn

end Conjunction

/-- The formula that is read from a list of real cubes. -/
theorem sat_getD_padding {cs : List (Cube VARS)} {M : Nat} (hM : cs.length ≤ M) (x : Fin VARS → Bool) :
    (⟨fun k => cs[k.val]?.getD Cube.padding⟩ : Dnf VARS M).Sat x ↔ ∃ c ∈ cs, c.Sat x := by
  constructor
  · rintro ⟨k, hk⟩
    change (cs[k.val]?.getD Cube.padding).Sat x at hk
    cases hc : cs[k.val]? with
    | none =>
      rw [hc, Option.getD_none] at hk
      exact Bool.noConfusion hk.1
    | some c =>
      rw [hc, Option.getD_some] at hk
      exact ⟨c, List.mem_of_getElem? hc, hk⟩
  · rintro ⟨c, hc, hx⟩
    obtain ⟨i, hi, rfl⟩ := List.mem_iff_getElem.mp hc
    refine ⟨⟨i, hi.trans_le hM⟩, ?_⟩
    change (cs[i]?.getD Cube.padding).Sat x
    rwa [List.getElem?_eq_getElem hi, Option.getD_some]

/-- The text declares `V` variables, in its first line that is not skipped. -/
def Declares (content : List Char) (V : Nat) : Prop :=
  ∃ pre C body, readLines content = pre ++ .header V C :: body ∧ ∀ l ∈ pre, l.isSkipped = true

/-- **The file of the conjunction**: it declares the variables of the formulas, the parser
accepts it, and the common assignments satisfy it and no others, by the parser's reading and by
the text. -/
theorem conjunction_file [NeZero VARS] {alice bob : Dnf VARS CUBES} (hb : bob.WellFormed)
    (hV : (VARS : Int) ≤ intMax) (hC : ((CUBES * CUBES : Nat) : Int) ≤ intMax) :
    Declares (writeDimacsDnf (plainConjoinDnf alice bob)).1 VARS ∧
    ∃ d : Dnf VARS (CUBES * CUBES),
      parse VARS (CUBES * CUBES) (some (writeDimacsDnf (plainConjoinDnf alice bob)).1) = .ok d ∧
      d.models = alice.models ∩ bob.models ∧
      ∀ x, FileSat (writeDimacsDnf (plainConjoinDnf alice bob)).1 x ↔
        x ∈ alice.models ∩ bob.models := by
  have hwf := @plainConjoinDnf_wellFormed _ _ alice _ hb
  have hlen := length_realCubes_le (plainConjoinDnf alice bob)
  have hlines := map_readLine_eq
    (writeDimacsDnf_isLine (plainConjoinDnf alice bob) hV ((Int.ofNat_le.mpr hlen).trans hC))
  refine ⟨⟨[], _, _, hlines, fun l hl => absurd hl List.not_mem_nil⟩, _,
    parse_writeDimacsDnf hV (fun k => (hwf k).2) hC hlen, ?_, fun x => ?_⟩
  · ext x
    rw [Dnf.mem_models, sat_getD_padding hlen, mem_inter, Dnf.mem_models, Dnf.mem_models,
      ← plainConjoinDnf_sat]
    constructor
    · rintro ⟨c, hc, hx⟩
      obtain ⟨k, rfl, -⟩ := mem_realCubes.mp hc
      exact ⟨k, hx⟩
    · rintro ⟨k, hk⟩
      exact ⟨_, mem_realCubes.mpr ⟨k, rfl, hk.1⟩, hk⟩
  · rw [fileSat_writeDimacsDnf hV (fun k => (hwf k).2) ((Int.ofNat_le.mpr hlen).trans hC), mem_inter,
      Dnf.mem_models, Dnf.mem_models, ← plainConjoinDnf_sat]
    refine exists_congr fun k => ?_
    rw [Cube.check_iff_sat (hwf k)]
    exact and_iff_right_of_imp fun hs => hs.1

/-- The truth is about the common assignments of the two formulas, and nothing is left behind. -/
structure ChecksTruth (host : Host) (alice bob : Dnf VARS CUBES) (st : HostState) (truth : Option ℚ)
    (st' : HostState) : Prop where
  /-- The files are as they were. -/
  files : st'.files = st.files
  /-- Without a temporary file there is no truth. -/
  failed : host.mkstemp st.files = none → truth = none ∧ st'.commands = st.commands
  /-- Where there is nothing to count the truth is zero, and no command is run. -/
  zero : ∀ path, host.mkstemp st.files = some path → alice.models ∩ bob.models = ∅ →
    truth = some 0 ∧ st'.commands = st.commands
  /-- Otherwise the counter is run once, on a file that the common assignments satisfy and no
  others, and the truth is what it says. -/
  counted : ∀ path, host.mkstemp st.files = some path → (alice.models ∩ bob.models).Nonempty →
    st'.commands = st.commands ++ [pepinCommand host path] ∧
    ∃ content, Declares content VARS ∧ ∃ d : Dnf VARS (CUBES * CUBES),
      parse VARS (CUBES * CUBES) (some content) = .ok d ∧ d.models = alice.models ∩ bob.models ∧
      (∀ x, FileSat content x ↔ x ∈ alice.models ∩ bob.models) ∧
      ∀ v, truth = some v ↔ CounterSays host (pepinCommand host path)
        (Function.update st.files path (some content)) v

section Check
variable [NeZero VARS] {host : Host} (hV : (VARS : Int) ≤ intMax)
  (hC : ((CUBES * CUBES : Nat) : Int) ≤ intMax)
  (hnull : ∀ cmd files text, host.popen cmd files = some text → '\x00' ∉ text)
  {alice bob : Dnf VARS CUBES} (hb : bob.WellFormed)
include hV hC hnull hb

omit [NeZero VARS] hV hnull hb in
/-- The counter is run if something is common. -/
theorem real_cubes_pos_iff :
    0 < (writeDimacsDnf (plainConjoinDnf alice bob)).2 ↔ (alice.models ∩ bob.models).Nonempty := by
  have hlen := (Int.ofNat_le.mpr (length_realCubes_le (plainConjoinDnf alice bob))).trans hC
  have hreal : (writeDimacsDnf (plainConjoinDnf alice bob)).2 =
      (realCubes (plainConjoinDnf alice bob)).length := by
    rw [writeDimacsDnf, castInt_of_le hlen]
  rw [hreal, Int.natCast_pos, List.length_pos_iff, nonempty_iff_ne_empty, ne_eq, ne_eq,
    realCubes_plainConjoinDnf_eq_nil_iff]

/-- **The check answers for its truth.** -/
theorem checksTruth (st : HostState) :
    ChecksTruth host alice bob st (runPepinSanityCheck host alice bob st).1
      (runPepinSanityCheck host alice bob st).2 := by
  obtain ⟨r, hrun⟩ : ∃ r, r = runPepinSanityCheck host alice bob st := ⟨_, rfl⟩
  rw [← hrun]
  have hpos := @real_cubes_pos_iff _ _ hC alice bob
  cases hpath : host.mkstemp st.files with
  | none =>
    have hr : r = (none, st) := by
      simp only [hrun, runPepinSanityCheck, hpath]
    rw [hr]
    refine ⟨rfl, fun _ => ⟨rfl, rfl⟩, fun path h => ?_, fun path h => ?_⟩
    all_goals
      rw [hpath] at h
      cases h
  | some path =>
    -- what is written, over what `mkstemp` has created, and then removed
    let content := (writeDimacsDnf (plainConjoinDnf alice bob)).1
    let written := (st.write path []).write path content
    have hwritten : written.files = Function.update st.files path (some content) :=
      Function.update_idem _ _ _
    have hremoved : Function.update written.files path none = st.files := by
      rw [hwritten, Function.update_idem, ← host.mkstemp_new _ _ hpath, Function.update_eq_self]
    rcases eq_empty_or_nonempty (alice.models ∩ bob.models) with hnone | hsome
    · have hzero : ¬ 0 < (writeDimacsDnf (plainConjoinDnf alice bob)).2 := by
        rw [hpos, hnone]
        exact not_nonempty_empty
      have hr : r = (some 0, written.remove path) := by
        simp only [hrun, runPepinSanityCheck, hpath, if_neg hzero]
        rfl
      rw [hr]
      refine ⟨hremoved, fun h => ?_, fun _ _ _ => ⟨rfl, rfl⟩, fun _ _ hsome => ?_⟩
      · rw [hpath] at h
        cases h
      · exact absurd hnone hsome.ne_empty
    · have hr : r = ((runPepin host path written).1, (runPepin host path written).2.remove path) := by
        simp only [hrun, runPepinSanityCheck, hpath, if_pos (hpos.mpr hsome)]
        rfl
      rw [hr, runPepin_snd]
      refine ⟨hremoved, fun h => ?_, fun _ _ hnone => absurd hnone hsome.ne_empty, fun path' h _ => ?_⟩
      · rw [hpath] at h
        cases h
      · obtain rfl := Option.some.inj (hpath.symm.trans h)
        obtain ⟨hdeclares, d, hparse, hmodels, hsat⟩ := @conjunction_file _ _ _ alice _ hb hV hC
        refine ⟨rfl, content, hdeclares, d, hparse, hmodels, hsat, fun v => ?_⟩
        rw [← hwritten]
        exact runPepin_eq_some_iff (fun text => hnull _ _ text) v

end Check

/-- The number of assignments that satisfy the formula of a file. -/
noncomputable def fileCount (VARS : Nat) (content : List Char) : Nat :=
  Nat.card {x : Fin VARS → Bool // FileSat content x}

/-- The counter is right about the files that declare `VARS` variables, within a relative
`ε`, and prints no null character. -/
structure CountsWithin (host : Host) (VARS : Nat) (ε : ℚ) : Prop where
  null : ∀ cmd files text, host.popen cmd files = some text → '\x00' ∉ text
  within : ∀ path files content v, files path = some content → Declares content VARS →
    CounterSays host (pepinCommand host path) files v →
      |v - fileCount VARS content| ≤ ε * fileCount VARS content

/-- The truth is as good as the counter. -/
theorem ChecksTruth.accurate {host : Host} {alice bob : Dnf VARS CUBES} {st st' : HostState}
    {truth : Option ℚ} (h : ChecksTruth host alice bob st truth st') {ε : ℚ}
    (hcounter : CountsWithin host VARS ε) {v : ℚ} (hv : truth = some v) :
    |v - #(alice.models ∩ bob.models)| ≤ ε * #(alice.models ∩ bob.models) := by
  cases hpath : host.mkstemp st.files with
  | none =>
    rw [(h.failed hpath).1] at hv
    cases hv
  | some path =>
    rcases eq_empty_or_nonempty (alice.models ∩ bob.models) with hnone | hsome
    · obtain rfl := Option.some.inj ((h.zero path hpath hnone).1.symm.trans hv)
      rw [hnone]
      simp
    · obtain ⟨-, content, hdeclares, d, -, -, hsat, hread⟩ := h.counted path hpath hsome
      have hcount : fileCount VARS content = #(alice.models ∩ bob.models) := by
        rw [fileCount, Nat.subtype_card _ fun x => (hsat x).symm]
      rw [← hcount]
      exact hcounter.within path _ content v (Function.update_self ..) hdeclares ((hread v).mp hv)

/-- A host whose temporary file is always `t`, and whose counter counts it exactly. -/
noncomputable def exactHost : Host where
  PEPIN_PATH := none
  mkstemp files := if files ['t'] = none then some ['t'] else none
  mkstemp_new files path h := by
    split_ifs at h with hnone
    obtain rfl := Option.some.inj h
    exact hnone
  popen cmd files :=
    if cmd = "./pepin -e 0.1 -d 0.05 -s 1 t 2>/dev/null".toList then
      (files ['t']).map fun content => marker ++ OStream.showNat (fileCount 4 content)
    else none
  strtod s := digitsValue s

theorem popen_exactHost {cmd : List Char} {files : Path → Option (List Char)} {text : List Char}
    (h : exactHost.popen cmd files = some text) :
    cmd = "./pepin -e 0.1 -d 0.05 -s 1 t 2>/dev/null".toList ∧
      ∃ content, files ['t'] = some content ∧
        text = marker ++ OStream.showNat (fileCount 4 content) := by
  simp only [exactHost] at h
  split_ifs at h with hcmd
  obtain ⟨content, hcontent, htext⟩ := Option.map_eq_some_iff.mp h
  exact ⟨hcmd, content, hcontent, htext.symm⟩

theorem exactHost_exact {path : Path} {files : Path → Option (List Char)} {content : List Char} {v : ℚ}
    (hfile : files path = some content)
    (h : CounterSays exactHost (pepinCommand exactHost path) files v) : v = fileCount 4 content := by
  obtain ⟨pre, rest, hpopen, hv, hleast⟩ := h
  obtain ⟨hcmd, content', hcontent', htext⟩ := popen_exactHost hpopen
  have hpath : path = ['t'] := by
    have hsplit : "./pepin -e 0.1 -d 0.05 -s 1 t 2>/dev/null".toList =
        "./pepin".toList ++ " -e 0.1 -d 0.05 -s 1 ".toList ++ ['t'] ++ " 2>/dev/null".toList := by
      decide
    rw [hsplit] at hcmd
    exact List.append_cancel_left (List.append_cancel_right hcmd)
  rw [hpath, hcontent'] at hfile
  obtain rfl := Option.some.inj hfile
  -- the marker stands at the front
  have hpre : pre = [] :=
    List.length_eq_zero_iff.mp (Nat.eq_zero_of_le_zero (hleast [] _ htext))
  rw [hpre, List.nil_append] at htext
  rw [← hv, List.append_cancel_left htext]
  exact congrArg Nat.cast (OStream.digitsValue_showNat _)

/-- It is exact on four variables. -/
theorem exactHost_countsWithin : CountsWithin exactHost 4 0 where
  null cmd files text h := by
    obtain ⟨-, content, -, rfl⟩ := popen_exactHost h
    rw [List.mem_append, not_or]
    refine ⟨by decide, fun hmem => ?_⟩
    exact absurd (OStream.isDigit_of_mem_showNat _ hmem) (by decide)
  within path files content v hfile _ h := by
    rw [exactHost_exact hfile h, sub_self, abs_zero, zero_mul]

end MpcVazirani
