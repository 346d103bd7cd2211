import Mathlib.Data.BitVec
import MpcVazirani.Ledger
import MpcVazirani.Pipeline

/-! # The instrumented pipelines

`pipeline/instrumentation.h`, and the two pipelines with what it adds to them.  Given a
breakdown a pipeline reads the byte counters of its connection around every call of a
gadget and around the feeding of its inputs, and books the difference under a name;
without one it makes the same calls.  So it reveals the same either way, its
connection ends up in the same state, and the breakdown accounts for every byte
(`pipelines_accounted`): what a phase shows is what was sent and received during its calls,
and all phases together show what the whole run did.

What a call sends is emp-toolkit's business.  Here it may do anything to the state of the
session, of which only the counters are looked at; they are 64-bit numbers that may wrap.
-/
namespace MpcVazirani
open Ledger

/-- The counters of an `emp::NetIO`. -/
structure NetIO where
  send_counter : BitVec 64
  recv_counter : BitVec 64
  rounds : BitVec 64

/-- A session over a connection, as far as one process can see it: its states, and what
the calls of a pipeline do to them. -/
structure Network where
  State : Type
  io : State → NetIO
  /-- `io->sync()`. -/
  sync : State → State
  /-- `sess.input<T>(owner, mine)`. -/
  input : Party → State → State
  /-- The circuit of a gadget, or the reveals of `reveal_wide`. -/
  gadget : String → State → State

/-- `PipelineBreakdown::Phase`, with the bytes sent and received. -/
abbrev Phase := Entry String (BitVec 64 × BitVec 64)

/-- `PipelineBreakdown`, a vector of phases. -/
abbrev PipelineBreakdown := List Phase

/-- `PipelineBreakdown::add`. -/
def PipelineBreakdown.add (breakdown : PipelineBreakdown) (name : String) (sent recv : BitVec 64) :
    PipelineBreakdown := Ledger.add breakdown name (sent, recv)

/-- What a pipeline runs in: the session, and the breakdown if the pointer is not null. -/
abbrev Process (net : Network) := StateM (net.State × Option PipelineBreakdown)

variable (net : Network)

/-- The bytes sent and received so far. -/
def bytes (s : net.State) : BitVec 64 × BitVec 64 :=
  ((net.io s).send_counter, (net.io s).recv_counter)

/-- `measure(io, breakdown, name, fn)`. -/
def measure {α : Type} (name : String) (fn : StateM net.State α) : Process net α := fun p =>
  match p.2 with
  | none =>
    let result := fn p.1
    (result.1, (result.2, none))
  | some breakdown =>
    let sent0 := (net.io p.1).send_counter
    let recv0 := (net.io p.1).recv_counter
    let result := fn p.1
    (result.1, (result.2, some (breakdown.add name ((net.io result.2).send_counter - sent0)
      ((net.io result.2).recv_counter - recv0))))

/-- `breakdown ? io->send_counter : 0`, and the same for the bytes received. -/
def counters : Process net (BitVec 64 × BitVec 64) := fun p =>
  (if p.2.isSome then bytes net p.1 else (0, 0), p)

/-- `if (breakdown) breakdown->add(name, io->send_counter - sent0, …)`. -/
def addSince (name : String) (start : BitVec 64 × BitVec 64) : Process net Unit := fun p =>
  ((), (p.1, p.2.map fun breakdown => breakdown.add name ((net.io p.1).send_counter - start.1)
    ((net.io p.1).recv_counter - start.2)))

/-- Calls of the session that are not measured by themselves. -/
def unmeasured {α : Type} (fn : StateM net.State α) : Process net α := fun p =>
  let result := fn p.1
  (result.1, (result.2, p.2))

/-- A gadget's wires, and the effect of its circuit. -/
def gadget {α : Type} (name : String) (wires : α) : StateM net.State α := fun s =>
  (wires, net.gadget name s)

/-- An input's wires, and the effect of feeding it in. -/
def feedInput {α : Type} (owner : Party) (wires : α) : StateM net.State α := fun s =>
  (wires, net.input owner s)

/-! ## The two pipelines -/

section Pipelines
variable (sess : SH2PCSession) {VARS CUBES K : Nat} [NeZero CUBES] (my_dnf : Party → Dnf VARS CUBES)
  (coins : Party → Fin K → TrialCoins (VARS + sess.ctx.bitsFor (CUBES * CUBES)) VARS)

/-- The three inputs of one cube. -/
def feedCube (owner : Party) (i : Fin CUBES) : StateM net.State (CircuitCube sess.ctx VARS) := do
  let bits ← feedInput net owner (sess.inputBitVec owner fun party => ((my_dnf party).cubes i).bits)
  let mask ← feedInput net owner (sess.inputBitVec owner fun party => ((my_dnf party).cubes i).mask)
  let pad ← feedInput net owner (sess.inputBit owner fun party => ((my_dnf party).cubes i).pad)
  return { bits := bits, mask := mask, pad := pad }

/-- The loop over the cubes, with the arrays as far as they are filled. -/
def feedCubes (start : (Fin CUBES → CircuitCube sess.ctx VARS) × (Fin CUBES → CircuitCube sess.ctx VARS)) :
    StateM net.State ((Fin CUBES → CircuitCube sess.ctx VARS) ×
      (Fin CUBES → CircuitCube sess.ctx VARS)) :=
  (List.finRange CUBES).foldlM (fun arrays i => do
    let alice ← feedCube net sess my_dnf .alice i
    let bob ← feedCube net sess my_dnf .bob i
    return (Function.update arrays.1 i alice, Function.update arrays.2 i bob)) start

/-- A value-initialised `CircuitCube`. -/
def blankCube : CircuitCube sess.ctx VARS where
  bits := sess.ctx.bitVecConst fun _ => false
  mask := sess.ctx.bitVecConst fun _ => false
  pad := sess.ctx.bitConst false

/-- The part of both pipelines before the trial loop. -/
def runSetup : Process net (TrialSetup sess.ctx VARS (CUBES * CUBES)) := do
  let start ← counters net
  let cubes ← unmeasured net (feedCubes net sess my_dnf (fun _ => blankCube sess, fun _ => blankCube sess))
  addSince net "cube_input_feeding" start
  let conjunction ← measure net "conjoin_dnf" (gadget net "conjoin_dnf" (conjoinDnf cubes.1 cubes.2))
  let weights ← measure net "cube_weights" (gadget net "cube_weights" (cubeWeights conjunction))
  let total ← measure net "dnf_weight" (gadget net "dnf_weight" (dnfWeight weights))
  let intervals ← measure net "cube_intervals" (gadget net "cube_intervals" (cubeIntervals weights))
  return { conjunction := conjunction, weights := weights, total := total, intervals := intervals }

/-- The two inputs of a string of coins. -/
def feedCoins {n : Nat} (bits : Party → Fin n → Bool) :
    StateM net.State (sess.ctx.BitVecT n × sess.ctx.BitVecT n) := do
  let alice ← feedInput net .alice (sess.inputBitVec .alice bits)
  let bob ← feedInput net .bob (sess.inputBitVec .bob bits)
  return (alice, bob)

/-- The body of both trial loops, up to the assignment. -/
def runTrial (s : TrialSetup sess.ctx VARS (CUBES * CUBES)) (t : Fin K) :
    Process net (TrialWires sess.ctx VARS (CUBES * CUBES)) := do
  let start ← counters net
  let r ← unmeasured net (feedCoins net sess fun party => (coins party t).my_random_bits)
  addSince net "trial_random_input_feeding" start
  let z ← measure net "sample_in_range" (gadget net "sample_in_range" (sampleInRange r.1 r.2 s.total))
  let index ← measure net "select_cube_index"
    (gadget net "select_cube_index" (selectCubeIndex z s.intervals))
  let selected ← measure net "cube_at_index"
    (gadget net "cube_at_index" (cubeAtIndex index s.conjunction))
  let start ← counters net
  let a ← unmeasured net (feedCoins net sess fun party => (coins party t).my_assignment_bits)
  addSince net "trial_random_input_feeding" start
  let assignment ← measure net "random_assignment"
    (gadget net "random_assignment" (randomAssignment selected a.1 a.2))
  return { z := z, index := index, selected := selected, assignment := assignment }

/-- The body of the Vazirani trial loop. -/
def runReciprocal (s : TrialSetup sess.ctx VARS (CUBES * CUBES)) (t : Fin K) :
    Process net (DivideLookupResult sess.ctx) := do
  let w ← runTrial net sess coins s t
  let count ← measure net "count_satisfied_cubes"
    (gadget net "count_satisfied_cubes" (countSatisfiedCubes w.assignment s.conjunction))
  measure net "divide_lookup" (gadget net "divide_lookup" (divideLookup count))

/-- `run_vazirani_pipeline<VARS, CUBES, K>` with its instrumentation. -/
def runVaziraniInstrumented : Process net (BitVec 128) := do
  let s ← runSetup net sess my_dnf
  let reciprocals ← (List.finRange K).foldlM (fun reciprocals t => do
    let reciprocal ← runReciprocal net sess coins s t
    return Function.update reciprocals t reciprocal) fun _ => sess.ctx.uintConst 0
  let estimate ← measure net "vazirani_estimate"
    (gadget net "vazirani_estimate" (vaziraniEstimate s.total reciprocals))
  measure net "reveal" (gadget net "reveal" (revealWide sess _ estimate))

/-- The body of the Karp-Luby trial loop. -/
def runIndicator (s : TrialSetup sess.ctx VARS (CUBES * CUBES)) (t : Fin K) :
    Process net sess.ctx.BitT := do
  let w ← runTrial net sess coins s t
  measure net "is_canonical_sample"
    (gadget net "is_canonical_sample" (isCanonicalSample w.index w.assignment s.conjunction))

/-- `run_karp_luby_pipeline<VARS, CUBES, K>` with its instrumentation. -/
def runKarpLubyInstrumented : Process net (BitVec 128) := do
  let s ← runSetup net sess my_dnf
  let indicators ← (List.finRange K).foldlM (fun indicators t => do
    let indicator ← runIndicator net sess coins s t
    return Function.update indicators t indicator) fun _ => sess.ctx.bitConst false
  let estimate ← measure net "karp_luby_estimate"
    (gadget net "karp_luby_estimate" (karpLubyEstimate s.total indicators))
  measure net "reveal" (gadget net "reveal" (revealWide sess _ estimate))

end Pipelines

/-! ## The calls they make -/

/-- A measured gadget. -/
def gadgetCall (name : String) : Call String net.State := ⟨name, net.gadget name⟩

/-- The inputs of a string of coins, or of one field of a cube. -/
def inputs (owners : List Party) (s : net.State) : net.State :=
  owners.foldl (fun s owner => net.input owner s) s

/-- The measured calls before the trial loop; the cubes take six inputs each. -/
def setupCalls (CUBES : Nat) : List (Call String net.State) :=
  ⟨"cube_input_feeding", (inputs net [.alice, .alice, .alice, .bob, .bob, .bob])^[CUBES]⟩ ::
    ["conjoin_dnf", "cube_weights", "dnf_weight", "cube_intervals"].map (gadgetCall net)

/-- The measured calls of a trial, of which the last are the pipeline's own. -/
def trialCalls (own : List String) : List (Call String net.State) :=
  [⟨"trial_random_input_feeding", inputs net [.alice, .bob]⟩, gadgetCall net "sample_in_range",
    gadgetCall net "select_cube_index", gadgetCall net "cube_at_index",
    ⟨"trial_random_input_feeding", inputs net [.alice, .bob]⟩,
    gadgetCall net "random_assignment"] ++ own.map (gadgetCall net)

/-- All measured calls of a pipeline. -/
def pipelineCalls (CUBES K : Nat) (own : List String) (estimate : String) :
    List (Call String net.State) :=
  setupCalls net CUBES ++ (List.finRange K).flatMap (fun _ => trialCalls net own) ++
    [estimate, "reveal"].map (gadgetCall net)

section Calls
variable {net}

theorem measure_gadget {α : Type} (name : String) (v : α) :
    measure net name (gadget net name v) = booked (bytes net) v [gadgetCall net name] := by
  funext p
  rcases p with ⟨s, _ | breakdown⟩ <;> rfl

/-- What stands between a reading of the counters and its booking is one call. -/
theorem feed_eq_booked {α β : Type} {fn : StateM net.State α} {v : α} {effect : net.State → net.State}
    (hfn : ∀ s, fn s = (v, effect s)) (name : String) (k : α → Process net β) :
    (do
      let start ← counters net
      let x ← unmeasured net fn
      addSince net name start
      k x) = booked (bytes net) v [⟨name, effect⟩] >>= k := by
  funext p
  rcases p with ⟨s, _ | breakdown⟩
  · change k (fn s).1 ((fn s).2, none) = k v (effect s, none)
    rw [hfn]
  · change k (fn s).1 ((fn s).2, _) = k v (effect s, _)
    rw [hfn]
    rfl

variable (sess : SH2PCSession) {VARS CUBES K : Nat} [NeZero CUBES] (my_dnf : Party → Dnf VARS CUBES)
  (coins : Party → Fin K → TrialCoins (VARS + sess.ctx.bitsFor (CUBES * CUBES)) VARS)

omit [NeZero CUBES] in
/-- The turns of the loop over the cubes write both arrays. -/
theorem feedCubes_turns (ts : List (Fin CUBES)) (start : (Fin CUBES → CircuitCube sess.ctx VARS) ×
      (Fin CUBES → CircuitCube sess.ctx VARS)) :
    (ts.foldlM (fun arrays i => do
        let alice ← feedCube net sess my_dnf .alice i
        let bob ← feedCube net sess my_dnf .bob i
        return (Function.update arrays.1 i alice, Function.update arrays.2 i bob)) start :
          StateM net.State _) = fun s =>
      ((fun i => if i ∈ ts then inputCubes sess .alice my_dnf i else start.1 i,
        fun i => if i ∈ ts then inputCubes sess .bob my_dnf i else start.2 i),
        (inputs net [.alice, .alice, .alice, .bob, .bob, .bob])^[ts.length] s) := by
  induction ts generalizing start with
  | nil =>
    funext s
    simp only [List.not_mem_nil, if_false]
    rfl
  | cons t ts ih =>
    funext s
    rw [List.foldlM_cons]
    refine (congrFun (ih (Function.update start.1 t (inputCubes sess .alice my_dnf t),
      Function.update start.2 t (inputCubes sess .bob my_dnf t)))
      (inputs net [.alice, .alice, .alice, .bob, .bob, .bob] s)).trans ?_
    refine Prod.ext (Prod.ext (funext fun i => ?_) (funext fun i => ?_)) rfl
    all_goals
      by_cases hi : i = t
      · subst hi
        simp
      · simp [hi]

omit [NeZero CUBES] in
/-- The loop over the cubes fills both arrays. -/
theorem feedCubes_eq (start : (Fin CUBES → CircuitCube sess.ctx VARS) ×
      (Fin CUBES → CircuitCube sess.ctx VARS)) (s : net.State) :
    feedCubes net sess my_dnf start s =
      ((inputCubes sess .alice my_dnf, inputCubes sess .bob my_dnf),
        (inputs net [.alice, .alice, .alice, .bob, .bob, .bob])^[CUBES] s) := by
  rw [feedCubes, feedCubes_turns]
  simp only [List.mem_finRange, if_true, List.length_finRange]

/-- The setup makes its calls, and computes what it does without instrumentation. -/
theorem runSetup_eq :
    runSetup net sess my_dnf = booked (bytes net) (trialSetup sess my_dnf) (setupCalls net CUBES) := by
  rw [runSetup, feed_eq_booked (feedCubes_eq sess my_dnf _)]
  refine booked_bind ?_
  simp only [measure_gadget]
  refine booked_bind (booked_bind (booked_bind (booked_bind ?_)))
  exact pure_eq_booked _ _

omit [NeZero CUBES] in
theorem feedCoins_eq {n : Nat} (bits : Party → Fin n → Bool) (s : net.State) :
    feedCoins net sess bits s =
      ((sess.inputBitVec .alice bits, sess.inputBitVec .bob bits), inputs net [.alice, .bob] s) := rfl

/-- So does a trial, up to its assignment. -/
theorem runTrial_eq (t : Fin K) :
    runTrial net sess coins (trialSetup sess my_dnf) t =
      booked (bytes net) (pipelineTrial sess my_dnf coins t) (trialCalls net []) := by
  rw [runTrial, feed_eq_booked (feedCoins_eq sess _)]
  refine booked_bind ?_
  simp only [measure_gadget]
  refine booked_bind (booked_bind (booked_bind ?_))
  rw [feed_eq_booked (feedCoins_eq sess _)]
  refine booked_bind (booked_bind ?_)
  exact pure_eq_booked _ _

/-- The calls of a trial, its own at the end. -/
theorem trialCalls_append (own : List String) :
    trialCalls net [] ++ own.map (gadgetCall net) = trialCalls net own := rfl

theorem runReciprocal_eq (t : Fin K) :
    runReciprocal net sess coins (trialSetup sess my_dnf) t =
      booked (bytes net) (reciprocals sess my_dnf coins t)
        (trialCalls net ["count_satisfied_cubes", "divide_lookup"]) := by
  rw [runReciprocal, runTrial_eq, ← trialCalls_append]
  refine booked_bind ?_
  simp only [measure_gadget]
  exact booked_bind rfl

theorem runIndicator_eq (t : Fin K) :
    runIndicator net sess coins (trialSetup sess my_dnf) t =
      booked (bytes net) (indicators sess my_dnf coins t) (trialCalls net ["is_canonical_sample"]) := by
  rw [runIndicator, runTrial_eq, ← trialCalls_append]
  refine booked_bind ?_
  rw [measure_gadget]
  rfl

/-- **The instrumented Vazirani pipeline** makes its calls and reveals what it reveals
without instrumentation. -/
theorem runVaziraniInstrumented_eq :
    runVaziraniInstrumented net sess my_dnf coins =
      booked (bytes net) (runVaziraniPipeline sess my_dnf coins)
        (pipelineCalls net CUBES K ["count_satisfied_cubes", "divide_lookup"] "vazirani_estimate") := by
  rw [runVaziraniInstrumented, runSetup_eq, pipelineCalls, List.append_assoc]
  refine booked_bind ?_
  rw [foldlM_finRange_eq_booked (runReciprocal_eq sess my_dnf coins)]
  refine booked_bind ?_
  simp only [measure_gadget]
  exact booked_bind rfl

/-- **The instrumented Karp-Luby pipeline** does the same. -/
theorem runKarpLubyInstrumented_eq :
    runKarpLubyInstrumented net sess my_dnf coins =
      booked (bytes net) (runKarpLubyPipeline sess my_dnf coins)
        (pipelineCalls net CUBES K ["is_canonical_sample"] "karp_luby_estimate") := by
  rw [runKarpLubyInstrumented, runSetup_eq, pipelineCalls, List.append_assoc]
  refine booked_bind ?_
  rw [foldlM_finRange_eq_booked (runIndicator_eq sess my_dnf coins)]
  refine booked_bind ?_
  simp only [measure_gadget]
  exact booked_bind rfl

end Calls

/-! ## What the breakdown says -/

/-- The phases of a pipeline, in the order of their first use. -/
def phaseNames (own : List String) (estimate : String) : List String :=
  ["cube_input_feeding", "conjoin_dnf", "cube_weights", "dnf_weight", "cube_intervals",
    "trial_random_input_feeding", "sample_in_range", "select_cube_index", "cube_at_index",
    "random_assignment"] ++ own ++ [estimate, "reveal"]

/-- A breakdown accounts for what the counters have gone on by between two states. -/
structure Accounts (calls : List (Call String net.State)) (phases : List String) (s s' : net.State)
    (breakdown : PipelineBreakdown) : Prop where
  /-- There is one entry for each phase. -/
  names : names breakdown = phases
  nodup : phases.Nodup
  /-- The entries add up to all bytes sent and received. -/
  total : total breakdown = bytes net s' - bytes net s
  /-- Each shows the bytes of the calls of its name. -/
  amount : ∀ phase ∈ breakdown, phase.amount = usage (bytes net) phase.name calls s

variable {net}

/-- A program that books its calls accounts for them. -/
theorem accounts_of_booked {α : Type} {v : α} {calls : List (Call String net.State)}
    {program : Process net α} (hprogram : program = booked (bytes net) v calls)
    {phases : List String} (hphases : (calls.map Call.name).foldl note [] = phases) (s : net.State) :
    ∃ s' breakdown, program (s, none) = (v, s', none) ∧ program (s, some []) = (v, s', some breakdown) ∧
      Accounts net calls phases s s' breakdown := by
  subst hprogram
  obtain ⟨breakdown, hrun, hnames, htotal, hamount⟩ := run_some (bytes net) calls s []
  have hsame : (run (bytes net) calls (s, some [])).1 = (run (bytes net) calls (s, none)).1 := by
    rw [run_fst, run_fst]
  have hnodup : phases.Nodup := hphases ▸ nodup_foldl_note _ List.nodup_nil
  refine ⟨(run (bytes net) calls (s, none)).1, breakdown, ?_, ?_, ?_⟩
  · exact Prod.ext rfl (Prod.ext rfl (run_none (bytes net) calls s))
  · exact Prod.ext rfl (Prod.ext hsame hrun)
  · refine ⟨hnames.trans hphases, hnodup, ?_, fun phase hphase => ?_⟩
    · rw [htotal, hsame]
      exact zero_add _
    · rw [← amountOf_eq (hnames.trans hphases ▸ hnodup) hphase, hamount]
      exact zero_add _

/-- After the first trial no phase is new but the last two. -/
theorem foldl_note_pipelineCalls (CUBES : Nat) {K : Nat} (hK : 0 < K) (own : List String)
    (estimate : String) :
    ((pipelineCalls net CUBES K own estimate).map Call.name).foldl note [] =
      ((setupCalls net CUBES ++ trialCalls net own ++
        [estimate, "reveal"].map (gadgetCall net)).map Call.name).foldl note [] := by
  obtain ⟨k, rfl⟩ := Nat.exists_eq_add_one_of_ne_zero hK.ne'
  have hrest : ∀ ns : List String, (∀ m ∈ (trialCalls net own).map Call.name, m ∈ ns) →
      ((((List.finRange k).map Fin.succ).flatMap fun _ => trialCalls net own).map
        Call.name).foldl note ns = ns := by
    intro ns hns
    refine foldl_note_of_subset fun m hm => hns m ?_
    obtain ⟨c, hc, rfl⟩ := List.mem_map.mp hm
    obtain ⟨-, -, hc⟩ := List.mem_flatMap.mp hc
    exact List.mem_map_of_mem hc
  rw [pipelineCalls, List.finRange_succ, List.flatMap_cons]
  simp only [List.map_append, List.foldl_append]
  rw [hrest _ fun m hm => mem_foldl_note (Or.inr hm)]

/-- The phases come in the order of the source. -/
theorem foldl_note_vazirani (CUBES : Nat) :
    ((setupCalls net CUBES ++ trialCalls net ["count_satisfied_cubes", "divide_lookup"] ++
        ["vazirani_estimate", "reveal"].map (gadgetCall net)).map Call.name).foldl note [] =
      phaseNames ["count_satisfied_cubes", "divide_lookup"] "vazirani_estimate" := by
  simp [setupCalls, trialCalls, gadgetCall, phaseNames, note]

theorem foldl_note_karpLuby (CUBES : Nat) :
    ((setupCalls net CUBES ++ trialCalls net ["is_canonical_sample"] ++
        ["karp_luby_estimate", "reveal"].map (gadgetCall net)).map Call.name).foldl note [] =
      phaseNames ["is_canonical_sample"] "karp_luby_estimate" := by
  simp [setupCalls, trialCalls, gadgetCall, phaseNames, note]

/-- **The breakdown accounts for every byte.**  With a breakdown or without, both pipelines
reveal what they reveal without instrumentation and leave the connection in the same state;
the breakdown then has one entry for each phase, which shows the bytes of its calls, and
the entries add up to what the counters went on by during the run. -/
theorem pipelines_accounted (sess : SH2PCSession) {VARS CUBES K : Nat} [NeZero CUBES] (hK : 0 < K)
    (my_dnf : Party → Dnf VARS CUBES)
    (coins : Party → Fin K → TrialCoins (VARS + sess.ctx.bitsFor (CUBES * CUBES)) VARS)
    (s : net.State) :
    (∃ s' breakdown,
      runVaziraniInstrumented net sess my_dnf coins (s, none) =
          (runVaziraniPipeline sess my_dnf coins, s', none) ∧
        runVaziraniInstrumented net sess my_dnf coins (s, some []) =
          (runVaziraniPipeline sess my_dnf coins, s', some breakdown) ∧
        Accounts net
          (pipelineCalls net CUBES K ["count_satisfied_cubes", "divide_lookup"] "vazirani_estimate")
          (phaseNames ["count_satisfied_cubes", "divide_lookup"] "vazirani_estimate") s s' breakdown) ∧
    ∃ s' breakdown,
      runKarpLubyInstrumented net sess my_dnf coins (s, none) =
          (runKarpLubyPipeline sess my_dnf coins, s', none) ∧
        runKarpLubyInstrumented net sess my_dnf coins (s, some []) =
          (runKarpLubyPipeline sess my_dnf coins, s', some breakdown) ∧
        Accounts net (pipelineCalls net CUBES K ["is_canonical_sample"] "karp_luby_estimate")
          (phaseNames ["is_canonical_sample"] "karp_luby_estimate") s s' breakdown :=
  ⟨accounts_of_booked (runVaziraniInstrumented_eq sess my_dnf coins)
      ((foldl_note_pipelineCalls CUBES hK _ _).trans (foldl_note_vazirani CUBES)) s,
    accounts_of_booked (runKarpLubyInstrumented_eq sess my_dnf coins)
      ((foldl_note_pipelineCalls CUBES hK _ _).trans (foldl_note_karpLuby CUBES)) s⟩

/-- A connection on which every call sends one byte and receives two. -/
def toyNetwork : Network where
  State := BitVec 64
  io n := ⟨n, 2 * n, 0⟩
  sync n := n
  input _ n := n + 1
  gadget _ n := n + 1

/-- Three trials of the demo. -/
theorem pipelines_accounted_demo :
    ∃ s' breakdown,
      runKarpLubyInstrumented toyNetwork clearSession demoDnf (K := 3)
          (fun _ _ => ⟨fun _ => false, fun _ => false⟩) ((0 : BitVec 64), some []) =
        (runKarpLubyPipeline clearSession demoDnf (K := 3)
          (fun _ _ => ⟨fun _ => false, fun _ => false⟩), s', some breakdown) ∧
      total breakdown = bytes toyNetwork s' - bytes toyNetwork (0 : BitVec 64) := by
  obtain ⟨-, s', breakdown, -, hrun, haccounts⟩ := @pipelines_accounted toyNetwork clearSession _ _ 3 _
    (by decide) demoDnf (fun _ _ => ⟨fun _ => false, fun _ => false⟩) (0 : BitVec 64)
  exact ⟨s', breakdown, hrun, haccounts.total⟩

end MpcVazirani
