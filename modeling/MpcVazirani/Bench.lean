import MpcVazirani.CoinLaw
import MpcVazirani.ConstLog
import MpcVazirani.Instrumentation
import MpcVazirani.PepinCheck
import MpcVazirani.RandomDnf

/-! # The benchmarks

`run_one` of `bench/bench_common.h`, and the sweeps that `bench_vazirani.cpp` and
`bench_compare.cpp` make with it.  Both processes generate the same pair of formulas; one
of them asks the counter for the ground truth; the pipeline is run between two readings of
the counters; and what it has revealed is divided by what it is scaled by.  `run_one` only
knows a pipeline by its `Adapter`, and so do the results here: what they need of one is part
of a `LawfulAdapter`.

In a sweep over any sizes and pipelines every report answers for its point (`Answers`), the
two processes report the same estimates, and the reports account for every byte beside the
pings between the points (`sweep_spec`).  The number of trials and the estimates are computed
over the rationals.  Left out are the time it takes, the memory reports, and the layout of what
is printed.
-/
namespace MpcVazirani
open Finset IStream Ledger

/-- The interface of `run_one` to a pipeline. -/
structure Adapter (sess : SH2PCSession) where
  kName : String
  run : (net : Network) → {VARS CUBES K : Nat} → [NeZero CUBES] → (Party → Dnf VARS CUBES) →
    (Party → Fin K → TrialCoins (VARS + sess.ctx.bitsFor (CUBES * CUBES)) VARS) →
      Process net (BitVec 128)
  trials : Nat → Int → ℚ → ℚ → Option Int
  unscale : Int → BitVec 128 → Option ℚ

/-- An adapter for a pipeline that reveals `value` and makes the calls `calls`. -/
structure LawfulAdapter (sess : SH2PCSession) extends Adapter sess where
  value : {VARS CUBES K : Nat} → [NeZero CUBES] → (Party → Dnf VARS CUBES) →
    (Party → Fin K → TrialCoins (VARS + sess.ctx.bitsFor (CUBES * CUBES)) VARS) → BitVec 128
  calls : (net : Network) → (CUBES K : Nat) → List (Call String net.State)
  run_eq : ∀ (net : Network) {VARS CUBES K : Nat} [NeZero CUBES] (my_dnf : Party → Dnf VARS CUBES)
    (coins : Party → Fin K → TrialCoins (VARS + sess.ctx.bitsFor (CUBES * CUBES)) VARS),
      run net my_dnf coins = booked (bytes net) (value my_dnf coins) (calls net CUBES K)
  /-- Nothing common is revealed as zero. -/
  value_eq_zero : ∀ {VARS CUBES K : Nat} [NeZero CUBES] {my_dnf : Party → Dnf VARS CUBES}
    (coins : Party → Fin K → TrialCoins (VARS + sess.ctx.bitsFor (CUBES * CUBES)) VARS),
      commonModels my_dnf = ∅ → value my_dnf coins = 0
  trials_eq : trials = coverageTrials
  unscale_zero : ∀ K : Int, 1 ≤ K → K ≤ intMax → unscale K 0 = some 0

/-! ## The two adapters -/

section Adapters
variable (sess : SH2PCSession)

theorem run_eq_zero {VARS CUBES K : Nat} [NeZero CUBES] {my_dnf : Party → Dnf VARS CUBES}
    (coins : Party → Fin K → TrialCoins (VARS + sess.ctx.bitsFor (CUBES * CUBES)) VARS)
    (h : commonModels my_dnf = ∅) :
    runVaziraniPipeline sess my_dnf coins = 0 ∧ runKarpLubyPipeline sess my_dnf coins = 0 := by
  have hzero : sess.ctx.val (trialSetup sess my_dnf).total = 0 := by
    by_contra hne
    obtain ⟨x, hx⟩ := (val_trialSetup_total_pos_iff sess my_dnf).mp (Nat.pos_of_ne_zero hne)
    have hmem : x ∈ commonModels my_dnf :=
      mem_inter.mpr ⟨Dnf.mem_models.mpr hx.1, Dnf.mem_models.mpr hx.2⟩
    rw [h] at hmem
    exact absurd hmem (notMem_empty x)
  obtain ⟨hkarpLuby, hvazirani⟩ := result_of_total_zero sess coins hzero
  exact ⟨BitVec.eq_of_toNat_eq hvazirani, BitVec.eq_of_toNat_eq hkarpLuby⟩

theorem vaziraniUnscale_zero {K : Int} (hone : 1 ≤ K) (hmax : K ≤ intMax) :
    vaziraniUnscale K 0 = some 0 := by
  have hne : K * (kDivideLookupScale : Int) % 2 ^ 64 ≠ 0 := by
    have hscale : (kDivideLookupScale : Int) = 65536 := rfl
    rw [intMax] at hmax
    rw [hscale]
    omega
  rw [vaziraniUnscale, divide, if_neg (by exact_mod_cast hne)]
  simp

theorem karpLubyUnscale_zero {K : Int} (hone : 1 ≤ K) : karpLubyUnscale K 0 = some 0 := by
  have hne : K ≠ 0 := by omega
  rw [karpLubyUnscale, divide, if_neg (by exact_mod_cast hne)]
  simp

/-- `VaziraniAdapter`. -/
def vaziraniAdapter : LawfulAdapter sess where
  kName := "vazirani"
  run net _ _ _ _ my_dnf coins := runVaziraniInstrumented net sess my_dnf coins
  trials := vaziraniTrials
  unscale := vaziraniUnscale
  value my_dnf coins := runVaziraniPipeline sess my_dnf coins
  calls net CUBES K :=
    pipelineCalls net CUBES K ["count_satisfied_cubes", "divide_lookup"] "vazirani_estimate"
  run_eq _ _ _ _ _ my_dnf coins := runVaziraniInstrumented_eq sess my_dnf coins
  value_eq_zero coins h := (run_eq_zero sess coins h).1
  trials_eq := rfl
  unscale_zero _ := vaziraniUnscale_zero

/-- `KarpLubyAdapter`. -/
def karpLubyAdapter : LawfulAdapter sess where
  kName := "karp_luby"
  run net _ _ _ _ my_dnf coins := runKarpLubyInstrumented net sess my_dnf coins
  trials := karpLubyTrials
  unscale := karpLubyUnscale
  value my_dnf coins := runKarpLubyPipeline sess my_dnf coins
  calls net CUBES K := pipelineCalls net CUBES K ["is_canonical_sample"] "karp_luby_estimate"
  run_eq _ _ _ _ _ my_dnf coins := runKarpLubyInstrumented_eq sess my_dnf coins
  value_eq_zero coins h := (run_eq_zero sess coins h).2
  trials_eq := rfl
  unscale_zero _ hone _ := karpLubyUnscale_zero hone

end Adapters

/-! ## `run_one` -/

/-- What a benchmark passes to all its points. -/
structure Settings where
  R : RandomSource
  max_overlap : Int
  seed : UInt64
  epsilon : ℚ
  delta : ℚ

/-- A point of a sweep: `VARS` and `CUBES` are ints, and so is the number of pairs of cubes. -/
structure Point (sess : SH2PCSession) where
  adapter : LawfulAdapter sess
  VARS : Nat
  CUBES : Nat
  coins : (K : Nat) → Party → Fin K → TrialCoins (VARS + sess.ctx.bitsFor (CUBES * CUBES)) VARS
  [vars : NeZero VARS]
  [cubes : NeZero CUBES]
  vars_le : (VARS : Int) ≤ intMax
  product_le : ((CUBES * CUBES : Nat) : Int) ≤ intMax

attribute [instance] Point.vars Point.cubes

/-- What `run_one` prints of its point. -/
structure Report where
  name : String
  K : Int
  estimate : Option ℚ
  pepin_ground_truth : Option ℚ
  sent : BitVec 64
  recv : BitVec 64
  rounds : BitVec 64
  breakdown : PipelineBreakdown

/-- `(party == emp::ALICE) ? pair.alice : pair.bob`. -/
def DnfPair.my_dnf {VARS CUBES : Nat} (pair : DnfPair VARS CUBES) : Party → Dnf VARS CUBES
  | .alice => pair.alice
  | .bob => pair.bob

section RunOne
variable {sess : SH2PCSession} (cfg : Settings) (fuel : Nat) (net : Network) (host : Host)
  (party : Party)

/-- `bench::run_one`, with the default density. -/
def runOne (pt : Point sess) : StateT (net.State × HostState) Option Report := fun st => do
  let K ← pt.adapter.trials fuel pt.CUBES cfg.epsilon cfg.delta
  let pair : DnfPair pt.VARS pt.CUBES ←
    generateRandomDnfPair cfg.R fuel cfg.max_overlap cfg.seed (1 / 2)
  let truth :=
    if party = .alice then runPepinSanityCheck host pair.alice pair.bob st.2 else (none, st.2)
  let start := net.sync st.1
  let result := pt.adapter.run net pair.my_dnf (pt.coins K.toNat) (start, some [])
  let estimate := pt.adapter.unscale K result.1
  return ({
    name := pt.adapter.kName
    K := K
    estimate := estimate
    pepin_ground_truth := truth.1
    sent := (net.io result.2.1).send_counter - (net.io start).send_counter
    recv := (net.io result.2.1).recv_counter - (net.io start).recv_counter
    rounds := (net.io result.2.1).rounds - (net.io start).rounds
    breakdown := result.2.2.getD [] }, (result.2.1, truth.2))

/-- The calls of `run_one` that a benchmark makes, one after the other. -/
def sweep (pts : List (Point sess)) : StateT (net.State × HostState) Option (List Report) :=
  pts.mapM (runOne cfg fuel net host party)

/-- What a report answers for: it is about the generated pair, whose cubes are real and
without stale bits; the estimate is what the pipeline reveals of it, unscaled, and zero where
nothing is common and there are at least two cubes (with one there is no trial to divide by);
only Alice has a ground truth, which is within `tol` of the number of common assignments; and
the breakdown adds up to what was sent and received. -/
structure Answers (tol : ℚ) (pt : Point sess) (r : Report) : Prop where
  name : r.name = pt.adapter.kName
  trials : pt.adapter.trials fuel pt.CUBES cfg.epsilon cfg.delta = some r.K
  estimate : ∃ pair : DnfPair pt.VARS pt.CUBES,
    generateRandomDnfPair cfg.R fuel cfg.max_overlap cfg.seed (1 / 2) = some pair ∧
    (∀ p i, ((pair.my_dnf p).cubes i).Clean) ∧
    r.estimate = pt.adapter.unscale r.K (pt.adapter.value pair.my_dnf (pt.coins r.K.toNat)) ∧
    (2 ≤ pt.CUBES → commonModels pair.my_dnf = ∅ → r.estimate = some 0) ∧
    ∀ v, r.pepin_ground_truth = some v → party = .alice ∧
      |v - #(commonModels pair.my_dnf)| ≤ tol * #(commonModels pair.my_dnf)
  accounted : total r.breakdown = (r.sent, r.recv)

end RunOne

/-- The generator returns real cubes without stale bits, for any fuel of two passes. -/
theorem generateRandomDnfPair_clean {VARS CUBES : Nat} (R : RandomSource) {fuel : Nat} (hfuel : 2 ≤ fuel)
    (max_overlap : Int) (seed : UInt64) (density : ℚ) :
    ∃ pair : DnfPair VARS CUBES, generateRandomDnfPair R fuel max_overlap seed density = some pair ∧
      ∀ p i, ((pair.my_dnf p).cubes i).Clean := by
  obtain ⟨bob, hbob, hcubes⟩ := randomBobFrom_spec (randomAlice R (R.seeded seed) density).2 density
    (randomAlice R (R.seeded seed) density : Dnf VARS CUBES × R.Engine).1
    (clamp_nonneg max_overlap VARS) CUBES (Nat.le_refl CUBES)
  refine ⟨⟨(randomAlice R (R.seeded seed) density).1, bob.1⟩, ?_, fun p i => ?_⟩
  · rw [generateRandomDnfPair, hbob fuel hfuel, Option.map_some]
  · cases p
    · exact randomAlice_clean _ _ i
    · exact (hcubes i i.isLt).1

theorem Cube.Clean.wellFormed {VARS : Nat} {c : Cube VARS} (h : c.Clean) : c.WellFormed :=
  ⟨fun hpad => absurd hpad (by rw [h.real]; decide), fun _ => h.bits⟩

/-- What `run_one` takes for the truth, in either process. -/
theorem truth_spec {VARS CUBES : Nat} [NeZero VARS] {host : Host} {tol : ℚ}
    (hcounter : CountsWithin host VARS tol) (hV : (VARS : Int) ≤ intMax)
    (hC : ((CUBES * CUBES : Nat) : Int) ≤ intMax) {pair : DnfPair VARS CUBES}
    (hwf : pair.bob.WellFormed) (party : Party) (st : HostState) :
    let truth := if party = .alice then runPepinSanityCheck host pair.alice pair.bob st else (none, st)
    truth.2.files = st.files ∧ (party = .bob → truth.2 = st) ∧
      ∀ v, truth.1 = some v → party = .alice ∧
        |v - #(commonModels pair.my_dnf)| ≤ tol * #(commonModels pair.my_dnf) := by
  cases party with
  | alice =>
    have hchecks : ChecksTruth host pair.alice pair.bob st _ _ :=
      checksTruth hV hC hcounter.null hwf st
    refine ⟨hchecks.files, fun h => ?_, fun v hv => ⟨rfl, hchecks.accurate hcounter hv⟩⟩
    cases h
  | bob =>
    refine ⟨rfl, fun _ => rfl, fun v hv => ?_⟩
    cases hv

/-- What an adapter's pipeline does to the connection from where the parties have met. -/
theorem LawfulAdapter.run_spec {sess : SH2PCSession} (adapter : LawfulAdapter sess) (net : Network)
    {VARS CUBES K : Nat} [NeZero CUBES] (my_dnf : Party → Dnf VARS CUBES)
    (coins : Party → Fin K → TrialCoins (VARS + sess.ctx.bitsFor (CUBES * CUBES)) VARS)
    (start : net.State) :
    ∃ conn breakdown, adapter.run net my_dnf coins (start, some []) =
        (adapter.value my_dnf coins, conn, some breakdown) ∧
      total breakdown = bytes net conn - bytes net start := by
  obtain ⟨breakdown, hbooked, -, htotal, -⟩ := run_some (bytes net) (adapter.calls net CUBES K) start []
  refine ⟨_, breakdown, ?_, htotal.trans (zero_add _)⟩
  rw [adapter.run_eq]
  exact Prod.ext rfl (Prod.ext rfl hbooked)

section Sweep
variable {sess : SH2PCSession} {cfg : Settings} {fuel : Nat} {net : Network} {host : Host}
  {party : Party} (hfuel : 2 ≤ fuel) (hε : 0 < cfg.epsilon) (hδ : 0 < cfg.delta) (hδ1 : cfg.delta < 1)
  {tol : ℚ}
include hfuel hε hδ hδ1

/-- **One point.**  Whatever the state, it reports and answers for its report, leaves the
files as they are, and sends and receives what it reports beside its ping. -/
theorem runOne_spec {pt : Point sess} (hcounter : CountsWithin host pt.VARS tol)
    (htrials : ∃ K, pt.adapter.trials fuel pt.CUBES cfg.epsilon cfg.delta = some K)
    (st : net.State × HostState) :
    ∃ r st', runOne cfg fuel net host party pt st = some (r, st') ∧
      Answers cfg fuel party tol pt r ∧ st'.2.files = st.2.files ∧ (party = .bob → st'.2 = st.2) ∧
      bytes net st'.1 = bytes net (net.sync st.1) + (r.sent, r.recv) := by
  obtain ⟨K, hK⟩ := htrials
  obtain ⟨pair, hpair, hclean⟩ := @generateRandomDnfPair_clean pt.VARS pt.CUBES cfg.R _ hfuel
    cfg.max_overlap cfg.seed (1 / 2)
  have hwf : pair.bob.WellFormed := fun i => (hclean .bob i).wellFormed
  obtain ⟨truth, htruth⟩ : ∃ truth, truth =
      if party = .alice then runPepinSanityCheck host pair.alice pair.bob st.2 else (none, st.2) :=
    ⟨_, rfl⟩
  obtain ⟨hfiles, hbob, hwithin⟩ := truth_spec hcounter pt.vars_le pt.product_le hwf party st.2
  rw [← htruth] at hfiles hbob hwithin
  obtain ⟨conn, breakdown, hrun, htotal⟩ := pt.adapter.run_spec net pair.my_dnf (pt.coins K.toNat)
    (net.sync st.1)
  have hbytes : bytes net conn - bytes net (net.sync st.1) =
      ((net.io conn).send_counter - (net.io (net.sync st.1)).send_counter,
        (net.io conn).recv_counter - (net.io (net.sync st.1)).recv_counter) := rfl
  refine ⟨{
    name := pt.adapter.kName
    K := K
    estimate := pt.adapter.unscale K (pt.adapter.value pair.my_dnf (pt.coins K.toNat))
    pepin_ground_truth := truth.1
    sent := (net.io conn).send_counter - (net.io (net.sync st.1)).send_counter
    recv := (net.io conn).recv_counter - (net.io (net.sync st.1)).recv_counter
    rounds := (net.io conn).rounds - (net.io (net.sync st.1)).rounds
    breakdown := breakdown }, (conn, truth.2), ?_,
    ⟨rfl, hK, ⟨pair, hpair, hclean, rfl, fun hcubes hcommon => ?_, hwithin⟩, ?_⟩, hfiles, hbob, ?_⟩
  · simp only [runOne, hK, hpair, Option.bind_eq_bind, Option.bind_some, hrun]
    rw [← htruth]
    rfl
  · rw [pt.adapter.trials_eq] at hK
    obtain ⟨hone, hmax⟩ := trials_bounds hε hδ hδ1 (by exact_mod_cast hcubes) hK
    rw [pt.adapter.value_eq_zero _ hcommon]
    exact pt.adapter.unscale_zero K hone hmax
  · rw [← hbytes, htotal]
  · rw [← hbytes]
    exact (add_sub_cancel _ _).symm

/-- **All points**, by induction: what one leaves behind the next one starts from. -/
theorem sweep_run {pts : List (Point sess)} (hcounter : ∀ pt ∈ pts, CountsWithin host pt.VARS tol)
    (htrials : ∀ pt ∈ pts, ∃ K, pt.adapter.trials fuel pt.CUBES cfg.epsilon cfg.delta = some K)
    {ping : BitVec 64 × BitVec 64} (hping : ∀ s, bytes net (net.sync s) = bytes net s + ping)
    (st : net.State × HostState) :
    ∃ reports st', sweep cfg fuel net host party pts st = some (reports, st') ∧
      List.Forall₂ (Answers cfg fuel party tol) pts reports ∧ st'.2.files = st.2.files ∧
      (party = .bob → st'.2 = st.2) ∧
      bytes net st'.1 = bytes net st.1 + (reports.map fun r => (r.sent, r.recv)).sum +
        pts.length • ping := by
  induction pts generalizing st with
  | nil => exact ⟨[], st, rfl, .nil, rfl, fun _ => rfl, by simp⟩
  | cons pt pts ih =>
    obtain ⟨hcounter₁, hcounter⟩ := List.forall_mem_cons.mp hcounter
    obtain ⟨htrials₁, htrials⟩ := List.forall_mem_cons.mp htrials
    obtain ⟨r, st₁, hrun, hanswers, hfiles, hbob, hbytes⟩ := runOne_spec hfuel hε hδ hδ1
      hcounter₁ htrials₁ st
    obtain ⟨reports, st₂, hruns, hall, hfiles₂, hbob₂, hbytes₂⟩ := ih hcounter htrials st₁
    refine ⟨r :: reports, st₂, ?_, .cons hanswers hall, hfiles₂.trans hfiles,
      fun hparty => (hbob₂ hparty).trans (hbob hparty), ?_⟩
    · rw [sweep] at hruns ⊢
      rw [List.mapM_cons]
      change (runOne cfg fuel net host party pt st).bind _ = _
      rw [hrun]
      change (List.mapM (runOne cfg fuel net host party) pts st₁).bind _ = _
      rw [hruns]
      rfl
    · rw [hbytes₂, hbytes, hping, List.map_cons, List.sum_cons, List.length_cons, succ_nsmul]
      abel

end Sweep

/-- The reports of the two processes agree. -/
theorem Answers.agree {sess : SH2PCSession} {cfg : Settings} {fuel : Nat} {p q : Party} {tol tol' : ℚ}
    {pt : Point sess} {r r' : Report} (h : Answers cfg fuel p tol pt r)
    (h' : Answers cfg fuel q tol' pt r') : r.name = r'.name ∧ r.K = r'.K ∧ r.estimate = r'.estimate := by
  obtain ⟨pair, hpair, -, hestimate, -⟩ := h.estimate
  obtain ⟨pair', hpair', -, hestimate', -⟩ := h'.estimate
  obtain rfl : pair = pair' := Option.some.inj (hpair.symm.trans hpair')
  have hK : r.K = r'.K := Option.some.inj (h.trials.symm.trans h'.trials)
  refine ⟨h.name.trans h'.name.symm, hK, ?_⟩
  rw [hestimate, hestimate', hK]

theorem answers_agree {sess : SH2PCSession} {cfg : Settings} {fuel : Nat} {p q : Party}
    {tol tol' : ℚ} {pts : List (Point sess)} {rs rs' : List Report}
    (h : List.Forall₂ (Answers cfg fuel p tol) pts rs)
    (h' : List.Forall₂ (Answers cfg fuel q tol') pts rs') :
    List.Forall₂ (fun r r' => r.name = r'.name ∧ r.K = r'.K ∧ r.estimate = r'.estimate) rs rs' := by
  induction h generalizing rs' with
  | nil =>
    cases h'
    exact .nil
  | cons hr _ ih =>
    cases h' with
    | cons hr' h' => exact .cons (hr.agree hr') (ih h')

/-- **A sweep of both processes**, each over its own connection and on its own host.  For any
points, pipelines and sizes, both come to their end and report the same estimates; every
report answers for its point; each connection has gone on by what the reports say and one ping
for each point; and no file is left behind, on Bob's host nothing is done at all. -/
theorem sweep_spec {sess : SH2PCSession} {cfg : Settings} {fuel : Nat} (hfuel : 2 ≤ fuel)
    (hε : 0 < cfg.epsilon) (hδ : 0 < cfg.delta) (hδ1 : cfg.delta < 1) {net : Party → Network}
    {host : Party → Host} {tol : ℚ} {pts : List (Point sess)}
    (hcounter : ∀ p, ∀ pt ∈ pts, CountsWithin (host p) pt.VARS tol)
    (htrials : ∀ pt ∈ pts, ∃ K, pt.adapter.trials fuel pt.CUBES cfg.epsilon cfg.delta = some K)
    {ping : BitVec 64 × BitVec 64}
    (hping : ∀ p s, bytes (net p) ((net p).sync s) = bytes (net p) s + ping)
    (st : (p : Party) → (net p).State × HostState) :
    ∃ (reports : Party → List Report) (st' : (p : Party) → (net p).State × HostState),
      (∀ p, sweep cfg fuel (net p) (host p) p pts (st p) = some (reports p, st' p) ∧
        List.Forall₂ (Answers cfg fuel p tol) pts (reports p) ∧ (st' p).2.files = (st p).2.files ∧
        bytes (net p) (st' p).1 = bytes (net p) (st p).1 +
          ((reports p).map fun r => (r.sent, r.recv)).sum + pts.length • ping) ∧
      (st' .bob).2 = (st .bob).2 ∧
      List.Forall₂ (fun r r' => r.name = r'.name ∧ r.K = r'.K ∧ r.estimate = r'.estimate)
        (reports .alice) (reports .bob) := by
  have hrun := fun p => @sweep_run sess cfg fuel (net p) (host p) p hfuel hε hδ hδ1 tol pts (hcounter p)
    htrials ping (hping p) (st p)
  choose reports st' hsweep hanswers hfiles hbob hbytes using hrun
  exact ⟨reports, st', fun p => ⟨hsweep p, hanswers p, hfiles p, hbytes p⟩, hbob .bob rfl,
    answers_agree (hanswers .alice) (hanswers .bob)⟩

theorem toyPoint_fits : ((4 : Nat) : Int) ≤ intMax ∧ ((2 * 2 : Nat) : Int) ≤ intMax := by decide

/-- A point with all coins zero. -/
def toyPoint (adapter : LawfulAdapter clearSession) : Point clearSession where
  adapter := adapter
  VARS := 4
  CUBES := 2
  coins _ _ _ := ⟨fun _ => false, fun _ => false⟩
  vars := ⟨Nat.succ_ne_zero 3⟩
  cubes := ⟨Nat.succ_ne_zero 1⟩
  vars_le := toyPoint_fits.1
  product_le := toyPoint_fits.2

/-- What `bench_compare.cpp` sets, for a source of its own. -/
def toySettings : Settings := ⟨alternatingSource, 4, 42, 4 / 5, 1 / 5⟩

/-- `bench_compare` at one size, over a connection on which a ping costs nothing. -/
theorem sweep_spec_compare :
    ∃ fuel reports st', sweep toySettings fuel toyNetwork exactHost .alice
        [toyPoint (vaziraniAdapter clearSession), toyPoint (karpLubyAdapter clearSession)]
        ((0 : BitVec 64), ⟨fun _ => none, []⟩) = some (reports, st') ∧
      st'.2.files = fun _ => none := by
  obtain ⟨fuel₀, K, hK⟩ : ∃ (fuel₀ : Nat) (K : Int), ∀ fuel, fuel₀ ≤ fuel →
      coverageTrials fuel 2 (4 / 5) (1 / 5) = some K :=
    exists_coverageTrials_of_le (by decide) (by norm_num) (by norm_num) (by norm_num)
  have htrials := hK (fuel₀ + 2) (Nat.le_add_right _ _)
  obtain ⟨reports, st', hall, -⟩ := @sweep_spec clearSession toySettings (fuel₀ + 2)
    (Nat.le_add_left _ _) (by norm_num [toySettings]) (by norm_num [toySettings])
    (by norm_num [toySettings]) (fun _ => toyNetwork) (fun _ => exactHost) 0
    [toyPoint (vaziraniAdapter clearSession), toyPoint (karpLubyAdapter clearSession)]
    (fun _ => List.forall_mem_cons.mpr
      ⟨exactHost_countsWithin, List.forall_mem_singleton.mpr exactHost_countsWithin⟩)
    (List.forall_mem_cons.mpr ⟨⟨K, htrials⟩, List.forall_mem_singleton.mpr ⟨K, htrials⟩⟩) 0
    (fun _ s => (add_zero _).symm) fun _ => ((0 : BitVec 64), ⟨fun _ => none, []⟩)
  exact ⟨fuel₀ + 2, reports .alice, st' .alice, (hall .alice).1, (hall .alice).2.2.1⟩

end MpcVazirani
