import MetaCG.Pgis.StatisticsEstimator

/-! The cut-off values of `StatisticsEstimatorPhase` (`IPCGEstimatorPhase.cpp`).

The phase that counts for the selected heuristic is a local object, and its counts reach no histogram. Only the cut-off of the
statements comes from the graph. -/
namespace MetaCG.Pgis
open Foundations Analysis
set_option autoImplicit false
set_option maxHeartbeats 250000
set_option maxRecDepth 120000

/-! ## What the heuristics count -/

/-- The greatest number of conditional branches of a function. -/
def greatestBranches (g : Callgraph) (st : HeuristicStore) : ℤ :=
  (List.range g.nodes.length).foldl (fun m n => max m ((st n).numConditionalBranches.getD 0)) 0

/-- The count of a function; metadata that is missing counts nothing. -/
noncomputable def heuristicCount (g : Callgraph) (md : MetaStore) (st : HeuristicStore) : HeuristicSelection → ℕ → ℤ
  | .statements, n => ∑ x ∈ reachableNodes g n, (md x).piraOne.numStmts
  | .conditionalBranches, n => ∑ x ∈ reachableNodes g n, (st x).numConditionalBranches.getD 0
  | .conditionalBranchesReverse, n =>
    ∑ x ∈ reachableNodes g n, (greatestBranches g st - (st x).numConditionalBranches.getD 0)
  | .fpMemOps, n => ∑ x ∈ reachableNodes g n,
    ((st x).numOperations.map fun md => md.numberOfFloatOps + md.numberOfMemoryAccesses).getD 0
  | .loopDepth, n => (st n).loopDepth.getD 0
  | .globalLoopDepth, n => (st n).globalLoopDepth.getD 0

/-- The counts of all functions that are reachable from main. -/
noncomputable def heuristicCounts (g : Callgraph) (md : MetaStore) (st : HeuristicStore) (main : ℕ)
    (heuristic : HeuristicSelection) : Multiset ℤ :=
  (reachableNodes g main).val.map (heuristicCount g md st heuristic)

section
variable {order : List ℕ → List ℕ} {g : Callgraph} {main n : ℕ} {st : HeuristicStore} {md md' : MetaStore}

theorem maxConditionalBranches_loop (hlive : ∀ i < g.nodes.length, g.hasNode i = true) :
    (List.range g.nodes.length).foldlM (maxConditionalBranches st g) 0 = .ok (greatestBranches g st) := by
  have hloop := foldlM_total (f := maxConditionalBranches st g) (l := List.range g.nodes.length) (s := 0)
    (J := fun pre m => 0 ≤ m ∧ m = pre.foldl (fun m n => max m ((st n).numConditionalBranches.getD 0)) 0) ⟨le_rfl, rfl⟩ ?_
  · obtain ⟨m, hm, -, rfl⟩ := hloop
    exact hm
  rintro pre n m hpre ⟨hm, rfl⟩
  obtain ⟨node, hnode⟩ := deref_ok (hlive n (List.mem_range.mp (hpre.subset (List.mem_append_right _ (List.mem_singleton_self n)))))
  rw [List.foldl_concat]
  unfold maxConditionalBranches
  rw [hnode]
  cases (st n).numConditionalBranches with
  | none => exact ⟨_, rfl, hm, by simp [hm]⟩
  | some k => exact ⟨_, rfl, hm.trans (le_max_left ..), rfl⟩

/-- The phase of a heuristic computes its counts. -/
theorem selectedPhase_spec (md : MetaStore) (hlive : ∀ i < g.nodes.length, g.hasNode i = true) {heuristic : HeuristicSelection}
    {phase : SummingCountPhaseBase} (hphase : StatisticsEstimatorPhase.selectedPhase st heuristic = some phase) :
    phase.pSEP = none ∧ ∃ maxBranches, phase.runInitialization g = .ok maxBranches ∧
      countOf g phase.inclusive (phase.getTargetCount maxBranches) = heuristicCount g md st heuristic := by
  cases heuristic with
  | statements => cases hphase
  | conditionalBranches =>
    cases hphase
    exact ⟨rfl, 0, rfl, rfl⟩
  | conditionalBranchesReverse =>
    cases hphase
    refine ⟨rfl, greatestBranches g st, maxConditionalBranches_loop hlive, ?_⟩
    have htarget : (ConditionalBranchesReverseEstimatorPhase st SummingCountPhaseBase.limitThreshold none).getTargetCount
        (greatestBranches g st) = fun x => greatestBranches g st - (st x).numConditionalBranches.getD 0 := by
      funext x
      cases hx : (st x).numConditionalBranches with
      | none => simp [ConditionalBranchesReverseEstimatorPhase, hx]
      | some k => simp [ConditionalBranchesReverseEstimatorPhase, hx]
    rw [htarget]
    rfl
  | fpMemOps =>
    cases hphase
    refine ⟨rfl, 0, rfl, ?_⟩
    have htarget : (FPAndMemOpsEstimatorPhase st SummingCountPhaseBase.limitThreshold none).getTargetCount 0 =
        fun x => ((st x).numOperations.map fun md => md.numberOfFloatOps + md.numberOfMemoryAccesses).getD 0 := by
      funext x
      cases hx : (st x).numOperations with
      | none => simp [FPAndMemOpsEstimatorPhase, hx]
      | some k => simp [FPAndMemOpsEstimatorPhase, hx]
    rw [htarget]
    rfl
  | loopDepth =>
    cases hphase
    exact ⟨rfl, 0, rfl, rfl⟩
  | globalLoopDepth =>
    cases hphase
    exact ⟨rfl, 0, rfl, rfl⟩

/-- The phase of a heuristic stores the counts of the reachable functions. -/
theorem selectedPhase_counts (h : g.Wf) (hord : ∀ l, (order l).Perm l) (hmain : MainInv g main (.create g))
    (hmainLive : g.hasNode main = true) (hlive : ∀ i < g.nodes.length, g.hasNode i = true)
    {heuristic : HeuristicSelection} {phase : SummingCountPhaseBase}
    (hphase : StatisticsEstimatorPhase.selectedPhase st heuristic = some phase) (cuttoffMode : CuttoffSelection) :
    (∀ r, phase.modifyGraph order cuttoffMode g st md = .ok r →
      Stored (heuristicCount g md st heuristic) md (reachableList g main) (r.1.counts, r.2)) ∧
    ((∃ r, phase.modifyGraph order cuttoffMode g st md = .ok r) ↔ BodylessProfiled g md main) := by
  obtain ⟨hpSEP, maxBranches, hinit, hcount⟩ := selectedPhase_spec md hlive hphase
  obtain ⟨hok, hreturns⟩ := SummingCountPhaseBase.modifyGraph_spec st md h hord hmain hmainLive hpSEP cuttoffMode hinit
  rw [hcount] at hok
  exact ⟨hok, hreturns.trans (and_iff_right hlive)⟩

theorem runSelected_returns (st : HeuristicStore) (md : MetaStore) (h : g.Wf) (hord : ∀ l, (order l).Perm l)
    (hmain : MainInv g main (.create g)) (hmainLive : g.hasNode main = true) (hlive : ∀ i < g.nodes.length, g.hasNode i = true) (config : StatisticsConfig) :
    (∃ md', StatisticsEstimatorPhase.runSelected order config g st md = .ok md') ↔
      (config.heuristicSelection ≠ .statements → BodylessProfiled g md main) := by
  unfold StatisticsEstimatorPhase.runSelected
  cases hphase : StatisticsEstimatorPhase.selectedPhase st config.heuristicSelection with
  | none =>
    have hstatements : config.heuristicSelection = .statements := by
      cases hsel : config.heuristicSelection with
      | statements => rfl
      | _ => rw [hsel] at hphase; cases hphase
    exact ⟨fun _ hne => absurd hstatements hne, fun _ => ⟨_, rfl⟩⟩
  | some phase =>
    have hne : config.heuristicSelection ≠ .statements := by
      intro hsel
      rw [hsel] at hphase
      cases hphase
    rw [forall_prop_of_true hne,
      ← (selectedPhase_counts h hord hmain hmainLive hlive hphase config.cuttoffSelection).2]
    refine ⟨fun ⟨md', hrun⟩ => ?_, fun ⟨r, hr⟩ => ⟨r.2, bind_eq_ok.mpr ⟨r, hr, rfl⟩⟩⟩
    obtain ⟨r, hr, -⟩ := bind_eq_ok.mp hrun
    exact ⟨r, hr⟩

/-! ## The histograms -/

/-- The statistics after the functions of `l`: only the statements are counted. -/
structure StatementsOnly (f : ℕ → ℤ) (l : List ℕ) (phase : StatisticsEstimatorPhase) : Prop where
  stmtInclHist : Histogram.Counts phase.stmtInclHist (l.map f : Multiset ℤ)
  conditionalBranches : phase.conditionalBranchesInclHist = .empty
  reverseConditionalBranches : phase.reverseConditionalBranchesInclHist = .empty
  roofline : phase.rooflineInclHist = .empty
  loopDepth : phase.loopDepthInclHist = .empty
  globalLoopDepth : phase.globalLoopDepthInclHist = .empty

theorem StatementsOnly.collect {f : ℕ → ℤ} {pre : List ℕ} {phase : StatisticsEstimatorPhase} (h : StatementsOnly f pre phase)
    {sce : StatementCountEstimatorPhase} (hcount : sce.getNumStatements n = f n) (ra : ReachabilityAnalysis) {r}
    (hr : StatisticsEstimatorPhase.collect st md sce ra phase n = .ok r) : r.1 = ra ∧ StatementsOnly f (pre ++ [n]) r.2 := by
  cases hr
  refine ⟨rfl, ?_, h.conditionalBranches, h.reverseConditionalBranches, h.roofline, h.loopDepth, h.globalLoopDepth⟩
  have hmulti : ((pre ++ [n]).map f : Multiset ℤ) = f n ::ₘ (pre.map f : Multiset ℤ) := by
    rw [List.map_append, List.map_singleton]
    exact Multiset.coe_eq_coe.mpr (List.perm_append_singleton ..)
  rw [hmulti, ← hcount]
  exact h.stmtInclHist.count _

/-- After the phase the histogram of the statements is filled and the others are empty. -/
theorem modifyGraph_statementsOnly (h : g.Wf) (hord : ∀ l, (order l).Perm l) (hmain : MainInv g main (.create g))
    (hmainLive : g.hasNode main = true) (config : StatisticsConfig) {phase : StatisticsEstimatorPhase}
    (hrun : StatisticsEstimatorPhase.create.modifyGraph order config g st md = .ok (phase, md')) :
    StatementsOnly (heuristicCount g md st .statements) (reachableList g main) phase := by
  obtain ⟨⟨sce, md₁⟩, hsce, hrun⟩ := bind_eq_ok.mp hrun
  obtain ⟨md₂, -, hrun⟩ := bind_eq_ok.mp hrun
  obtain ⟨phase', hloop, hret⟩ := bind_eq_ok.mp hrun
  cases hret
  have hstored := (StatementCountEstimatorPhase.modifyGraph_spec st md h hord hmain hmainLive config 999999999).1 _ hsce
  refine forReachable_inv hord hmain (J := StatementsOnly (heuristicCount g md st .statements))
    ⟨.empty, rfl, rfl, rfl, rfl, rfl⟩ (fun pre n ra t r hra hlive hreach ht hround => ?_) hloop
  have hcount : sce.getNumStatements n = heuristicCount g md st .statements n := by
    have hlookup := hstored.1 n ((mem_reachableList h hmainLive).mpr hreach)
    unfold StatementCountEstimatorPhase.getNumStatements UMap.getD
    rw [hlookup]
    rfl
  obtain ⟨hra', ht'⟩ := ht.collect hcount ra hround
  exact ⟨hra'.symm ▸ hra, ht'⟩

/-- What the phase dereferences is there. The profile data of functions without a body is read by the phases of the heuristics,
and by that of the statements if call sites are instrumented. -/
def Readable (g : Callgraph) (config : StatisticsConfig) (md : MetaStore) (main : ℕ) : Prop :=
  (∀ i < g.nodes.length, g.hasNode i = true) ∧
    (config.useCallSiteInstrumentation = true ∨ config.heuristicSelection ≠ .statements → BodylessProfiled g md main)

theorem modifyGraph_returns (st : HeuristicStore) (md : MetaStore) (h : g.Wf) (hord : ∀ l, (order l).Perm l)
    (hmain : MainInv g main (.create g)) (hmainLive : g.hasNode main = true) (config : StatisticsConfig) :
    (∃ r, StatisticsEstimatorPhase.create.modifyGraph order config g st md = .ok r) ↔ Readable g config md main := by
  obtain ⟨hstored, hreturns⟩ := StatementCountEstimatorPhase.modifyGraph_spec st md h hord hmain hmainLive config 999999999
  constructor
  · rintro ⟨r, hrun⟩
    obtain ⟨⟨sce, md₁⟩, hsce, hrun⟩ := bind_eq_ok.mp hrun
    obtain ⟨md₂, hselected, -⟩ := bind_eq_ok.mp hrun
    obtain ⟨hlive, hsites⟩ := hreturns.mp ⟨_, hsce⟩
    have hheuristic := (runSelected_returns st md₁ h hord hmain hmainLive hlive config).mp ⟨md₂, hselected⟩
    rw [BodylessProfiled.congr (hstored _ hsce).2] at hheuristic
    exact ⟨hlive, fun hneeds => hneeds.elim hsites hheuristic⟩
  · rintro ⟨hlive, hprofiled⟩
    obtain ⟨⟨sce, md₁⟩, hsce⟩ := hreturns.mpr ⟨hlive, fun hsites => hprofiled (.inl hsites)⟩
    obtain ⟨md₂, hselected⟩ := (runSelected_returns st md₁ h hord hmain hmainLive hlive config).mpr fun hne =>
      (BodylessProfiled.congr (hstored _ hsce).2).mpr (hprofiled (.inr hne))
    obtain ⟨phase, hloop, -⟩ := forReachable_total (StatisticsEstimatorPhase.collect st md₂ sce) hord hmain hlive
      (s := { StatisticsEstimatorPhase.create with numFunctions := g.nodes.length }) (J := fun _ => True) trivial
      fun n ra t hra _ _ _ => ⟨_, rfl, hra, trivial⟩
    refine ⟨(phase, md₂), bind_eq_ok.mpr ⟨_, hsce, ?_⟩⟩
    exact bind_eq_ok.mpr ⟨_, hselected, bind_eq_ok.mpr ⟨_, hloop, rfl⟩⟩

end

/-! ## The statistics of the counts -/

/-- `v` is half the maximum of the counts, their median or the median of the different ones. -/
def IsStatistic : CuttoffSelection → Multiset ℤ → ℤ → Prop
  | .max, s, v => ∃ m ∈ s, (∀ x ∈ s, x ≤ m) ∧ v = m / 2
  | .median, s, v => Histogram.AtRank s (s.card / 2) v
  | .uniqueMedian, s, v => Histogram.AtRank s.dedup (s.dedup.card / 2) v

/-- Half of the greatest count rounds to zero, or zero stands in the middle of the sorted counts. -/
def CutsNothing : CuttoffSelection → Multiset ℤ → Prop
  | .max, s => ∃ m ∈ s, (∀ x ∈ s, x ≤ m) ∧ (m = 0 ∨ m = 1)
  | .median, s => s.countP (· < 0) ≤ s.card / 2 ∧ s.card / 2 < s.countP (· ≤ 0)
  | .uniqueMedian, s => s.dedup.countP (· < 0) ≤ s.dedup.card / 2 ∧ s.dedup.card / 2 < s.dedup.countP (· ≤ 0)

theorem isStatistic_zero_iff (cuttoffMode : CuttoffSelection) (s : Multiset ℤ) :
    IsStatistic cuttoffMode s 0 ↔ CutsNothing cuttoffMode s := by
  cases cuttoffMode with
  | max =>
    have hhalf : ∀ m : ℤ, 0 = m / 2 ↔ m = 0 ∨ m = 1 := fun m => by omega
    simp only [IsStatistic, CutsNothing, hhalf]
  | median => exact Iff.rfl
  | uniqueMedian => exact Iff.rfl

theorem nthElement_atRank {l : List ℤ} {s : Multiset ℤ} (hl : (l : Multiset ℤ) = s) (hs : s ≠ 0) :
    ∃ v, nthElement l (l.length / 2) = .ok v ∧ Histogram.AtRank s (s.card / 2) v := by
  have hperm : ((l.insertionSort (· ≤ ·) : List ℤ) : Multiset ℤ) = s :=
    (Multiset.coe_eq_coe.mpr (List.perm_insertionSort ..)).trans hl
  have hcard : s.card = l.length := by rw [← hl, Multiset.coe_card]
  have hpos : 0 < s.card := Multiset.card_pos.mpr hs
  have hlt : l.length / 2 < (l.insertionSort (· ≤ ·)).length := by
    rw [List.length_insertionSort]
    omega
  have hv := List.getElem?_eq_getElem hlt
  have hrank := Histogram.atRank_of_sorted (List.pairwise_insertionSort (· ≤ ·) l) hv
  rw [hperm] at hrank
  rw [hcard]
  refine ⟨_, ?_, hrank⟩
  unfold nthElement
  rw [hv]

/-- The cut-off value of a histogram is the statistic of what it counts. -/
theorem getCuttoffValue_spec (cuttoffMode : CuttoffSelection) {hist : OMap ℤ ℤ} {s : Multiset ℤ} (h : Histogram.Counts hist s)
    (hs : s ≠ 0) : ∃ v, getCuttoffValue cuttoffMode hist = .ok v ∧ IsStatistic cuttoffMode s v := by
  obtain ⟨x, hx⟩ := Multiset.exists_mem_of_ne_zero hs
  have hne : hist.entries.isEmpty = false := by
    have hfind : hist.find x = some (s.count x : ℤ) := (h x).trans (if_pos hx)
    exact List.isEmpty_eq_false_iff_exists_mem.mpr ⟨_, OMap.mem_entries.mpr hfind⟩
  unfold getCuttoffValue
  rw [hne, if_neg Bool.false_ne_true]
  cases cuttoffMode with
  | max =>
    have hx : x ∈ Histogram.elements hist := by rwa [← Multiset.mem_coe, h.elements]
    obtain ⟨m, hm⟩ := Option.isSome_iff_exists.mp (List.isSome_max?_of_mem hx)
    obtain ⟨hmem, hmax⟩ := List.max?_eq_some_iff.mp hm
    refine ⟨m / 2, ?_, m, ?_, fun y hy => hmax y ?_, rfl⟩
    · simp only [getHalfMaxFromHist, hm, Int.shiftRight_eq_div_pow, pow_one, Nat.cast_ofNat]
    · rwa [← h.elements, Multiset.mem_coe]
    · rwa [← Multiset.mem_coe, h.elements]
  | median => exact nthElement_atRank h.elements hs
  | uniqueMedian => exact nthElement_atRank h.keys fun hzero => hs (Multiset.dedup_eq_zero.mp hzero)

/-- The getter of a heuristic. -/
def getCuttoff (cuttoffMode : CuttoffSelection) (phase : StatisticsEstimatorPhase) : HeuristicSelection → Except Exn ℤ
  | .statements => phase.getCuttoffNumInclStmts cuttoffMode
  | .conditionalBranches => phase.getCuttoffConditionalBranches cuttoffMode
  | .conditionalBranchesReverse => phase.getCuttoffReversesConditionalBranches cuttoffMode
  | .fpMemOps => phase.getCuttoffRoofline cuttoffMode
  | .loopDepth => phase.getCuttoffLoopDepth cuttoffMode
  | .globalLoopDepth => phase.getCuttoffGlobalLoopDepth cuttoffMode

/-- The getter of a heuristic returns the statistic of the heuristic's counts. -/
def CutsAtStatistic (cuttoffMode : CuttoffSelection) (phase : StatisticsEstimatorPhase) (heuristic : HeuristicSelection)
    (counts : Multiset ℤ) : Prop :=
  ∃ v, getCuttoff cuttoffMode phase heuristic = .ok v ∧ IsStatistic cuttoffMode counts v

section
variable {order : List ℕ → List ℕ} {g g' : Callgraph} {main : ℕ}

/-- An empty histogram cuts at zero. -/
theorem StatementsOnly.getCuttoff_zero {f : ℕ → ℤ} {l : List ℕ} {phase : StatisticsEstimatorPhase} (h : StatementsOnly f l phase)
    (cuttoffMode : CuttoffSelection) {heuristic : HeuristicSelection} (hne : heuristic ≠ .statements) :
    getCuttoff cuttoffMode phase heuristic = .ok 0 := by
  have hempty : getCuttoffValue cuttoffMode OMap.empty = .ok 0 := if_pos rfl
  cases heuristic with
  | statements => exact absurd rfl hne
  | conditionalBranches => exact (congrArg _ h.conditionalBranches).trans hempty
  | conditionalBranchesReverse => exact (congrArg _ h.reverseConditionalBranches).trans hempty
  | fpMemOps => exact (congrArg _ h.roofline).trans hempty
  | loopDepth => exact (congrArg _ h.loopDepth).trans hempty
  | globalLoopDepth => exact (congrArg _ h.globalLoopDepth).trans hempty

theorem count_mem_heuristicCounts (h : g.Wf) (hlive : g.hasNode main = true) (md : MetaStore) (st : HeuristicStore)
    (heuristic : HeuristicSelection) : heuristicCount g md st heuristic main ∈ heuristicCounts g md st main heuristic := by
  refine Multiset.mem_map_of_mem _ ?_
  rw [← coe_reachableList, Multiset.mem_coe]
  exact (mem_reachableList h hlive).mpr .refl

/-- After a run of the phase the getter of the heuristic returns the statistic of its counts. -/
def GetsThreshold (order : List ℕ → List ℕ) (g : Callgraph) (config : StatisticsConfig) (st : HeuristicStore) (md : MetaStore)
    (main : ℕ) (heuristic : HeuristicSelection) : Prop :=
  ∃ phase md', StatisticsEstimatorPhase.create.modifyGraph order config g st md = .ok (phase, md') ∧
    CutsAtStatistic config.cuttoffSelection phase heuristic (heuristicCounts g md st main heuristic)

/-- The cut-off of the statements is the statistic of their counts. The other cut-offs are zero, which is the statistic of the
counts only if there is nothing to cut. -/
theorem cutsAtStatistic_iff (h : g.Wf) (hord : ∀ l, (order l).Perm l) (hget : g.getMain false = .ok g')
    (hmain : g'.mainNode = some main) (config : StatisticsConfig) (st : HeuristicStore) (md : MetaStore) :
    (GetsThreshold order g config st md main .statements ↔ Readable g config md main) ∧
      ∀ heuristic, heuristic ≠ .statements → (GetsThreshold order g config st md main heuristic ↔
        Readable g config md main ∧ CutsNothing config.cuttoffSelection (heuristicCounts g md st main heuristic)) := by
  obtain ⟨hinv, hlive⟩ := mainInv_create h hget hmain
  have hreturns := modifyGraph_returns st md h hord hinv hlive config
  refine ⟨⟨fun ⟨phase, md', hrun, _⟩ => hreturns.mp ⟨_, hrun⟩, fun hreadable => ?_⟩, fun heuristic hne => ?_⟩
  · obtain ⟨⟨phase, md'⟩, hrun⟩ := hreturns.mpr hreadable
    have honly := modifyGraph_statementsOnly h hord hinv hlive config hrun
    refine ⟨phase, md', hrun, getCuttoffValue_spec _ honly.stmtInclHist fun hzero => ?_⟩
    have hcount := count_mem_heuristicCounts h hlive md st .statements
    rw [hzero] at hcount
    exact absurd hcount (Multiset.notMem_zero _)
  · rw [← isStatistic_zero_iff]
    constructor
    · rintro ⟨phase, md', hrun, v, hv, hstat⟩
      rw [(modifyGraph_statementsOnly h hord hinv hlive config hrun).getCuttoff_zero _ hne] at hv
      cases hv
      exact ⟨hreturns.mp ⟨_, hrun⟩, hstat⟩
    · rintro ⟨hreadable, hstat⟩
      obtain ⟨⟨phase, md'⟩, hrun⟩ := hreturns.mpr hreadable
      exact ⟨phase, md', hrun, 0, (modifyGraph_statementsOnly h hord hinv hlive config hrun).getCuttoff_zero _ hne, hstat⟩

end

/-- `main` has loops of depth two. -/
def nestedLoops : HeuristicStore := fun node =>
  if node = 0 then { HeuristicMetaData.create with loopDepth := some 2 } else .create

theorem bodylessProfiled_callChain (md : MetaStore) : BodylessProfiled callChain md 0 := by
  intro n node _ hslot hbody
  have hbodies : ∀ i < callChain.nodes.length, (callChain.slot i).all (fun node => node.hasBody) = true := by decide
  have hn := hbodies n (Callgraph.slot_lt hslot)
  rw [hslot, Option.all_some, hbody] at hn
  cases hn

theorem readable_callChain (config : StatisticsConfig) (md : MetaStore) : Readable callChain config md 0 :=
  ⟨by decide, fun _ => bodylessProfiled_callChain md⟩

theorem cutsAtStatistic_iff_callChain :
    GetsThreshold id callChain ⟨.loopDepth, .max, false⟩ nestedLoops (fun _ => .create) 0 .statements := by
  obtain ⟨g', hget, hmain⟩ : ∃ g', callChain.getMain false = .ok g' ∧ g'.mainNode = some 0 := ⟨_, rfl, by decide⟩
  exact (cutsAtStatistic_iff (Callgraph.run_wf 0 _) (fun l => List.Perm.refl l) hget hmain ⟨.loopDepth, .max, false⟩ nestedLoops
    fun _ => .create).1.mpr (readable_callChain _ _)

/-- The run returns; half the greatest loop depth is one, but the cut-off is zero. -/
theorem not_cutsAtStatistic_nestedLoops :
    (∃ r, StatisticsEstimatorPhase.create.modifyGraph id ⟨.loopDepth, .max, false⟩ callChain nestedLoops (fun _ => .create) =
        .ok r) ∧
      ¬GetsThreshold id callChain ⟨.loopDepth, .max, false⟩ nestedLoops (fun _ => .create) 0 .loopDepth := by
  have hwf : callChain.Wf := Callgraph.run_wf 0 _
  have hord : ∀ l : List ℕ, (id l).Perm l := fun l => List.Perm.refl l
  obtain ⟨g', hget, hmain⟩ : ∃ g', callChain.getMain false = .ok g' ∧ g'.mainNode = some 0 := ⟨_, rfl, by decide⟩
  obtain ⟨hinv, hlive⟩ := mainInv_create hwf hget hmain
  refine ⟨(modifyGraph_returns _ _ hwf hord hinv hlive _).mpr (readable_callChain _ _), ?_⟩
  rintro ⟨phase, md', hrun, v, hv, m, -, hmax, hhalf⟩
  rw [(modifyGraph_statementsOnly hwf hord hinv hlive _ hrun).getCuttoff_zero .max (by decide)] at hv
  cases hv
  have hdepth : 2 ≤ m := hmax _ (count_mem_heuristicCounts hwf hlive (fun _ => .create) nestedLoops .loopDepth)
  omega

end MetaCG.Pgis
