import Mathlib.Algebra.BigOperators.Group.Finset.Basic
import Mathlib.Algebra.Order.Group.Unbundled.Int
import Mathlib.Data.List.Sort
import MetaCG.Foundations.Histogram
import MetaCG.Pgis.FillInstrumentationGaps
import MetaCG.Pgis.RuntimeEstimator

/-! `StatisticsEstimatorPhase` and the phases that count for it (`IPCGEstimatorPhase.h`, `IPCGEstimatorPhase.cpp`).

An `int` or `long` that is added up is an integer, since it does not overflow in a program that is defined. The phases do not
read the main method that they are given, they ask the graph for it. -/
namespace MetaCG.Pgis
open Foundations Analysis
set_option autoImplicit false
set_option maxHeartbeats 250000
set_option maxRecDepth 120000

structure NumOperationsMD where
  numberOfFloatOps : ℤ
  numberOfMemoryAccesses : ℤ
deriving DecidableEq

/-- What the heuristics read at a node. The runtime is that of the profile data and only read where there is some. -/
structure HeuristicMetaData where
  numConditionalBranches : Option ℤ
  numOperations : Option NumOperationsMD
  loopDepth : Option ℤ
  globalLoopDepth : Option ℤ
  numVars : Option ℤ
  runtimeInSeconds : ℚ

def HeuristicMetaData.create : HeuristicMetaData := ⟨none, none, none, none, none, 0⟩

abbrev HeuristicStore := ℕ → HeuristicMetaData

inductive HeuristicSelection where
  | statements
  | conditionalBranches
  | conditionalBranchesReverse
  | fpMemOps
  | loopDepth
  | globalLoopDepth
deriving DecidableEq

inductive CuttoffSelection where
  | max
  | median
  | uniqueMedian
deriving DecidableEq

structure StatisticsConfig where
  heuristicSelection : HeuristicSelection
  cuttoffSelection : CuttoffSelection
  useCallSiteInstrumentation : Bool

structure StatisticsEstimatorPhase where
  numFunctions : ℤ
  numReachableFunctions : ℤ
  totalStmts : ℤ
  stmtHist : OMap ℤ ℤ
  stmtInclHist : OMap ℤ ℤ
  stmtsCoveredWithInstr : ℤ
  stmtsActuallyCovered : ℤ
  totalVarDecls : ℤ
  conditionalBranchesInclHist : OMap ℤ ℤ
  reverseConditionalBranchesInclHist : OMap ℤ ℤ
  rooflineInclHist : OMap ℤ ℤ
  loopDepthInclHist : OMap ℤ ℤ
  globalLoopDepthInclHist : OMap ℤ ℤ

def StatisticsEstimatorPhase.create : StatisticsEstimatorPhase :=
  ⟨0, 0, 0, .empty, .empty, 0, 0, 0, .empty, .empty, .empty, .empty, .empty⟩

/-! ## The cut-off values -/

/-- `std::nth_element`: the element that stands at index `n` of the sorted list. -/
def nthElement (l : List ℤ) (n : ℕ) : Except Exn ℤ :=
  match (l.insertionSort (· ≤ ·))[n]? with
  | some v => .ok v
  | none => .error .undefined

def getUniqueMedianFromHist (hist : OMap ℤ ℤ) : Except Exn ℤ :=
  let inclStmts := Histogram.keys hist
  nthElement inclStmts (inclStmts.length / 2)

def getMedianFromHist (hist : OMap ℤ ℤ) : Except Exn ℤ :=
  let inclStmts := Histogram.elements hist
  nthElement inclStmts (inclStmts.length / 2)

def getHalfMaxFromHist (hist : OMap ℤ ℤ) : Except Exn ℤ :=
  match (Histogram.elements hist).max? with
  | some m => .ok (m >>> (1 : ℕ))
  | none => .error .undefined

def getCuttoffValue (cuttoffMode : CuttoffSelection) (hist : OMap ℤ ℤ) : Except Exn ℤ :=
  if hist.entries.isEmpty then .ok 0
  else match cuttoffMode with
    | .max => getHalfMaxFromHist hist
    | .median => getMedianFromHist hist
    | .uniqueMedian => getUniqueMedianFromHist hist

namespace StatisticsEstimatorPhase
variable (cuttoffMode : CuttoffSelection) (phase : StatisticsEstimatorPhase)

def getCuttoffNumInclStmts : Except Exn ℤ := getCuttoffValue cuttoffMode phase.stmtInclHist

def getCuttoffConditionalBranches : Except Exn ℤ := getCuttoffValue cuttoffMode phase.conditionalBranchesInclHist

def getCuttoffLoopDepth : Except Exn ℤ := getCuttoffValue cuttoffMode phase.loopDepthInclHist

def getCuttoffGlobalLoopDepth : Except Exn ℤ := getCuttoffValue cuttoffMode phase.globalLoopDepthInclHist

def getCuttoffRoofline : Except Exn ℤ := getCuttoffValue cuttoffMode phase.rooflineInclHist

def getCuttoffReversesConditionalBranches : Except Exn ℤ :=
  getCuttoffValue cuttoffMode phase.reverseConditionalBranchesInclHist

end StatisticsEstimatorPhase

/-! ## Counting -/

/-- Only children that are reachable from main are queued. -/
def pushReachable (order : List ℕ → List ℕ) (s : List ℕ × ReachabilityAnalysis) (childNode : ℕ) :
    Except Exn (List ℕ × ReachabilityAnalysis) := do
  let (reachable, ra) ← s.2.isReachableFromMain order childNode false
  return (if reachable then s.1 ++ [childNode] else s.1, ra)

/-- The loop over `workQueue`, which the phases have in common. -/
def sumTargetCounts (order : List ℕ → List ℕ) (g : Callgraph) (getTargetCount : ℕ → ℤ) (ra : ReachabilityAnalysis) (count : ℤ)
    (visitedNodes : Finset ℕ) (workQueue : List ℕ) : Except Exn (ℤ × ReachabilityAnalysis) :=
  match workQueue with
  | [] => .ok (count, ra)
  | node :: workQueue =>
    if _hnode : node ∈ visitedNodes then sumTargetCounts order g getTargetCount ra count visitedNodes workQueue
    else match _hcallees : getCallees order g node with
      | .error e => .error e
      | .ok callees =>
        match callees.foldlM (pushReachable order) (workQueue, ra) with
        | .error e => .error e
        | .ok (workQueue, ra) =>
          sumTargetCounts order g getTargetCount ra (count + getTargetCount node) (insert node visitedNodes) workQueue
termination_by Search.pending (Finset.range g.nodes.length) visitedNodes workQueue
decreasing_by
  · exact Search.pending_skip _ le_rfl
  · exact Search.pending_visit (Finset.mem_range.mpr (Callgraph.hasNode_lt (live_of_neighbours _hcallees))) _hnode ..

/-- A round of the loop over all functions, which skips those that are not reachable from main. -/
def visitReachable {σ : Type} (order : List ℕ → List ℕ) (g : Callgraph)
    (body : ReachabilityAnalysis → σ → ℕ → Except Exn (ReachabilityAnalysis × σ)) (s : ReachabilityAnalysis × σ) (node : ℕ) :
    Except Exn (ReachabilityAnalysis × σ) := do
  let _ ← deref g node
  let (reachable, ra) ← s.1.isReachableFromMain order node false
  if reachable then body ra s.2 node else return (ra, s.2)

def forReachable {σ : Type} (order : List ℕ → List ℕ) (g : Callgraph)
    (body : ReachabilityAnalysis → σ → ℕ → Except Exn (ReachabilityAnalysis × σ)) (s : σ) : Except Exn σ := do
  let (_, s) ← (List.range g.nodes.length).foldlM (visitReachable order g body) (.create g, s)
  return s

/-- A function without a body and without runtime is instrumented on its path. -/
def instrumentBodyless (st : HeuristicStore) (md : MetaStore) (n : CgNode) (startNode : ℕ) : Except Exn MetaStore :=
  if n.hasBody then .ok md
  else match (md startNode).baseProfile with
    | none => .error .nullDereference
    | some _ => .ok (if (st startNode).runtimeInSeconds = 0 then instrumentPathNode md startNode else md)

/-! ## Phases that sum up a count -/

/-- `SummingCountPhaseBase`, with its virtual functions as members. `getTargetCount` gets what `runInitialization` leaves. -/
structure SummingCountPhaseBase where
  threshold : ℤ
  pSEP : Option StatisticsEstimatorPhase
  inclusive : Bool
  counts : UMap ℕ ℤ
  getPreviousThreshold : CuttoffSelection → StatisticsEstimatorPhase → Except Exn ℤ
  runInitialization : Callgraph → Except Exn ℤ
  getTargetCount : ℤ → ℕ → ℤ

namespace SummingCountPhaseBase

def limitThreshold : ℤ := 2 ^ 63 - 1

/-- `estimateCount`; the state consists of the counts and the metadata. -/
def estimateCount (order : List ℕ → List ℕ) (g : Callgraph) (st : HeuristicStore) (inclusive : Bool) (threshold : ℤ)
    (getTargetCount : ℕ → ℤ) (ra : ReachabilityAnalysis) (s : UMap ℕ ℤ × MetaStore) (startNode : ℕ) :
    Except Exn (ReachabilityAnalysis × UMap ℕ ℤ × MetaStore) := do
  let (count, ra) ← (if inclusive then sumTargetCounts order g getTargetCount ra 0 ∅ [startNode]
    else .ok (getTargetCount startNode, ra))
  let md := if threshold ≤ count then instrumentNode s.2 startNode else s.2
  let md ← instrumentBodyless st md (← deref g startNode) startNode
  return (ra, s.1.insert startNode count, md)

def modifyGraph (order : List ℕ → List ℕ) (cuttoffMode : CuttoffSelection) (g : Callgraph) (st : HeuristicStore)
    (phase : SummingCountPhaseBase) (md : MetaStore) : Except Exn (SummingCountPhaseBase × MetaStore) := do
  let threshold ← (match phase.pSEP with
    | some pSEP => phase.getPreviousThreshold cuttoffMode pSEP
    | none => .ok phase.threshold)
  let maxBranches ← phase.runInitialization g
  let (counts, md) ← forReachable order g
    (estimateCount order g st phase.inclusive threshold (phase.getTargetCount maxBranches)) (phase.counts, md)
  return ({ phase with threshold, counts }, md)

end SummingCountPhaseBase

section
variable (st : HeuristicStore) (threshold : ℤ) (pSEP : Option StatisticsEstimatorPhase)

def ConditionalBranchesEstimatorPhase : SummingCountPhaseBase where
  threshold := threshold
  pSEP := pSEP
  inclusive := true
  counts := ∅
  getPreviousThreshold := StatisticsEstimatorPhase.getCuttoffConditionalBranches
  runInitialization := fun _ => .ok 0
  getTargetCount := fun _ node => (st node).numConditionalBranches.getD 0

/-- A round of `ConditionalBranchesReverseEstimatorPhase::runInitialization`. -/
def maxConditionalBranches (g : Callgraph) (maxBranches : ℤ) (node : ℕ) : Except Exn ℤ := do
  let _ ← deref g node
  match (st node).numConditionalBranches with
  | some n => return max maxBranches n
  | none => return maxBranches

def ConditionalBranchesReverseEstimatorPhase : SummingCountPhaseBase where
  threshold := threshold
  pSEP := pSEP
  inclusive := true
  counts := ∅
  getPreviousThreshold := StatisticsEstimatorPhase.getCuttoffReversesConditionalBranches
  runInitialization := fun g => (List.range g.nodes.length).foldlM (maxConditionalBranches st g) 0
  getTargetCount := fun maxBranches node =>
    match (st node).numConditionalBranches with
    | some n => maxBranches - n
    | none => maxBranches

def FPAndMemOpsEstimatorPhase : SummingCountPhaseBase where
  threshold := threshold
  pSEP := pSEP
  inclusive := true
  counts := ∅
  getPreviousThreshold := StatisticsEstimatorPhase.getCuttoffRoofline
  runInitialization := fun _ => .ok 0
  getTargetCount := fun _ node =>
    match (st node).numOperations with
    | some md => md.numberOfFloatOps + md.numberOfMemoryAccesses
    | none => 0

def LoopDepthEstimatorPhase : SummingCountPhaseBase where
  threshold := threshold
  pSEP := pSEP
  inclusive := false
  counts := ∅
  getPreviousThreshold := StatisticsEstimatorPhase.getCuttoffLoopDepth
  runInitialization := fun _ => .ok 0
  getTargetCount := fun _ node => (st node).loopDepth.getD 0

def GlobalLoopDepthEstimatorPhase : SummingCountPhaseBase where
  threshold := threshold
  pSEP := pSEP
  inclusive := false
  counts := ∅
  getPreviousThreshold := StatisticsEstimatorPhase.getCuttoffGlobalLoopDepth
  runInitialization := fun _ => .ok 0
  getTargetCount := fun _ node => (st node).globalLoopDepth.getD 0

end

/-! ## The statement counts -/

structure StatementCountEstimatorPhase where
  numberOfStatementsThreshold : ℤ
  inclusiveMetric : Bool
  inclStmtCounts : UMap ℕ ℤ
  pSEP : Option StatisticsEstimatorPhase

namespace StatementCountEstimatorPhase

def create (numberOfStatementsThreshold : ℤ) (inclusiveMetric : Bool) (prevStatEP : Option StatisticsEstimatorPhase) :
    StatementCountEstimatorPhase := ⟨numberOfStatementsThreshold, inclusiveMetric, ∅, prevStatEP⟩

def getNumStatements (phase : StatementCountEstimatorPhase) (node : ℕ) : ℤ := UMap.getD phase.inclStmtCounts node 0

def estimateStatementCount (order : List ℕ → List ℕ) (g : Callgraph) (st : HeuristicStore) (useCSInstr inclusiveMetric : Bool)
    (numberOfStatementsThreshold : ℤ) (ra : ReachabilityAnalysis) (s : UMap ℕ ℤ × MetaStore) (startNode : ℕ) :
    Except Exn (ReachabilityAnalysis × UMap ℕ ℤ × MetaStore) := do
  let numStmts := fun node => (s.2 node).piraOne.numStmts
  let (inclStmtCount, ra) ← (if inclusiveMetric then sumTargetCounts order g numStmts ra 0 ∅ [startNode]
    else .ok (numStmts startNode, ra))
  let counts := if inclusiveMetric then s.1.insert startNode inclStmtCount else s.1
  let md := if numberOfStatementsThreshold ≤ inclStmtCount then instrumentNode s.2 startNode else s.2
  let md ← (if useCSInstr then do instrumentBodyless st md (← deref g startNode) startNode else .ok md)
  return (ra, counts, md)

-- The threshold is an `int`, so a `long` cut-off is wrapped.
def modifyGraph (order : List ℕ → List ℕ) (config : StatisticsConfig) (g : Callgraph) (st : HeuristicStore)
    (phase : StatementCountEstimatorPhase) (md : MetaStore) : Except Exn (StatementCountEstimatorPhase × MetaStore) := do
  let threshold ← (match phase.pSEP with
    | some pSEP => do return (← pSEP.getCuttoffNumInclStmts config.cuttoffSelection).bmod (2 ^ 32)
    | none => .ok phase.numberOfStatementsThreshold)
  let (counts, md) ← forReachable order g
    (estimateStatementCount order g st config.useCallSiteInstrumentation phase.inclusiveMetric threshold) (phase.inclStmtCounts, md)
  return ({ phase with numberOfStatementsThreshold := threshold, inclStmtCounts := counts }, md)

end StatementCountEstimatorPhase

/-! ## The statistics -/

namespace StatisticsEstimatorPhase

/-- The phase that is run for the selected heuristic; the statements are always collected. -/
def selectedPhase (st : HeuristicStore) : HeuristicSelection → Option SummingCountPhaseBase
  | .statements => none
  | .conditionalBranches => some (ConditionalBranchesEstimatorPhase st SummingCountPhaseBase.limitThreshold none)
  | .conditionalBranchesReverse => some (ConditionalBranchesReverseEstimatorPhase st SummingCountPhaseBase.limitThreshold none)
  | .fpMemOps => some (FPAndMemOpsEstimatorPhase st SummingCountPhaseBase.limitThreshold none)
  | .loopDepth => some (LoopDepthEstimatorPhase st SummingCountPhaseBase.limitThreshold none)
  | .globalLoopDepth => some (GlobalLoopDepthEstimatorPhase st SummingCountPhaseBase.limitThreshold none)

-- The phase is a local object: its counts are gone after the run.
def runSelected (order : List ℕ → List ℕ) (config : StatisticsConfig) (g : Callgraph) (st : HeuristicStore) (md : MetaStore) :
    Except Exn MetaStore :=
  match selectedPhase st config.heuristicSelection with
  | none => .ok md
  | some phase => do
    let (_, md) ← phase.modifyGraph order config.cuttoffSelection g st md
    return md

/-- A round of the loop of `modifyGraph` over the reachable functions. -/
def collect (st : HeuristicStore) (md : MetaStore) (sce : StatementCountEstimatorPhase) (ra : ReachabilityAnalysis)
    (phase : StatisticsEstimatorPhase) (node : ℕ) : Except Exn (ReachabilityAnalysis × StatisticsEstimatorPhase) :=
  let numStmts := (md node).piraOne.numStmts
  .ok (ra, { phase with
    numReachableFunctions := phase.numReachableFunctions + 1
    stmtsCoveredWithInstr := phase.stmtsCoveredWithInstr + if (md node).instrumentation = .instrumented then numStmts else 0
    stmtsActuallyCovered := phase.stmtsActuallyCovered + if (md node).piraOne.wasInPreviousProfile then numStmts else 0
    stmtHist := Histogram.count phase.stmtHist numStmts
    totalStmts := phase.totalStmts + numStmts
    stmtInclHist := Histogram.count phase.stmtInclHist (sce.getNumStatements node)
    totalVarDecls := phase.totalVarDecls + (st node).numVars.getD 0 })

def modifyGraph (order : List ℕ → List ℕ) (config : StatisticsConfig) (g : Callgraph) (st : HeuristicStore)
    (phase : StatisticsEstimatorPhase) (md : MetaStore) : Except Exn (StatisticsEstimatorPhase × MetaStore) := do
  let (sce, md) ← (StatementCountEstimatorPhase.create 999999999 true none).modifyGraph order config g st md
  let md ← runSelected order config g st md
  let phase ← forReachable order g (collect st md sce) { phase with numFunctions := g.nodes.length }
  return (phase, md)

end StatisticsEstimatorPhase

/-! ## The loop over the reachable functions -/

open Classical in
/-- The nodes that `n` reaches. -/
noncomputable def reachableNodes (g : Callgraph) (n : ℕ) : Finset ℕ :=
  (Finset.range g.nodes.length).filter fun x => Relation.ReflTransGen (Calls g) n x

open Classical in
/-- The same nodes in the order of their ids. -/
noncomputable def reachableList (g : Callgraph) (n : ℕ) : List ℕ :=
  (List.range g.nodes.length).filter fun x => decide (Relation.ReflTransGen (Calls g) n x)

section
variable {order : List ℕ → List ℕ} {g : Callgraph} {main n : ℕ} {ra : ReachabilityAnalysis}

theorem coe_reachableList : (reachableList g n : Multiset ℕ) = (reachableNodes g n).val := rfl

theorem mem_reachableList (h : g.Wf) (hlive : g.hasNode n = true) {x : ℕ} :
    x ∈ reachableList g n ↔ Relation.ReflTransGen (Calls g) n x := by
  classical
  unfold reachableList
  rw [List.mem_filter, List.mem_range, decide_eq_true_iff, and_iff_right_iff_imp]
  intro hx
  rcases Relation.ReflTransGen.cases_tail hx with rfl | ⟨y, -, hyx⟩
  · exact Callgraph.hasNode_lt hlive
  · exact (h.edge_lt hyx).2

section
variable {σ : Type} {body : ReachabilityAnalysis → σ → ℕ → Except Exn (ReachabilityAnalysis × σ)} {s s' : σ}

/-- A round runs the body on a reachable function and skips the others. -/
theorem visitReachable_eq (body : ReachabilityAnalysis → σ → ℕ → Except Exn (ReachabilityAnalysis × σ))
    (hord : ∀ l, (order l).Perm l) (hra : MainInv g main ra) (hlive : g.hasNode n = true) (t : σ) :
    ∃ ra₁, MainInv g main ra₁ ∧
      (Relation.ReflTransGen (Calls g) main n → visitReachable order g body (ra, t) n = body ra₁ t n) ∧
      (¬Relation.ReflTransGen (Calls g) main n → visitReachable order g body (ra, t) n = .ok (ra₁, t)) := by
  obtain ⟨node, hnode⟩ := deref_ok hlive
  obtain ⟨b, ra₁, hquery, hra₁, hb⟩ := hra.isReachableFromMain hord n
  refine ⟨ra₁, hra₁, ?_⟩
  unfold visitReachable
  rw [hnode]
  simp only [bind, Except.bind, hquery]
  exact ⟨fun hreach => if_pos (hb.mpr hreach), fun hnot => if_neg fun h => hnot (hb.mp h)⟩

/-- What the body of the loop keeps on each reachable function holds in the end. -/
theorem forReachable_inv (hord : ∀ l, (order l).Perm l) (hmain : MainInv g main (.create g)) {J : List ℕ → σ → Prop} (h₀ : J [] s)
    (hstep : ∀ pre n ra t r, MainInv g main ra → g.hasNode n = true → Relation.ReflTransGen (Calls g) main n → J pre t →
      body ra t n = .ok r → MainInv g main r.1 ∧ J (pre ++ [n]) r.2)
    (hrun : forReachable order g body s = .ok s') : J (reachableList g main) s' := by
  classical
  obtain ⟨⟨ra', t⟩, hloop, hret⟩ := bind_eq_ok.mp hrun
  cases hret
  have hinv := foldlM_ok_inv (s := ((.create g, s) : ReachabilityAnalysis × σ))
    (J := fun (pre : List ℕ) (r : ReachabilityAnalysis × σ) => MainInv g main r.1 ∧
      J (pre.filter fun x => decide (Relation.ReflTransGen (Calls g) main x)) r.2) ⟨hmain, h₀⟩ ?_ hloop
  · exact hinv.2
  rintro pre n ⟨ra, t⟩ r' - ⟨hra, ht⟩ hround
  obtain ⟨_, hn, -⟩ := bind_eq_ok.mp hround
  have hlive := hasNode_of_deref hn
  obtain ⟨ra₁, hra₁, hbody, hskip⟩ := visitReachable_eq body hord hra hlive t
  rw [List.filter_append, List.filter_singleton]
  by_cases hreach : Relation.ReflTransGen (Calls g) main n
  · rw [decide_eq_true hreach]
    rw [hbody hreach] at hround
    exact hstep _ n ra₁ t r' hra₁ hlive hreach ht hround
  · rw [decide_eq_false hreach]
    rw [hskip hreach] at hround
    cases hround
    exact ⟨hra₁, by simpa using ht⟩

/-- Every slot is dereferenced. -/
theorem forReachable_live (hrun : forReachable order g body s = .ok s') : ∀ i < g.nodes.length, g.hasNode i = true := by
  obtain ⟨t, hloop, -⟩ := bind_eq_ok.mp hrun
  have hinv := foldlM_ok_inv (J := fun pre _ => ∀ i ∈ pre, g.hasNode i = true) (fun i hi => absurd hi List.not_mem_nil)
    (fun pre n t r _ hpre hround i hi => ?_) hloop
  · exact fun i hi => hinv i (List.mem_range.mpr hi)
  · rcases List.mem_append.mp hi with hi | hi
    · exact hpre i hi
    · obtain ⟨_, hn, -⟩ := bind_eq_ok.mp hround
      rw [List.mem_singleton.mp hi]
      exact hasNode_of_deref hn

/-- The loop returns if its body does. -/
theorem forReachable_total (body : ReachabilityAnalysis → σ → ℕ → Except Exn (ReachabilityAnalysis × σ))
    (hord : ∀ l, (order l).Perm l) (hmain : MainInv g main (.create g))
    (hlive : ∀ i < g.nodes.length, g.hasNode i = true) {J : σ → Prop} (h₀ : J s)
    (hstep : ∀ n ra t, MainInv g main ra → g.hasNode n = true → Relation.ReflTransGen (Calls g) main n → J t →
      ∃ r, body ra t n = .ok r ∧ MainInv g main r.1 ∧ J r.2) : ∃ s', forReachable order g body s = .ok s' ∧ J s' := by
  have hloop := foldlM_total (f := visitReachable order g body) (l := List.range g.nodes.length)
    (s := ((.create g, s) : ReachabilityAnalysis × σ)) (J := fun _ r => MainInv g main r.1 ∧ J r.2) ⟨hmain, h₀⟩ ?_
  · obtain ⟨⟨ra', t⟩, hloop, -, ht⟩ := hloop
    refine ⟨t, ?_, ht⟩
    unfold forReachable
    rw [hloop]
    rfl
  rintro pre n ⟨ra, t⟩ hpre ⟨hra, ht⟩
  have hn := hlive n (List.mem_range.mp (hpre.subset (List.mem_append_right _ (List.mem_singleton_self n))))
  obtain ⟨ra₁, hra₁, hbody, hskip⟩ := visitReachable_eq body hord hra hn t
  by_cases hreach : Relation.ReflTransGen (Calls g) main n
  · rw [hbody hreach]
    exact hstep n ra₁ t hra₁ hn hreach ht
  · rw [hskip hreach]
    exact ⟨_, rfl, hra₁, ht⟩

end

/-! ## The sum over what a function reaches -/

/-- Every callee of a reachable function is queued. -/
theorem pushReachable_loop (hord : ∀ l, (order l).Perm l) (hra : MainInv g main ra) (callees : List ℕ)
    (hreach : ∀ c ∈ callees, Relation.ReflTransGen (Calls g) main c) (workQueue : List ℕ) :
    ∃ ra', callees.foldlM (pushReachable order) (workQueue, ra) = .ok (workQueue ++ callees, ra') ∧ MainInv g main ra' := by
  have hloop := foldlM_total (f := pushReachable order) (l := callees) (s := (workQueue, ra))
    (J := fun pre r => r.1 = workQueue ++ pre ∧ MainInv g main r.2) ⟨(List.append_nil _).symm, hra⟩ ?_
  · obtain ⟨⟨queue, ra'⟩, hloop, hqueue, hra'⟩ := hloop
    cases hqueue
    exact ⟨ra', hloop, hra'⟩
  rintro pre c ⟨queue, ra₁⟩ hpre ⟨rfl, hra₁⟩
  obtain ⟨b, ra₂, hquery, hra₂, hb⟩ := hra₁.isReachableFromMain hord c
  have hc : b = true := hb.mpr (hreach c (hpre.subset (List.mem_append_right _ (List.mem_singleton_self c))))
  refine ⟨(workQueue ++ pre ++ [c], ra₂), ?_, List.append_assoc .., hra₂⟩
  unfold pushReachable
  rw [hquery, hc]
  rfl

theorem sumTargetCounts_spec (h : g.Wf) (hord : ∀ l, (order l).Perm l) (getTargetCount : ℕ → ℤ) {start : ℕ} {count : ℤ}
    {V : Finset ℕ} {Q : List ℕ} (hra : MainInv g main ra) (hf : Search.Frontier (Calls g) start V Q)
    (hstart : g.hasNode start = true) (hmain : Relation.ReflTransGen (Calls g) main start)
    (hcount : count = ∑ x ∈ V, getTargetCount x) :
    ∃ ra', sumTargetCounts order g getTargetCount ra count V Q = .ok (∑ x ∈ reachableNodes g start, getTargetCount x, ra') ∧
      MainInv g main ra' := by
  have hlive : ∀ x, Relation.ReflTransGen (Calls g) start x → g.hasNode x = true := by
    intro x hx
    rcases Relation.ReflTransGen.cases_tail hx with rfl | ⟨y, -, hyx⟩
    · exact hstart
    · exact (h.edge_live y x hyx).2
  fun_induction sumTargetCounts order g getTargetCount ra count V Q with
  | case1 ra count V =>
    have hV : V = reachableNodes g start := by
      classical
      ext x
      rw [hf.done, reachableNodes, Finset.mem_filter, Finset.mem_range]
      exact ⟨fun hx => ⟨Callgraph.hasNode_lt (hlive x hx), hx⟩, fun hx => hx.2⟩
    exact ⟨ra, by rw [hcount, hV], hra⟩
  | case2 ra count V node Q hvisited ih => exact ih hra (hf.skip hvisited) hcount
  | case3 ra count V node Q hnew e he =>
    obtain ⟨_, hok, -, -⟩ := getCallees_ok h hord (hlive node (hf.reached node (.inr (List.mem_cons_self ..))))
    rw [he] at hok
    cases hok
  | case4 ra count V node Q hnew callees hc e he =>
    have hnode := hf.reached node (.inr (List.mem_cons_self ..))
    obtain ⟨_, hok, -⟩ := pushReachable_loop hord hra callees
      (fun c hcc => (hmain.trans hnode).tail ((mem_getCallees h hord hc c).mp hcc)) Q
    rw [he] at hok
    cases hok
  | case5 ra count V node Q hnew callees hc Q' ra' hq ih =>
    have hnode := hf.reached node (.inr (List.mem_cons_self ..))
    obtain ⟨_, hok, hra'⟩ := pushReachable_loop hord hra callees
      (fun c hcc => (hmain.trans hnode).tail ((mem_getCallees h hord hc c).mp hcc)) Q
    rw [hq] at hok
    cases hok
    refine ih hra' (hf.visitAll fun v => mem_getCallees h hord hc v) ?_
    rw [Finset.sum_insert hnew, hcount, add_comm]

/-- The count of a start node: its own target count or the sum over what it reaches. -/
theorem countOfStart (h : g.Wf) (hord : ∀ l, (order l).Perm l) (inclusive : Bool) (getTargetCount : ℕ → ℤ) (hra : MainInv g main ra)
    (hlive : g.hasNode n = true) (hmain : Relation.ReflTransGen (Calls g) main n) :
    ∃ ra', (if inclusive then sumTargetCounts order g getTargetCount ra 0 ∅ [n] else .ok (getTargetCount n, ra)) =
      .ok (if inclusive then ∑ x ∈ reachableNodes g n, getTargetCount x else getTargetCount n, ra') ∧ MainInv g main ra' := by
  cases inclusive with
  | false => exact ⟨ra, rfl, hra⟩
  | true => exact sumTargetCounts_spec h hord getTargetCount hra .initial hlive hmain rfl

end

/-! ## The runs of the phases -/

/-- The metadata that the counting reads is the same. -/
def SameProfile (md md' : MetaStore) : Prop := ∀ n, (md' n).piraOne = (md n).piraOne ∧ (md' n).baseProfile = (md n).baseProfile

/-- The function has a body or profile data. -/
def ProfiledAt (g : Callgraph) (md : MetaStore) (n : ℕ) : Prop :=
  ∀ node, g.slot n = some node → node.hasBody = false → (md n).baseProfile.isSome = true

/-- Each reachable function without a body has profile data. -/
def BodylessProfiled (g : Callgraph) (md : MetaStore) (main : ℕ) : Prop :=
  ∀ n node, Relation.ReflTransGen (Calls g) main n → g.slot n = some node → node.hasBody = false → (md n).baseProfile.isSome = true

section
variable {md md' md'' : MetaStore} {st : HeuristicStore} {n : ℕ} {node : CgNode}

theorem SameProfile.refl (md : MetaStore) : SameProfile md md := fun _ => ⟨rfl, rfl⟩

theorem SameProfile.trans (h : SameProfile md md') (h' : SameProfile md' md'') : SameProfile md md'' := fun n =>
  ⟨(h' n).1.trans (h n).1, (h' n).2.trans (h n).2⟩

theorem sameProfile_setInstrumentation (md : MetaStore) (node : ℕ) (state : InstrumentationState) :
    SameProfile md (setInstrumentation md node state) := by
  intro n
  rw [setInstrumentation_apply]
  exact ⟨rfl, rfl⟩

theorem sameProfile_threshold (md : MetaStore) (n : ℕ) (P : Prop) [Decidable P] :
    SameProfile md (if P then instrumentNode md n else md) := by
  split_ifs
  · exact sameProfile_setInstrumentation md n .instrumented
  · exact .refl md

theorem instrumentBodyless_sameProfile (h : instrumentBodyless st md node n = .ok md') : SameProfile md md' := by
  unfold instrumentBodyless at h
  split at h
  · cases h
    exact .refl md
  · split at h
    · cases h
    · cases h
      split_ifs
      · exact sameProfile_setInstrumentation md n .instrumentedPath
      · exact .refl md

theorem instrumentBodyless_returns (st : HeuristicStore) (md : MetaStore) (n : ℕ) (node : CgNode) :
    (∃ md', instrumentBodyless st md node n = .ok md') ↔ (node.hasBody = false → (md n).baseProfile.isSome = true) := by
  unfold instrumentBodyless
  cases hbody : node.hasBody with
  | true => exact ⟨fun _ hfalse => absurd hfalse (by decide), fun _ => ⟨_, rfl⟩⟩
  | false =>
    cases hprofile : (md n).baseProfile with
    | none =>
      refine ⟨fun ⟨md', hmd'⟩ => ?_, fun hsome => absurd (hsome rfl) (by decide)⟩
      cases hmd'
    | some profile => exact ⟨fun _ _ => rfl, fun _ => ⟨_, rfl⟩⟩

theorem ProfiledAt.congr {g : Callgraph} (hsame : SameProfile md md') : ProfiledAt g md' n ↔ ProfiledAt g md n := by
  unfold ProfiledAt
  rw [(hsame n).2]

/-- After the threshold has been looked at, the last step of a round returns where the profile data is. -/
theorem instrumentBodyless_profiledAt {g : Callgraph} (st : HeuristicStore) (hnode : deref g n = .ok node)
    (hsame : SameProfile md md') : (∃ md'', instrumentBodyless st md' node n = .ok md'') ↔ ProfiledAt g md n := by
  rw [instrumentBodyless_returns, (hsame n).2]
  refine ⟨fun h other hslot => ?_, fun h => h node (deref_eq_ok.mp hnode)⟩
  cases (deref_eq_ok.mp hnode).symm.trans hslot
  exact h

end

section
variable {order : List ℕ → List ℕ} {g : Callgraph} {main n : ℕ} {ra : ReachabilityAnalysis} {st : HeuristicStore}
  {md md' : MetaStore} {s : UMap ℕ ℤ × MetaStore}

/-- The count that a phase stores for a start node. -/
noncomputable def countOf (g : Callgraph) (inclusive : Bool) (getTargetCount : ℕ → ℤ) (n : ℕ) : ℤ :=
  if inclusive then ∑ x ∈ reachableNodes g n, getTargetCount x else getTargetCount n

/-- A round either stops at the profile data or stores the count of the start node. -/
theorem estimateCount_spec (h : g.Wf) (hord : ∀ l, (order l).Perm l) (st : HeuristicStore) (inclusive : Bool) (threshold : ℤ)
    (getTargetCount : ℕ → ℤ) (s : UMap ℕ ℤ × MetaStore) (hra : MainInv g main ra) (hlive : g.hasNode n = true)
    (hreach : Relation.ReflTransGen (Calls g) main n) :
    (∀ r, SummingCountPhaseBase.estimateCount order g st inclusive threshold getTargetCount ra s n = .ok r →
      MainInv g main r.1 ∧ r.2.1 = s.1.insert n (countOf g inclusive getTargetCount n) ∧ SameProfile s.2 r.2.2) ∧
    ((∃ r, SummingCountPhaseBase.estimateCount order g st inclusive threshold getTargetCount ra s n = .ok r) ↔
      ProfiledAt g s.2 n) := by
  obtain ⟨ra', hcount, hra'⟩ := countOfStart h hord inclusive getTargetCount hra hlive hreach
  obtain ⟨node, hnode⟩ := deref_ok hlive
  unfold SummingCountPhaseBase.estimateCount
  rw [hcount, hnode]
  simp only [ok_bind]
  have hthreshold := sameProfile_threshold s.2 n (threshold ≤ countOf g inclusive getTargetCount n)
  refine ⟨fun r hrun => ?_, ?_⟩
  · obtain ⟨md', hmd', hret⟩ := bind_eq_ok.mp hrun
    cases hret
    exact ⟨hra', rfl, hthreshold.trans (instrumentBodyless_sameProfile hmd')⟩
  · rw [← instrumentBodyless_profiledAt st hnode hthreshold]
    constructor
    · rintro ⟨r, hrun⟩
      obtain ⟨md', hmd', -⟩ := bind_eq_ok.mp hrun
      exact ⟨md', hmd'⟩
    · rintro ⟨md', hmd'⟩
      exact ⟨_, bind_eq_ok.mpr ⟨md', hmd', rfl⟩⟩

theorem estimateStatementCount_spec (h : g.Wf) (hord : ∀ l, (order l).Perm l) (st : HeuristicStore) (useCSInstr : Bool)
    (threshold : ℤ) (s : UMap ℕ ℤ × MetaStore) (hra : MainInv g main ra) (hlive : g.hasNode n = true)
    (hreach : Relation.ReflTransGen (Calls g) main n) :
    (∀ r, StatementCountEstimatorPhase.estimateStatementCount order g st useCSInstr true threshold ra s n = .ok r →
      MainInv g main r.1 ∧ r.2.1 = s.1.insert n (countOf g true (fun x => (s.2 x).piraOne.numStmts) n) ∧ SameProfile s.2 r.2.2) ∧
    ((∃ r, StatementCountEstimatorPhase.estimateStatementCount order g st useCSInstr true threshold ra s n = .ok r) ↔
      (useCSInstr = true → ProfiledAt g s.2 n)) := by
  obtain ⟨ra', hcount, hra'⟩ := sumTargetCounts_spec h hord (fun x => (s.2 x).piraOne.numStmts) hra .initial hlive hreach
    (show (0 : ℤ) = _ from rfl)
  obtain ⟨node, hnode⟩ := deref_ok hlive
  unfold StatementCountEstimatorPhase.estimateStatementCount
  simp only [if_true, hcount, hnode, ok_bind]
  have hthreshold := sameProfile_threshold s.2 n (threshold ≤ ∑ x ∈ reachableNodes g n, (s.2 x).piraOne.numStmts)
  refine ⟨fun r hrun => ?_, ?_⟩
  · obtain ⟨md', hmd', hret⟩ := bind_eq_ok.mp hrun
    cases hret
    refine ⟨hra', rfl, hthreshold.trans ?_⟩
    cases useCSInstr with
    | true => exact instrumentBodyless_sameProfile hmd'
    | false =>
      cases hmd'
      exact .refl _
  · cases useCSInstr with
    | false => exact ⟨fun _ hfalse => absurd hfalse (by decide), fun _ => ⟨_, rfl⟩⟩
    | true =>
      rw [forall_prop_of_true rfl, ← instrumentBodyless_profiledAt st hnode hthreshold]
      constructor
      · rintro ⟨r, hrun⟩
        obtain ⟨md', hmd', -⟩ := bind_eq_ok.mp hrun
        exact ⟨md', hmd'⟩
      · rintro ⟨md', hmd'⟩
        exact ⟨_, bind_eq_ok.mpr ⟨md', hmd', rfl⟩⟩

/-- The counts of the functions of `l` are stored. -/
def Stored (f : ℕ → ℤ) (md : MetaStore) (l : List ℕ) (s : UMap ℕ ℤ × MetaStore) : Prop :=
  (∀ n ∈ l, s.1.lookup n = some (f n)) ∧ SameProfile md s.2

theorem Stored.insert {f : ℕ → ℤ} {pre : List ℕ} {s' : UMap ℕ ℤ × MetaStore} (h : Stored f md pre s)
    (hs : s'.1 = s.1.insert n (f n)) (hsame : SameProfile s.2 s'.2) : Stored f md (pre ++ [n]) s' := by
  refine ⟨fun x hx => ?_, h.2.trans hsame⟩
  rw [hs, UMap.lookup_insert_ite]
  split_ifs with hxn
  · rw [← hxn]
  · exact h.1 x ((List.mem_append.mp hx).resolve_right fun hmem => hxn (List.mem_singleton.mp hmem))

theorem bodylessProfiled_iff :
    BodylessProfiled g md main ↔ ∀ n, Relation.ReflTransGen (Calls g) main n → ProfiledAt g md n :=
  ⟨fun h n hn node => h n node hn, fun h n node hn => h n hn node⟩

theorem BodylessProfiled.congr (hsame : SameProfile md md') : BodylessProfiled g md' main ↔ BodylessProfiled g md main := by
  rw [bodylessProfiled_iff, bodylessProfiled_iff]
  exact forall_congr' fun n => imp_congr_right fun _ => ProfiledAt.congr hsame

/-- A round stores the count of its start node, and stops only where profile data is needed and missing. -/
def StoresCount (g : Callgraph) (main : ℕ) (md : MetaStore) (f : ℕ → ℤ) (needsProfile : Bool)
    (body : ReachabilityAnalysis → UMap ℕ ℤ × MetaStore → ℕ → Except Exn (ReachabilityAnalysis × UMap ℕ ℤ × MetaStore)) : Prop :=
  ∀ (ra : ReachabilityAnalysis) (s : UMap ℕ ℤ × MetaStore) (n : ℕ), MainInv g main ra → g.hasNode n = true →
    Relation.ReflTransGen (Calls g) main n → SameProfile md s.2 →
    (∀ r, body ra s n = .ok r → MainInv g main r.1 ∧ r.2.1 = s.1.insert n (f n) ∧ SameProfile s.2 r.2.2) ∧
    ((∃ r, body ra s n = .ok r) ↔ (needsProfile = true → ProfiledAt g s.2 n))

/-- Such rounds store the counts of all reachable functions, if no slot is erased and the profile data is there. -/
theorem StoresCount.forReachable {f : ℕ → ℤ} {needsProfile : Bool}
    {body : ReachabilityAnalysis → UMap ℕ ℤ × MetaStore → ℕ → Except Exn (ReachabilityAnalysis × UMap ℕ ℤ × MetaStore)}
    (hbody : StoresCount g main md f needsProfile body) (hord : ∀ l, (order l).Perm l) (h₀ : MainInv g main (.create g))
    (hmain : g.hasNode main = true) (h : g.Wf) (counts : UMap ℕ ℤ) :
    (∀ r, Pgis.forReachable order g body (counts, md) = .ok r → Stored f md (reachableList g main) r) ∧
    ((∃ r, Pgis.forReachable order g body (counts, md) = .ok r) ↔
      (∀ i < g.nodes.length, g.hasNode i = true) ∧ (needsProfile = true → BodylessProfiled g md main)) := by
  refine ⟨fun r hrun => ?_, fun ⟨r, hrun⟩ => ⟨forReachable_live hrun, fun hneeds => bodylessProfiled_iff.mpr ?_⟩,
    fun ⟨hlive, hprofiled⟩ => ?_⟩
  · refine forReachable_inv hord h₀ (J := Stored f md) ⟨fun n hn => absurd hn List.not_mem_nil, .refl md⟩
      (fun pre n ra t r hra hlive hreach ht hround => ?_) hrun
    obtain ⟨hra', hcounts, hsame⟩ := (hbody ra t n hra hlive hreach ht.2).1 r hround
    exact ⟨hra', ht.insert hcounts hsame⟩
  · -- every round has returned, so none has missed the profile data of its function
    have hloop := forReachable_inv hord h₀ (s := (counts, md))
      (J := fun pre t => SameProfile md t.2 ∧ ∀ n ∈ pre, ProfiledAt g md n)
      ⟨.refl md, fun n hn => absurd hn List.not_mem_nil⟩ (fun pre n ra t r hra hlive hreach ht hround => ?_) hrun
    · exact fun n hn => hloop.2 n ((mem_reachableList h hmain).mpr hn)
    · obtain ⟨hspec, hreturns⟩ := hbody ra t n hra hlive hreach ht.1
      obtain ⟨hra', -, hsame⟩ := hspec r hround
      refine ⟨hra', ht.1.trans hsame, fun k hk => ?_⟩
      rcases List.mem_append.mp hk with hk | hk
      · exact ht.2 k hk
      · rw [List.mem_singleton.mp hk]
        exact (ProfiledAt.congr ht.1).mp (hreturns.mp ⟨r, hround⟩ hneeds)
  · obtain ⟨r, hloop, -⟩ := forReachable_total body hord h₀ hlive (s := (counts, md)) (J := fun t => SameProfile md t.2) (.refl md)
      fun n ra t hra hn hreach ht => by
        obtain ⟨hspec, hreturns⟩ := hbody ra t n hra hn hreach ht
        obtain ⟨r, hr⟩ := hreturns.mpr fun hneeds =>
          (ProfiledAt.congr ht).mpr (bodylessProfiled_iff.mp (hprofiled hneeds) n hreach)
        obtain ⟨hra', -, hsame⟩ := hspec r hr
        exact ⟨r, hr, hra', ht.trans hsame⟩
    exact ⟨r, hloop⟩

/-- A phase that sums up a count stores the counts of all reachable functions. -/
theorem SummingCountPhaseBase.modifyGraph_spec (st : HeuristicStore) (md : MetaStore) (h : g.Wf) (hord : ∀ l, (order l).Perm l)
    (hmain : MainInv g main (.create g)) (hmainLive : g.hasNode main = true)
    {phase : SummingCountPhaseBase} (hpSEP : phase.pSEP = none) (cuttoffMode : CuttoffSelection) {maxBranches : ℤ}
    (hinit : phase.runInitialization g = .ok maxBranches) :
    (∀ r, phase.modifyGraph order cuttoffMode g st md = .ok r →
      Stored (countOf g phase.inclusive (phase.getTargetCount maxBranches)) md (reachableList g main) (r.1.counts, r.2)) ∧
    ((∃ r, phase.modifyGraph order cuttoffMode g st md = .ok r) ↔
      (∀ i < g.nodes.length, g.hasNode i = true) ∧ BodylessProfiled g md main) := by
  have hround : StoresCount g main md (countOf g phase.inclusive (phase.getTargetCount maxBranches)) true
      (SummingCountPhaseBase.estimateCount order g st phase.inclusive phase.threshold (phase.getTargetCount maxBranches)) := by
    intro ra s n hra hlive hreach _
    rw [forall_prop_of_true rfl]
    exact estimateCount_spec h hord st _ _ _ s hra hlive hreach
  obtain ⟨hstored, hreturns⟩ := hround.forReachable hord hmain hmainLive h phase.counts
  rw [forall_prop_of_true rfl] at hreturns
  rw [← hreturns]
  unfold SummingCountPhaseBase.modifyGraph
  rw [hpSEP, hinit]
  simp only [ok_bind]
  refine ⟨fun r hrun => ?_, fun ⟨r, hrun⟩ => ?_, fun ⟨s, hloop⟩ => ⟨_, bind_eq_ok.mpr ⟨s, hloop, rfl⟩⟩⟩
  · obtain ⟨s, hloop, hret⟩ := bind_eq_ok.mp hrun
    cases hret
    exact hstored s hloop
  · obtain ⟨s, hloop, -⟩ := bind_eq_ok.mp hrun
    exact ⟨s, hloop⟩

/-- The phase that counts the statements stores the inclusive counts. -/
theorem StatementCountEstimatorPhase.modifyGraph_spec (st : HeuristicStore) (md : MetaStore) (h : g.Wf)
    (hord : ∀ l, (order l).Perm l) (hmain : MainInv g main (.create g)) (hmainLive : g.hasNode main = true)
    (config : StatisticsConfig) (threshold : ℤ) :
    (∀ r, (StatementCountEstimatorPhase.create threshold true none).modifyGraph order config g st md = .ok r →
      Stored (countOf g true fun x => (md x).piraOne.numStmts) md (reachableList g main) (r.1.inclStmtCounts, r.2)) ∧
    ((∃ r, (StatementCountEstimatorPhase.create threshold true none).modifyGraph order config g st md = .ok r) ↔
      (∀ i < g.nodes.length, g.hasNode i = true) ∧
        (config.useCallSiteInstrumentation = true → BodylessProfiled g md main)) := by
  have hround : StoresCount g main md (countOf g true fun x => (md x).piraOne.numStmts) config.useCallSiteInstrumentation
      (StatementCountEstimatorPhase.estimateStatementCount order g st config.useCallSiteInstrumentation true threshold) := by
    intro ra s n hra hlive hreach hs
    have hspec := estimateStatementCount_spec h hord st config.useCallSiteInstrumentation threshold s hra hlive hreach
    -- the rounds instrument functions, but their numbers of statements stay
    have hstmts : (fun x => (s.2 x).piraOne.numStmts) = fun x => (md x).piraOne.numStmts := funext fun x => by rw [(hs x).1]
    rw [hstmts] at hspec
    exact hspec
  obtain ⟨hstored, hreturns⟩ := hround.forReachable hord hmain hmainLive h ∅
  rw [← hreturns]
  unfold StatementCountEstimatorPhase.modifyGraph StatementCountEstimatorPhase.create
  simp only [ok_bind]
  refine ⟨fun r hrun => ?_, fun ⟨r, hrun⟩ => ?_, fun ⟨s, hloop⟩ => ⟨_, bind_eq_ok.mpr ⟨s, hloop, rfl⟩⟩⟩
  · obtain ⟨s, hloop, hret⟩ := bind_eq_ok.mp hrun
    cases hret
    exact hstored s hloop
  · obtain ⟨s, hloop, -⟩ := bind_eq_ok.mp hrun
    exact ⟨s, hloop⟩

end

end MetaCG.Pgis
