import MetaCG.Analysis.ReachabilityHistory
import MetaCG.Foundations.Collect
import MetaCG.Format.VersionTwoFidelity
import MetaCG.Graph.ByName
import MetaCG.Pgis.NodeMetaData

/-! `FillInstrumentationGapsPhase` (`IPCGEstimatorPhase.h`, `IPCGEstimatorPhase.cpp`) and `CgHelper::allNodesToMain`.

The analysis object has its own view of the graph, which differs from `g` in the cached main node alone. -/
namespace MetaCG.Pgis
open Foundations Analysis
set_option autoImplicit false
set_option maxHeartbeats 250000
set_option maxRecDepth 120000

/-- The loop of `allNodesToMain`. -/
def nodesToMainLoop (order : List ℕ → List ℕ) (g : Callgraph) (ra : ReachabilityAnalysis) (pNodes : List ℕ)
    (visitedNodes : Finset ℕ) (workQueue : List ℕ) : Except Exn (List ℕ × ReachabilityAnalysis) :=
  match workQueue with
  | [] => .ok (pNodes, ra)
  | node :: workQueue =>
    if _hnode : node ∈ visitedNodes then nodesToMainLoop order g ra pNodes visitedNodes workQueue
    else match ra.isReachableFromMain order node false with
      | .error e => .error e
      | .ok (false, ra) => nodesToMainLoop order g ra pNodes (insert node visitedNodes) workQueue
      | .ok (true, ra) =>
        match _hpns : getCallers order g node with
        | .error e => .error e
        | .ok pns => nodesToMainLoop order g ra (pNodes.insert node) (insert node visitedNodes) (workQueue ++ pns)
termination_by Search.pending (Finset.range g.nodes.length) visitedNodes workQueue
decreasing_by
  · exact Search.pending_skip _ le_rfl
  · exact Search.pending_skip _ (Finset.subset_insert ..)
  · exact Search.pending_visit (Finset.mem_range.mpr (Callgraph.hasNode_lt (live_of_neighbours _hpns))) _hnode ..

def allNodesToMain (order : List ℕ → List ℕ) (startNode mainNode : ℕ) (g : Callgraph) (init : UMap ℕ (List ℕ))
    (ra : ReachabilityAnalysis) : Except Exn (List ℕ × ReachabilityAnalysis) :=
  match init.lookup startNode with
  | some pNodes => .ok (pNodes, ra)
  | none => nodesToMainLoop order g ra [mainNode] ∅ [startNode]

/-- Without the explicit `parents` the callers are used. -/
def isEligibleForPathInstrumentation (order : List ℕ → List ℕ) (g : Callgraph) (node : ℕ) (parents : List ℕ) :
    Except Exn Bool := do
  if parents ≠ [] then parents.allM fun p => do return (← deref g p).hasBody
  else (← getCallers order g node).anyM fun p => do return (← deref g p).hasBody

/-- `nodesToFill` is a set that compares its nodes by their names. -/
structure FillInstrumentationGapsPhase where
  nodesToFill : OMap String ℕ
  useCSInstrumentation : Bool
  onlyEligibleNodes : Bool

/-- The constructor, with the two options that it reads. -/
def FillInstrumentationGapsPhase.create (useCSInstrumentation onlyEligibleNodes : Bool) : FillInstrumentationGapsPhase :=
  ⟨OMap.empty, useCSInstrumentation, onlyEligibleNodes⟩

/-- What the first loop of `modifyGraph` changes. -/
structure Gaps where
  ra : ReachabilityAnalysis
  pathsToMain : UMap ℕ (List ℕ)
  nodesToFill : OMap String ℕ

def fillUninstrumented (g : Callgraph) (md : MetaStore) (nodesToFill : OMap String ℕ) (ntm : ℕ) :
    Except Exn (OMap String ℕ) :=
  if isAnyInstrumented md ntm then .ok nodesToFill
  else do return nodesToFill.emplace (← deref g ntm).functionName ntm

def findGaps (order : List ℕ → List ℕ) (g : Callgraph) (md : MetaStore) (mainMethod : ℕ) (gaps : Gaps) (node : ℕ) :
    Except Exn Gaps := do
  let parents ← getCallers order g node
  if isAnyInstrumented md node && parents.any (fun p => !isAnyInstrumented md p) then
    let (nodesToMain, ra) ← allNodesToMain order node mainMethod g gaps.pathsToMain gaps.ra
    let nodesToFill ← (order nodesToMain).foldlM (fillUninstrumented g md) gaps.nodesToFill
    return ⟨ra, gaps.pathsToMain.insert node nodesToMain, nodesToFill⟩
  else return gaps

/-- The node is known to be never called. -/
def neverCalled (md : MetaStore) (node : ℕ) : Bool :=
  match (md node).instrumentationResult with
  | some mtd => decide (mtd.callCount = 0) && mtd.isExclusiveRuntime
  | none => false

def fillNode (order : List ℕ → List ℕ) (g : Callgraph) (phase : FillInstrumentationGapsPhase) (md : MetaStore) (ntf : ℕ) :
    Except Exn MetaStore := do
  if neverCalled md ntf then return md
  else
    let n ← deref g ntf
    if n.hasBody || isMPIFunction n || (!phase.onlyEligibleNodes && !phase.useCSInstrumentation) then
      return instrumentNode md ntf
    else if phase.useCSInstrumentation then
      if phase.onlyEligibleNodes then
        if ← isEligibleForPathInstrumentation order g ntf [] then return instrumentPathNode md ntf else return md
      else return instrumentPathNode md ntf
    else return md

def FillInstrumentationGapsPhase.modifyGraph (order : List ℕ → List ℕ) (g : Callgraph) (phase : FillInstrumentationGapsPhase)
    (md : MetaStore) (mainMethod : ℕ) : Except Exn (FillInstrumentationGapsPhase × MetaStore) := do
  let gaps ← (List.range g.nodes.length).foldlM (findGaps order g md mainMethod)
    ⟨ReachabilityAnalysis.create g, ∅, phase.nodesToFill⟩
  let phase := { phase with nodesToFill := gaps.nodesToFill }
  let md ← (phase.nodesToFill.entries.map Prod.snd).foldlM (fillNode order g phase) md
  return (phase, md)

/-! ## The ancestors of a node -/

/-- What holds of the analysis between two of its queries. -/
structure MainInv (g : Callgraph) (main : ℕ) (ra : ReachabilityAnalysis) : Prop where
  cache : ra.CacheInv
  edges : ra.cg.edges = g.edges
  main_eq : ra.main = some main
  covers : main ∈ ra.computedFor → ra.Covers (Calls ra.cg) main

section
variable {order : List ℕ → List ℕ} {g : Callgraph} {main : ℕ} {ra : ReachabilityAnalysis}

theorem MainInv.create (h : g.Wf) (hmain : (ReachabilityAnalysis.create g).main = some main) :
    MainInv g main (ReachabilityAnalysis.create g) where
  cache := .create h
  edges := rfl
  main_eq := hmain
  covers := fun hm => absurd hm (Finset.notMem_empty main)

/-- A graph that knows its main function is searched from it. -/
theorem mainInv_create {g' : Callgraph} (h : g.Wf) (hget : g.getMain false = .ok g') (hmain : g'.mainNode = some main) :
    MainInv g main (.create g) ∧ g.hasNode main = true := by
  have hget' : (ReachabilityAnalysis.create g).getMain = .ok (some main, { ReachabilityAnalysis.create g with cg := g' }) := by
    unfold ReachabilityAnalysis.getMain ReachabilityAnalysis.create
    rw [hget]
    simp only [hmain]
  refine ⟨.create h (ReachabilityAnalysis.main_eq_some.mpr ⟨_, hget'⟩), ?_⟩
  have hwf := h.getMain false
  rw [hget] at hwf
  have hlive : g'.hasNode main = true := Callgraph.Wf.main_live hwf main hmain
  rwa [(ReachabilityAnalysis.getMain_frame hget).1] at hlive

/-- A query about the main node is answered from the call edges. -/
theorem MainInv.isReachableFromMain (h : MainInv g main ra) (hord : ∀ l, (order l).Perm l) (node : ℕ) :
    ∃ b ra', ra.isReachableFromMain order node false = .ok (b, ra') ∧ MainInv g main ra' ∧
      (b = true ↔ Relation.ReflTransGen (Calls g) main node) := by
  obtain ⟨ra₁, hra₁⟩ := ReachabilityAnalysis.main_eq_some.mp h.main_eq
  obtain ⟨hcg, -, -⟩ := ReachabilityAnalysis.getMain_eq_ok hra₁
  have hcache : ra₁.CacheInv := h.cache.getMain hra₁
  have hmain : ra₁.cg.mainNode = some main := by rw [hcg]
  have hedges : ra₁.cg.edges = g.edges := by
    rw [hcg]
    exact h.edges
  have hcalls : Calls ra₁.cg = Calls g := by
    funext u v
    rw [Calls, Calls, hedges]
  have hcovers : main ∈ ra₁.computedFor → ra₁.Covers (Calls ra₁.cg) main := by
    rw [hcg]
    exact h.covers
  obtain ⟨R, ra₂, hquery⟩ := ReachabilityAnalysis.getReachableNodesFrom_returns hcache hord
    (hcache.wf.main_live main hmain) false
  have hans := ReachabilityAnalysis.getReachableNodesFrom_spec hcache hord hquery
  have hfresh : false = true ∨ main ∉ ra₁.computedFor ∨ ra₁.Covers (Calls ra₁.cg) main := by
    by_cases hm : main ∈ ra₁.computedFor
    · exact .inr (.inr (hcovers hm))
    · exact .inr (.inl hm)
  refine ⟨decide (node ∈ R), ra₂, ?_, ⟨hans.cacheInv hcache, ?_, ?_, fun _ => ?_⟩, ?_⟩
  · rw [ReachabilityAnalysis.isReachableFromMain_eq hcache hra₁, ReachabilityAnalysis.existsPathBetween_eq hcache, hquery]
    rfl
  · rw [hans.calls]
    exact hedges
  · rw [ReachabilityAnalysis.main_eq_some]
    exact ⟨ra₂, ReachabilityAnalysis.getMain_of_cached (by rw [hans.calls]; exact hmain)⟩
  · rw [hans.calls]
    by_cases hm : main ∈ ra₁.computedFor
    · exact hans.covers (fun _ _ he => he) (hcovers hm)
    · exact hans.covers_self (.inr hm)
  · rw [decide_eq_true_iff, hans.exact hcache hfresh, hcalls]

/-- The search goes from a node to its callers, and stops at the nodes that main does not reach. -/
def StepToMain (g : Callgraph) (main node caller : ℕ) : Prop :=
  Calls g caller node ∧ Relation.ReflTransGen (Calls g) main node

/-- The node is main or lies on a call path from main to `t`. -/
def ToMain (g : Callgraph) (main t n : ℕ) : Prop :=
  n = main ∨ (Relation.ReflTransGen (Calls g) main n ∧ Relation.ReflTransGen (Calls g) n t)

/-- Cutting the search at the nodes that main does not reach loses no path from main. -/
theorem stepsToMain_iff (g : Callgraph) (main s n : ℕ) :
    Relation.ReflTransGen (StepToMain g main) s n ∧ Relation.ReflTransGen (Calls g) main n ↔
      Relation.ReflTransGen (Calls g) main n ∧ Relation.ReflTransGen (Calls g) n s := by
  rw [and_comm]
  refine and_congr_right fun hn => ⟨fun h => ?_, fun h => ?_⟩
  · induction h with
    | refl => exact .refl
    | tail _ hstep ih => exact .head hstep.1 (ih hstep.2)
  · induction h using Relation.ReflTransGen.head_induction_on with
    | refl => exact .refl
    | head hcall _ ih => exact (ih (hn.tail hcall)).tail ⟨hcall, hn.tail hcall⟩

theorem nodesToMainLoop_spec (h : g.Wf) (hord : ∀ l, (order l).Perm l) {s : ℕ} {pNodes : List ℕ} {V : Finset ℕ} {Q : List ℕ}
    (hra : MainInv g main ra) (hf : Search.Frontier (StepToMain g main) s V Q) (hlive : ∀ n ∈ Q, g.hasNode n = true)
    (hp : ∀ n, n ∈ pNodes ↔ n = main ∨ (n ∈ V ∧ Relation.ReflTransGen (Calls g) main n)) :
    ∃ l ra', nodesToMainLoop order g ra pNodes V Q = .ok (l, ra') ∧ MainInv g main ra' ∧ ∀ n, n ∈ l ↔ ToMain g main s n := by
  fun_induction nodesToMainLoop order g ra pNodes V Q with
  | case1 ra pNodes V =>
    refine ⟨pNodes, ra, rfl, hra, fun n => ?_⟩
    rw [hp, hf.done, stepsToMain_iff, ToMain]
  | case2 ra pNodes V node Q hvisited ih =>
    exact ih hra (hf.skip hvisited) (fun n hn => hlive n (List.mem_cons_of_mem node hn)) hp
  | case3 ra pNodes V node Q hnew e he =>
    obtain ⟨b, ra', hok, -, -⟩ := hra.isReachableFromMain hord node
    rw [he] at hok
    cases hok
  | case4 ra pNodes V node Q hnew ra' hq ih =>
    obtain ⟨b, ra'', hok, hra', hb⟩ := hra.isReachableFromMain hord node
    rw [hq] at hok
    cases hok
    have hunreached : ¬Relation.ReflTransGen (Calls g) main node := fun hreach => Bool.false_ne_true (hb.mpr hreach)
    have hvisit : Search.Frontier (StepToMain g main) s (insert node V) (Q ++ []) := hf.visitAll fun v =>
      ⟨fun hv => absurd hv List.not_mem_nil, fun hstep => absurd hstep.2 hunreached⟩
    rw [List.append_nil] at hvisit
    refine ih hra' hvisit (fun n hn => hlive n (List.mem_cons_of_mem node hn)) fun n => ?_
    rw [hp, Finset.mem_insert]
    refine or_congr_right ⟨fun hn => ⟨.inr hn.1, hn.2⟩, fun hn => ⟨hn.1.resolve_left ?_, hn.2⟩⟩
    rintro rfl
    exact hunreached hn.2
  | case5 ra pNodes V node Q hnew ra' hq e he =>
    obtain ⟨pns, hok, -, -⟩ := getCallers_ok h hord (hlive node (List.mem_cons_self ..))
    rw [he] at hok
    cases hok
  | case6 ra pNodes V node Q hnew ra' hq pns hpns ih =>
    obtain ⟨b, ra'', hok, hra', hb⟩ := hra.isReachableFromMain hord node
    rw [hq] at hok
    cases hok
    have hreached : Relation.ReflTransGen (Calls g) main node := hb.mp rfl
    refine ih hra' (hf.visitAll fun v => ?_) (fun n hn => ?_) fun n => ?_
    · rw [mem_getCallers h hord hpns, StepToMain, and_iff_left hreached]
    · rcases List.mem_append.mp hn with hn | hn
      · exact hlive n (List.mem_cons_of_mem node hn)
      · exact (h.edge_live n node ((mem_getCallers h hord hpns n).mp hn)).1
    · rw [List.mem_insert_iff, hp, Finset.mem_insert]
      constructor
      · rintro (rfl | rfl | ⟨hn, hreach⟩)
        · exact .inr ⟨.inl rfl, hreached⟩
        · exact .inl rfl
        · exact .inr ⟨.inr hn, hreach⟩
      · rintro (rfl | ⟨rfl | hn, hreach⟩)
        · exact .inr (.inl rfl)
        · exact .inl rfl
        · exact .inr (.inr ⟨hn, hreach⟩)

/-- The sets that are cached are the sets that a search would find. -/
def PathsRight (g : Callgraph) (main : ℕ) (pathsToMain : UMap ℕ (List ℕ)) : Prop :=
  ∀ s l, pathsToMain.lookup s = some l → ∀ n, n ∈ l ↔ ToMain g main s n

theorem allNodesToMain_spec (h : g.Wf) (hord : ∀ l, (order l).Perm l) {s : ℕ} (hs : g.hasNode s = true)
    {init : UMap ℕ (List ℕ)} (hra : MainInv g main ra) (hinit : PathsRight g main init) :
    ∃ l ra', allNodesToMain order s main g init ra = .ok (l, ra') ∧ MainInv g main ra' ∧ ∀ n, n ∈ l ↔ ToMain g main s n := by
  unfold allNodesToMain
  cases hl : init.lookup s with
  | some l => exact ⟨l, ra, rfl, hra, hinit s l hl⟩
  | none =>
    refine nodesToMainLoop_spec h hord hra .initial (fun n hn => ?_) fun n => ?_
    · rw [List.mem_singleton.mp hn]
      exact hs
    · simp

end

/-! ## The nodes to fill -/

/-- The set holds the nodes of `S`, each under its name. -/
def Holds (g : Callgraph) (nodesToFill : OMap String ℕ) (S : Set ℕ) : Prop :=
  ∀ name n, nodesToFill.find name = some n ↔ g.nameOf n = some name ∧ n ∈ S

section
variable {g : Callgraph} {md : MetaStore} {fill : OMap String ℕ} {S : Set ℕ}

theorem nameOf_inj (h : g.Wf) (hnames : VersionTwo.UniqueNames g) {i k : ℕ} {name : String} (hi : g.nameOf i = some name)
    (hk : g.nameOf k = some name) : i = k := by
  obtain ⟨n, hn, hname⟩ := (Callgraph.nameOf_eq_some i name).mp hi
  obtain ⟨m, hm, hname'⟩ := (Callgraph.nameOf_eq_some k name).mp hk
  exact hnames.slot_inj h hn hm (hname.trans hname'.symm)

theorem Holds.empty : Holds g OMap.empty ∅ := by
  intro name n
  refine ⟨fun hn => ?_, fun hn => absurd hn.2 (Set.notMem_empty n)⟩
  cases hn

theorem Holds.emplace (h : g.Wf) (hnames : VersionTwo.UniqueNames g) (hS : Holds g fill S) {k : ℕ} {name : String}
    (hk : g.nameOf k = some name) : Holds g (fill.emplace name k) (insert k S) := by
  intro name' n
  rw [OMap.find_emplace, Option.or_eq_some_iff, hS]
  constructor
  · rintro (⟨hn, hmem⟩ | ⟨-, hnew⟩)
    · exact ⟨hn, .inr hmem⟩
    · split_ifs at hnew with hname
      cases hnew
      exact ⟨hname ▸ hk, .inl rfl⟩
  · rintro ⟨hn, rfl | hmem⟩
    · rw [hk] at hn
      cases hn
      cases hfind : fill.find name with
      | none => exact .inr ⟨rfl, if_pos rfl⟩
      | some m =>
        have hm := (hS name m).mp hfind
        rw [nameOf_inj h hnames hm.1 hk] at hm
        exact .inl hm
    · exact .inl ⟨hn, hmem⟩

theorem fillUninstrumented_spec (md : MetaStore) (h : g.Wf) (hnames : VersionTwo.UniqueNames g) (hS : Holds g fill S) {ntm : ℕ}
    (hlive : g.hasNode ntm = true) :
    ∃ fill', fillUninstrumented g md fill ntm = .ok fill' ∧
      Holds g fill' (S ∪ {n | n = ntm ∧ isAnyInstrumented md n = false}) := by
  unfold fillUninstrumented
  split_ifs with hins
  · refine ⟨fill, rfl, ?_⟩
    have hnone : {n | n = ntm ∧ isAnyInstrumented md n = false} = ∅ := by
      refine Set.eq_empty_of_forall_notMem fun n hn => ?_
      obtain ⟨rfl, hn⟩ := hn
      rw [hins] at hn
      cases hn
    rwa [hnone, Set.union_empty]
  · obtain ⟨p, hp⟩ := deref_ok hlive
    have hname : g.nameOf ntm = some p.functionName := (Callgraph.nameOf_eq_some ntm _).mpr ⟨p, deref_eq_ok.mp hp, rfl⟩
    have hone : S ∪ {n | n = ntm ∧ isAnyInstrumented md n = false} = insert ntm S := by
      refine Set.ext fun n => ?_
      rw [Set.mem_union, Set.mem_ofPred_eq, Set.mem_insert_iff, or_comm]
      refine or_congr_left (and_iff_left_of_imp ?_)
      rintro rfl
      exact Bool.eq_false_iff.mpr hins
    rw [hp, hone]
    exact ⟨_, rfl, hS.emplace h hnames hname⟩

theorem fillUninstrumented_all (md : MetaStore) (h : g.Wf) (hnames : VersionTwo.UniqueNames g) (hS : Holds g fill S) {l : List ℕ}
    (hlive : ∀ n ∈ l, g.hasNode n = true) :
    ∃ fill', l.foldlM (fillUninstrumented g md) fill = .ok fill' ∧
      Holds g fill' (S ∪ {n | n ∈ l ∧ isAnyInstrumented md n = false}) := by
  have hloop := foldlM_stopsIf (f := fillUninstrumented g md) (l := l) (B := fun _ => False) (G := fun S fill => Holds g fill S)
    (Q := fun ntm => {n | n = ntm ∧ isAnyInstrumented md n = false}) (fun _ _ _ hb => hb) (fun S fill ntm hntm _ hS => by
      obtain ⟨fill', hok, hS'⟩ := fillUninstrumented_spec md h hnames hS (hlive ntm hntm)
      exact .inl ⟨fill', hok, id, hS'⟩) id hS
  obtain ⟨fill', hok, -, hS'⟩ | ⟨-, hb⟩ := hloop
  · refine ⟨fill', hok, ?_⟩
    simpa using hS'
  · exact hb.elim

end

/-- `findGaps` searches from an instrumented node with a caller that is not. -/
def Uncovered (g : Callgraph) (md : MetaStore) (s : ℕ) : Prop :=
  isAnyInstrumented md s = true ∧ ∃ p, Calls g p s ∧ isAnyInstrumented md p = false

/-- The nodes that a search from `s` finds not to be instrumented. -/
def gapsFrom (g : Callgraph) (md : MetaStore) (main s : ℕ) : Set ℕ :=
  {n | Uncovered g md s ∧ ToMain g main s n ∧ isAnyInstrumented md n = false}

structure GapsInv (g : Callgraph) (main : ℕ) (gaps : Gaps) (S : Set ℕ) : Prop where
  ra : MainInv g main gaps.ra
  paths : PathsRight g main gaps.pathsToMain
  holds : Holds g gaps.nodesToFill S

section
variable {order : List ℕ → List ℕ} {g : Callgraph} {main : ℕ} {md : MetaStore} {gaps : Gaps} {S : Set ℕ}

theorem live_of_findGaps {gaps' : Gaps} {node : ℕ} (hf : findGaps order g md main gaps node = .ok gaps') :
    g.hasNode node = true := by
  unfold findGaps at hf
  cases hc : getCallers order g node with
  | error e => rw [hc] at hf; cases hf
  | ok parents => exact live_of_neighbours hc

theorem ToMain.live (h : g.Wf) (hmain : g.hasNode main = true) {s n : ℕ} (hn : ToMain g main s n) : g.hasNode n = true := by
  rcases hn with rfl | ⟨hreach, -⟩
  · exact hmain
  · rcases Relation.ReflTransGen.cases_tail hreach with rfl | ⟨u, -, hcall⟩
    · exact hmain
    · exact (h.edge_live u n hcall).2

theorem findGaps_spec (md : MetaStore) (h : g.Wf) (hord : ∀ l, (order l).Perm l) (hnames : VersionTwo.UniqueNames g)
    (hmain : g.hasNode main = true) (hS : GapsInv g main gaps S) {node : ℕ} (hlive : g.hasNode node = true) :
    ∃ gaps', findGaps order g md main gaps node = .ok gaps' ∧ GapsInv g main gaps' (S ∪ gapsFrom g md main node) := by
  obtain ⟨parents, hparents, -, hmem⟩ := getCallers_ok h hord hlive
  have hcond : (isAnyInstrumented md node && parents.any (fun p => !isAnyInstrumented md p)) = true ↔ Uncovered g md node := by
    rw [Bool.and_eq_true, List.any_eq_true, Uncovered]
    simp only [hmem, Bool.not_eq_true']
  unfold findGaps
  rw [hparents]
  simp only [bind, Except.bind]
  split_ifs with hc
  · have hunc : Uncovered g md node := hcond.mp hc
    obtain ⟨l, ra', hl, hra', hl'⟩ := allNodesToMain_spec h hord hlive hS.ra hS.paths
    have hnodes : ∀ n ∈ order l, g.hasNode n = true := by
      intro n hn
      rw [(hord l).mem_iff, hl'] at hn
      exact hn.live h hmain
    obtain ⟨fill', hfill, hholds⟩ := fillUninstrumented_all md h hnames hS.holds hnodes
    rw [hl]
    simp only [hfill]
    refine ⟨_, rfl, hra', fun s k hs => ?_, ?_⟩
    · by_cases hsn : s = node
      · subst hsn
        rw [AList.lookup_insert] at hs
        cases hs
        exact hl'
      · rw [AList.lookup_insert_ne hsn] at hs
        exact hS.paths s k hs
    · have hset : {n | n ∈ order l ∧ isAnyInstrumented md n = false} = gapsFrom g md main node := by
        refine Set.ext fun n => ?_
        rw [Set.mem_ofPred_eq, (hord l).mem_iff, hl', gapsFrom, Set.mem_ofPred_eq, and_iff_right hunc]
      rwa [hset] at hholds
  · have hnone : gapsFrom g md main node = ∅ :=
      Set.eq_empty_of_forall_notMem fun n hn => hc (hcond.mpr hn.1)
    rw [hnone, Set.union_empty]
    exact ⟨gaps, rfl, hS⟩

/-- The nodes that the searches find. -/
def gapsOf (g : Callgraph) (md : MetaStore) (main : ℕ) : Set ℕ := {n | ∃ s, n ∈ gapsFrom g md main s}

/-- The first loop of `modifyGraph` fails on an erased slot and otherwise finds all gaps. -/
theorem findGaps_loop (md : MetaStore) (h : g.Wf) (hord : ∀ l, (order l).Perm l) (hnames : VersionTwo.UniqueNames g)
    (hmain : g.hasNode main = true) (h₀ : GapsInv g main gaps ∅) :
    StopsIf (∃ i < g.nodes.length, g.hasNode i = false) (fun gaps' => GapsInv g main gaps' (gapsOf g md main))
      ((List.range g.nodes.length).foldlM (findGaps order g md main) gaps) := by
  have hloop := foldlM_stopsIf (f := findGaps order g md main) (l := List.range g.nodes.length) (S := ∅) (s := gaps)
    (B := fun V => ∃ i ∈ V, g.hasNode i = false) (G := fun V gaps => GapsInv g main gaps {n | ∃ s ∈ V, n ∈ gapsFrom g md main s})
    (Q := fun i => {i}) (fun V V' hV ⟨i, hi, hdead⟩ => ⟨i, hV hi, hdead⟩) (fun V gaps i _ hok hV => ?_) (by simp)
    (by simpa using h₀)
  · refine hloop.congr (by simp) fun gaps' hgaps => ?_
    have hset : {n | ∃ s ∈ ({s | ∃ a ∈ List.range g.nodes.length, s ∈ ({a} : Set ℕ)} : Set ℕ), n ∈ gapsFrom g md main s} =
        gapsOf g md main := by
      refine Set.ext fun n => exists_congr fun s => and_iff_right_of_imp fun hn => ?_
      obtain ⟨p, hp, -⟩ := hn.1.2
      exact ⟨s, List.mem_range.mpr (h.edge_lt hp).2, rfl⟩
    rwa [Set.empty_union, hset] at hgaps
  · cases hlive : g.hasNode i with
    | false =>
      refine .inr ⟨?_, i, .inr rfl, hlive⟩
      cases hf : findGaps order g md main gaps i with
      | error e => exact ⟨e, rfl⟩
      | ok gaps' =>
        rw [live_of_findGaps hf] at hlive
        cases hlive
    | true =>
      obtain ⟨gaps', hf, hgaps⟩ := findGaps_spec md h hord hnames hmain hV hlive
      refine .inl ⟨gaps', hf, ?_, ?_⟩
      · rintro ⟨k, hk | rfl, hdead⟩
        · exact hok ⟨k, hk, hdead⟩
        · rw [hlive] at hdead
          cases hdead
      · have hset : {n | ∃ s ∈ V, n ∈ gapsFrom g md main s} ∪ gapsFrom g md main i =
            {n | ∃ s ∈ V ∪ {i}, n ∈ gapsFrom g md main s} := by
          refine Set.ext fun n => ?_
          simp only [Set.mem_union, Set.mem_ofPred_eq, Set.mem_singleton_iff, or_and_right, exists_or, exists_eq_left]
        rwa [hset] at hgaps

/-! ## Filling -/

theorem fillNode_spec (order : List ℕ → List ℕ) (md : MetaStore) {phase : FillInstrumentationGapsPhase}
    (helig : phase.onlyEligibleNodes = false) {ntf : ℕ} (hlive : g.hasNode ntf = true) :
    ∃ md', fillNode order g phase md ntf = .ok md' ∧ (∀ n, neverCalled md' n = neverCalled md n) ∧
      ∀ n, isAnyInstrumented md' n = true ↔ isAnyInstrumented md n = true ∨ (n = ntf ∧ neverCalled md n = false) := by
  have hstate : ∀ state n, neverCalled (setInstrumentation md ntf state) n = neverCalled md n := by
    intro state n
    by_cases hn : n = ntf
    · subst hn
      rw [neverCalled, setInstrumentation, MetaStore.update_same]
      rfl
    · rw [neverCalled, setInstrumentation, MetaStore.update_other md hn]
      rfl
  unfold fillNode
  cases hzero : neverCalled md ntf with
  | true =>
    refine ⟨md, rfl, fun _ => rfl, fun n => (or_iff_left ?_).symm⟩
    rintro ⟨rfl, hn⟩
    rw [hzero] at hn
    cases hn
  | false =>
    obtain ⟨p, hp⟩ := deref_ok hlive
    have hor : ∀ n, (decide (n = ntf) || isAnyInstrumented md n) = true ↔
        isAnyInstrumented md n = true ∨ (n = ntf ∧ neverCalled md n = false) := by
      intro n
      rw [Bool.or_eq_true, decide_eq_true_iff, or_comm]
      refine or_congr_right (and_iff_left_of_imp ?_).symm
      rintro rfl
      exact hzero
    rw [hp, helig]
    simp only [Bool.false_eq_true, if_false, bind, Except.bind, Bool.not_false, Bool.true_and]
    split_ifs with hbody hcs
    · exact ⟨_, rfl, hstate _, fun n => by rw [isAnyInstrumented_instrumentNode, hor]⟩
    · exact ⟨_, rfl, hstate _, fun n => by rw [isAnyInstrumented_instrumentPathNode, hor]⟩
    · simp [hcs] at hbody

theorem fillNode_loop (order : List ℕ → List ℕ) (md : MetaStore) (phase : FillInstrumentationGapsPhase)
    (helig : phase.onlyEligibleNodes = false) {l : List ℕ} (hlive : ∀ n ∈ l, g.hasNode n = true) :
    ∃ md', l.foldlM (fillNode order g phase) md = .ok md' ∧
      ∀ n, isAnyInstrumented md' n = true ↔ isAnyInstrumented md n = true ∨ (n ∈ l ∧ neverCalled md n = false) := by
  have hloop := foldlM_total (f := fillNode order g phase) (l := l) (s := md) (J := fun pre md' =>
    (∀ n, neverCalled md' n = neverCalled md n) ∧
      ∀ n, isAnyInstrumented md' n = true ↔ isAnyInstrumented md n = true ∨ (n ∈ pre ∧ neverCalled md n = false))
    ⟨fun _ => rfl, fun n => by simp⟩ (fun pre ntf md₁ hpre hJ => ?_)
  · obtain ⟨md', hok, -, hmd'⟩ := hloop
    exact ⟨md', hok, hmd'⟩
  · obtain ⟨md₂, hok, hnever, hins⟩ := fillNode_spec order md₁ helig
      (hlive ntf (hpre.subset (List.mem_append_right _ (List.mem_singleton_self ntf))))
    refine ⟨md₂, hok, fun n => (hnever n).trans (hJ.1 n), fun n => ?_⟩
    rw [hins, hJ.2, hJ.1, List.mem_append, List.mem_singleton, or_assoc, ← or_and_right]

/-- After the phase the gaps are instrumented, apart from the nodes that are never called. -/
theorem modifyGraph_spec (md : MetaStore) (h : g.Wf) (hord : ∀ l, (order l).Perm l) (hnames : VersionTwo.UniqueNames g)
    {g' : Callgraph} (hget : g.getMain false = .ok g') (hmain : g'.mainNode = some main) (useCS : Bool) :
    StopsIf (∃ i < g.nodes.length, g.hasNode i = false)
      (fun r : FillInstrumentationGapsPhase × MetaStore => ∀ n, isAnyInstrumented r.2 n = true ↔
        isAnyInstrumented md n = true ∨ (n ∈ gapsOf g md main ∧ neverCalled md n = false))
      ((FillInstrumentationGapsPhase.create useCS false).modifyGraph order g md main) := by
  obtain ⟨hinv, hlive⟩ := mainInv_create h hget hmain
  have h₀ : GapsInv g main ⟨ReachabilityAnalysis.create g, ∅, OMap.empty⟩ ∅ :=
    ⟨hinv, fun s l hl => (by cases hl), Holds.empty⟩
  refine (findGaps_loop md h hord hnames hlive h₀).bind id fun gaps' hok hgaps => ?_
  have hfill : ∀ n, n ∈ gaps'.nodesToFill.entries.map Prod.snd ↔ n ∈ gapsOf g md main := by
    intro n
    simp only [List.mem_map, Prod.exists, exists_eq_right, OMap.mem_entries, hgaps.holds _ n]
    refine ⟨fun ⟨_, _, hn⟩ => hn, fun hn => ?_⟩
    obtain ⟨s, hs⟩ := hn
    obtain ⟨name, hname⟩ := Callgraph.nameOf_of_hasNode (hs.2.1.live h hlive)
    exact ⟨name, hname, s, hs⟩
  obtain ⟨md', hmd', hins⟩ := fillNode_loop (g := g) order md
    { FillInstrumentationGapsPhase.create useCS false with nodesToFill := gaps'.nodesToFill } rfl
    (l := gaps'.nodesToFill.entries.map Prod.snd) fun n hn => by
      obtain ⟨s, hs⟩ := (hfill n).mp hn
      exact hs.2.1.live h hlive
  refine .inl ⟨({ FillInstrumentationGapsPhase.create useCS false with nodesToFill := gaps'.nodesToFill }, md'), ?_, hok,
    fun n => ?_⟩
  · simp only [bind, Except.bind, hmd']
    rfl
  · rw [hins, hfill]

/-- `md` becomes `md'` without a hole: nodes on a path from main to an instrumented node are instrumented, apart
from those that are never called; instrumentation is kept, and beside main only such nodes get it. -/
structure NoHoles (g : Callgraph) (main : ℕ) (md md' : MetaStore) : Prop where
  filled : ∀ n t, isAnyInstrumented md t = true → Relation.ReflTransGen (Calls g) main n →
    Relation.ReflTransGen (Calls g) n t → neverCalled md n = false → isAnyInstrumented md' n = true
  kept : ∀ n, isAnyInstrumented md n = true → isAnyInstrumented md' n = true
  needed : ∀ n, isAnyInstrumented md' n = true → isAnyInstrumented md n = false → n ≠ main →
    ∃ t, isAnyInstrumented md t = true ∧ Relation.ReflTransGen (Calls g) main n ∧ Relation.ReflTransGen (Calls g) n t

/-- Filling the gaps leaves no hole. -/
theorem noHoles_of_filled {md md' : MetaStore} (hins : ∀ n, isAnyInstrumented md' n = true ↔
    isAnyInstrumented md n = true ∨ (n ∈ gapsOf g md main ∧ neverCalled md n = false)) : NoHoles g main md md' where
  filled := by
    intro n t ht hn hnt hcalled
    rw [hins]
    by_cases hin : isAnyInstrumented md n = true
    · exact .inl hin
    · -- the first instrumented node behind `n` has a caller that is not instrumented
      obtain ⟨u, v, hnu, huv, hu, hv⟩ := exists_crossing (P := fun k => isAnyInstrumented md k = true) hnt hin ht
      exact .inr ⟨⟨v, ⟨hv, u, huv, Bool.eq_false_iff.mpr hu⟩, .inr ⟨hn, hnu.tail huv⟩, Bool.eq_false_iff.mpr hin⟩, hcalled⟩
  kept := fun n hn => (hins n).mpr (.inl hn)
  needed := by
    intro n hn hnot hne
    rcases (hins n).mp hn with hin | ⟨⟨s, hunc, hto, -⟩, -⟩
    · rw [hnot] at hin
      cases hin
    · obtain ⟨hreach, hns⟩ := hto.resolve_left hne
      exact ⟨s, hunc.1, hreach, hns⟩

/-- The phase comes to its end without a hole exactly if no node of the graph has been erased. -/
theorem modifyGraph_noHoles {order : List ℕ → List ℕ} (hord : ∀ l, (order l).Perm l) {g g' : Callgraph} (h : g.Wf)
    (hnames : VersionTwo.UniqueNames g) {main : ℕ} (hget : g.getMain false = .ok g') (hmain : g'.mainNode = some main)
    (useCSInstrumentation : Bool) (md : MetaStore) :
    (∃ phase md', (FillInstrumentationGapsPhase.create useCSInstrumentation false).modifyGraph order g md main =
      .ok (phase, md') ∧ NoHoles g main md md') ↔ ∀ i < g.nodes.length, g.hasNode i = true := by
  have hspec := modifyGraph_spec md h hord hnames hget hmain useCSInstrumentation
  constructor
  · rintro ⟨phase, md', hrun, -⟩ i hi
    obtain ⟨_, -, hlive, -⟩ | ⟨⟨e, he⟩, -⟩ := hspec
    · by_contra hdead
      exact hlive ⟨i, hi, Bool.eq_false_iff.mpr hdead⟩
    · rw [hrun] at he
      cases he
  · intro hall
    obtain ⟨⟨phase, md'⟩, hrun, -, hins⟩ | ⟨-, i, hi, hdead⟩ := hspec
    · exact ⟨phase, md', hrun, noHoles_of_filled hins⟩
    · rw [hall i hi] at hdead
      cases hdead

end

/-- `main` calls `f` and `f` calls `g`. -/
def callChain : Callgraph :=
  Callgraph.run 0 [.insert "main" none false true, .insert "f" none false true, .insert "g" none false true, .addEdge 0 1,
    .addEdge 1 2]

theorem modifyGraph_noHoles_callChain :
    ∃ phase md', (FillInstrumentationGapsPhase.create true false).modifyGraph id callChain
        (instrumentPathNode (fun _ => .create) 2) 0 = .ok (phase, md') ∧ isAnyInstrumented md' 1 = true := by
  obtain ⟨g', hget, hmain⟩ : ∃ g', callChain.getMain false = .ok g' ∧ g'.mainNode = some 0 := ⟨_, rfl, by decide⟩
  obtain ⟨phase, md', hrun, hholes⟩ := (modifyGraph_noHoles (fun l => List.Perm.refl l) (Callgraph.run_wf 0 _) (by decide)
    hget hmain true (instrumentPathNode (fun _ => .create) 2)).mpr (by decide)
  exact ⟨phase, md', hrun, hholes.filled 1 2 (by decide) (.single (by decide)) (.single (by decide)) (by decide)⟩

/-- `main` calls `f`; a third function has been erased. -/
def erasedChain : Callgraph :=
  Callgraph.run 0 [.insert "main" none false true, .insert "f" none false true, .insert "g" none false true, .addEdge 0 1,
    .erase 2]

/-- The loop over the nodes reads the erased one. -/
theorem modifyGraph_erasedChain : erasedChain.Wf ∧ VersionTwo.UniqueNames erasedChain ∧
    (∃ g', erasedChain.getMain false = .ok g' ∧ g'.mainNode = some 0) ∧
      ∀ useCSInstrumentation md r,
        (FillInstrumentationGapsPhase.create useCSInstrumentation false).modifyGraph id erasedChain md 0 ≠ .ok r := by
  obtain ⟨g', hget, hmain⟩ : ∃ g', erasedChain.getMain false = .ok g' ∧ g'.mainNode = some 0 := ⟨_, rfl, by decide⟩
  have hwf : erasedChain.Wf := Callgraph.run_wf 0 _
  have hnames : VersionTwo.UniqueNames erasedChain := by decide
  refine ⟨hwf, hnames, ⟨g', hget, hmain⟩, fun useCSInstrumentation md r hrun => ?_⟩
  have hord : ∀ l : List ℕ, (id l).Perm l := fun l => List.Perm.refl l
  have hspec := modifyGraph_spec md hwf hord hnames hget hmain useCSInstrumentation
  obtain ⟨_, -, hlive, -⟩ | ⟨⟨e, he⟩, -⟩ := hspec
  · exact hlive ⟨2, by decide, by decide⟩
  · rw [hrun] at he
    cases he

end MetaCG.Pgis
