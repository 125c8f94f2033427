import MetaCG.Pgis.FillInstrumentationGaps
import MetaCG.Pgis.GreedyKnapsack
import MetaCG.Pgis.KickNodes

/-! `RuntimeEstimatorPhase::modifyGraphOverhead` (`IPCGEstimatorPhase.cpp`) and its exploration loop.

A `std::map` from nodes is kept by the addresses of the nodes. What is only logged is left out. -/
namespace MetaCG.Pgis
open Foundations Analysis
set_option autoImplicit false
set_option maxHeartbeats 250000
set_option maxRecDepth 120000

/-- What `modifyGraphOverhead` reads besides the graph and its metadata. -/
structure OverheadPhase extends OverheadConfig where
  thresholdHotspotInclusive : ℚ
  thresholdHotspotExclusive : ℚ
  budgetForExploration : ℚ
  relativeOverhead : ℚ
  overheadAlgorithm : OverheadSelection
  algorithms : Algorithms
  addr : ℕ → ℕ

/-- `childsToPotentialInstrumentCollection`: the candidates, each with the callers through which it was found. -/
abbrev Collection := OMap ℕ (ℕ × List ℕ)

/-- The test whether a node is instrumented itself or only on its paths. -/
def instrumentsItself (config : OverheadConfig) (n : CgNode) : Bool :=
  n.hasBody || isMPIFunction n || (!config.onlyEligibleNodes && !config.useCSInstrumentation)

/-! ## The profiled nodes -/

/-- The variables of the second loop. -/
structure Profiled where
  md : MetaStore
  nodesNoHotspot : List ℕ
  nodeInclusiveHotspot : List ℕ

def instrumentFromCube (config : OverheadConfig) (md : MetaStore) (node : ℕ) (n : CgNode) : MetaStore :=
  if instrumentsItself config n then instrumentNode md node
  else if config.useCSInstrumentation then instrumentPathNode md node
  else md

def markParentHighRuntime (md : MetaStore) (C : ℕ) : MetaStore :=
  setDecision md C { decisionOf md C with parentHasHighExclusiveRuntime := true }

def instrumentProfiled (order : List ℕ → List ℕ) (g : Callgraph) (phase : OverheadPhase) (mainRuntimeInclusive : ℚ)
    (st : Profiled) (node : ℕ) : Except Exn Profiled := do
  let n ← deref g node
  if !(st.md node).piraOne.wasInPreviousProfile then return st
  let md := instrumentFromCube phase.toOverheadConfig st.md node n
  match (md node).instrumentationResult with
  | none => throw .nullDereference
  | some irmd =>
    if irmd.inclusiveRunTimeSum ≥ mainRuntimeInclusive * phase.thresholdHotspotInclusive ∨
        irmd.runtime ≥ mainRuntimeInclusive * phase.thresholdHotspotExclusive then
      let st := { st with nodeInclusiveHotspot := st.nodeInclusiveHotspot ++ [node] }
      if irmd.runtime ≥ mainRuntimeInclusive * phase.thresholdHotspotExclusive then
        let callees ← getCallees order g node
        return { st with md := callees.foldl markParentHighRuntime md }
      else return { st with md }
    else return { st with md, nodesNoHotspot := st.nodesNoHotspot ++ [node] }

/-! ## The candidates -/

/-- `childsToPotentialInstrumentCollection[C].push_back(node)` -/
def addChild (addr : ℕ → ℕ) (md : MetaStore) (node : ℕ) (collection : Collection) (C : ℕ) : Collection :=
  if isAnyInstrumented md C then collection
  else collection.insertWith (fun old new => (old.1, old.2 ++ new.2)) (addr C) (C, [node])

def collectChildren (order : List ℕ → List ℕ) (g : Callgraph) (addr : ℕ → ℕ) (md : MetaStore) (collection : Collection)
    (node : ℕ) : Except Exn Collection := do
  return (← getCallees order g node).foldl (addChild addr md node) collection

/-- The direct children of the profiled nodes that were not kicked. -/
def collectDirect (order : List ℕ → List ℕ) (g : Callgraph) (addr : ℕ → ℕ) (md : MetaStore) (collection : Collection)
    (node : ℕ) : Except Exn Collection := do
  let _ ← deref g node
  if !(md node).piraOne.wasInPreviousProfile then return collection
  match (md node).decision with
  | none => throw .nullDereference
  | some d => if d.isKicked then return collection else collectChildren order g addr md collection node

/-- The tests of `filterEligible`. -/
def isEligible (order : List ℕ → List ℕ) (g : Callgraph) (config : OverheadConfig) (md : MetaStore) (C : ℕ) (parents : List ℕ) :
    Except Exn Bool := do
  if neverCalled md C then return false
  match (md C).decision with
  | none => throw .nullDereference
  | some d =>
    if !hasCallsFromParents d then return false
    if instrumentsItself config (← deref g C) then return true
    if config.useCSInstrumentation then
      if config.onlyEligibleNodes then isEligibleForPathInstrumentation order g C parents else return true
    else return false

def filterEligible (order : List ℕ → List ℕ) (g : Callgraph) (phase : OverheadPhase) (md : MetaStore) (collection : Collection)
    (candidates : List ℕ) : Except Exn (List ℕ) :=
  collection.entries.foldlM (fun candidates e => do
    if ← isEligible order g phase.toOverheadConfig md e.2.1 e.2.2 then
      return CompareSet.insert (nodeProfitComparator phase.addr md) e.2.1 candidates
    else return candidates) candidates

/-! ## The loop -/

/-- The variables of the loop. `selected` lists the nodes that were instrumented and is no variable of the code. -/
structure Exploration where
  md : MetaStore
  childsToPotentialInstrument : List ℕ
  usedBudget : ℚ
  addedNewNodeToInstrumentation : Bool
  selected : List ℕ

/-- One node of the selection is instrumented and its children are collected. -/
def instrumentChild (order : List ℕ → List ℕ) (g : Callgraph) (phase : OverheadPhase) (st : MetaStore × Collection) (nti : ℕ) :
    Except Exn (MetaStore × Collection) := do
  let n ← deref g nti
  let md := if instrumentsItself phase.toOverheadConfig n then instrumentNode st.1 nti else instrumentPathNode st.1 nti
  return (md, ← collectChildren order g phase.addr md st.2 nti)

/-- The body of the loop. The collection is empty when it begins. -/
def explore (order : List ℕ → List ℕ) (g : Callgraph) (phase : OverheadPhase) (initialAvailableBudget : ℚ) (st : Exploration) :
    Except Exn Exploration := do
  let (childsToInstrument, cost) ← getNodesToInstrumentGreedyKnapsackOverhead phase.addr st.md st.childsToPotentialInstrument
    (initialAvailableBudget - st.usedBudget)
  let (md, collection) ← childsToInstrument.foldlM (instrumentChild order g phase) (st.md, OMap.empty)
  let candidates ← filterEligible order g phase md collection st.childsToPotentialInstrument
  return {
    md
    childsToPotentialInstrument :=
      childsToInstrument.foldl (fun l nti => CompareSet.erase (nodeProfitComparator phase.addr md) nti l) candidates
    usedBudget := st.usedBudget + cost
    addedNewNodeToInstrumentation := decide (childsToInstrument ≠ [])
    selected := st.selected ++ childsToInstrument }

def exploreLoop (order : List ℕ → List ℕ) (g : Callgraph) (phase : OverheadPhase) (initialAvailableBudget : ℚ) :
    ℕ → Exploration → Except Stop Exploration
  | 0, _ => .error .fuel
  | fuel + 1, st =>
    if st.usedBudget ≤ initialAvailableBudget ∧ st.addedNewNodeToInstrumentation = true then do
      let st ← lift (explore order g phase initialAvailableBudget st)
      exploreLoop order g phase initialAvailableBudget fuel st
    else .ok st

/-! ## `modifyGraphOverhead` -/

def totalAllowedCalls (phase : OverheadPhase) (totalExclusiveCalls : ℕ) : ℚ := totalExclusiveCalls * phase.relativeOverhead

/-- The calls that have to go to leave room for the exploration. -/
def callsToKick (phase : OverheadPhase) (totalExclusiveCalls : ℕ) : ℚ :=
  let callsToKeep := min (totalAllowedCalls phase totalExclusiveCalls * (1 - phase.budgetForExploration)) totalExclusiveCalls
  if totalExclusiveCalls - callsToKeep ≥ 1 then totalExclusiveCalls - callsToKeep else 0

/-- The switch over the strategies is only reached if there are calls to kick. -/
def kickIfNeeded (order : List ℕ → List ℕ) (g : Callgraph) (phase : OverheadPhase) (fuel mainMethod : ℕ) (callsToKick : ℚ)
    (profiled : Profiled) : Except Stop Kicking :=
  if callsToKick > 0 then
    kickNodes phase.algorithms order g phase.overheadAlgorithm fuel mainMethod profiled.nodesNoHotspot
      profiled.nodeInclusiveHotspot callsToKick profiled.md
  else .ok ⟨profiled.md, 0, []⟩

/-- The first candidates. -/
def findCandidates (order : List ℕ → List ℕ) (g : Callgraph) (phase : OverheadPhase) (md : MetaStore) : Except Exn (List ℕ) := do
  let collection ← (List.range g.nodes.length).foldlM (collectDirect order g phase.addr md) OMap.empty
  filterEligible order g phase md collection []

/-- All that comes before the loop: the available budget and the variables of the loop. -/
def beforeExploration (order : List ℕ → List ℕ) (g : Callgraph) (phase : OverheadPhase) (md : MetaStore)
    (totalExclusiveCalls mainMethod fuel : ℕ) : Except Stop (ℚ × Exploration) :=
  match (md mainMethod).instrumentationResult with
  | none => .error (.exn .nullDereference)
  | some result => do
    let estimates ← estimateNodes order g phase.toOverheadConfig fuel ⟨md, totalExclusiveCalls⟩
    let profiled ← lift ((List.range g.nodes.length).foldlM
      (instrumentProfiled order g phase result.inclusiveRunTimeSum) ⟨estimates.md, [], []⟩)
    let allowed := totalAllowedCalls phase estimates.totalExclusiveCalls
    if allowed > 0 then
      let kicking ← kickIfNeeded order g phase fuel mainMethod (callsToKick phase estimates.totalExclusiveCalls) profiled
      let candidates ← lift (findCandidates order g phase kicking.md)
      return (allowed - (estimates.totalExclusiveCalls - kicking.kicked), ⟨kicking.md, candidates, 0, true, []⟩)
    else throw (.exn (.assertion "totalAllowedCalls > 0"))

/-- The metadata at the end, when main is instrumented too. -/
def modifyGraphOverhead (order : List ℕ → List ℕ) (g : Callgraph) (phase : OverheadPhase) (md : MetaStore)
    (totalExclusiveCalls mainMethod fuel : ℕ) : Except Stop MetaStore := do
  let (initialAvailableBudget, st) ← beforeExploration order g phase md totalExclusiveCalls mainMethod fuel
  let st ← exploreLoop order g phase initialAvailableBudget fuel st
  return instrumentNode st.md mainMethod

/-! ## What comes before the loop -/

/-- Every node of the graph has a decision. -/
def Decided (g : Callgraph) (md : MetaStore) : Prop := ∀ n, g.hasNode n = true → (md n).decision.isSome = true

section
variable {order : List ℕ → List ℕ} {g : Callgraph} {phase : OverheadPhase} {md md' : MetaStore}

theorem Decided.kicks {st st' : Kicking} (h : Decided g st.md) (hkicks : Kicks st st') : Decided g st'.md := by
  induction hkicks with
  | refl => exact h
  | tail _ hkick ih =>
    obtain ⟨k, hk⟩ := hkick
    exact fun n hn => (kickSingleNode_decision hk n).trans (ih n hn)

theorem Decided.estimateNodes {total fuel : ℕ} {st : Estimates}
    (hrun : estimateNodes order g phase.toOverheadConfig fuel ⟨md, total⟩ = .ok st) : Decided g st.md := by
  intro n hn
  rw [(estimateNodes_spec hrun).1, MetaStore.withDecisions, decisionsAfter,
    if_pos (List.mem_range.mpr (Callgraph.hasNode_lt hn))]
  rfl

theorem Decided.setInstrumentation (h : Decided g md) (node : ℕ) (state : InstrumentationState) :
    Decided g (setInstrumentation md node state) := by
  intro n hn
  rw [setInstrumentation_apply]
  exact h n hn

theorem Decided.markParentHighRuntime (h : Decided g md) (C : ℕ) : Decided g (markParentHighRuntime md C) := by
  intro n hn
  rw [Pgis.markParentHighRuntime, setDecision]
  by_cases hC : n = C
  · rw [hC, MetaStore.update_same]
    rfl
  · rw [MetaStore.update_other md hC]
    exact h n hn

theorem Decided.instrumentFromCube (h : Decided g md) (config : OverheadConfig) (node : ℕ) (n : CgNode) :
    Decided g (instrumentFromCube config md node n) := by
  unfold Pgis.instrumentFromCube
  split_ifs
  · exact h.setInstrumentation node .instrumented
  · exact h.setInstrumentation node .instrumentedPath
  · exact h

theorem Decided.foldl_markParentHighRuntime (h : Decided g md) (callees : List ℕ) :
    Decided g (callees.foldl Pgis.markParentHighRuntime md) := by
  induction callees generalizing md with
  | nil => exact h
  | cons C callees ih => exact ih (h.markParentHighRuntime C)

theorem Decided.instrumentProfiled {mainRuntimeInclusive : ℚ} {st st' : Profiled} {node : ℕ} (h : Decided g st.md)
    (hrun : instrumentProfiled order g phase mainRuntimeInclusive st node = .ok st') : Decided g st'.md := by
  unfold Pgis.instrumentProfiled at hrun
  obtain ⟨n, -, hrun⟩ := bind_eq_ok.mp hrun
  have hmd := h.instrumentFromCube phase.toOverheadConfig node n
  simp only at hrun
  generalize Pgis.instrumentFromCube phase.toOverheadConfig st.md node n = md at hrun hmd
  cases hprofiled : (st.md node).piraOne.wasInPreviousProfile with
  | false =>
    rw [hprofiled] at hrun
    cases hrun
    exact h
  | true =>
    rw [hprofiled] at hrun
    cases hresult : (md node).instrumentationResult with
    | none => rw [hresult] at hrun; cases hrun
    | some irmd =>
      rw [hresult] at hrun
      simp only [Bool.not_true, Bool.false_eq_true, if_false] at hrun
      split_ifs at hrun
      · obtain ⟨callees, -, hrun⟩ := bind_eq_ok.mp hrun
        cases hrun
        exact hmd.foldl_markParentHighRuntime callees
      · cases hrun
        exact hmd
      · cases hrun
        exact hmd

end

/-! ## What a round changes -/

/-- The nodes of `S` were instrumented, and what the selection reads is the same. -/
structure Instruments (md md' : MetaStore) (S : List ℕ) : Prop where
  instrumented : ∀ n, isAnyInstrumented md' n = (decide (n ∈ S) || isAnyInstrumented md n)
  decision : ∀ n, (md' n).decision = (md n).decision
  result : ∀ n, (md' n).instrumentationResult = (md n).instrumentationResult

section
variable {md md' md'' : MetaStore} {S S' : List ℕ} {node : ℕ}

theorem Instruments.refl (md : MetaStore) : Instruments md md [] where
  instrumented := fun n => by simp
  decision := fun _ => rfl
  result := fun _ => rfl

theorem Instruments.trans (h : Instruments md md' S) (h' : Instruments md' md'' S') : Instruments md md'' (S ++ S') where
  instrumented := fun n => by
    rw [h'.instrumented, h.instrumented, ← Bool.or_assoc, Bool.or_comm (decide (n ∈ S'))]
    simp only [List.mem_append, Bool.decide_or]
  decision := fun n => (h'.decision n).trans (h.decision n)
  result := fun n => (h'.result n).trans (h.result n)

theorem Instruments.setInstrumentation {state : InstrumentationState} (hstate : state ≠ .none) :
    Instruments md (setInstrumentation md node state) [node] where
  instrumented := fun n => by
    rw [isAnyInstrumented_setInstrumentation]
    split_ifs with hn <;> simp [hn, hstate]
  decision := fun n => by rw [setInstrumentation_apply]
  result := fun n => by rw [setInstrumentation_apply]

theorem Instruments.getCallsToNode (h : Instruments md md' S) : getCallsToNode md' = getCallsToNode md := by
  funext n
  unfold Pgis.getCallsToNode
  rw [h.decision, h.result]

theorem Instruments.callsSum {nodes : List ℕ} {cost : ℚ} (h : Instruments md md' S) :
    CallsSum md' nodes cost ↔ CallsSum md nodes cost := by
  unfold CallsSum
  rw [h.getCallsToNode]

/-- A node that is not instrumented afterwards was not instrumented before. -/
theorem Instruments.not_before (h : Instruments md md' S) {n : ℕ} (hn : isAnyInstrumented md' n = false) :
    isAnyInstrumented md n = false := by
  rw [h.instrumented, Bool.or_eq_false_iff] at hn
  exact hn.2

theorem Instruments.decided {g : Callgraph} (h : Instruments md md' S) (hdecided : Decided g md) : Decided g md' := fun n hn => by
  rw [h.decision]
  exact hdecided n hn

end

/-! ## The candidates of a round -/

/-- A node that may be selected. -/
def Selectable (g : Callgraph) (md : MetaStore) (n : ℕ) : Prop := g.hasNode n = true ∧ isAnyInstrumented md n = false

/-- What was collected may be selected, and was found through nodes of the graph. -/
def Collected (g : Callgraph) (md : MetaStore) (collection : Collection) : Prop :=
  ∀ k e, collection.find k = some e → Selectable g md e.1 ∧ ∀ p ∈ e.2, g.hasNode p = true

/-- The set of the nodes that may be selected. -/
structure Candidates (g : Callgraph) (md : MetaStore) (nodes : List ℕ) : Prop where
  nodup : nodes.Nodup
  selectable : ∀ n ∈ nodes, Selectable g md n

section
variable {order : List ℕ → List ℕ} {g : Callgraph} {phase : OverheadPhase} {md md' : MetaStore} {S : List ℕ}
  {collection : Collection} {node : ℕ}

theorem Collected.empty (g : Callgraph) (md : MetaStore) : Collected g md OMap.empty := fun _ _ he => by cases he

theorem Candidates.nil (g : Callgraph) (md : MetaStore) : Candidates g md [] where
  nodup := List.nodup_nil
  selectable := fun _ hn => absurd hn List.not_mem_nil

theorem Collected.addChild (h : Collected g md collection) (hmd : Instruments md md' S) (addr : ℕ → ℕ)
    (hnode : g.hasNode node = true) {C : ℕ} (hC : g.hasNode C = true) :
    Collected g md (addChild addr md' node collection C) := by
  unfold Pgis.addChild
  split_ifs with hinst
  · exact h
  · have hnew : Selectable g md C := ⟨hC, hmd.not_before (by simpa using hinst)⟩
    intro k e he
    rw [OMap.find_insertWith] at he
    split_ifs at he with hk
    · cases hold : collection.find k with
      | none =>
        rw [hold] at he
        cases he
        exact ⟨hnew, fun p hp => by rwa [List.mem_singleton.mp hp]⟩
      | some old =>
        rw [hold] at he
        cases he
        refine ⟨(h k old hold).1, fun p hp => ?_⟩
        rcases List.mem_append.mp hp with hp | hp
        · exact (h k old hold).2 p hp
        · rwa [List.mem_singleton.mp hp]
    · exact h k e he

theorem collectChildren_ok (hwf : g.Wf) (hord : ∀ l, (order l).Perm l) (h : Collected g md collection)
    (hmd : Instruments md md' S) (addr : ℕ → ℕ) (hnode : g.hasNode node = true) :
    ∃ collection', collectChildren order g addr md' collection node = .ok collection' ∧ Collected g md collection' := by
  obtain ⟨callees, hcallees, -, hmem⟩ := getCallees_ok hwf hord hnode
  refine ⟨callees.foldl (addChild addr md' node) collection, ?_, ?_⟩
  · unfold collectChildren
    rw [hcallees]
    rfl
  · refine List.foldlRecOn callees _ h fun collection h C hC => h.addChild hmd addr hnode ?_
    exact (hwf.edge_live node C ((hmem C).mp hC)).2

theorem collectDirect_collected (hwf : g.Wf) (hord : ∀ l, (order l).Perm l) {addr : ℕ → ℕ} {collection' : Collection}
    (h : Collected g md collection) (hrun : collectDirect order g addr md collection node = .ok collection') :
    Collected g md collection' := by
  unfold collectDirect at hrun
  obtain ⟨n, hn, hrun⟩ := bind_eq_ok.mp hrun
  split_ifs at hrun
  · cases hrun
    exact h
  · cases hd : (md node).decision with
    | none => rw [hd] at hrun; cases hrun
    | some d =>
      rw [hd] at hrun
      simp only at hrun
      split_ifs at hrun
      · cases hrun
        exact h
      · obtain ⟨collection₁, hok, h₁⟩ := collectChildren_ok hwf hord h (.refl md) addr (hasNode_of_deref hn)
        rw [hrun] at hok
        cases hok
        exact h₁

theorem isEligibleForPathInstrumentation_ok (hwf : g.Wf) (hord : ∀ l, (order l).Perm l) (hnode : g.hasNode node = true)
    {parents : List ℕ} (hparents : ∀ p ∈ parents, g.hasNode p = true) :
    ∃ b, isEligibleForPathInstrumentation order g node parents = .ok b := by
  have hbody : ∀ p, g.hasNode p = true → ∃ b, (do return (← deref g p).hasBody : Except Exn Bool) = .ok b ∧
      (b = true ↔ ∃ n, deref g p = .ok n ∧ n.hasBody = true) := by
    intro p hp
    obtain ⟨n, hn⟩ := deref_ok hp
    rw [hn]
    exact ⟨n.hasBody, rfl, by simp⟩
  unfold isEligibleForPathInstrumentation
  split_ifs
  · obtain ⟨b, hb, -⟩ := allM_ok fun p hp => hbody p (hparents p hp)
    exact ⟨b, hb⟩
  · obtain ⟨callers, hcallers, -, hmem⟩ := getCallers_ok hwf hord hnode
    obtain ⟨b, hb, -⟩ := anyM_ok fun p hp => hbody p (hwf.edge_live p node ((hmem p).mp hp)).1
    rw [hcallers]
    exact ⟨b, hb⟩

theorem isEligible_ok (hwf : g.Wf) (hord : ∀ l, (order l).Perm l) (config : OverheadConfig) (hdecided : Decided g md)
    (hnode : g.hasNode node = true) {parents : List ℕ} (hparents : ∀ p ∈ parents, g.hasNode p = true) :
    ∃ b, isEligible order g config md node parents = .ok b := by
  obtain ⟨d, hd⟩ := Option.isSome_iff_exists.mp (hdecided node hnode)
  obtain ⟨n, hn⟩ := deref_ok hnode
  obtain ⟨b, hb⟩ := isEligibleForPathInstrumentation_ok hwf hord hnode hparents
  unfold isEligible
  rw [hd, hn, hb]
  simp only [bind, Except.bind, pure, Except.pure]
  split_ifs <;> exact ⟨_, rfl⟩

theorem Candidates.insert {nodes : List ℕ} (h : Candidates g md nodes) {C : ℕ} (hC : Selectable g md C) (addr : ℕ → ℕ)
    (md' : MetaStore) : Candidates g md (CompareSet.insert (nodeProfitComparator addr md') C nodes) where
  nodup := CompareSet.nodup_insert (nodeProfitComparator_self addr md') h.nodup
  selectable := fun n hn => by
    rcases CompareSet.mem_of_insert hn with rfl | hn
    · exact hC
    · exact h.selectable n hn

theorem filterEligible_ok (phase : OverheadPhase) (hwf : g.Wf) (hord : ∀ l, (order l).Perm l) (hdecided : Decided g md')
    (hcollected : Collected g md collection) {nodes : List ℕ} (h : Candidates g md nodes) :
    ∃ nodes', filterEligible order g phase md' collection nodes = .ok nodes' ∧ Candidates g md nodes' := by
  refine foldlM_total (J := fun _ nodes => Candidates g md nodes) h fun pre e nodes hpre hnodes => ?_
  have he : e ∈ collection.entries := hpre.subset (List.mem_append_right _ (List.mem_singleton_self e))
  obtain ⟨hC, hparents⟩ := hcollected e.1 e.2 (OMap.mem_entries.mp he)
  obtain ⟨b, hb⟩ := isEligible_ok hwf hord phase.toOverheadConfig hdecided hC.1 hparents
  rw [hb]
  cases b with
  | false => exact ⟨nodes, rfl, hnodes⟩
  | true => exact ⟨_, rfl, hnodes.insert hC phase.addr md'⟩

theorem instrumentChildren_ok (hwf : g.Wf) (hord : ∀ l, (order l).Perm l) {nodes : List ℕ}
    (hlive : ∀ n ∈ nodes, g.hasNode n = true) :
    ∃ st, nodes.foldlM (instrumentChild order g phase) (md, OMap.empty) = .ok st ∧ Instruments md st.1 nodes ∧
      Collected g md st.2 := by
  refine foldlM_total (J := fun pre (st : MetaStore × Collection) => Instruments md st.1 pre ∧ Collected g md st.2)
    ⟨.refl md, .empty g md⟩ fun pre nti st hpre hJ => ?_
  have hnti : g.hasNode nti = true := hlive nti (hpre.subset (List.mem_append_right _ (List.mem_singleton_self nti)))
  obtain ⟨n, hn⟩ := deref_ok hnti
  let md₁ := if instrumentsItself phase.toOverheadConfig n then instrumentNode st.1 nti else instrumentPathNode st.1 nti
  have hmd₁ : Instruments st.1 md₁ [nti] := by
    change Instruments st.1 (if _ then _ else _) [nti]
    split_ifs
    · exact .setInstrumentation (by decide)
    · exact .setInstrumentation (by decide)
  have hall : Instruments md md₁ (pre ++ [nti]) := hJ.1.trans hmd₁
  obtain ⟨collection', hok, hcollected⟩ := collectChildren_ok hwf hord hJ.2 hall phase.addr hnti
  refine ⟨(md₁, collection'), ?_, hall, hcollected⟩
  unfold instrumentChild
  rw [hn]
  change (collectChildren order g phase.addr md₁ st.2 nti >>= _) = _
  rw [hok]
  rfl

end

/-! ## The run of the loop -/

/-- What holds between the rounds of a loop that began in `start`. -/
structure Exploring (g : Callgraph) (start : MetaStore) (budget : ℚ) (st : Exploration) : Prop where
  candidates : Candidates g st.md st.childsToPotentialInstrument
  instruments : Instruments start st.md st.selected
  once : st.selected.Nodup
  selectable : ∀ n ∈ st.selected, Selectable g start n
  sum : CallsSum start st.selected st.usedBudget
  within : st.usedBudget ≤ max budget 0

/-- One round of the loop. -/
def Round (order : List ℕ → List ℕ) (g : Callgraph) (phase : OverheadPhase) (budget : ℚ) (st st' : Exploration) : Prop :=
  st.usedBudget ≤ budget ∧ st.addedNewNodeToInstrumentation = true ∧ explore order g phase budget st = .ok st'

section
variable {order : List ℕ → List ℕ} {g : Callgraph} {phase : OverheadPhase} {budget : ℚ} {start : MetaStore} {st st' : Exploration}

theorem Exploring.select (h : Exploring g start budget st) (hdecided : Decided g start) (addr : ℕ → ℕ) (costLimit : ℚ) :
    ∃ r, getNodesToInstrumentGreedyKnapsackOverhead addr st.md st.childsToPotentialInstrument costLimit = .ok r ∧
      WithinBudget st.md st.childsToPotentialInstrument costLimit r := by
  obtain ⟨r, hr⟩ := getNodesToInstrumentGreedyKnapsackOverhead_ok addr costLimit
    (fun n hn => (h.candidates.selectable n hn).2)
    (fun n hn => hasCalls_of_decision (h.instruments.decided hdecided n (h.candidates.selectable n hn).1))
  exact ⟨r, hr, getNodesToInstrumentGreedyKnapsackOverhead_within h.candidates.nodup hr⟩

/-- A candidate was not selected before. -/
theorem Exploring.fresh (h : Exploring g start budget st) {n : ℕ} (hn : n ∈ st.childsToPotentialInstrument) :
    n ∉ st.selected ∧ Selectable g start n := by
  obtain ⟨hlive, hnew⟩ := h.candidates.selectable n hn
  refine ⟨fun hmem => ?_, hlive, h.instruments.not_before hnew⟩
  rw [h.instruments.instrumented, decide_eq_true hmem] at hnew
  cases hnew

theorem Exploring.explore (h : Exploring g start budget st) (phase : OverheadPhase) (hwf : g.Wf)
    (hord : ∀ l, (order l).Perm l) (hdecided : Decided g start) (hbudget : st.usedBudget ≤ budget) :
    ∃ st', explore order g phase budget st = .ok st' ∧ Exploring g start budget st' ∧
      (st'.addedNewNodeToInstrumentation = true → st.selected.length < st'.selected.length) := by
  obtain ⟨⟨nodes, cost⟩, hselect, hr⟩ := h.select hdecided phase.addr (budget - st.usedBudget)
  have hnodes : ∀ n ∈ nodes, g.hasNode n = true := fun n hn => (h.candidates.selectable n (hr.subset hn)).1
  obtain ⟨⟨md, collection⟩, hinstrument, hmd, hcollected⟩ : ∃ s : MetaStore × Collection,
      nodes.foldlM (instrumentChild order g phase) (st.md, OMap.empty) = .ok s ∧ Instruments st.md s.1 nodes ∧
      Collected g st.md s.2 := instrumentChildren_ok hwf hord hnodes
  obtain ⟨candidates, hfilter, hcandidates⟩ : ∃ nodes',
      filterEligible order g phase md collection st.childsToPotentialInstrument = .ok nodes' ∧ Candidates g st.md nodes' :=
    filterEligible_ok phase hwf hord (hmd.decided (h.instruments.decided hdecided)) hcollected h.candidates
  let st' : Exploration :=
    { md
      childsToPotentialInstrument :=
        nodes.foldl (fun l nti => CompareSet.erase (nodeProfitComparator phase.addr md) nti l) candidates
      usedBudget := st.usedBudget + cost
      addedNewNodeToInstrumentation := decide (nodes ≠ [])
      selected := st.selected ++ nodes }
  refine ⟨st', ?_, ⟨⟨?_, fun n hn => ?_⟩, h.instruments.trans hmd, ?_, fun n hn => ?_, ?_, ?_⟩, fun hadded => ?_⟩
  · unfold Pgis.explore
    rw [hselect]
    change (nodes.foldlM (instrumentChild order g phase) (st.md, OMap.empty) >>= _) = _
    rw [hinstrument]
    change (filterEligible order g phase md collection st.childsToPotentialInstrument >>= _) = _
    rw [hfilter]
    rfl
  · exact CompareSet.nodup_foldl_erase hcandidates.nodup
  · -- what is left of the candidates was not instrumented in this round
    obtain ⟨hmem, hother⟩ := CompareSet.mem_of_foldl_erase (nodeProfitComparator_self phase.addr md) hn
    obtain ⟨hlive, hnew⟩ := hcandidates.selectable n hmem
    refine ⟨hlive, ?_⟩
    rw [hmd.instrumented, decide_eq_false hother, hnew]
    rfl
  · exact List.nodup_append.mpr ⟨h.once, hr.once, fun a ha b hb hab => (h.fresh (hr.subset hb)).1 (hab ▸ ha)⟩
  · rcases List.mem_append.mp hn with hn | hn
    · exact h.selectable n hn
    · exact (h.fresh (hr.subset hn)).2
  · exact h.sum.append (h.instruments.callsSum.mp hr.sum)
  · have hcost : cost ≤ max (budget - st.usedBudget) 0 := hr.within
    rw [max_eq_left (sub_nonneg.mpr hbudget)] at hcost
    exact (le_sub_iff_add_le'.mp hcost).trans (le_max_left ..)
  · have hne : nodes ≠ [] := of_decide_eq_true hadded
    rw [List.length_append]
    exact Nat.lt_add_of_pos_right (List.length_pos_iff.mpr hne)

theorem Exploring.run (h : Exploring g start budget st) (hwf : g.Wf) (hord : ∀ l, (order l).Perm l) (hdecided : Decided g start)
    (hrun : Relation.ReflTransGen (Round order g phase budget) st st') : Exploring g start budget st' := by
  induction hrun with
  | refl => exact h
  | tail _ hround ih =>
    obtain ⟨hbudget, -, hexplore⟩ := hround
    obtain ⟨_, hok, hst', -⟩ := ih.explore phase hwf hord hdecided hbudget
    rw [hexplore] at hok
    cases hok
    exact hst'

/-- There are no more selections than nodes. -/
theorem Exploring.length_le (h : Exploring g start budget st) : st.selected.length ≤ g.nodes.length := by
  have hsub : st.selected ⊆ List.range g.nodes.length := fun n hn =>
    List.mem_range.mpr (Callgraph.hasNode_lt (h.selectable n hn).1)
  have hle := (h.once.subperm hsub).length_le
  rwa [List.length_range] at hle

theorem exploreLoop_done (fuel : ℕ) (h : ¬(st.usedBudget ≤ budget ∧ st.addedNewNodeToInstrumentation = true)) :
    exploreLoop order g phase budget (fuel + 1) st = .ok st := if_neg h

theorem exploreLoop_round (fuel : ℕ) (h : Round order g phase budget st st') :
    exploreLoop order g phase budget (fuel + 1) st = exploreLoop order g phase budget fuel st' := by
  obtain ⟨hbudget, hadded, hexplore⟩ := h
  rw [exploreLoop, if_pos ⟨hbudget, hadded⟩, hexplore]
  rfl

/-- Each round but the last one selects a node, so the loop ends. -/
theorem exploreLoop_settles (h : Exploring g start budget st) (hwf : g.Wf) (hord : ∀ l, (order l).Perm l)
    (hdecided : Decided g start) :
    ∃ st', Settles (fun fuel => exploreLoop order g phase budget fuel st) (.ok st') ∧
      Relation.ReflTransGen (Round order g phase budget) st st' := by
  induction hleft : g.nodes.length - st.selected.length using Nat.strong_induction_on generalizing st with
  | _ left ih =>
    by_cases hguard : st.usedBudget ≤ budget ∧ st.addedNewNodeToInstrumentation = true
    · obtain ⟨st₁, hexplore, h₁, hgrows⟩ := h.explore phase hwf hord hdecided hguard.1
      have hround : Round order g phase budget st st₁ := ⟨hguard.1, hguard.2, hexplore⟩
      obtain ⟨st', ⟨bound, hbound⟩, hrun⟩ : ∃ st', Settles (fun fuel => exploreLoop order g phase budget fuel st₁) (.ok st') ∧
          Relation.ReflTransGen (Round order g phase budget) st₁ st' := by
        cases hadded : st₁.addedNewNodeToInstrumentation with
        | true =>
          have hlt := hgrows hadded
          have hle := h₁.length_le
          exact ih (g.nodes.length - st₁.selected.length) (by omega) h₁ rfl
        | false =>
          refine ⟨st₁, Settles.succ ⟨0, fun fuel _ => exploreLoop_done fuel fun hcontra => ?_⟩, .refl⟩
          rw [hadded] at hcontra
          exact Bool.false_ne_true hcontra.2
      exact ⟨st', Settles.succ ⟨bound, fun fuel hfuel => (exploreLoop_round fuel hround).trans (hbound fuel hfuel)⟩,
        .head hround hrun⟩
    · exact ⟨st, Settles.succ ⟨0, fun fuel _ => exploreLoop_done fuel hguard⟩, .refl⟩

theorem Decided.kickIfNeeded {profiled : Profiled} {fuel mainMethod : ℕ} {callsToKick : ℚ} {kicking : Kicking}
    (h : Decided g profiled.md) (hrun : kickIfNeeded order g phase fuel mainMethod callsToKick profiled = .ok kicking) :
    Decided g kicking.md := by
  unfold Pgis.kickIfNeeded at hrun
  split_ifs at hrun
  · have hstart : Decided g (Kicking.mk profiled.md 0 []).md := h
    exact hstart.kicks (kickNodes_chain hrun)
  · cases hrun
    exact h

theorem findCandidates_candidates (hwf : g.Wf) (hord : ∀ l, (order l).Perm l) {md : MetaStore} (hdecided : Decided g md)
    {nodes : List ℕ} (hrun : findCandidates order g phase md = .ok nodes) : Candidates g md nodes := by
  obtain ⟨collection, hcollection, hfilter⟩ := bind_eq_ok.mp hrun
  have hcollected : Collected g md collection := foldlM_ok_inv (J := fun _ c => Collected g md c) (.empty g md)
    (fun _ _ _ _ _ h hround => collectDirect_collected hwf hord h hround) hcollection
  obtain ⟨_, hok, hcandidates⟩ := filterEligible_ok phase hwf hord hdecided hcollected (.nil g md)
  rw [hfilter] at hok
  cases hok
  exact hcandidates

/-- The loop begins with candidates that are not instrumented, and every node has got its decision. -/
theorem exploring_of_beforeExploration (hwf : g.Wf) (hord : ∀ l, (order l).Perm l) {md : MetaStore} {total mainMethod fuel : ℕ}
    (hbefore : beforeExploration order g phase md total mainMethod fuel = .ok (budget, st)) :
    Decided g st.md ∧ Exploring g st.md budget st := by
  unfold beforeExploration at hbefore
  cases hmain : (md mainMethod).instrumentationResult with
  | none => rw [hmain] at hbefore; cases hbefore
  | some result =>
    rw [hmain] at hbefore
    obtain ⟨estimates, hestimates, hbefore⟩ := bind_eq_ok.mp hbefore
    obtain ⟨profiled, hprofiled, hbefore⟩ := bind_eq_ok.mp hbefore
    have hdecided : Decided g profiled.md := foldlM_ok_inv (J := fun _ st => Decided g (Profiled.md st))
      (Decided.estimateNodes hestimates) (fun _ _ _ _ _ h hrun => h.instrumentProfiled hrun) (lift_eq_ok.mp hprofiled)
    simp only at hbefore
    split_ifs at hbefore
    obtain ⟨kicking, hkicking, hbefore⟩ := bind_eq_ok.mp hbefore
    obtain ⟨candidates, hcandidates, hbefore⟩ := bind_eq_ok.mp hbefore
    cases hbefore
    have hkicked : Decided g kicking.md := hdecided.kickIfNeeded hkicking
    refine ⟨hkicked, findCandidates_candidates hwf hord hkicked (lift_eq_ok.mp hcandidates), .refl kicking.md,
      List.nodup_nil, fun _ hn => absurd hn List.not_mem_nil, .nil kicking.md, le_max_right ..⟩

end

/-- What the loop promises after some rounds: it selects none but nodes that are not instrumented yet, and their calls are
the budget that it has used. -/
structure RespectsBudget (phase : OverheadPhase) (budget : ℚ) (start st : Exploration) : Prop where
  select : ∀ r, getNodesToInstrumentGreedyKnapsackOverhead phase.addr st.md st.childsToPotentialInstrument
    (budget - st.usedBudget) = .ok r → ∀ n ∈ r.1, isAnyInstrumented st.md n = false
  once : st.selected.Nodup
  new : ∀ n ∈ st.selected, isAnyInstrumented start.md n = false
  sum : CallsSum start.md st.selected st.usedBudget
  within : 0 ≤ budget → st.usedBudget ≤ budget

/-- The selection and the loop stay within the budget, and the loop ends. A budget below zero, which the loop never passes
on, admits the empty selection. -/
theorem exploration_withinBudget {order : List ℕ → List ℕ} (hord : ∀ l, (order l).Perm l) {g : Callgraph} (hwf : g.Wf)
    (phase : OverheadPhase) :
    (∀ (md : MetaStore) (nodes : List ℕ) (costLimit : ℚ), nodes.Nodup →
      (∀ r, getNodesToInstrumentGreedyKnapsackOverhead phase.addr md nodes costLimit = .ok r →
        WithinBudget md nodes costLimit r) ∧
      ((∀ n ∈ nodes, isAnyInstrumented md n = false ∧ HasCalls md n) →
        ∃ r, getNodesToInstrumentGreedyKnapsackOverhead phase.addr md nodes costLimit = .ok r)) ∧
    ∀ (md : MetaStore) (total mainMethod fuel : ℕ) (budget : ℚ) (start : Exploration),
      beforeExploration order g phase md total mainMethod fuel = .ok (budget, start) →
        (∃ st, Settles (fun fuel => exploreLoop order g phase budget fuel start) (.ok st) ∧
          Relation.ReflTransGen (Round order g phase budget) start st) ∧
        ∀ st, Relation.ReflTransGen (Round order g phase budget) start st → RespectsBudget phase budget start st := by
  refine ⟨fun md nodes costLimit hnodup => ⟨fun r hr => getNodesToInstrumentGreedyKnapsackOverhead_within hnodup hr,
    fun hnew => getNodesToInstrumentGreedyKnapsackOverhead_ok phase.addr costLimit (fun n hn => (hnew n hn).1)
      fun n hn => (hnew n hn).2⟩, fun md total mainMethod fuel budget start hbefore => ?_⟩
  obtain ⟨hdecided, hstart⟩ := exploring_of_beforeExploration hwf hord hbefore
  refine ⟨exploreLoop_settles hstart hwf hord hdecided, fun st hrun => ?_⟩
  have hst := hstart.run hwf hord hdecided hrun
  refine ⟨fun r hr n hn => ?_, hst.once, fun n hn => (hst.selectable n hn).2, hst.sum, fun hbudget => ?_⟩
  · have hcandidate := (getNodesToInstrumentGreedyKnapsackOverhead_within hst.candidates.nodup hr).subset hn
    exact (hst.candidates.selectable n hcandidate).2
  · exact hst.within.trans_eq (max_eq_left hbudget)

/-- `main` is profiled and calls `f`, which is expected to be called three times. -/
def profiledParent : MetaStore := fun node =>
  { profiledMain node with
    piraOne := ⟨decide (node = 0), 1⟩
    decision := some { TemporaryInstrumentationDecisionMetadata.create with
      info := { InstumentationInfo.default with callsFromParents := if node = 0 then 0 else 3 } } }

theorem profiledParent_estimable (g : Callgraph) : Estimable g overheadConfig profiledParent where
  recursionFactor := by decide
  inlineFactor := by decide
  sites := fun _ _ _ _ _ => ⟨1, one_pos, 0, fun _ _ => rfl⟩
  inlineInfo := fun _ _ => rfl
  baseProfile := fun _ _ => rfl

def overheadPhase : OverheadPhase where
  toOverheadConfig := overheadConfig
  thresholdHotspotInclusive := 1 / 5
  thresholdHotspotExclusive := 1 / 10
  budgetForExploration := 3 / 10
  relativeOverhead := 10
  overheadAlgorithm := .timePerCall
  algorithms := keepOrder
  addr := id

theorem instrumentProfiled_directCall {md : MetaStore}
    (hmd : md = profiledParent.withDecisions (decisionsAfter profiledParent [0, 1])) :
    (List.range directCall.nodes.length).foldlM (instrumentProfiled id directCall overheadPhase 0) ⟨md, [], []⟩ =
      .ok ⟨markParentHighRuntime (instrumentNode md 0) 1, [], [0]⟩ := by
  have hmain : instrumentProfiled id directCall overheadPhase 0 ⟨md, [], []⟩ 0 =
      .ok ⟨markParentHighRuntime (instrumentNode md 0) 1, [], [0]⟩ := by
    subst hmd
    have hruntime : ∀ threshold : ℚ, (0 : ℚ) ≥ 0 * threshold := fun threshold => (zero_mul threshold).le
    change (if (0 : ℚ) ≥ 0 * _ ∨ (0 : ℚ) ≥ 0 * _ then _ else _) = _
    rw [if_pos (.inl (hruntime _)), if_pos (hruntime _)]
    rfl
  change ([0, 1] : List ℕ).foldlM (instrumentProfiled id directCall overheadPhase 0) _ = _
  rw [List.foldlM_cons, hmain, hmd]
  rfl

/-- In the call graph of `main` and `f` the loop is reached with a budget of 18 calls and the candidate `f`. -/
theorem beforeExploration_directCall : ∃ fuel start,
    beforeExploration id directCall overheadPhase profiledParent 0 0 fuel = .ok (18, start) ∧
      start.childsToPotentialInstrument = [1] := by
  obtain ⟨⟨md, total⟩, bound, hbound⟩ := estimateNodes_settles (Callgraph.run_wf 0 _ : directCall.Wf)
    (fun l => List.Perm.refl l) (profiledParent_estimable _) (by decide) (fun n d hd => by cases hd; rfl) 0
  have hrun : estimateNodes id directCall overheadConfig bound ⟨profiledParent, 0⟩ = .ok ⟨md, total⟩ := hbound bound le_rfl
  obtain ⟨hmd, htotal, -⟩ := estimateNodes_spec hrun
  change total = 2 at htotal
  change md = profiledParent.withDecisions (decisionsAfter profiledParent [0, 1]) at hmd
  subst htotal
  have hallowed : totalAllowedCalls overheadPhase 2 > 0 := by decide +kernel
  have hkick : callsToKick overheadPhase 2 = 0 := by decide +kernel
  have hbudget : totalAllowedCalls overheadPhase 2 - ((2 : ℕ) - 0) = 18 := by decide +kernel
  have hcandidates : findCandidates id directCall overheadPhase (markParentHighRuntime (instrumentNode md 0) 1) = .ok [1] := by
    rw [hmd]
    rfl
  have hnoKick : kickIfNeeded id directCall overheadPhase bound 0 (callsToKick overheadPhase 2)
      ⟨markParentHighRuntime (instrumentNode md 0) 1, [], [0]⟩ =
      .ok ⟨markParentHighRuntime (instrumentNode md 0) 1, 0, []⟩ := by
    rw [hkick]
    rfl
  refine ⟨bound, ⟨markParentHighRuntime (instrumentNode md 0) 1, [1], 0, true, []⟩, ?_, rfl⟩
  change (estimateNodes id directCall overheadConfig bound ⟨profiledParent, 0⟩ >>= _) = _
  rw [hrun]
  change (lift ((List.range directCall.nodes.length).foldlM (instrumentProfiled id directCall overheadPhase 0)
    ⟨md, [], []⟩) >>= _) = _
  rw [instrumentProfiled_directCall hmd]
  change (if totalAllowedCalls overheadPhase 2 > 0 then _ else _) = _
  rw [if_pos hallowed, hnoKick]
  change (lift (findCandidates id directCall overheadPhase (markParentHighRuntime (instrumentNode md 0) 1)) >>= _) = _
  rw [hcandidates, ← hbudget]
  rfl

theorem exploration_withinBudget_directCall : ∃ start st,
    (∃ fuel, beforeExploration id directCall overheadPhase profiledParent 0 0 fuel = .ok (18, start)) ∧
      start.childsToPotentialInstrument = [1] ∧
      Settles (fun fuel => exploreLoop id directCall overheadPhase 18 fuel start) (.ok st) ∧
      RespectsBudget overheadPhase 18 start st := by
  obtain ⟨fuel, start, hbefore, hcandidates⟩ := beforeExploration_directCall
  obtain ⟨⟨st, hst, hrun⟩, hrespects⟩ := (exploration_withinBudget (fun l => List.Perm.refl l) (Callgraph.run_wf 0 _)
    overheadPhase).2 profiledParent 0 0 fuel 18 start hbefore
  exact ⟨start, st, ⟨fuel, hbefore⟩, hcandidates, hst, hrespects st hrun⟩

/-- With a budget of minus one call nothing is selected, and the cost of nothing exceeds the budget. -/
theorem not_withinBudget_negative : ∃ r,
    getNodesToInstrumentGreedyKnapsackOverhead id onlyMainProfiled [0] (-1) = .ok r ∧
      isAnyInstrumented onlyMainProfiled 0 = false ∧ getCallsToNode onlyMainProfiled 0 = .ok 1 ∧ ¬r.2 ≤ -1 :=
  ⟨([], 0), rfl, rfl, rfl, by decide⟩

end MetaCG.Pgis
