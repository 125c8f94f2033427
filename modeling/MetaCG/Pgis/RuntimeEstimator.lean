import MetaCG.Pgis.CallEstimates

/-! The first loop of `RuntimeEstimatorPhase::modifyGraphOverhead` (`IPCGEstimatorPhase.cpp`).

`exclusiveCalls`, which nothing reads, and `inclRunTime`, which only the selection without an overhead budget reads, are
left out. A `double` is a rational, without rounding; the conversion to `unsigned long` wraps. -/
namespace MetaCG.Pgis
open Foundations Analysis
set_option autoImplicit false
set_option maxHeartbeats 250000
set_option maxRecDepth 120000

/-- What the phase reads from its configuration. -/
structure OverheadConfig where
  recursionFactor : ℚ
  mpiFunctionsStatementEstimate : ℤ
  inlineFactor : ℚ
  useCSInstrumentation : Bool
  onlyEligibleNodes : Bool

/-- The conversion to a 64-bit unsigned integer. -/
def toUnsigned (n : ℤ) : ℕ := (n % 2 ^ 64).toNat

def isLikelyToBeInlined (g : Callgraph) (md : MetaStore) (node : ℕ) (stmtCount : ℕ) : Except Exn Bool := do
  match (md node).inlineInfo with
  | none => throw (.assertion "md")
  | some info =>
    if !(← deref g node).hasBody then return false
    if info.markedAlwaysInline then return true
    let inlineThreshold := 100
    let inlineHintThreshold := 325
    let instructionCost := 5
    let stmtCountScaled := toUnsigned (stmtCount * instructionCost)
    if info.markedInline && decide (stmtCountScaled ≤ inlineHintThreshold) then return true
    return (info.likelyInline || info.isTemplate) && decide (stmtCountScaled ≤ inlineThreshold)

/-- `getEstimatedCallCountForNode(node, stmtCount)` -/
def getScaledCallCountForNode (order : List ℕ → List ℕ) (g : Callgraph) (config : OverheadConfig) (md : MetaStore)
    (fuel node stmtCount : ℕ) : Except Stop ℚ := do
  let isLikelyInlined ← lift (isLikelyToBeInlined g md node stmtCount)
  let (result, bl) ← getEstimatedCallCountForNode order g md config.recursionFactor fuel node ∅
  if bl ≠ ∅ then throw (.exn (.assertion "bl.empty()"))
  return if isLikelyInlined then result * config.inlineFactor else result

/-- MPI functions without a body get a statement count too. -/
def perNodeStmtCount (config : OverheadConfig) (md : MetaStore) (wnode : ℕ) (n : CgNode) : ℕ :=
  toUnsigned (if !n.hasBody && isMPIFunction n then config.mpiFunctionsStatementEstimate else (md wnode).piraOne.numStmts)

/-- The loop over `workQueue`: the inclusive and the exclusive statement count. -/
def countStatements (order : List ℕ → List ℕ) (g : Callgraph) (stmtCount : ℕ → CgNode → ℕ) (node : ℕ)
    (inclusiveStmtCount exclusiveStmtCount : ℕ) (visitedNodes : Finset ℕ) (workQueue : List ℕ) : Except Exn (ℕ × ℕ) :=
  match workQueue with
  | [] => .ok (inclusiveStmtCount, exclusiveStmtCount)
  | wnode :: workQueue =>
    match _hslot : g.slot wnode with
    | none => .error .nullDereference
    | some n =>
      if _hnew : wnode ∈ visitedNodes then
        countStatements order g stmtCount node inclusiveStmtCount exclusiveStmtCount visitedNodes workQueue
      else
        let count := stmtCount wnode n
        match getCallees order g wnode with
        | .error e => .error e
        | .ok callees =>
          countStatements order g stmtCount node (toUnsigned (inclusiveStmtCount + count))
            (if wnode = node then count else exclusiveStmtCount) (insert wnode visitedNodes) (workQueue ++ callees)
termination_by Search.pending (Finset.range g.nodes.length) visitedNodes workQueue
decreasing_by
  · exact Search.pending_skip _ le_rfl
  · exact Search.pending_visit (Finset.mem_range.mpr (Callgraph.slot_lt _hslot)) _hnew ..

/-- The value that `getEstimatedInfoForInstrumentedNode` computes. -/
def estimatedInfo (order : List ℕ → List ℕ) (g : Callgraph) (config : OverheadConfig) (md : MetaStore) (fuel node : ℕ) :
    Except Stop InstumentationInfo := do
  let (inclusiveStmtCount, exclusiveStmtCount) ← lift (countStatements order g (perNodeStmtCount config md) node 0 0 ∅ [node])
  let callsFromParent ← getScaledCallCountForNode order g config md fuel node exclusiveStmtCount
  return .create callsFromParent inclusiveStmtCount exclusiveStmtCount

def setDecision (md : MetaStore) (node : ℕ) (decision : TemporaryInstrumentationDecisionMetadata) : MetaStore :=
  md.update node fun m => { m with decision := some decision }

def getEstimatedInfoForInstrumentedNode (order : List ℕ → List ℕ) (g : Callgraph) (config : OverheadConfig) (md : MetaStore)
    (fuel node : ℕ) : Except Stop (InstumentationInfo × MetaStore) := do
  let ret ← estimatedInfo order g config md fuel node
  match (md node).decision with
  | some d =>
    if d.info.init && !d.info.same ret then
      throw (.exn (.assertion "Sanity check to ensure the instrumentation info is always the same"))
    return (ret, md)
  | none => return (ret, setDecision md node { TemporaryInstrumentationDecisionMetadata.create with info := ret })

/-- `estimateRuntime`, as far as it changes `totalExclusiveCalls`. -/
def estimateRuntime (md : MetaStore) (totalExclusiveCalls startNode : ℕ) : Except Exn ℕ :=
  match (md startNode).baseProfile with
  | none => .error .nullDereference
  | some profile => .ok (toUnsigned (totalExclusiveCalls + profile.numCalls))

/-- What the first loop changes. -/
structure Estimates where
  md : MetaStore
  totalExclusiveCalls : ℕ

/-- One round of the first loop of `modifyGraphOverhead`. -/
def estimateNode (order : List ℕ → List ℕ) (g : Callgraph) (config : OverheadConfig) (fuel : ℕ) (st : Estimates) (node : ℕ) :
    Except Stop Estimates := do
  let _ ← lift (deref g node)
  -- the metadata is created before the estimate is asked for
  let md := setDecision st.md node ((st.md node).decision.getD .create)
  let totalExclusiveCalls ← lift (estimateRuntime md st.totalExclusiveCalls node)
  let (_, md) ← getEstimatedInfoForInstrumentedNode order g config md fuel node
  return ⟨md, totalExclusiveCalls⟩

def estimateNodes (order : List ℕ → List ℕ) (g : Callgraph) (config : OverheadConfig) (fuel : ℕ) (st : Estimates) :
    Except Stop Estimates :=
  (List.range g.nodes.length).foldlM (estimateNode order g config fuel) st

/-- The last test of `filterEligible` before it looks at the node itself. -/
def hasCallsFromParents (d : TemporaryInstrumentationDecisionMetadata) : Bool := decide (d.info.callsFromParents ≠ 0)

/-! ## The estimates do not read the decisions -/

section
variable {order : List ℕ → List ℕ} {g : Callgraph} {config : OverheadConfig} (md : MetaStore)
  (ds : ℕ → Option TemporaryInstrumentationDecisionMetadata)

theorem walkRegions_withDecisions (pCCMD : CallCountEstimationMetaData) (nodeName calledFunctionName : String) (calls : ℚ)
    (fuel : ℕ) : walkRegions g (md.withDecisions ds) pCCMD nodeName calledFunctionName calls fuel =
      walkRegions g md pCCMD nodeName calledFunctionName calls fuel := by
  induction fuel with
  | zero => rfl
  | succ fuel ih =>
    funext regionName factor
    unfold walkRegions
    rw [ih]
    rfl

theorem getEstimatedCallsFromNode_withDecisions :
    getEstimatedCallsFromNode g (md.withDecisions ds) = getEstimatedCallsFromNode g md := by
  funext fuel node calledFunctionName
  unfold getEstimatedCallsFromNode
  simp only [walkRegions_withDecisions]
  rfl

theorem getEstimatedCallCountForNode_withDecisions (recursionFactor : ℚ) (fuel : ℕ) :
    getEstimatedCallCountForNode order g (md.withDecisions ds) recursionFactor fuel =
      getEstimatedCallCountForNode order g md recursionFactor fuel := by
  induction fuel with
  | zero => rfl
  | succ fuel ih =>
    have hround : addParent g (md.withDecisions ds) fuel = addParent g md fuel := by
      unfold addParent
      rw [getEstimatedCallsFromNode_withDecisions]
    funext node blacklist
    unfold getEstimatedCallCountForNode
    rw [ih, hround]
    rfl

theorem estimatedInfo_withDecisions : estimatedInfo order g config (md.withDecisions ds) = estimatedInfo order g config md := by
  funext fuel node
  unfold estimatedInfo getScaledCallCountForNode
  rw [getEstimatedCallCountForNode_withDecisions]
  rfl

theorem setDecision_withDecisions (node : ℕ) (d : TemporaryInstrumentationDecisionMetadata) :
    setDecision (md.withDecisions ds) node d = md.withDecisions (Function.update ds node (some d)) := by
  funext n
  unfold setDecision MetaStore.withDecisions
  by_cases hn : n = node
  · subst hn
    rw [MetaStore.update_same, Function.update_self]
  · rw [MetaStore.update_other _ hn, Function.update_of_ne hn]

end

/-! ## The first loop -/

section
variable {order : List ℕ → List ℕ} {g : Callgraph} {config : OverheadConfig} {fuel : ℕ} {md : MetaStore}

/-- What `getOrCreate` leaves. -/
def decisionOf (md : MetaStore) (node : ℕ) : TemporaryInstrumentationDecisionMetadata := (md node).decision.getD .create

/-- An estimate that was stored before passes the comparison with the one that is computed now. -/
def Agrees (order : List ℕ → List ℕ) (g : Callgraph) (config : OverheadConfig) (fuel : ℕ) (md : MetaStore) (node : ℕ) : Prop :=
  ∃ ret, estimatedInfo order g config md fuel node = .ok ret ∧
    ((decisionOf md node).info.init = true → (decisionOf md node).info.same ret = true)

theorem created_of_estimatedInfo {node : ℕ} {ret : InstumentationInfo} (h : estimatedInfo order g config md fuel node = .ok ret) :
    ret = .create ret.callsFromParents ret.inclusiveStmtCount ret.exclusiveStmtCount := by
  obtain ⟨⟨incl, excl⟩, -, h⟩ := bind_eq_ok.mp h
  obtain ⟨calls, -, h⟩ := bind_eq_ok.mp h
  cases h
  rfl

theorem init_of_estimatedInfo {node : ℕ} {ret : InstumentationInfo} (h : estimatedInfo order g config md fuel node = .ok ret) :
    ret.init = true := by
  rw [created_of_estimatedInfo h]
  rfl

theorem getEstimatedInfoForInstrumentedNode_of_decision {node : ℕ} {d : TemporaryInstrumentationDecisionMetadata}
    {r : InstumentationInfo × MetaStore} (hd : (md node).decision = some d)
    (h : getEstimatedInfoForInstrumentedNode order g config md fuel node = .ok r) :
    r.2 = md ∧ ∃ ret, estimatedInfo order g config md fuel node = .ok ret ∧ (d.info.init = true → d.info.same ret = true) := by
  obtain ⟨ret, hret, h⟩ := bind_eq_ok.mp h
  rw [hd] at h
  simp only at h
  split_ifs at h with hcheck
  · cases h
  · cases h
    refine ⟨rfl, ret, hret, fun hinit => ?_⟩
    simpa [hinit] using hcheck

/-- What a node adds to `totalExclusiveCalls`. -/
def exclusiveCalls (md : MetaStore) (node : ℕ) : ℕ := ((md node).baseProfile.map BaseProfileData.numCalls).getD 0

theorem estimateRuntime_ok {total total' node : ℕ} (h : estimateRuntime md total node = .ok total') :
    (md node).baseProfile.isSome = true ∧ total' = toUnsigned (total + exclusiveCalls md node) := by
  unfold estimateRuntime at h
  unfold exclusiveCalls
  cases hprofile : (md node).baseProfile with
  | none => rw [hprofile] at h; cases h
  | some profile =>
    rw [hprofile] at h
    cases h
    exact ⟨rfl, rfl⟩

theorem estimateNode_spec {st st' : Estimates} {node : ℕ} {ds : ℕ → Option TemporaryInstrumentationDecisionMetadata}
    (hmd : st.md = md.withDecisions ds) (hnode : ds node = (md node).decision)
    (hrun : estimateNode order g config fuel st node = .ok st') :
    g.hasNode node = true ∧ st'.md = md.withDecisions (Function.update ds node (some (decisionOf md node))) ∧
      st'.totalExclusiveCalls = toUnsigned (st.totalExclusiveCalls + exclusiveCalls md node) ∧
      (md node).baseProfile.isSome = true ∧ Agrees order g config fuel md node := by
  obtain ⟨n, hn, h⟩ := bind_eq_ok.mp hrun
  obtain ⟨total, htotal, h⟩ := bind_eq_ok.mp h
  obtain ⟨⟨info, md'⟩, hinfo, h⟩ := bind_eq_ok.mp h
  cases h
  have hcreated : setDecision st.md node ((st.md node).decision.getD .create) =
      md.withDecisions (Function.update ds node (some (decisionOf md node))) := by
    rw [hmd, setDecision_withDecisions, decisionOf, ← hnode]
    rfl
  rw [hcreated] at hinfo htotal
  obtain ⟨hmd', ret, hret, hagree⟩ := getEstimatedInfoForInstrumentedNode_of_decision (Function.update_self ..) hinfo
  rw [estimatedInfo_withDecisions] at hret
  have hcalls : estimateRuntime (md.withDecisions (Function.update ds node (some (decisionOf md node))))
      st.totalExclusiveCalls node = .ok total := lift_eq_ok.mp htotal
  obtain ⟨hprofile, htotal⟩ := estimateRuntime_ok hcalls
  refine ⟨?_, hmd', htotal, hprofile, ret, hret, hagree⟩
  cases hlive : deref g node with
  | error e => rw [hlive] at hn; cases hn
  | ok p => exact hasNode_of_deref hlive

/-- The decisions after the loop over the slots `pre`. -/
def decisionsAfter (md : MetaStore) (pre : List ℕ) (n : ℕ) : Option TemporaryInstrumentationDecisionMetadata :=
  if n ∈ pre then some (decisionOf md n) else (md n).decision

/-- The sum of the calls of the slots `pre`. -/
def callsAfter (md : MetaStore) (total : ℕ) (pre : List ℕ) : ℕ := pre.foldl (fun t n => toUnsigned (t + exclusiveCalls md n)) total

theorem estimateNodes_spec {total : ℕ} {st : Estimates} (hrun : estimateNodes order g config fuel ⟨md, total⟩ = .ok st) :
    st.md = md.withDecisions (decisionsAfter md (List.range g.nodes.length)) ∧
      st.totalExclusiveCalls = callsAfter md total (List.range g.nodes.length) ∧
      ∀ node < g.nodes.length, g.hasNode node = true ∧ (md node).baseProfile.isSome = true ∧
        Agrees order g config fuel md node := by
  have hloop := foldlM_ok_inv (f := estimateNode order g config fuel) (l := List.range g.nodes.length)
    (J := fun pre st => st.md = md.withDecisions (decisionsAfter md pre) ∧ st.totalExclusiveCalls = callsAfter md total pre ∧
      ∀ node ∈ pre, g.hasNode node = true ∧ (md node).baseProfile.isSome = true ∧ Agrees order g config fuel md node)
    ⟨?_, rfl, fun node hnode => absurd hnode List.not_mem_nil⟩ (fun pre node t t' hpre hJ ht => ?_) hrun
  · exact ⟨hloop.1, hloop.2.1, fun node hnode => hloop.2.2 node (List.mem_range.mpr hnode)⟩
  · funext n
    rw [MetaStore.withDecisions, decisionsAfter, if_neg List.not_mem_nil]
  · have hnew : node ∉ pre := by
      have hnodup : (pre ++ [node]).Nodup := List.nodup_range.sublist hpre.sublist
      exact fun hmem => (List.nodup_append.mp hnodup).2.2 node hmem node (List.mem_singleton_self node) rfl
    obtain ⟨hlive, hmd, htotal, hagree⟩ := estimateNode_spec hJ.1 (if_neg hnew) ht
    refine ⟨?_, ?_, fun k hk => ?_⟩
    · rw [hmd]
      refine congrArg md.withDecisions (funext fun n => ?_)
      by_cases hn : n = node
      · subst hn
        rw [Function.update_self, decisionsAfter, if_pos (List.mem_append_right _ (List.mem_singleton_self n))]
      · rw [Function.update_of_ne hn]
        simp only [decisionsAfter, List.mem_append, List.mem_singleton, hn, or_false]
    · rw [htotal, hJ.2.1, callsAfter, callsAfter, List.foldl_append]
      rfl
    · rcases List.mem_append.mp hk with hk | hk
      · exact hJ.2.2 k hk
      · rw [List.mem_singleton.mp hk]
        exact ⟨hlive, hagree⟩

/-! ## The loop returns -/

theorem countStatements_ok (h : g.Wf) (hord : ∀ l, (order l).Perm l) (stmtCount : ℕ → CgNode → ℕ) (node incl excl : ℕ)
    {V : Finset ℕ} {Q : List ℕ} (hQ : ∀ n ∈ Q, g.hasNode n = true) :
    ∃ r, countStatements order g stmtCount node incl excl V Q = .ok r := by
  fun_induction countStatements order g stmtCount node incl excl V Q with
  | case1 incl excl V => exact ⟨_, rfl⟩
  | case2 incl excl V wnode Q hslot =>
    have hlive := hQ wnode (List.mem_cons_self ..)
    rw [Callgraph.hasNode, hslot] at hlive
    cases hlive
  | case3 incl excl V wnode Q n hslot hvisited ih => exact ih fun k hk => hQ k (List.mem_cons_of_mem wnode hk)
  | case4 incl excl V wnode Q n hslot hnew e hc =>
    obtain ⟨callees, hok, -⟩ := getCallees_ok h hord (hQ wnode (List.mem_cons_self ..))
    rw [hc] at hok
    cases hok
  | case5 incl excl V wnode Q n hslot hnew count callees hc ih =>
    refine ih fun k hk => ?_
    rcases List.mem_append.mp hk with hk | hk
    · exact hQ k (List.mem_cons_of_mem wnode hk)
    · exact (h.edge_live wnode k ((mem_getCallees h hord hc k).mp hk)).2

theorem isLikelyToBeInlined_ok {node : ℕ} (hlive : g.hasNode node = true) (hinline : (md node).inlineInfo.isSome = true)
    (stmtCount : ℕ) : ∃ b, isLikelyToBeInlined g md node stmtCount = .ok b := by
  obtain ⟨info, hinfo⟩ := Option.isSome_iff_exists.mp hinline
  obtain ⟨n, hn⟩ := deref_ok hlive
  unfold isLikelyToBeInlined
  rw [hinfo, hn]
  simp only [bind, Except.bind]
  split_ifs <;> exact ⟨_, rfl⟩

/-- What the configuration and the data of the nodes must provide for the estimates. -/
structure Estimable (g : Callgraph) (config : OverheadConfig) (md : MetaStore) : Prop where
  recursionFactor : 0 < config.recursionFactor
  inlineFactor : 0 < config.inlineFactor
  sites : SitesPositive g md
  inlineInfo : ∀ n, g.hasNode n = true → (md n).inlineInfo.isSome = true
  baseProfile : ∀ n, g.hasNode n = true → (md n).baseProfile.isSome = true

theorem estimatedInfo_settles (h : g.Wf) (hord : ∀ l, (order l).Perm l) (hest : Estimable g config md) {node : ℕ}
    (hlive : g.hasNode node = true) :
    ∃ ret, Settles (fun fuel => estimatedInfo order g config md fuel node) (.ok ret) ∧
      (0 < ret.callsFromParents ↔ CountedChain g md node) := by
  obtain ⟨⟨incl, excl⟩, hcount⟩ := countStatements_ok h hord (perNodeStmtCount config md) node 0 0 (V := ∅) (Q := [node])
    fun n hn => by rwa [List.mem_singleton.mp hn]
  obtain ⟨b, hb⟩ := isLikelyToBeInlined_ok hlive (hest.inlineInfo node hlive) excl
  obtain ⟨v, ⟨bound, hbound⟩, hnonneg, hiff⟩ := estimated_of_live h hord hest.recursionFactor hest.sites hlive
    (Finset.notMem_empty node) fun n hn => absurd hn (Finset.notMem_empty n)
  refine ⟨.create (if b then v * config.inlineFactor else v) incl excl, ⟨bound, fun fuel hfuel => ?_⟩, ?_⟩
  · unfold estimatedInfo getScaledCallCountForNode
    rw [hcount]
    simp only [lift, Except.mapError, bind, Except.bind, hb, hbound fuel hfuel]
    rfl
  · rw [reached_empty] at hiff
    rw [← hiff]
    change 0 < (if b then v * config.inlineFactor else v) ↔ _
    cases b with
    | true => exact mul_pos_iff_of_pos_right hest.inlineFactor
    | false => exact Iff.rfl

/-- The round returns if the sanity check passes, and leaves the info as it was. -/
theorem estimateNode_of_check {node total : ℕ} {n : CgNode} {profile : BaseProfileData} {ret : InstumentationInfo}
    (hn : deref g node = .ok n) (hprofile : (md node).baseProfile = some profile)
    (hret : estimatedInfo order g config md fuel node = .ok ret)
    (ds : ℕ → Option TemporaryInstrumentationDecisionMetadata)
    (hcheck : ((ds node).getD .create).info.init = true → ((ds node).getD .create).info.same ret = true) :
    estimateNode order g config fuel ⟨md.withDecisions ds, total⟩ node =
      .ok ⟨md.withDecisions (Function.update ds node (some ((ds node).getD .create))),
        toUnsigned (total + profile.numCalls)⟩ := by
  have hruntime : estimateRuntime (md.withDecisions (Function.update ds node (some ((ds node).getD .create)))) total node =
      .ok (toUnsigned (total + profile.numCalls)) := by
    unfold estimateRuntime MetaStore.withDecisions
    rw [hprofile]
  have hpass : (((ds node).getD .create).info.init && !((ds node).getD .create).info.same ret) = false := by
    cases hinit : ((ds node).getD .create).info.init with
    | false => rfl
    | true => rw [hcheck hinit]; rfl
  have hinfo : getEstimatedInfoForInstrumentedNode order g config
      (md.withDecisions (Function.update ds node (some ((ds node).getD .create)))) fuel node =
      .ok (ret, md.withDecisions (Function.update ds node (some ((ds node).getD .create)))) := by
    unfold getEstimatedInfoForInstrumentedNode
    rw [estimatedInfo_withDecisions, hret]
    simp only [bind, Except.bind, MetaStore.withDecisions, Function.update_self, hpass]
    rfl
  unfold estimateNode
  rw [hn, setDecision_withDecisions]
  change (lift (estimateRuntime (md.withDecisions (Function.update ds node (some ((ds node).getD .create)))) total node) >>= _) = _
  rw [hruntime]
  change (getEstimatedInfoForInstrumentedNode order g config
    (md.withDecisions (Function.update ds node (some ((ds node).getD .create)))) fuel node >>= _) = _
  rw [hinfo]
  rfl

/-- What the round for a node needs to return. -/
def Allowed (order : List ℕ → List ℕ) (g : Callgraph) (config : OverheadConfig) (md : MetaStore) (node : ℕ) : Prop :=
  g.hasNode node = true ∧ (md node).baseProfile.isSome = true ∧
    ∃ ret, Settles (fun fuel => estimatedInfo order g config md fuel node) (.ok ret) ∧
      ((decisionOf md node).info.init = true → (decisionOf md node).info.same ret = true)

theorem estimateNodes_returns (hall : ∀ node < g.nodes.length, Allowed order g config md node) (total : ℕ) :
    ∃ st, Settles (fun fuel => estimateNodes order g config fuel ⟨md, total⟩) (.ok st) := by
  have hloop := settles_foldlM (l := List.range g.nodes.length) (s := Estimates.mk md total)
    (f := fun fuel => estimateNode order g config fuel) (J := fun pre st => ∃ ds, st.md = md.withDecisions ds ∧
      ∀ n, (ds n).getD .create = decisionOf md n)
    ⟨fun n => (md n).decision, rfl, fun _ => rfl⟩ (fun pre node st hpre hJ => ?_)
  · obtain ⟨st, hst, -⟩ := hloop
    exact ⟨st, hst⟩
  · obtain ⟨ds, hmd, hds⟩ := hJ
    have hnode : node ∈ List.range g.nodes.length := hpre.subset (List.mem_append_right _ (List.mem_singleton_self node))
    obtain ⟨hlive, hprofile, ret, ⟨bound, hbound⟩, hcheck⟩ := hall node (List.mem_range.mp hnode)
    obtain ⟨n, hn⟩ := deref_ok hlive
    obtain ⟨profile, hprofile⟩ := Option.isSome_iff_exists.mp hprofile
    rw [← hds node] at hcheck
    obtain ⟨md₁, total₁⟩ := st
    cases hmd
    refine ⟨_, ⟨bound, fun fuel hfuel => estimateNode_of_check hn hprofile (hbound fuel hfuel) ds hcheck⟩, _, rfl, fun k => ?_⟩
    by_cases hk : k = node
    · subst hk
      rw [Function.update_self, Option.getD_some]
      exact hds k
    · rw [Function.update_of_ne hk]
      exact hds k

theorem estimateNodes_settles (h : g.Wf) (hord : ∀ l, (order l).Perm l) (hest : Estimable g config md)
    (hall : ∀ i < g.nodes.length, g.hasNode i = true) (hfresh : ∀ n d, (md n).decision = some d → d.info.init = false)
    (total : ℕ) : ∃ st, Settles (fun fuel => estimateNodes order g config fuel ⟨md, total⟩) (.ok st) := by
  refine estimateNodes_returns (fun node hnode => ?_) total
  obtain ⟨ret, hret, -⟩ := estimatedInfo_settles h hord hest (hall node hnode)
  refine ⟨hall node hnode, hest.baseProfile node (hall node hnode), ret, hret, fun hinit => ?_⟩
  unfold decisionOf at hinit
  cases hd : (md node).decision with
  | none =>
    rw [hd] at hinit
    cases hinit
  | some d =>
    rw [hd, Option.getD_some, hfresh node d hd] at hinit
    cases hinit

/-- After the loop the node has decided on its estimate, and a positive estimate passes the test for calls. -/
def DecidesOnEstimate (order : List ℕ → List ℕ) (g : Callgraph) (config : OverheadConfig) (md md' : MetaStore) (node : ℕ) : Prop :=
  ∃ d ret, (md' node).decision = some d ∧ Settles (fun fuel => estimatedInfo order g config md fuel node) (.ok ret) ∧
    d.info = ret ∧ d.info.init = true ∧ (0 < ret.callsFromParents → hasCallsFromParents d = true)

/-- The node carries the estimate that will be computed for it. -/
def EstimateStored (order : List ℕ → List ℕ) (g : Callgraph) (config : OverheadConfig) (md : MetaStore) (node : ℕ) : Prop :=
  ∃ d ret, (md node).decision = some d ∧ Settles (fun fuel => estimatedInfo order g config md fuel node) (.ok ret) ∧
    d.info.init = true ∧ d.info.same ret = true

theorem eq_of_stored {node : ℕ} {d : TemporaryInstrumentationDecisionMetadata} {ret : InstumentationInfo}
    (hret : Settles (fun fuel => estimatedInfo order g config md fuel node) (.ok ret)) (hinit : d.info.init = true)
    (hsame : d.info.same ret = true) : d.info = ret := by
  obtain ⟨bound, hbound⟩ := hret
  exact InstumentationInfo.eq_of_same hsame (hinit.trans (init_of_estimatedInfo (hbound bound le_rfl)).symm)

theorem EstimateStored.allowed {node : ℕ} (hlive : g.hasNode node = true) (hprofile : (md node).baseProfile.isSome = true)
    (h : EstimateStored order g config md node) : Allowed order g config md node := by
  obtain ⟨d, ret, hd, hret, -, hsame⟩ := h
  refine ⟨hlive, hprofile, ret, hret, fun _ => ?_⟩
  rw [decisionOf, hd]
  exact hsame

theorem decision_of_estimateNodes {total fuel node : ℕ} {st : Estimates}
    (hrun : estimateNodes order g config fuel ⟨md, total⟩ = .ok st) (hnode : node < g.nodes.length) :
    (st.md node).decision = some (decisionOf md node) := by
  rw [(estimateNodes_spec hrun).1]
  exact if_pos (List.mem_range.mpr hnode)

/-- The loop stores no estimate: those that are there afterwards were there before. -/
theorem estimateNodes_decide_iff (total : ℕ) :
    (∃ st, Settles (fun fuel => estimateNodes order g config fuel ⟨md, total⟩) (.ok st) ∧
      ∀ node, g.hasNode node = true → DecidesOnEstimate order g config md st.md node) ↔
      ∀ node < g.nodes.length, g.hasNode node = true ∧ (md node).baseProfile.isSome = true ∧
        EstimateStored order g config md node := by
  constructor
  · rintro ⟨st, ⟨bound, hbound⟩, hdecide⟩ node hnode
    have hlive : g.hasNode node = true := ((estimateNodes_spec (hbound bound le_rfl)).2.2 node hnode).1
    obtain ⟨d, ret, hd, hret, -, hinit, -⟩ := hdecide node hlive
    obtain ⟨bound', hbound'⟩ := hret
    have hrun := hbound (max bound bound') (le_max_left ..)
    obtain ⟨-, hprofile, ret', hret', hagree⟩ := (estimateNodes_spec hrun).2.2 node hnode
    cases (hbound' (max bound bound') (le_max_right ..)).symm.trans hret'
    rw [decision_of_estimateNodes hrun hnode] at hd
    cases hd
    refine ⟨hlive, hprofile, decisionOf md node, ret, ?_, ⟨bound', hbound'⟩, hinit, hagree hinit⟩
    unfold decisionOf at hinit ⊢
    cases hold : (md node).decision with
    | none =>
      rw [hold] at hinit
      cases hinit
    | some d => rfl
  · intro hall
    obtain ⟨st, hst⟩ := estimateNodes_returns
      (fun node hnode => (hall node hnode).2.2.allowed (hall node hnode).1 (hall node hnode).2.1) total
    refine ⟨st, hst, fun node hlive => ?_⟩
    have hnode : node < g.nodes.length := Callgraph.hasNode_lt hlive
    obtain ⟨bound, hbound⟩ := hst
    obtain ⟨-, -, d, ret, hold, hret, hinit, hsame⟩ := hall node hnode
    have heq : d.info = ret := eq_of_stored hret hinit hsame
    refine ⟨d, ret, ?_, hret, heq, hinit, fun hpos => ?_⟩
    · rw [decision_of_estimateNodes (hbound bound le_rfl) hnode, decisionOf, hold]
      rfl
    · rw [hasCallsFromParents, heq, decide_eq_true_iff]
      exact hpos.ne'

end

/-- `main` calls `f`. -/
def directCall : Callgraph := Callgraph.run 0 [.insert "main" none false true, .insert "f" none false true, .addEdge 0 1]

def overheadConfig : OverheadConfig := ⟨100, 100, 100, true, false⟩

/-- `main` was called once in the profile, nothing is known about the other functions. -/
def profiledMain : MetaStore := fun node =>
  { onlyMainProfiled node with baseProfile := some ⟨1⟩, inlineInfo := some ⟨false, false, false, false⟩ }

theorem profiledMain_estimable (g : Callgraph) : Estimable g overheadConfig profiledMain where
  recursionFactor := by decide
  inlineFactor := by decide
  sites := fun _ _ _ _ _ => ⟨1, one_pos, 0, fun _ _ => rfl⟩
  inlineInfo := fun _ _ => rfl
  baseProfile := fun _ _ => rfl

theorem directCall_countedChain {node : ℕ} (hnode : directCall.hasNode node = true) :
    CountedChain directCall profiledMain node := by
  have hmain : Source profiledMain 0 := ⟨_, rfl, Nat.one_pos⟩
  have hcases : node = 0 ∨ node = 1 := by
    have hlt : node < 2 := Callgraph.hasNode_lt hnode
    omega
  rcases hcases with rfl | rfl
  · exact ⟨0, hmain, .refl⟩
  · refine ⟨0, hmain, .single ⟨by decide, rfl, ?_⟩⟩
    rintro (hself | ⟨c, hcall, -⟩)
    · exact hself
    · have hlt := ((Callgraph.run_wf 0 _ : directCall.Wf).edge_lt hcall).2
      have hnone : ∀ c < directCall.nodes.length, ¬Calls directCall 1 c := by decide
      exact absurd hcall (hnone c hlt)

theorem estimateNodes_decide_directCall :
    ∃ (ds : ℕ → Option TemporaryInstrumentationDecisionMetadata) (st : Estimates),
      Settles (fun fuel => estimateNodes id directCall overheadConfig fuel ⟨profiledMain.withDecisions ds, 0⟩) (.ok st) ∧
      ∀ node, directCall.hasNode node = true →
        DecidesOnEstimate id directCall overheadConfig (profiledMain.withDecisions ds) st.md node := by
  have hest (node : ℕ) (hnode : directCall.hasNode node = true) :=
    estimatedInfo_settles (Callgraph.run_wf 0 _ : directCall.Wf) (fun l => List.Perm.refl l) (profiledMain_estimable _) hnode
  choose ret hret hpos using hest
  refine ⟨fun node => if hnode : directCall.hasNode node = true
    then some { TemporaryInstrumentationDecisionMetadata.create with info := ret node hnode } else none, ?_⟩
  refine (estimateNodes_decide_iff 0).mpr fun node hnode => ?_
  have hlive : directCall.hasNode node = true := by
    have hall : ∀ n < directCall.nodes.length, directCall.hasNode n = true := by decide
    exact hall node hnode
  obtain ⟨bound, hbound⟩ := hret node hlive
  refine ⟨hlive, rfl, { TemporaryInstrumentationDecisionMetadata.create with info := ret node hlive }, ret node hlive,
    dif_pos hlive, ?_, init_of_estimatedInfo (hbound bound le_rfl), ?_⟩
  · rw [estimatedInfo_withDecisions]
    exact ⟨bound, hbound⟩
  · have hcalls := (hpos node hlive).mpr (directCall_countedChain hlive)
    rw [created_of_estimatedInfo (hbound bound le_rfl)]
    exact InstumentationInfo.same_create hcalls.ne' _ _

/-- The callee of `main` is expected to be called and fails the test for calls. -/
theorem not_decidesOnEstimate_directCall :
    ∃ st ret d, Settles (fun fuel => estimateNodes id directCall overheadConfig fuel ⟨profiledMain, 0⟩) (.ok st) ∧
      Unprofiled profiledMain 1 ∧
      Settles (fun fuel => estimatedInfo id directCall overheadConfig profiledMain fuel 1) (.ok ret) ∧
      0 < ret.callsFromParents ∧ (st.md 1).decision = some d ∧ d.info.init = false ∧ hasCallsFromParents d = false := by
  have hwf : directCall.Wf := Callgraph.run_wf 0 _
  obtain ⟨st, bound, hbound⟩ := estimateNodes_settles hwf (fun l => List.Perm.refl l) (profiledMain_estimable _) (by decide)
    (fun n d hd => by cases hd) 0
  obtain ⟨ret, hret, hpos⟩ := estimatedInfo_settles hwf (fun l => List.Perm.refl l) (profiledMain_estimable _)
    (by decide : directCall.hasNode 1 = true)
  refine ⟨st, ret, .create, ⟨bound, hbound⟩, rfl, hret, hpos.mpr (directCall_countedChain (by decide)), ?_, rfl, rfl⟩
  rw [(estimateNodes_spec (hbound bound le_rfl)).1]
  rfl

end MetaCG.Pgis
