import Mathlib.Tactic.Linarith
import MetaCG.Pgis.AttachResults
import MetaCG.Pgis.StatisticsEstimator

/-! `RuntimeEstimatorPhase::modifyGraph` (`IPCGEstimatorPhase.cpp`) without an overhead budget, the selection of PIRA I.

Times are rational numbers. What is only logged is left out, and so are `exclusiveCalls` and `totStmts`, which only the log and
the selection with a budget read. -/
namespace MetaCG.Pgis
open Foundations Analysis
set_option autoImplicit false
set_option maxHeartbeats 250000
set_option maxRecDepth 120000

/-- What the phase reads besides the graph and the metadata that it changes. -/
structure RuntimePhase where
  useCallSiteInstrumentation : Bool
  /-- `getInclusiveRuntimeInSeconds`, of a node with profile data -/
  inclusiveRuntime : ℕ → ℚ
  heuristics : HeuristicStore
  /-- The product of an integer with the `float` `alpha`, as a `long`. -/
  timesAlpha : ℕ → ℤ

/-- What the search changes: metadata, the nodes with `isDominantRuntime` and the analysis that it asks. -/
structure RuntimeSelection where
  md : MetaStore
  dominantRuntime : Finset ℕ
  ra : ReachabilityAnalysis

/-- The variables of the loop over the children of a node. -/
structure Children where
  ra : ReachabilityAnalysis
  md : MetaStore
  childStmts : UMap ℕ ℤ
  maxStmts : ℤ
  maxRtChild : Option ℕ

section
variable (order : List ℕ → List ℕ) (g : Callgraph) (phase : RuntimePhase)

def estimateRuntimes (md : MetaStore) : Except Exn ℕ :=
  (List.range g.nodes.length).foldlM (fun totalExclusiveCalls node => do
    let _ ← deref g node
    estimateRuntime md totalExclusiveCalls node) 0

def collectRuntime (md : MetaStore) (rt : List ℚ) (node : ℕ) : Except Exn (List ℚ) := do
  let _ ← deref g node
  return if (md node).baseProfile.isSome = true ∧ phase.inclusiveRuntime node ≠ 0 then rt ++ [phase.inclusiveRuntime node] else rt

/-- `calcRuntimeThreshold` with `useLongAsRef`: half of the last element of the sorted vector. -/
def calcRuntimeThreshold (md : MetaStore) : Except Exn ℚ := do
  let rt ← (List.range g.nodes.length).foldlM (collectRuntime g phase md) []
  match rt.max? with
  | none => throw (.runtimeError
      "There was no function with runtime data found in profile, so we are unable to compute a runtime threshold.")
  | some longest => return longest / 2

-- Each node has profile data here: `estimateRuntime` has stopped at one without.
def updateMaxRtChild (runTimeThreshold : ℚ) (startNode : ℕ) (md : MetaStore) (maxRtChild : Option ℕ) (childNode : ℕ) : Option ℕ :=
  if (md childNode).piraOne.wasInPreviousProfile = false ∨ phase.inclusiveRuntime childNode < runTimeThreshold then maxRtChild
  else match maxRtChild with
    | none => if childNode = startNode then none else some childNode
    | some maxRt =>
      if g.nameOf maxRt = g.nameOf childNode ∧ maxRt ≠ childNode then some maxRt
      else if phase.inclusiveRuntime maxRt ≤ phase.inclusiveRuntime childNode ∧ childNode ≠ startNode then some childNode
      else some maxRt

/-- A round of the loop over the children. The local phase counts statements with a threshold that is meant to prevent it from
selecting anything. -/
def visitChildStmts (runTimeThreshold : ℚ) (startNode : ℕ) (c : Children) (childNode : ℕ) : Except Exn Children := do
  let (ra, counts, md) ← StatementCountEstimatorPhase.estimateStatementCount order g phase.heuristics
    phase.useCallSiteInstrumentation true 999999999 c.ra (∅, c.md) childNode
  let stmts := UMap.getD counts childNode 0
  return {
    ra := ra
    md := md
    childStmts := c.childStmts.insert childNode stmts
    maxStmts := max c.maxStmts stmts
    maxRtChild := updateMaxRtChild g phase runTimeThreshold startNode md c.maxRtChild childNode }

-- `count_if` goes from the begin of one copy of the set to the end of another. The end is a null pointer in each, so it sees all
-- of the first.
def stmtThreshold (callees : List ℕ) (childStmts : ℕ → ℤ) (maxStmts : ℤ) : ℤ :=
  let numChildren := callees.countP fun n => decide (0 < childStmts n)
  if 0 < numChildren then phase.timesAlpha (maxStmts.toNat / numChildren) else 1

def instrumentLarger (stmtThreshold : ℤ) (childStmts : ℕ → ℤ) (md : MetaStore) (child : ℕ) : MetaStore :=
  if stmtThreshold < childStmts child then instrumentNode md child else md

def doInstrumentation (runTimeThreshold : ℚ) (s : RuntimeSelection) (startNode : ℕ) : Except Exn RuntimeSelection :=
  if phase.inclusiveRuntime startNode < runTimeThreshold then .ok s
  else do
    let callees ← getCallees order g startNode
    let c ← callees.foldlM (visitChildStmts order g phase runTimeThreshold startNode)
      ⟨s.ra, instrumentNode s.md startNode, ∅, 0, none⟩
    let childStmts := fun n => UMap.getD c.childStmts n 0
    let threshold := stmtThreshold phase callees childStmts c.maxStmts
    if threshold < 1 then return ⟨c.md, s.dominantRuntime, c.ra⟩
    match c.maxRtChild with
    | some maxRt => return ⟨instrumentNode c.md maxRt, insert maxRt s.dominantRuntime, c.ra⟩
    | none =>
      return ⟨if startNode ∈ s.dominantRuntime then callees.foldl (instrumentLarger threshold childStmts) c.md else c.md,
        s.dominantRuntime, c.ra⟩

/-- The loop over `workQueue`. -/
def selectLoop (runTimeThreshold : ℚ) (s : RuntimeSelection) (visitedNodes : Finset ℕ) (workQueue : List ℕ) :
    Except Exn RuntimeSelection :=
  match workQueue with
  | [] => .ok s
  | node :: workQueue =>
    if _hnew : node ∈ visitedNodes then selectLoop runTimeThreshold s visitedNodes workQueue
    else match doInstrumentation order g phase runTimeThreshold s node with
      | .error e => .error e
      | .ok s =>
        match _hcallees : getCallees order g node with
        | .error e => .error e
        | .ok callees => selectLoop runTimeThreshold s (insert node visitedNodes) (workQueue ++ callees)
termination_by Search.pending (Finset.range g.nodes.length) visitedNodes workQueue
decreasing_by
  · exact Search.pending_skip _ le_rfl
  · exact Search.pending_visit (Finset.mem_range.mpr (Callgraph.hasNode_lt (live_of_neighbours _hcallees))) _hnew ..

/-- `modifyGraph`, if no algorithm for the overhead is selected. -/
def RuntimePhase.modifyGraph (md : MetaStore) (dominantRuntime : Finset ℕ) (mainMethod : ℕ) : Except Exn RuntimeSelection := do
  let _ ← estimateRuntimes g md
  let runTimeThreshold ← calcRuntimeThreshold g phase md
  let s ← selectLoop order g phase runTimeThreshold ⟨md, insert mainMethod dominantRuntime, .create g⟩ ∅ [mainMethod]
  return { s with md := instrumentNode s.md mainMethod }

end

/-! ## What a step may select -/

/-- `must` are instrumented afterwards, and nothing but `may` is added to what was instrumented before. -/
structure Widens (md md' : MetaStore) (must may : ℕ → Prop) : Prop where
  profile : SameProfile md md'
  kept : ∀ n, isAnyInstrumented md n = true ∨ must n → isAnyInstrumented md' n = true
  added : ∀ n, isAnyInstrumented md' n = true → isAnyInstrumented md n = true ∨ may n

section
variable {md md' md'' : MetaStore} {must may must' may' : ℕ → Prop}

theorem Widens.refl (md : MetaStore) : Widens md md (fun _ => False) fun _ => False where
  profile := .refl md
  kept := fun _ h => h.resolve_right id
  added := fun _ h => .inl h

theorem Widens.trans (h : Widens md md' must may) (h' : Widens md' md'' must' may') :
    Widens md md'' (fun n => must n ∨ must' n) fun n => may n ∨ may' n where
  profile := h.profile.trans h'.profile
  kept := by
    rintro n (hn | hn | hn)
    · exact h'.kept n (.inl (h.kept n (.inl hn)))
    · exact h'.kept n (.inl (h.kept n (.inr hn)))
    · exact h'.kept n (.inr hn)
  added := fun n hn => by
    rcases h'.added n hn with hn' | hmay
    · exact (h.added n hn').imp_right .inl
    · exact .inr (.inr hmay)

theorem Widens.mono (h : Widens md md' must may) (hmust : ∀ n, must' n → must n) (hmay : ∀ n, may n → may' n) :
    Widens md md' must' may' where
  profile := h.profile
  kept := fun n hn => h.kept n (hn.imp_right (hmust n))
  added := fun n hn => (h.added n hn).imp_right (hmay n)

theorem widens_setInstrumentation (md : MetaStore) (node : ℕ) {state : InstrumentationState} (hstate : state ≠ .none) :
    Widens md (setInstrumentation md node state) (fun n => n = node) fun n => n = node where
  profile := sameProfile_setInstrumentation md node state
  kept := fun n hn => by
    rw [isAnyInstrumented_setInstrumentation]
    split_ifs with hnode
    · exact decide_eq_true hstate
    · exact hn.resolve_right hnode
  added := fun n hn => by
    rw [isAnyInstrumented_setInstrumentation] at hn
    split_ifs at hn with hnode
    · exact .inr hnode
    · exact .inl hn

theorem widens_instrumentNode (md : MetaStore) (node : ℕ) :
    Widens md (instrumentNode md node) (fun n => n = node) fun n => n = node :=
  widens_setInstrumentation md node (by decide)

theorem widens_ite (md : MetaStore) (node : ℕ) {state : InstrumentationState} (hstate : state ≠ .none) (P : Prop) [Decidable P] :
    Widens md (if P then setInstrumentation md node state else md) (fun n => n = node ∧ P) fun n => n = node ∧ P := by
  split_ifs with hP
  · exact (widens_setInstrumentation md node hstate).mono (fun _ hn => hn.1) fun _ hn => ⟨hn, hP⟩
  · exact (Widens.refl md).mono (fun _ hn => hP hn.2) fun _ hn => hn.elim

theorem widens_larger (md : MetaStore) (threshold : ℤ) (childStmts : ℕ → ℤ) (callees : List ℕ) :
    Widens md (callees.foldl (instrumentLarger threshold childStmts) md) (fun n => n ∈ callees ∧ threshold < childStmts n)
      fun n => n ∈ callees ∧ threshold < childStmts n := by
  induction callees generalizing md with
  | nil => exact (Widens.refl md).mono (fun _ hn => absurd hn.1 List.not_mem_nil) fun _ hn => hn.elim
  | cons child callees ih =>
    have hchild : Widens md (instrumentLarger threshold childStmts md child) (fun n => n = child ∧ threshold < childStmts child)
      fun n => n = child ∧ threshold < childStmts child := widens_ite md child (by decide) _
    refine (hchild.trans (ih _)).mono ?_ ?_
    · rintro n ⟨hmem, hn⟩
      rcases List.mem_cons.mp hmem with rfl | hmem
      · exact .inl ⟨rfl, hn⟩
      · exact .inr ⟨hmem, hn⟩
    · rintro n (⟨rfl, hn⟩ | ⟨hmem, hn⟩)
      · exact ⟨List.mem_cons_self .., hn⟩
      · exact ⟨List.mem_cons_of_mem _ hmem, hn⟩

end

/-! ## The statements of a child -/

/-- The statements of the functions that `n` reaches. -/
noncomputable def stmtsOf (g : Callgraph) (md : MetaStore) (n : ℕ) : ℤ := countOf g true (fun x => (md x).piraOne.numStmts) n

/-- Counting its statements alone selects the function: they are very many, or it has no body and its paths are selected. -/
def SelectedByCount (g : Callgraph) (phase : RuntimePhase) (md : MetaStore) (n : ℕ) : Prop :=
  999999999 ≤ stmtsOf g md n ∨ phase.useCallSiteInstrumentation = true ∧ (∃ node, g.slot n = some node ∧ node.hasBody = false) ∧
    (phase.heuristics n).runtimeInSeconds = 0

section
variable {order : List ℕ → List ℕ} {g : Callgraph} {main n : ℕ} {ra : ReachabilityAnalysis} {phase : RuntimePhase}
  {md md' : MetaStore}

theorem stmtsOf_congr (h : SameProfile md md') : stmtsOf g md' = stmtsOf g md := by
  have hstmts : (fun x => (md' x).piraOne.numStmts) = fun x => (md x).piraOne.numStmts := funext fun x => by rw [(h x).1]
  unfold stmtsOf
  rw [hstmts]

theorem instrumentBodyless_widens {st : HeuristicStore} {node : CgNode} (h : instrumentBodyless st md node n = .ok md') :
    Widens md md' (fun _ => False) fun x => x = n ∧ node.hasBody = false ∧ (st n).runtimeInSeconds = 0 := by
  unfold instrumentBodyless at h
  cases hbody : node.hasBody with
  | true =>
    rw [hbody] at h
    cases h
    exact (Widens.refl _).mono (fun _ h => h) fun _ h => h.elim
  | false =>
    rw [hbody] at h
    cases hprofile : (md n).baseProfile with
    | none =>
      rw [hprofile] at h
      cases h
    | some profile =>
      rw [hprofile] at h
      cases h
      exact (widens_ite md n (by decide) _).mono (fun _ h => h.elim) fun x hx => ⟨hx.1, rfl, hx.2⟩

/-- The phase of a child stores its statements and returns where the functions without a body are profiled. -/
theorem visitStmts_spec (phase : RuntimePhase) (md : MetaStore) (h : g.Wf) (hord : ∀ l, (order l).Perm l)
    (hra : MainInv g main ra) (hlive : g.hasNode n = true) (hreach : Relation.ReflTransGen (Calls g) main n)
    (hprofiled : BodylessProfiled g md main) :
    ∃ ra' counts md', StatementCountEstimatorPhase.estimateStatementCount order g phase.heuristics phase.useCallSiteInstrumentation
      true 999999999 ra (∅, md) n = .ok (ra', counts, md') ∧ MainInv g main ra' ∧ UMap.getD counts n 0 = stmtsOf g md n ∧
      Widens md md' (fun _ => False) fun x => x = n ∧ SelectedByCount g phase md n := by
  obtain ⟨hspec, hreturns⟩ := estimateStatementCount_spec h hord phase.heuristics phase.useCallSiteInstrumentation 999999999 (∅, md)
    hra hlive hreach
  obtain ⟨⟨ra', counts, md'⟩, hrun⟩ := hreturns.mpr fun _ => bodylessProfiled_iff.mp hprofiled n hreach
  obtain ⟨hra', hcounts, -⟩ := hspec _ hrun
  refine ⟨ra', counts, md', hrun, hra', ?_, ?_⟩
  · rw [show counts = _ from hcounts, UMap.getD_insert, if_pos rfl]
    rfl
  obtain ⟨ra₁, hcount, -⟩ := sumTargetCounts_spec h hord (fun x => (md x).piraOne.numStmts) hra .initial hlive hreach
    (show (0 : ℤ) = _ from rfl)
  obtain ⟨node, hnode⟩ := deref_ok hlive
  unfold StatementCountEstimatorPhase.estimateStatementCount at hrun
  simp only [if_true, hcount, hnode, ok_bind] at hrun
  obtain ⟨md₁, hmd₁, hret⟩ := bind_eq_ok.mp hrun
  cases hret
  have hhuge : Widens md (if 999999999 ≤ stmtsOf g md n then instrumentNode md n else md) (fun _ => False)
    fun x => x = n ∧ 999999999 ≤ stmtsOf g md n := (widens_ite md n (by decide) _).mono (fun _ hx => hx.elim) fun _ hx => hx
  cases hcs : phase.useCallSiteInstrumentation with
  | false =>
    rw [hcs] at hmd₁
    cases hmd₁
    exact hhuge.mono (fun _ h => h) fun x hx => ⟨hx.1, .inl hx.2⟩
  | true =>
    rw [hcs] at hmd₁
    refine (hhuge.trans (instrumentBodyless_widens hmd₁)).mono (fun _ h => h.elim) ?_
    rintro x (⟨rfl, hx⟩ | ⟨rfl, hbody, hruntime⟩)
    · exact ⟨rfl, .inl hx⟩
    · exact ⟨rfl, .inr ⟨hcs, ⟨node, deref_eq_ok.mp hnode, hbody⟩, hruntime⟩⟩

end

/-! ## One node -/

/-- The child may become the principal child of `p`: it is another function that was profiled and ran for long. -/
def IsLongChild (phase : RuntimePhase) (md : MetaStore) (runTimeThreshold : ℚ) (p n : ℕ) : Prop :=
  n ≠ p ∧ (md n).piraOne.wasInPreviousProfile = true ∧ runTimeThreshold ≤ phase.inclusiveRuntime n

/-- The statement threshold of a node, over its callees in any order. -/
noncomputable def stmtThresholdOf (g : Callgraph) (phase : RuntimePhase) (md : MetaStore) (p : ℕ) : ℤ :=
  stmtThreshold phase (g.callees p).dedup (stmtsOf g md) ((g.callees p).dedup.foldl (fun m n => max m (stmtsOf g md n)) 0)

/-- What the loop over the children knows about those that it has seen. -/
structure SeenChildren (g : Callgraph) (phase : RuntimePhase) (main : ℕ) (runTimeThreshold : ℚ) (p : ℕ) (md : MetaStore)
    (seen : List ℕ) (c : Children) : Prop where
  ra : MainInv g main c.ra
  widens : Widens md c.md (fun _ => False) fun n => n ∈ seen ∧ SelectedByCount g phase md n
  stmts : ∀ n ∈ seen, UMap.getD c.childStmts n 0 = stmtsOf g md n
  maxStmts : c.maxStmts = seen.foldl (fun m n => max m (stmtsOf g md n)) 0
  long : ∀ n, c.maxRtChild = some n → n ∈ seen ∧ IsLongChild phase md runTimeThreshold p n
  noLong : c.maxRtChild = none → ∀ n ∈ seen, ¬IsLongChild phase md runTimeThreshold p n

section
variable {order : List ℕ → List ℕ} {g : Callgraph} {phase : RuntimePhase} {main p n : ℕ} {md md' : MetaStore}
  {runTimeThreshold : ℚ} {seen : List ℕ} {c : Children}

theorem IsLongChild.congr (h : SameProfile md md') :
    IsLongChild phase md' runTimeThreshold p n ↔ IsLongChild phase md runTimeThreshold p n := by
  rw [IsLongChild, IsLongChild, (h n).1]

theorem SelectedByCount.congr (h : SameProfile md md') : SelectedByCount g phase md' n ↔ SelectedByCount g phase md n := by
  rw [SelectedByCount, SelectedByCount, stmtsOf_congr h]

theorem stmtThresholdOf_congr (h : SameProfile md md') : stmtThresholdOf g phase md' p = stmtThresholdOf g phase md p := by
  rw [stmtThresholdOf, stmtThresholdOf, stmtsOf_congr h]

/-- The principal child stays or becomes the visited child, which then is a long one. There is one after a long child. -/
theorem updateMaxRtChild_spec (g : Callgraph) (phase : RuntimePhase) (runTimeThreshold : ℚ) (p : ℕ) (md : MetaStore)
    (maxRtChild : Option ℕ) (childNode : ℕ) :
    (∀ n, updateMaxRtChild g phase runTimeThreshold p md maxRtChild childNode = some n →
      maxRtChild = some n ∨ (n = childNode ∧ IsLongChild phase md runTimeThreshold p n)) ∧
    (updateMaxRtChild g phase runTimeThreshold p md maxRtChild childNode = none →
      maxRtChild = none ∧ ¬IsLongChild phase md runTimeThreshold p childNode) := by
  unfold updateMaxRtChild
  by_cases hskip : (md childNode).piraOne.wasInPreviousProfile = false ∨ phase.inclusiveRuntime childNode < runTimeThreshold
  · rw [if_pos hskip]
    refine ⟨fun n hn => .inl hn, fun hnone => ⟨hnone, fun hlong => ?_⟩⟩
    rcases hskip with hskip | hskip
    · rw [hlong.2.1] at hskip
      cases hskip
    · exact absurd hlong.2.2 (not_le.mpr hskip)
  rw [if_neg hskip]
  rw [not_or, Bool.not_eq_false, not_lt] at hskip
  cases maxRtChild with
  | none =>
    dsimp only
    split_ifs with hself
    · exact ⟨fun n hn => (by cases hn), fun _ => ⟨rfl, fun hlong => hlong.1 hself⟩⟩
    · refine ⟨fun n hn => .inr ?_, fun hnone => (by cases hnone)⟩
      cases hn
      exact ⟨rfl, hself, hskip⟩
  | some maxRt =>
    dsimp only
    split_ifs with hname hlonger
    · exact ⟨fun n hn => .inl hn, fun hnone => (by cases hnone)⟩
    · refine ⟨fun n hn => .inr ?_, fun hnone => (by cases hnone)⟩
      cases hn
      exact ⟨rfl, hlonger.2, hskip⟩
    · exact ⟨fun n hn => .inl hn, fun hnone => (by cases hnone)⟩

theorem SeenChildren.initial {ra : ReachabilityAnalysis} (hra : MainInv g main ra) :
    SeenChildren g phase main runTimeThreshold p md [] ⟨ra, md, ∅, 0, none⟩ where
  ra := hra
  widens := (Widens.refl md).mono (fun _ h => h) fun _ h => h.elim
  stmts := fun n hn => absurd hn List.not_mem_nil
  maxStmts := rfl
  long := fun n hn => by cases hn
  noLong := fun _ n hn => absurd hn List.not_mem_nil

/-- One more child. -/
theorem SeenChildren.visit (h : SeenChildren g phase main runTimeThreshold p md seen c) (hwf : g.Wf)
    (hord : ∀ l, (order l).Perm l) (hlive : g.hasNode n = true) (hreach : Relation.ReflTransGen (Calls g) main n)
    (hprofiled : BodylessProfiled g md main) :
    ∃ c', visitChildStmts order g phase runTimeThreshold p c n = .ok c' ∧
      SeenChildren g phase main runTimeThreshold p md (seen ++ [n]) c' := by
  obtain ⟨ra', counts, md', hrun, hra', hcounts, hwidens⟩ := visitStmts_spec phase c.md hwf hord h.ra hlive hreach
    ((BodylessProfiled.congr h.widens.profile).mpr hprofiled)
  have hsame : SameProfile md md' := h.widens.profile.trans hwidens.profile
  rw [stmtsOf_congr h.widens.profile] at hcounts
  obtain ⟨hsome, hnone⟩ := updateMaxRtChild_spec g phase runTimeThreshold p md' c.maxRtChild n
  refine ⟨_, bind_eq_ok.mpr ⟨_, hrun, rfl⟩, ?_⟩
  constructor
  · exact hra'
  · refine (h.widens.trans hwidens).mono (fun _ h => h.elim) ?_
    rintro x (⟨hx, hcount⟩ | ⟨rfl, hcount⟩)
    · exact ⟨List.mem_append_left _ hx, hcount⟩
    · exact ⟨List.mem_append_right _ (List.mem_singleton_self x), (SelectedByCount.congr h.widens.profile).mp hcount⟩
  · intro x hx
    dsimp only
    rw [UMap.getD_insert]
    split_ifs with hxn
    · rw [hcounts, hxn]
    · exact h.stmts x ((List.mem_append.mp hx).resolve_right fun hmem => hxn (List.mem_singleton.mp hmem))
  · dsimp only
    rw [List.foldl_append, ← h.maxStmts, hcounts]
    rfl
  · intro m hm
    rcases hsome m hm with hm | ⟨rfl, hlong⟩
    · exact (h.long m hm).imp_left (List.mem_append_left _)
    · exact ⟨List.mem_append_right _ (List.mem_singleton_self m), (IsLongChild.congr hsame).mp hlong⟩
  · intro hm x hx
    obtain ⟨hbefore, hlong⟩ := hnone hm
    rcases List.mem_append.mp hx with hx | hx
    · exact h.noLong hbefore x hx
    · rw [List.mem_singleton.mp hx]
      exact fun hn => hlong ((IsLongChild.congr hsame).mpr hn)

/-- The order of the callees does not matter for the statement threshold. -/
theorem stmtThreshold_perm {l l' : List ℕ} (h : l.Perm l') (f : ℕ → ℤ) :
    stmtThreshold phase l f (l.foldl (fun m n => max m (f n)) 0) =
      stmtThreshold phase l' f (l'.foldl (fun m n => max m (f n)) 0) := by
  have hmax : l.foldl (fun m n => max m (f n)) 0 = l'.foldl (fun m n => max m (f n)) 0 :=
    h.foldl_eq' (fun x _ y _ m => max_right_comm m (f x) (f y)) 0
  unfold stmtThreshold
  rw [hmax, h.countP_eq]

/-- After the loop over the callees their statement threshold is known. -/
theorem SeenChildren.threshold {callees : List ℕ} (h : SeenChildren g phase main runTimeThreshold p md callees c) (hwf : g.Wf)
    (hnodup : callees.Nodup) (hmem : ∀ v, v ∈ callees ↔ Calls g p v) :
    stmtThreshold phase callees (fun n => UMap.getD c.childStmts n 0) c.maxStmts = stmtThresholdOf g phase md p := by
  have hperm : callees.Perm (g.callees p).dedup := by
    refine (List.perm_ext_iff_of_nodup hnodup (List.nodup_dedup _)).mpr fun v => ?_
    rw [hmem, List.mem_dedup, hwf.mem_callees, Calls]
  have hcount : callees.countP (fun n => decide (0 < UMap.getD c.childStmts n 0)) =
      callees.countP fun n => decide (0 < stmtsOf g md n) :=
    List.countP_congr fun n hn => by rw [h.stmts n hn]
  rw [stmtThresholdOf, ← stmtThreshold_perm hperm, h.maxStmts]
  unfold stmtThreshold
  rw [hcount]

/-- `p` has no principal child, and `n` is a child with more statements than the threshold. -/
def IsLargeChild (g : Callgraph) (phase : RuntimePhase) (md : MetaStore) (runTimeThreshold : ℚ) (p n : ℕ) : Prop :=
  Calls g p n ∧ (∀ c, Calls g p c → ¬IsLongChild phase md runTimeThreshold p c) ∧ 1 ≤ stmtThresholdOf g phase md p ∧
    stmtThresholdOf g phase md p < stmtsOf g md n

/-- What the visit of a node does to the selection. -/
structure Visited (g : Callgraph) (phase : RuntimePhase) (main : ℕ) (md : MetaStore) (runTimeThreshold : ℚ) (p : ℕ)
    (s s' : RuntimeSelection) : Prop where
  ra : MainInv g main s'.ra
  widens : Widens s.md s'.md
    (fun n => runTimeThreshold ≤ phase.inclusiveRuntime p ∧
      (n = p ∨ p ∈ s.dominantRuntime ∧ IsLargeChild g phase md runTimeThreshold p n))
    fun n => runTimeThreshold ≤ phase.inclusiveRuntime p ∧
      (n = p ∨ Calls g p n ∧ (SelectedByCount g phase md n ∨ IsLongChild phase md runTimeThreshold p n) ∨
        p ∈ s.dominantRuntime ∧ IsLargeChild g phase md runTimeThreshold p n)
  dominant : s.dominantRuntime ⊆ s'.dominantRuntime
  added : ∀ n ∈ s'.dominantRuntime, n ∈ s.dominantRuntime ∨
    runTimeThreshold ≤ phase.inclusiveRuntime p ∧ Calls g p n ∧ IsLongChild phase md runTimeThreshold p n

theorem doInstrumentation_spec (phase : RuntimePhase) (runTimeThreshold : ℚ) {s : RuntimeSelection} (h : g.Wf)
    (hord : ∀ l, (order l).Perm l) (hra : MainInv g main s.ra) (hsame : SameProfile md s.md)
    (hprofiled : BodylessProfiled g md main) (hlive : g.hasNode p = true) (hreach : Relation.ReflTransGen (Calls g) main p) :
    ∃ s', doInstrumentation order g phase runTimeThreshold s p = .ok s' ∧
      Visited g phase main md runTimeThreshold p s s' := by
  unfold doInstrumentation
  by_cases hshort : phase.inclusiveRuntime p < runTimeThreshold
  · rw [if_pos hshort]
    refine ⟨s, rfl, hra, ?_, subset_rfl, fun n hn => .inl hn⟩
    exact (Widens.refl s.md).mono (fun n hn => absurd hn.1 (not_le.mpr hshort)) fun _ hn => hn.elim
  rw [if_neg hshort]
  have hlong : runTimeThreshold ≤ phase.inclusiveRuntime p := not_lt.mp hshort
  obtain ⟨callees, hcallees, hnodup, hmem⟩ := getCallees_ok h hord hlive
  have hself := widens_instrumentNode s.md p
  have hsame₁ : SameProfile md (instrumentNode s.md p) := hsame.trans hself.profile
  have hloop : ∃ c, callees.foldlM (visitChildStmts order g phase runTimeThreshold p) ⟨s.ra, instrumentNode s.md p, ∅, 0, none⟩ =
      .ok c ∧ SeenChildren g phase main runTimeThreshold p (instrumentNode s.md p) callees c := by
    refine foldlM_total (.initial hra) fun pre n c hpre hc => ?_
    have hcall : Calls g p n := (hmem n).mp (hpre.subset (List.mem_append_right _ (List.mem_singleton_self n)))
    exact hc.visit h hord (h.edge_live _ _ hcall).2 (hreach.tail hcall) ((BodylessProfiled.congr hsame₁).mpr hprofiled)
  obtain ⟨c, hc, hseen⟩ := hloop
  have hstmts : ∀ n ∈ callees, UMap.getD c.childStmts n 0 = stmtsOf g md n := fun n hn => by
    rw [hseen.stmts n hn, stmtsOf_congr hsame₁]
  have hthreshold : stmtThreshold phase callees (fun n => UMap.getD c.childStmts n 0) c.maxStmts =
      stmtThresholdOf g phase md p := by
    rw [hseen.threshold h hnodup hmem, stmtThresholdOf_congr hsame₁]
  -- what the loop over the children leaves, whichever way the function ends
  have hcounted : Widens s.md c.md (fun n => n = p) fun n => n = p ∨ Calls g p n ∧ SelectedByCount g phase md n := by
    refine (hself.trans hseen.widens).mono (fun _ hn => .inl hn) ?_
    rintro n (hn | ⟨hn, hcount⟩)
    · exact .inl hn
    · exact .inr ⟨(hmem n).mp hn, (SelectedByCount.congr hsame₁).mp hcount⟩
  rw [hcallees, ok_bind, hc, ok_bind]
  dsimp only
  rw [hthreshold]
  by_cases hone : stmtThresholdOf g phase md p < 1
  · rw [if_pos hone]
    refine ⟨_, rfl, hseen.ra, hcounted.mono ?_ ?_, subset_rfl, fun n hn => .inl hn⟩
    · rintro n ⟨-, rfl | ⟨-, -, -, hone', -⟩⟩
      · rfl
      · exact absurd hone (not_lt.mpr hone')
    · rintro n (rfl | ⟨hcall, hcount⟩)
      · exact ⟨hlong, .inl rfl⟩
      · exact ⟨hlong, .inr (.inl ⟨hcall, .inl hcount⟩)⟩
  rw [if_neg hone]
  cases hmax : c.maxRtChild with
  | some maxRt =>
    obtain ⟨hcallee, hchild⟩ := hseen.long maxRt hmax
    have hcall : Calls g p maxRt := (hmem maxRt).mp hcallee
    have hchild' : IsLongChild phase md runTimeThreshold p maxRt := (IsLongChild.congr hsame₁).mp hchild
    refine ⟨_, rfl, hseen.ra, (hcounted.trans (widens_instrumentNode c.md maxRt)).mono ?_ ?_, Finset.subset_insert .., ?_⟩
    · rintro n ⟨-, rfl | ⟨-, -, hnone, -⟩⟩
      · exact .inl rfl
      · exact absurd hchild' (hnone maxRt hcall)
    · rintro n ((rfl | ⟨hcall', hcount⟩) | rfl)
      · exact ⟨hlong, .inl rfl⟩
      · exact ⟨hlong, .inr (.inl ⟨hcall', .inl hcount⟩)⟩
      · exact ⟨hlong, .inr (.inl ⟨hcall, .inr hchild'⟩)⟩
    · intro n hn
      rcases Finset.mem_insert.mp hn with rfl | hn
      · exact .inr ⟨hlong, hcall, hchild'⟩
      · exact .inl hn
  | none =>
    have hnone : ∀ n, Calls g p n → ¬IsLongChild phase md runTimeThreshold p n := fun n hn hchild =>
      hseen.noLong hmax n ((hmem n).mpr hn) ((IsLongChild.congr hsame₁).mpr hchild)
    have hlarge : ∀ n, n ∈ callees ∧ stmtThresholdOf g phase md p < UMap.getD c.childStmts n 0 ↔
        IsLargeChild g phase md runTimeThreshold p n := by
      intro n
      constructor
      · rintro ⟨hn, hlt⟩
        exact ⟨(hmem n).mp hn, hnone, not_lt.mp hone, hstmts n hn ▸ hlt⟩
      · rintro ⟨hcall, -, -, hlt⟩
        have hn := (hmem n).mpr hcall
        exact ⟨hn, (hstmts n hn).symm ▸ hlt⟩
    dsimp only
    by_cases hdominant : p ∈ s.dominantRuntime
    · rw [if_pos hdominant]
      refine ⟨_, rfl, hseen.ra, (hcounted.trans (widens_larger c.md _ _ callees)).mono ?_ ?_, subset_rfl, fun n hn => .inl hn⟩
      · rintro n ⟨-, rfl | ⟨-, hn⟩⟩
        · exact .inl rfl
        · exact .inr ((hlarge n).mpr hn)
      · rintro n ((rfl | ⟨hcall, hcount⟩) | hn)
        · exact ⟨hlong, .inl rfl⟩
        · exact ⟨hlong, .inr (.inl ⟨hcall, .inl hcount⟩)⟩
        · exact ⟨hlong, .inr (.inr ⟨hdominant, (hlarge n).mp hn⟩)⟩
    · rw [if_neg hdominant]
      refine ⟨_, rfl, hseen.ra, hcounted.mono ?_ ?_, subset_rfl, fun n hn => .inl hn⟩
      · rintro n ⟨-, rfl | ⟨hin, -⟩⟩
        · rfl
        · exact absurd hin hdominant
      · rintro n (rfl | ⟨hcall, hcount⟩)
        · exact ⟨hlong, .inl rfl⟩
        · exact ⟨hlong, .inr (.inl ⟨hcall, .inl hcount⟩)⟩

end

/-! ## The search -/

/-- Main reaches the function, and it runs for as long as the threshold. -/
def RunsLong (g : Callgraph) (phase : RuntimePhase) (main : ℕ) (runTimeThreshold : ℚ) (n : ℕ) : Prop :=
  Relation.ReflTransGen (Calls g) main n ∧ runTimeThreshold ≤ phase.inclusiveRuntime n

/-- A node that may have `isDominantRuntime` at its visit: one that has it from the start, or a child that may be principal. -/
def MayDominate (g : Callgraph) (phase : RuntimePhase) (main : ℕ) (md : MetaStore) (dominantRuntime : Finset ℕ)
    (runTimeThreshold : ℚ) (p : ℕ) : Prop :=
  p ∈ dominantRuntime ∨
    ∃ q, RunsLong g phase main runTimeThreshold q ∧ Calls g q p ∧ IsLongChild phase md runTimeThreshold q p

/-- The state of the search after the nodes of `V`. -/
structure RuntimeSelection.Inv (g : Callgraph) (phase : RuntimePhase) (main : ℕ) (md : MetaStore) (dominantRuntime : Finset ℕ)
    (runTimeThreshold : ℚ) (V : Finset ℕ) (s : RuntimeSelection) : Prop where
  ra : MainInv g main s.ra
  widens : Widens md s.md
    (fun n => ∃ p ∈ V, runTimeThreshold ≤ phase.inclusiveRuntime p ∧
      (n = p ∨ p ∈ dominantRuntime ∧ IsLargeChild g phase md runTimeThreshold p n))
    fun n => RunsLong g phase main runTimeThreshold n ∨ ∃ p, RunsLong g phase main runTimeThreshold p ∧
      (Calls g p n ∧ SelectedByCount g phase md n ∨
        MayDominate g phase main md dominantRuntime runTimeThreshold p ∧ IsLargeChild g phase md runTimeThreshold p n)
  dominant : dominantRuntime ⊆ s.dominantRuntime
  added : ∀ n ∈ s.dominantRuntime, MayDominate g phase main md dominantRuntime runTimeThreshold n

section
variable {order : List ℕ → List ℕ} {g : Callgraph} {phase : RuntimePhase} {main p : ℕ} {md : MetaStore}
  {dominantRuntime V : Finset ℕ} {runTimeThreshold : ℚ} {s s' : RuntimeSelection} {Q : List ℕ}

theorem RuntimeSelection.Inv.initial {ra : ReachabilityAnalysis} (hra : MainInv g main ra) :
    RuntimeSelection.Inv g phase main md dominantRuntime runTimeThreshold ∅ ⟨md, dominantRuntime, ra⟩ where
  ra := hra
  widens := (Widens.refl md).mono (fun _ ⟨_, hp, _⟩ => absurd hp (Finset.notMem_empty _)) fun _ hn => hn.elim
  dominant := subset_rfl
  added := fun _ hn => .inl hn

theorem RuntimeSelection.Inv.visit (h : RuntimeSelection.Inv g phase main md dominantRuntime runTimeThreshold V s)
    (hv : Visited g phase main md runTimeThreshold p s s') (hreach : Relation.ReflTransGen (Calls g) main p) :
    RuntimeSelection.Inv g phase main md dominantRuntime runTimeThreshold (insert p V) s' := by
  refine ⟨hv.ra, (h.widens.trans hv.widens).mono ?_ ?_, h.dominant.trans hv.dominant, fun n hn => ?_⟩
  · rintro n ⟨q, hq, hlong, hn⟩
    rcases Finset.mem_insert.mp hq with rfl | hq
    · exact .inr ⟨hlong, hn.imp_right fun hlarge => ⟨h.dominant hlarge.1, hlarge.2⟩⟩
    · exact .inl ⟨q, hq, hlong, hn⟩
  · rintro n (hn | ⟨hlong, rfl | ⟨hcall, hcount | hchild⟩ | ⟨hdominant, hlarge⟩⟩)
    · exact hn
    · exact .inl ⟨hreach, hlong⟩
    · exact .inr ⟨p, ⟨hreach, hlong⟩, .inl ⟨hcall, hcount⟩⟩
    · exact .inl ⟨hreach.tail hcall, hchild.2.2⟩
    · exact .inr ⟨p, ⟨hreach, hlong⟩, .inr ⟨h.added p hdominant, hlarge⟩⟩
  · rcases hv.added n hn with hn | ⟨hlong, hcall, hchild⟩
    · exact h.added n hn
    · exact .inr ⟨p, ⟨hreach, hlong⟩, hcall, hchild⟩

theorem selectLoop_spec (h : g.Wf) (hord : ∀ l, (order l).Perm l) (hmain : g.hasNode main = true)
    (hprofiled : BodylessProfiled g md main) (hs : RuntimeSelection.Inv g phase main md dominantRuntime runTimeThreshold V s)
    (hf : Search.Frontier (Calls g) main V Q) :
    ∃ s' V', selectLoop order g phase runTimeThreshold s V Q = .ok s' ∧
      (∀ n, n ∈ V' ↔ Relation.ReflTransGen (Calls g) main n) ∧
      RuntimeSelection.Inv g phase main md dominantRuntime runTimeThreshold V' s' := by
  fun_induction selectLoop order g phase runTimeThreshold s V Q with
  | case1 s V => exact ⟨s, V, rfl, hf.done, hs⟩
  | case2 s V u Q hu ih => exact ih hs (hf.skip hu)
  | case3 s V u Q hu e he =>
    have hreach := hf.reached u (.inr (List.mem_cons_self ..))
    obtain ⟨s₁, hok, -⟩ := doInstrumentation_spec phase runTimeThreshold h hord hs.ra
      hs.widens.profile hprofiled (Profile.reaches_live h hmain hreach) hreach
    rw [he] at hok
    cases hok
  | case4 s V u Q hu s₁ hs₁ e he =>
    obtain ⟨callees, hok, -⟩ := getCallees_ok h hord (Profile.reaches_live h hmain (hf.reached u (.inr (List.mem_cons_self ..))))
    rw [he] at hok
    cases hok
  | case5 s V u Q hu s₁ hs₁ callees hcallees ih =>
    have hreach := hf.reached u (.inr (List.mem_cons_self ..))
    obtain ⟨s₂, hok, hvisited⟩ := doInstrumentation_spec phase runTimeThreshold h hord hs.ra
      hs.widens.profile hprofiled (Profile.reaches_live h hmain hreach) hreach
    cases hs₁.symm.trans hok
    exact ih (hs.visit hvisited hreach) (hf.visitAll (mem_getCallees h hord hcallees))

end

/-! ## The phase -/

/-- No slot is empty, and each node has profile data. -/
def ProfiledNodes (g : Callgraph) (md : MetaStore) : Prop :=
  ∀ i < g.nodes.length, g.hasNode i = true ∧ (md i).baseProfile.isSome = true

section
variable {g : Callgraph} {phase : RuntimePhase} {md : MetaStore}

theorem estimateRuntimes_ok_iff (g : Callgraph) (md : MetaStore) :
    (∃ total, estimateRuntimes g md = .ok total) ↔ ProfiledNodes g md := by
  unfold estimateRuntimes
  constructor
  · rintro ⟨total, hrun⟩ i hi
    obtain ⟨t, t', hround⟩ := foldlM_ok_mem hrun i (List.mem_range.mpr hi)
    obtain ⟨n, hn, hestimate⟩ := bind_eq_ok.mp hround
    refine ⟨hasNode_of_deref hn, ?_⟩
    cases hprofile : (md i).baseProfile with
    | none =>
      unfold estimateRuntime at hestimate
      rw [hprofile] at hestimate
      cases hestimate
    | some profile => rfl
  · intro hall
    refine (foldlM_total (J := fun _ _ => True) trivial fun pre i total hpre _ => ?_).imp fun _ h => h.1
    obtain ⟨hlive, hprofile⟩ := hall i (List.mem_range.mp (hpre.subset (List.mem_append_right _ (List.mem_singleton_self i))))
    obtain ⟨n, hn⟩ := deref_ok hlive
    obtain ⟨profile, hprofile⟩ := Option.isSome_iff_exists.mp hprofile
    have hestimate : estimateRuntime md total i = .ok (toUnsigned (total + profile.numCalls)) := by
      unfold estimateRuntime
      rw [hprofile]
    exact ⟨_, bind_eq_ok.mpr ⟨n, hn, hestimate⟩, trivial⟩

/-- The runtimes that the threshold is taken from. -/
def runtimes (g : Callgraph) (phase : RuntimePhase) : List ℚ :=
  ((List.range g.nodes.length).filter fun i => decide (phase.inclusiveRuntime i ≠ 0)).map phase.inclusiveRuntime

theorem mem_runtimes {t : ℚ} : t ∈ runtimes g phase ↔ ∃ i < g.nodes.length, phase.inclusiveRuntime i = t ∧ t ≠ 0 := by
  simp only [runtimes, List.mem_map, List.mem_filter, List.mem_range, decide_eq_true_iff]
  constructor
  · rintro ⟨i, ⟨hi, hne⟩, rfl⟩
    exact ⟨i, hi, rfl, hne⟩
  · rintro ⟨i, hi, rfl, hne⟩
    exact ⟨i, ⟨hi, hne⟩, rfl⟩

theorem collectRuntime_loop (hall : ProfiledNodes g md) :
    (List.range g.nodes.length).foldlM (collectRuntime g phase md) [] = .ok (runtimes g phase) := by
  obtain ⟨rt, hrun, hrt⟩ : ∃ rt, (List.range g.nodes.length).foldlM (collectRuntime g phase md) [] = .ok rt ∧
      rt = runtimes g phase := by
    refine foldlM_total
      (J := fun pre rt => rt = (pre.filter fun i => decide (phase.inclusiveRuntime i ≠ 0)).map phase.inclusiveRuntime) rfl ?_
    intro pre i rt hpre hrt
    obtain ⟨hlive, hprofile⟩ := hall i (List.mem_range.mp (hpre.subset (List.mem_append_right _ (List.mem_singleton_self i))))
    obtain ⟨n, hn⟩ := deref_ok hlive
    refine ⟨_, bind_eq_ok.mpr ⟨n, hn, rfl⟩, ?_⟩
    rw [List.filter_append, List.map_append, ← hrt, List.filter_singleton]
    by_cases hzero : phase.inclusiveRuntime i = 0 <;> simp [hzero, hprofile]
  rw [hrun, hrt]

/-- The threshold is half of the longest runtime; without a runtime there is none. -/
theorem calcRuntimeThreshold_eq_ok (hall : ProfiledNodes g md) {runTimeThreshold : ℚ} :
    calcRuntimeThreshold g phase md = .ok runTimeThreshold ↔
      IsGreatest {t | ∃ i < g.nodes.length, phase.inclusiveRuntime i = t ∧ t ≠ 0} (2 * runTimeThreshold) := by
  have hgreatest : ∀ t, (runtimes g phase).max? = some t ↔
      IsGreatest {t | ∃ i < g.nodes.length, phase.inclusiveRuntime i = t ∧ t ≠ 0} t := fun t => by
    rw [List.max?_eq_some_iff]
    simp only [mem_runtimes]
    exact Iff.rfl
  unfold calcRuntimeThreshold
  rw [collectRuntime_loop hall, ok_bind, ← hgreatest]
  cases hmax : (runtimes g phase).max? with
  | none => exact iff_of_false (fun h => by cases h) fun h => by cases h
  | some longest =>
    dsimp only
    constructor
    · intro h
      cases h
      rw [mul_div_cancel₀ longest two_ne_zero]
    · intro h
      rw [Option.some.inj h, mul_div_cancel_left₀ runTimeThreshold two_ne_zero]
      rfl

theorem calcRuntimeThreshold_ok_iff (hall : ProfiledNodes g md) :
    (∃ runTimeThreshold, calcRuntimeThreshold g phase md = .ok runTimeThreshold) ↔
      ∃ i < g.nodes.length, phase.inclusiveRuntime i ≠ 0 := by
  constructor
  · rintro ⟨t, ht⟩
    obtain ⟨i, hi, heq, hne⟩ := ((calcRuntimeThreshold_eq_ok hall).mp ht).1
    exact ⟨i, hi, heq.symm ▸ hne⟩
  · rintro ⟨i, hi, hne⟩
    unfold calcRuntimeThreshold
    rw [collectRuntime_loop hall, ok_bind]
    cases hmax : (runtimes g phase).max? with
    | none =>
      have hmem := mem_runtimes.mpr ⟨i, hi, rfl, hne⟩
      rw [List.max?_eq_none_iff.mp hmax] at hmem
      exact absurd hmem List.not_mem_nil
    | some longest => exact ⟨_, rfl⟩

/-- The phase returns if each node is profiled and some runtime is not zero. It then selects main, the functions that run for at
least half of the longest time, and the large children of those that are dominant from the start. Whatever else it selects is a
large child of a function that became dominant on the way, or is called by a long-running one and selected by its count alone. -/
theorem runtimeSelection_bounds {g' : Callgraph} {main : ℕ} {order : List ℕ → List ℕ} (h : g.Wf) (hord : ∀ l, (order l).Perm l)
    (hget : g.getMain false = .ok g') (hmain : g'.mainNode = some main) (phase : RuntimePhase) (md : MetaStore)
    (dominantRuntime : Finset ℕ) :
    ((∃ s, phase.modifyGraph order g md dominantRuntime main = .ok s) ↔
      ProfiledNodes g md ∧ ∃ i < g.nodes.length, phase.inclusiveRuntime i ≠ 0) ∧
    ∀ s, phase.modifyGraph order g md dominantRuntime main = .ok s → ∃ runTimeThreshold,
      IsGreatest {t | ∃ i < g.nodes.length, phase.inclusiveRuntime i = t ∧ t ≠ 0} (2 * runTimeThreshold) ∧
      Widens md s.md
        (fun n => n = main ∨ RunsLong g phase main runTimeThreshold n ∨ ∃ p, RunsLong g phase main runTimeThreshold p ∧
          p ∈ insert main dominantRuntime ∧ IsLargeChild g phase md runTimeThreshold p n)
        fun n => n = main ∨ RunsLong g phase main runTimeThreshold n ∨ ∃ p, RunsLong g phase main runTimeThreshold p ∧
          (Calls g p n ∧ SelectedByCount g phase md n ∨
            MayDominate g phase main md (insert main dominantRuntime) runTimeThreshold p ∧
              IsLargeChild g phase md runTimeThreshold p n) := by
  obtain ⟨hinv, hlive⟩ := mainInv_create h hget hmain
  have hloop : ∀ runTimeThreshold, ProfiledNodes g md → ∃ s V, selectLoop order g phase runTimeThreshold
      ⟨md, insert main dominantRuntime, .create g⟩ ∅ [main] = .ok s ∧ (∀ n, n ∈ V ↔ Relation.ReflTransGen (Calls g) main n) ∧
        RuntimeSelection.Inv g phase main md (insert main dominantRuntime) runTimeThreshold V s := fun t hall =>
    selectLoop_spec h hord hlive (fun n node _ hslot _ => (hall n (Callgraph.hasNode_lt (Callgraph.hasNode_of_slot hslot))).2)
      (.initial hinv) .initial
  constructor
  · constructor
    · rintro ⟨s, hrun⟩
      obtain ⟨total, htotal, hrun⟩ := bind_eq_ok.mp hrun
      have hall := (estimateRuntimes_ok_iff g md).mp ⟨total, htotal⟩
      obtain ⟨t, ht, -⟩ := bind_eq_ok.mp hrun
      exact ⟨hall, (calcRuntimeThreshold_ok_iff hall).mp ⟨t, ht⟩⟩
    · rintro ⟨hall, hruntime⟩
      obtain ⟨total, htotal⟩ := (estimateRuntimes_ok_iff g md).mpr hall
      obtain ⟨t, ht⟩ := (calcRuntimeThreshold_ok_iff hall).mpr hruntime
      obtain ⟨s, V, hs, -, -⟩ := hloop t hall
      exact ⟨_, bind_eq_ok.mpr ⟨total, htotal, bind_eq_ok.mpr ⟨t, ht, bind_eq_ok.mpr ⟨s, hs, rfl⟩⟩⟩⟩
  · intro s hrun
    obtain ⟨total, htotal, hrun⟩ := bind_eq_ok.mp hrun
    have hall := (estimateRuntimes_ok_iff g md).mp ⟨total, htotal⟩
    obtain ⟨t, ht, hrun⟩ := bind_eq_ok.mp hrun
    obtain ⟨s₁, hs₁, hret⟩ := bind_eq_ok.mp hrun
    cases hret
    obtain ⟨s₂, V, hs₂, hV, hselected⟩ := hloop t hall
    cases hs₁.symm.trans hs₂
    refine ⟨t, (calcRuntimeThreshold_eq_ok hall).mp ht, (hselected.widens.trans (widens_instrumentNode s₁.md main)).mono ?_ ?_⟩
    · rintro n (rfl | ⟨hreach, hlong⟩ | ⟨p, ⟨hreach, hlong⟩, hdominant, hlarge⟩)
      · exact .inr rfl
      · exact .inl ⟨n, (hV n).mpr hreach, hlong, .inl rfl⟩
      · exact .inl ⟨p, (hV p).mpr hreach, hlong, .inr ⟨hdominant, hlarge⟩⟩
    · rintro n ((hn | hn) | hn)
      · exact .inr (.inl hn)
      · exact .inr (.inr hn)
      · exact .inl hn

/-- `main` and `f` run for long, `g` does not. -/
def longCalls : RuntimePhase := ⟨false, fun n => if n = 0 then 10 else if n = 1 then 8 else 1, fun _ => .create, fun n => n / 3⟩

def profiledOnce : MetaStore := fun _ => { NodeMetaData.create with baseProfile := some ⟨1⟩ }

theorem runtimeSelection_bounds_callChain : ∃ s, longCalls.modifyGraph id callChain profiledOnce ∅ 0 = .ok s ∧
    isAnyInstrumented s.md 0 = true ∧ isAnyInstrumented s.md 1 = true := by
  obtain ⟨g', hget, hmain⟩ : ∃ g', callChain.getMain false = .ok g' ∧ g'.mainNode = some 0 := ⟨_, rfl, by decide⟩
  obtain ⟨hreturns, hselects⟩ := @runtimeSelection_bounds callChain g' 0 id (Callgraph.run_wf 0 _) (fun l => .refl l) hget hmain
    longCalls profiledOnce ∅
  obtain ⟨s, hs⟩ := hreturns.mpr ⟨fun i hi => ⟨(show ∀ i < 3, callChain.hasNode i = true by decide) i hi, rfl⟩, 0, by decide,
    by decide +kernel⟩
  obtain ⟨t, ⟨⟨i, hi, ht, -⟩, -⟩, hwidens⟩ := hselects s hs
  refine ⟨s, hs, hwidens.kept 0 (.inr (.inl rfl)), hwidens.kept 1 (.inr (.inr (.inl ⟨.single (by decide), ?_⟩)))⟩
  have hten : longCalls.inclusiveRuntime i ≤ 10 := by
    unfold longCalls
    dsimp only
    split_ifs <;> decide +kernel
  have height : longCalls.inclusiveRuntime 1 = 8 := by decide +kernel
  rw [ht] at hten
  rw [height]
  linarith

end

end MetaCG.Pgis
