import Mathlib.Algebra.Order.Ring.Rat
import Mathlib.Data.List.Sort
import Mathlib.Data.Nat.Cast.Order.Ring
import MetaCG.Foundations.Descent
import MetaCG.Graph.ByName
import MetaCG.Graph.History
import MetaCG.Pgis.NodeMetaData

/-! How often PGIS expects a function to be called (`getEstimatedCallsFromNode` of `CgHelper.cpp`,
`getEstimatedCallCountForNode` and `isSelfRecursive` of `IPCGEstimatorPhase.cpp`).

Both the walk over the regions and the walk over the callers recurse without a bound that the code states, so they are
given fuel. A `double` is a rational: what is shown of the estimates is shown of exact arithmetic, in which no product
rounds to zero. A division by zero has no exact value and is the error `undefined`. The subscripts that insert a missing
entry leave it with a value that a look-up of the missing entry has too, or run into an assertion. -/
namespace MetaCG.Pgis
open Foundations Analysis
set_option autoImplicit false
set_option maxHeartbeats 250000
set_option maxRecDepth 120000

/-- A recursion stops with an exception, or because the fuel is used up. -/
inductive Stop where
  | exn (e : Exn)
  | fuel
deriving DecidableEq

def lift {α : Type} (x : Except Exn α) : Except Stop α := x.mapError .exn

theorem lift_eq_ok {α : Type} {x : Except Exn α} {a : α} : lift x = .ok a ↔ x = .ok a := by
  cases x with
  | error e => exact ⟨fun h => (by cases h), fun h => (by cases h)⟩
  | ok b =>
    change (Except.ok b : Except Stop α) = .ok a ↔ _
    rw [Except.ok.injEq, Except.ok.injEq]

/-- `getSingleNode(name)` -/
def getSingleNode (g : Callgraph) (name : String) : Except Exn ℕ :=
  match g.nameIdMap.lookup name with
  | none => .error .undefined
  | some [id] =>
    match g.getNode id with
    | .ok (some _) => .ok id
    | .ok none => .error (.assertion "This node should always exist")
    | .error e => .error e
  | some _ => .error (.assertion "There must be exactly one node with this name")

/-- The median, or the mean of the two middle elements. -/
def calculateMedianAveraged (container : List ℚ) : Except Exn ℚ :=
  if container = [] then .error (.assertion "Can not calculate median for empty container")
  else
    let size := container.length
    let middle := size / 2
    let sorted := container.insertionSort (· ≤ ·)
    if size % 2 = 1 then .ok (sorted.getD middle 0) else .ok ((sorted.getD (middle - 1) 0 + sorted.getD middle 0) / 2)

/-! ## The calls at the sites of one caller -/

/-- The calls of `rfunc` from `nodeName`, for each of its calls in the region. -/
def regionCallCount (g : Callgraph) (md : MetaStore) (pCCMD : CallCountEstimationMetaData)
    (nodeName calledFunctionName regionName : String) (tempResults : List ℚ) (rfunc : String) : Except Exn (List ℚ) := do
  if rfunc = calledFunctionName then return tempResults
  let rnode ← getSingleNode g rfunc
  match (md rnode).instrumentationResult with
  | none => return tempResults
  | some info =>
    let rfuncCalledInfo := (pCCMD.calledFunctions.find rfunc).getD []
    -- a function that was patched in has no region
    match (rfuncCalledInfo.find? fun i => i.2 = regionName).or (rfuncCalledInfo.find? fun i => i.2 = "") with
    | none => throw (.assertion "calledInRegionIter != rfuncCalledInfo.end()")
    | some calledInRegion =>
      if calledInRegion.1 = 0 then throw .undefined
      else return tempResults ++ [(info.callsFromParents.find nodeName).getD 0 / calledInRegion.1]

/-- The loop from a region to its parents. -/
def walkRegions (g : Callgraph) (md : MetaStore) (pCCMD : CallCountEstimationMetaData) (nodeName calledFunctionName : String)
    (calls : ℚ) : ℕ → String → ℚ → Except Stop ℚ
  | 0, _, _ => .error .fuel
  | fuel + 1, regionName, factor =>
    match pCCMD.codeRegions.find regionName with
    | none => .error (.exn (.assertion "IRegion != pCCMD->codeRegions.end()"))
    | some region => do
      let tempResults ← lift (region.functions.foldlM (regionCallCount g md pCCMD nodeName calledFunctionName regionName) [])
      if tempResults ≠ [] then return (← lift (calculateMedianAveraged tempResults)) * calls * factor
      let factor := factor * region.parentCalls
      if region.parent = "" then return calls * factor
      walkRegions g md pCCMD nodeName calledFunctionName calls fuel region.parent factor

def getEstimatedCallsFromNode (g : Callgraph) (md : MetaStore) (fuel node : ℕ) (calledFunctionName : String) :
    Except Stop ℚ := do
  match (md node).callCountEstimation with
  | none => throw (.exn .nullDereference)
  | some pCCMD =>
    match pCCMD.calledFunctions.find calledFunctionName with
    | none => return 1
    | some places =>
      let nodeName := (← lift (deref g node)).functionName
      places.foldlM (fun ret call => do
        if call.2 = "" then return ret + call.1
        else return ret + (← walkRegions g md pCCMD nodeName calledFunctionName call.1 fuel call.2 1)) 0

/-! ## The calls of a node -/

def isSelfRecursive (order : List ℕ → List ℕ) (g : Callgraph) (node : ℕ) : Except Exn Bool := do
  let callees ← getCallees order g node
  if node ∈ callees then return true
  callees.anyM fun child => do return decide (node ∈ (← getCallees order g child))

/-- What the loop over the callers changes. -/
structure Estimate where
  ret : ℚ
  selfCalls : ℚ
  blacklist : Finset ℕ

/-- One round of the loop; `estimate` is the recursive call. -/
def addParent (g : Callgraph) (md : MetaStore) (fuel : ℕ) (estimate : ℕ → Finset ℕ → Except Stop (ℚ × Finset ℕ)) (node : ℕ)
    (functionName : String) (st : Estimate) (parentNode : ℕ) : Except Stop Estimate := do
  -- recursion through other nodes is cut, direct recursion is counted
  if parentNode ∈ st.blacklist ∧ parentNode ≠ node then return st
  else if parentNode = node then
    let pcc ← getEstimatedCallsFromNode g md fuel parentNode functionName
    return { st with selfCalls := st.selfCalls + pcc }
  else
    let pcc ← getEstimatedCallsFromNode g md fuel parentNode functionName
    let (parentCallCount, blacklist) ← estimate parentNode st.blacklist
    return { st with ret := st.ret + parentCallCount * pcc, blacklist }

/-- Returns the estimate and the blacklist, which the code passes by reference. -/
def getEstimatedCallCountForNode (order : List ℕ → List ℕ) (g : Callgraph) (md : MetaStore) (recursionFactor : ℚ) :
    ℕ → ℕ → Finset ℕ → Except Stop (ℚ × Finset ℕ)
  | 0, _, _ => .error .fuel
  | fuel + 1, node, blacklist =>
    match (md node).instrumentationResult with
    | some info => .ok (info.callCount, blacklist)
    | none => do
      let functionName := (← lift (deref g node)).functionName
      let parent ← lift (getCallers order g node)
      let selfRecursive ← lift (isSelfRecursive order g node)
      let st ← parent.foldlM
        (addParent g md fuel (getEstimatedCallCountForNode order g md recursionFactor fuel) node functionName)
        ⟨0, 0, insert node blacklist⟩
      let blacklist := st.blacklist.erase node
      if selfRecursive then return (st.ret * (st.selfCalls * recursionFactor), blacklist)
      return (st.ret, blacklist)

/-! ## Recursion -/

/-- The function calls itself, directly or through one other function. -/
def SelfRecursive (g : Callgraph) (n : ℕ) : Prop := Calls g n n ∨ ∃ c, Calls g n c ∧ Calls g c n

/-- The calls that `selfCalls` counts are those that `isSelfRecursive` looks for. -/
def RecursionCounted (g : Callgraph) (n : ℕ) : Prop := SelfRecursive g n → Calls g n n

section
variable {order : List ℕ → List ℕ} {g : Callgraph} {md : MetaStore}

theorem isSelfRecursive_spec (h : g.Wf) (hord : ∀ l, (order l).Perm l) {n : ℕ} (hlive : g.hasNode n = true) :
    ∃ b, isSelfRecursive order g n = .ok b ∧ (b = true ↔ SelfRecursive g n) := by
  obtain ⟨callees, hc, -, hmem⟩ := getCallees_ok h hord hlive
  unfold isSelfRecursive
  rw [hc]
  simp only [bind, Except.bind]
  split_ifs with hn
  · exact ⟨true, rfl, by simp [SelfRecursive, (hmem n).mp hn]⟩
  · obtain ⟨b, hb, hiff⟩ := anyM_ok (f := fun child => do return decide (n ∈ (← getCallees order g child)))
      (P := fun c => Calls g c n) (l := callees) fun c hcallee => by
        obtain ⟨cc, hcc, -, hcmem⟩ := getCallees_ok h hord (h.edge_live n c ((hmem c).mp hcallee)).2
        rw [hcc]
        exact ⟨_, rfl, by rw [decide_eq_true_iff, hcmem]⟩
    refine ⟨b, hb, hiff.trans ?_⟩
    rw [SelfRecursive, or_iff_right fun hself => hn ((hmem n).mpr hself)]
    simp only [hmem]

end

/-! ## Call chains -/

/-- A node with a profile result and a positive number of calls. -/
def Source (md : MetaStore) (s : ℕ) : Prop := ∃ info, (md s).instrumentationResult = some info ∧ 0 < info.callCount

def Unprofiled (md : MetaStore) (n : ℕ) : Prop := (md n).instrumentationResult = none

/-- A chain of calls leads from a source through nodes without profile result to `n`. -/
def CallChain (g : Callgraph) (md : MetaStore) (n : ℕ) : Prop :=
  ∃ s, Source md s ∧ Relation.ReflTransGen (fun u v => Calls g u v ∧ Unprofiled md v) s n

/-- One step of a chain whose nodes call themselves directly if they recurse at all. -/
def CountedStep (g : Callgraph) (md : MetaStore) (u v : ℕ) : Prop :=
  Calls g u v ∧ Unprofiled md v ∧ RecursionCounted g v

def CountedChain (g : Callgraph) (md : MetaStore) (n : ℕ) : Prop :=
  ∃ s, Source md s ∧ Relation.ReflTransGen (CountedStep g md) s n

/-- A counted chain that avoids the blacklist. -/
def Reached (g : Callgraph) (md : MetaStore) (blacklist : Finset ℕ) (n : ℕ) : Prop :=
  ∃ s, Source md s ∧ Relation.ReflTransGen (fun u v => CountedStep g md u v ∧ v ∉ (blacklist : Set ℕ)) s n

/-- Every estimate for a call site is positive. -/
def SitesPositive (g : Callgraph) (md : MetaStore) : Prop :=
  ∀ u v name, Calls g u v → g.nameOf v = some name →
    ∃ q, 0 < q ∧ Settles (fun fuel => getEstimatedCallsFromNode g md fuel u name) (.ok q)

section
variable {g : Callgraph} {md : MetaStore} {bl : Finset ℕ} {n : ℕ}

theorem Source.profiled {s : ℕ} (hs : Source md s) : ¬Unprofiled md s := by
  obtain ⟨info, hinfo, -⟩ := hs
  rw [Unprofiled, hinfo]
  exact Option.some_ne_none info

theorem reached_of_profiled {info : InstrumentationResultMetaData} (hn : (md n).instrumentationResult = some info) :
    Reached g md bl n ↔ 0 < info.callCount := by
  constructor
  · rintro ⟨s, ⟨info', hinfo', hpos⟩, hchain⟩
    rcases Relation.ReflTransGen.cases_tail hchain with rfl | ⟨u, -, hstep⟩
    · rw [hn] at hinfo'
      cases hinfo'
      exact hpos
    · have hnone : (md n).instrumentationResult = none := hstep.1.2.1
      rw [hn] at hnone
      cases hnone
  · exact fun hpos => ⟨n, ⟨info, hn, hpos⟩, .refl⟩

/-- The last step of a chain to a node without profile result; the part before it avoids the node. -/
theorem reached_of_unprofiled (hn : Unprofiled md n) (hbl : ∀ b ∈ bl, Unprofiled md b) (hnew : n ∉ bl) :
    Reached g md bl n ↔ RecursionCounted g n ∧ ∃ p, Calls g p n ∧ p ∉ insert n bl ∧ Reached g md (insert n bl) p := by
  constructor
  · rintro ⟨s, hs, hchain⟩
    have hne : s ≠ n := fun he => hs.profiled (he ▸ hn)
    have hcounted : RecursionCounted g n := by
      rcases Relation.ReflTransGen.cases_tail hchain with he | ⟨u, -, hstep⟩
      · exact absurd he.symm hne
      · exact hstep.1.2.2
    obtain ⟨p, hp, hpn⟩ := exists_firstArrival hne hchain
    rw [← Finset.coe_insert] at hp
    refine ⟨hcounted, p, hpn.1, ?_, s, hs, hp⟩
    rcases Relation.ReflTransGen.cases_tail hp with rfl | ⟨u, -, hstep⟩
    · intro hmem
      rcases Finset.mem_insert.mp hmem with hmem | hmem
      · exact hne hmem
      · exact hs.profiled (hbl _ hmem)
    · exact hstep.2
  · rintro ⟨hcounted, p, hpn, -, s, hs, hchain⟩
    refine ⟨s, hs, Relation.ReflTransGen.tail (Relation.ReflTransGen.mono (fun u v hstep => ⟨hstep.1, fun hv => ?_⟩) s p hchain)
      ⟨⟨hpn, hn, hcounted⟩, hnew⟩⟩
    exact hstep.2 (Finset.mem_insert_of_mem hv)

theorem reached_empty : Reached g md ∅ n ↔ CountedChain g md n := by
  unfold Reached CountedChain
  simp

end

/-! ## The estimate of a node -/

section
variable {order : List ℕ → List ℕ} {g : Callgraph} {md : MetaStore} {recursionFactor : ℚ} {n : ℕ} {bl : Finset ℕ}

/-- With enough fuel the recursion estimates `p` and restores the blacklist, and the estimate is positive if `p` is reached. -/
def Estimated (order : List ℕ → List ℕ) (g : Callgraph) (md : MetaStore) (recursionFactor : ℚ) (bl : Finset ℕ) (p : ℕ) : Prop :=
  ∃ v, Settles (fun fuel => getEstimatedCallCountForNode order g md recursionFactor fuel p bl) (.ok (v, bl)) ∧ 0 ≤ v ∧
    (0 < v ↔ Reached g md bl p)

/-- What the loop over the callers has counted after the callers `pre`. -/
structure Counted (g : Callgraph) (md : MetaStore) (n : ℕ) (bl : Finset ℕ) (pre : List ℕ) (st : Estimate) : Prop where
  blacklist : st.blacklist = insert n bl
  ret_nonneg : 0 ≤ st.ret
  selfCalls_nonneg : 0 ≤ st.selfCalls
  ret_pos : 0 < st.ret ↔ ∃ p ∈ pre, p ∉ insert n bl ∧ Reached g md (insert n bl) p
  selfCalls_pos : 0 < st.selfCalls ↔ n ∈ pre

theorem Counted.nil : Counted g md n bl [] ⟨0, 0, insert n bl⟩ where
  blacklist := rfl
  ret_nonneg := le_rfl
  selfCalls_nonneg := le_rfl
  ret_pos := by simp
  selfCalls_pos := by simp

section
variable {fuel : ℕ} {estimate : ℕ → Finset ℕ → Except Stop (ℚ × Finset ℕ)} {name : String} {st : Estimate} {p : ℕ} {q : ℚ}

theorem addParent_cut (hbl : p ∈ st.blacklist) (hpn : p ≠ n) : addParent g md fuel estimate n name st p = .ok st :=
  if_pos ⟨hbl, hpn⟩

theorem addParent_self (hq : getEstimatedCallsFromNode g md fuel n name = .ok q) :
    addParent g md fuel estimate n name st n = .ok { st with selfCalls := st.selfCalls + q } := by
  unfold addParent
  rw [if_neg fun hc => hc.2 rfl, if_pos rfl, hq]
  rfl

theorem addParent_other (hbl : p ∉ st.blacklist) (hpn : p ≠ n) (hq : getEstimatedCallsFromNode g md fuel p name = .ok q)
    {v : ℚ} {bl' : Finset ℕ} (hv : estimate p st.blacklist = .ok (v, bl')) :
    addParent g md fuel estimate n name st p = .ok { st with ret := st.ret + v * q, blacklist := bl' } := by
  unfold addParent
  rw [if_neg fun hc => hbl hc.1, if_neg hpn, hq]
  simp only [bind, Except.bind, hv]
  rfl

end

theorem addParent_counted {name : String} {pre : List ℕ} {st : Estimate} {p : ℕ} (hsites : SitesPositive g md)
    (hname : g.nameOf n = some name) (hcall : Calls g p n)
    (hest : p ∉ insert n bl → Estimated order g md recursionFactor (insert n bl) p) (hst : Counted g md n bl pre st) :
    ∃ st', Settles (fun fuel => addParent g md fuel (getEstimatedCallCountForNode order g md recursionFactor fuel) n name st p)
      (.ok st') ∧ Counted g md n bl (pre ++ [p]) st' := by
  obtain ⟨q, hq, bound, hbound⟩ := hsites p n name hcall hname
  by_cases hpn : p = n
  · subst hpn
    refine ⟨{ st with selfCalls := st.selfCalls + q }, ⟨bound, fun fuel hfuel => addParent_self (hbound fuel hfuel)⟩,
      hst.blacklist, hst.ret_nonneg, add_nonneg hst.selfCalls_nonneg hq.le, ?_, ?_⟩
    · rw [hst.ret_pos]
      refine exists_congr fun k => ⟨fun hk => ⟨List.mem_append_left _ hk.1, hk.2⟩, fun hk => ⟨?_, hk.2⟩⟩
      refine (List.mem_append.mp hk.1).resolve_right fun hkp => hk.2.1 ?_
      rw [List.mem_singleton.mp hkp]
      exact Finset.mem_insert_self ..
    · simp [add_pos_of_nonneg_of_pos hst.selfCalls_nonneg hq]
  · have hself : n ∈ pre ++ [p] ↔ n ∈ pre := by simp [Ne.symm hpn]
    by_cases hbl : p ∈ insert n bl
    · refine ⟨st, ⟨0, fun fuel _ => addParent_cut (by rwa [hst.blacklist]) hpn⟩, hst.blacklist, hst.ret_nonneg,
        hst.selfCalls_nonneg, ?_, ?_⟩
      · rw [hst.ret_pos]
        refine exists_congr fun k => ⟨fun hk => ⟨List.mem_append_left _ hk.1, hk.2⟩, fun hk => ⟨?_, hk.2⟩⟩
        refine (List.mem_append.mp hk.1).resolve_right fun hkp => hk.2.1 ?_
        rwa [List.mem_singleton.mp hkp]
      · rw [hst.selfCalls_pos, hself]
    · obtain ⟨v, ⟨bound', hbound'⟩, hv, hreached⟩ := hest hbl
      refine ⟨{ st with ret := st.ret + v * q }, ⟨max bound bound', fun fuel hfuel => ?_⟩, hst.blacklist,
        add_nonneg hst.ret_nonneg (mul_nonneg hv hq.le), hst.selfCalls_nonneg, ?_, ?_⟩
      · have hv' := hbound' fuel ((le_max_right ..).trans hfuel)
        rw [← hst.blacklist] at hbl hv'
        exact addParent_other hbl hpn (hbound fuel ((le_max_left ..).trans hfuel)) hv'
      · have hsum : 0 < st.ret + v * q ↔ 0 < st.ret ∨ 0 < v := by
          constructor
          · intro hpos
            by_contra hnot
            rw [not_or, not_lt, not_lt] at hnot
            rw [le_antisymm hnot.1 hst.ret_nonneg, le_antisymm hnot.2 hv] at hpos
            simp at hpos
          · rintro (hpos | hpos)
            · exact add_pos_of_pos_of_nonneg hpos (mul_nonneg hv hq.le)
            · exact add_pos_of_nonneg_of_pos hst.ret_nonneg (mul_pos hpos hq)
        simp only [hsum, hst.ret_pos, hreached, List.mem_append, List.mem_singleton, or_and_right, exists_or, exists_eq_left]
        exact or_congr_right (and_iff_right hbl).symm
      · rw [hst.selfCalls_pos, hself]

theorem getEstimatedCallCountForNode_profiled {info : InstrumentationResultMetaData} (fuel : ℕ)
    (hn : (md n).instrumentationResult = some info) :
    getEstimatedCallCountForNode order g md recursionFactor (fuel + 1) n bl = .ok (info.callCount, bl) := by
  unfold getEstimatedCallCountForNode
  rw [hn]

theorem getEstimatedCallCountForNode_unprofiled {fuel : ℕ} {node : CgNode} {parent : List ℕ} {selfRecursive : Bool} {st : Estimate}
    (hn : (md n).instrumentationResult = none) (hnode : deref g n = .ok node) (hparent : getCallers order g n = .ok parent)
    (hself : isSelfRecursive order g n = .ok selfRecursive)
    (hloop : parent.foldlM (addParent g md fuel (getEstimatedCallCountForNode order g md recursionFactor fuel) n
      node.functionName) ⟨0, 0, insert n bl⟩ = .ok st) :
    getEstimatedCallCountForNode order g md recursionFactor (fuel + 1) n bl =
      .ok (if selfRecursive then st.ret * (st.selfCalls * recursionFactor) else st.ret, st.blacklist.erase n) := by
  unfold getEstimatedCallCountForNode
  rw [hn, hnode, hparent, hself]
  simp only [lift, Except.mapError, bind, Except.bind, hloop]
  cases selfRecursive <;> rfl

/-- The recursion ends since the blacklist grows; `bl` holds nodes without profile result alone. -/
theorem estimated_of_live (h : g.Wf) (hord : ∀ l, (order l).Perm l) (hfactor : 0 < recursionFactor)
    (hsites : SitesPositive g md) (hlive : g.hasNode n = true) (hnew : n ∉ bl) (hbl : ∀ b ∈ bl, Unprofiled md b) :
    Estimated order g md recursionFactor bl n := by
  induction hcard : (Finset.range g.nodes.length \ bl).card using Nat.strong_induction_on generalizing n bl with
  | _ card ih =>
  cases hresult : (md n).instrumentationResult with
  | some info =>
    refine ⟨info.callCount, Settles.succ ⟨0, fun fuel _ => getEstimatedCallCountForNode_profiled fuel hresult⟩,
      Nat.cast_nonneg _, ?_⟩
    rw [Nat.cast_pos, reached_of_profiled hresult]
  | none =>
    obtain ⟨p, hp⟩ := deref_ok hlive
    have hname : g.nameOf n = some p.functionName := (Callgraph.nameOf_eq_some n _).mpr ⟨p, deref_eq_ok.mp hp, rfl⟩
    obtain ⟨parent, hparent, -, hmem⟩ := getCallers_ok h hord hlive
    obtain ⟨selfRecursive, hself, hselfiff⟩ := isSelfRecursive_spec h hord hlive
    have hbl' : ∀ b ∈ insert n bl, Unprofiled md b := by
      intro b hb
      rcases Finset.mem_insert.mp hb with rfl | hb
      · exact hresult
      · exact hbl b hb
    have hest : ∀ q, Calls g q n → q ∉ insert n bl → Estimated order g md recursionFactor (insert n bl) q := by
      intro q hcall hq
      refine ih _ ?_ (h.edge_live q n hcall).1 hq hbl' rfl
      rw [← hcard]
      exact Search.card_sdiff_insert_lt (Finset.mem_range.mpr (Callgraph.hasNode_lt hlive)) hnew
    obtain ⟨st, hloop, hst⟩ := settles_foldlM (l := parent)
      (f := fun fuel => addParent g md fuel (getEstimatedCallCountForNode order g md recursionFactor fuel) n p.functionName)
      (J := Counted g md n bl) .nil fun pre q st hpre hJ => by
        have hcall : Calls g q n := (hmem q).mp (hpre.subset (List.mem_append_right _ (List.mem_singleton_self q)))
        exact addParent_counted hsites hname hcall (hest q hcall) hJ
    obtain ⟨bound, hbound⟩ := hloop
    refine ⟨if selfRecursive then st.ret * (st.selfCalls * recursionFactor) else st.ret, Settles.succ ⟨bound, fun fuel hfuel => ?_⟩,
      ?_, ?_⟩
    · have herase : st.blacklist.erase n = bl := by
        rw [hst.blacklist]
        exact Finset.erase_insert hnew
      have hvalue := getEstimatedCallCountForNode_unprofiled hresult hp hparent hself (hbound fuel hfuel)
      rwa [herase] at hvalue
    · split_ifs
      · exact mul_nonneg hst.ret_nonneg (mul_nonneg hst.selfCalls_nonneg hfactor.le)
      · exact hst.ret_nonneg
    · have hret : 0 < st.ret ↔ ∃ p, Calls g p n ∧ p ∉ insert n bl ∧ Reached g md (insert n bl) p := by
        simp only [hst.ret_pos, hmem]
      rw [reached_of_unprofiled hresult hbl hnew, ← hret, RecursionCounted, ← hselfiff]
      cases selfRecursive with
      | false => simp
      | true =>
        simp only [if_true, true_implies]
        rw [← hmem, ← hst.selfCalls_pos]
        refine ⟨fun hpos => ⟨?_, ?_⟩, fun ⟨hcalls, hret⟩ => mul_pos hret (mul_pos hcalls hfactor)⟩
        · exact pos_of_mul_pos_left (pos_of_mul_pos_right hpos hst.ret_nonneg) hfactor.le
        · exact pos_of_mul_pos_left hpos (mul_nonneg hst.selfCalls_nonneg hfactor.le)

/-- A called node gets a positive estimate exactly if some chain to it has its recursion counted. -/
theorem getEstimatedCallCountForNode_pos_iff (h : g.Wf) (hord : ∀ l, (order l).Perm l) (hfactor : 0 < recursionFactor)
    (hsites : SitesPositive g md) (hlive : g.hasNode n = true) :
    (CallChain g md n → ∃ v,
        Settles (fun fuel => getEstimatedCallCountForNode order g md recursionFactor fuel n ∅) (.ok (v, ∅)) ∧ 0 < v) ↔
      (CallChain g md n → CountedChain g md n) := by
  refine imp_congr_right fun _ => ?_
  obtain ⟨v, hv, -, hiff⟩ := estimated_of_live h hord hfactor hsites hlive (Finset.notMem_empty n) fun b hb =>
    absurd hb (Finset.notMem_empty b)
  rw [reached_empty] at hiff
  refine ⟨fun ⟨w, hw, hpos⟩ => hiff.mp ?_, fun hchain => ⟨v, hv, hiff.mpr hchain⟩⟩
  cases hw.unique hv
  exact hpos

end

/-- `main` was called once and nothing is known about the other functions. -/
def onlyMainProfiled : MetaStore := fun node =>
  { NodeMetaData.create with
    callCountEstimation := some ⟨OMap.empty, OMap.empty⟩
    instrumentationResult := if node = 0 then some ⟨1, OMap.empty, 0, 0, 0, true⟩ else none }

theorem onlyMainProfiled_sites (g : Callgraph) : SitesPositive g onlyMainProfiled :=
  fun _ _ _ _ _ => ⟨1, one_pos, 0, fun _ _ => rfl⟩

theorem onlyMainProfiled_source : Source onlyMainProfiled 0 := ⟨_, rfl, Nat.one_pos⟩

/-- `main` calls `f`, which calls itself. -/
def directRecursion : Callgraph :=
  Callgraph.run 0 [.insert "main" none false true, .insert "f" none false true, .addEdge 0 1, .addEdge 1 1]

theorem getEstimatedCallCountForNode_pos_directRecursion :
    ∃ v, Settles (fun fuel => getEstimatedCallCountForNode id directRecursion onlyMainProfiled 100 fuel 1 ∅) (.ok (v, ∅)) ∧
      0 < v := by
  have hcall : Calls directRecursion 0 1 := by decide
  have hself : Calls directRecursion 1 1 := by decide
  exact (getEstimatedCallCountForNode_pos_iff (Callgraph.run_wf 0 _) (fun l => List.Perm.refl l) (by decide)
    (onlyMainProfiled_sites _) (by decide)).mpr (fun _ => ⟨0, onlyMainProfiled_source, .single ⟨hcall, rfl, fun _ => hself⟩⟩)
    ⟨0, onlyMainProfiled_source, .single ⟨hcall, rfl⟩⟩

/-- `main` calls `f`; `f` and `g` call each other. -/
def mutualRecursion : Callgraph :=
  Callgraph.run 0 [.insert "main" none false true, .insert "f" none false true, .insert "g" none false true, .addEdge 0 1,
    .addEdge 1 2, .addEdge 2 1]

theorem not_estimate_pos_mutualRecursion :
    SitesPositive mutualRecursion onlyMainProfiled ∧ Unprofiled onlyMainProfiled 1 ∧
      CallChain mutualRecursion onlyMainProfiled 1 ∧
      ¬∃ v, Settles (fun fuel => getEstimatedCallCountForNode id mutualRecursion onlyMainProfiled 100 fuel 1 ∅) (.ok (v, ∅)) ∧
        0 < v := by
  have hcall : Calls mutualRecursion 0 1 := by decide
  refine ⟨onlyMainProfiled_sites _, rfl, ⟨0, onlyMainProfiled_source, .single ⟨hcall, rfl⟩⟩, ?_⟩
  rintro ⟨w, hw, hpos⟩
  obtain ⟨v, hv, -, hiff⟩ : Estimated id mutualRecursion onlyMainProfiled 100 ∅ 1 := estimated_of_live
    (Callgraph.run_wf 0 _ : mutualRecursion.Wf) (fun l => List.Perm.refl l) (by decide) (onlyMainProfiled_sites _) (by decide)
    (Finset.notMem_empty 1) fun b hb => absurd hb (Finset.notMem_empty b)
  cases hw.unique hv
  obtain ⟨s, hs, hchain⟩ := reached_empty.mp (hiff.mp hpos)
  rcases Relation.ReflTransGen.cases_tail hchain with rfl | ⟨u, -, -, -, hcounted⟩
  · exact hs.profiled rfl
  · -- `f` is recursive through `g` but does not call itself
    have hrecursive : SelfRecursive mutualRecursion 1 := .inr ⟨2, by decide, by decide⟩
    exact absurd (hcounted hrecursive) (by decide)

end MetaCG.Pgis
