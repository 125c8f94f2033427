import Mathlib.Algebra.BigOperators.Group.List.Basic
import Mathlib.Algebra.Order.Ring.Rat
import MetaCG.Foundations.CompareSet
import MetaCG.Foundations.Outcome
import MetaCG.Pgis.RuntimeEstimator

/-! The choice of the nodes to instrument (`NodeProfitComparator`, `NodeValueComparator`, `getCallsToNode`,
`getNodesToInstrumentGreedyKnapsackOverhead`, `IPCGEstimatorPhase.h` and `IPCGEstimatorPhase.cpp`).

The comparisons are only made between nodes that have a decision. `addr` says where a node lies in memory. The debug
output of the selection is left out. -/
namespace MetaCG.Pgis
open Foundations
set_option autoImplicit false
set_option maxHeartbeats 250000
set_option maxRecDepth 120000

/-- `std::numeric_limits<double>::max()` -/
def maxDouble : ℚ := 2 ^ 1024 - 2 ^ 971

/-- `<` of `infoPerCall`: without a value it is infinite or, for a quotient of two zeros, not a number. -/
def perCallLess (lhs rhs : InstumentationInfo) : Bool :=
  match lhs.infoPerCall, rhs.infoPerCall with
  | some p, some q => decide (p < q)
  | some _, none => decide (rhs.inclusiveStmtCount ≠ 0)
  | none, _ => false

/-- `InstumentationInfo::operator<` -/
def InstumentationInfo.less (lhs rhs : InstumentationInfo) : Bool :=
  lexLess [(perCallLess lhs rhs, perCallLess rhs lhs), compared lhs.inclusiveStmtCount rhs.inclusiveStmtCount,
    compared lhs.exclusiveStmtCount rhs.exclusiveStmtCount, compared lhs.callsFromParents rhs.callsFromParents]

def timePerCall (md : MetaStore) (node : ℕ) : ℚ :=
  match (md node).instrumentationResult with
  | some prevData => prevData.inclusiveTimePerCallSum
  | none => maxDouble

def notKicked (md : MetaStore) (node : ℕ) : Bool := !(decisionOf md node).isKicked

def parentHighRuntime (md : MetaStore) (node : ℕ) : Bool := (decisionOf md node).parentHasHighExclusiveRuntime

def instroInfo (md : MetaStore) (node : ℕ) : InstumentationInfo := (decisionOf md node).info

/-- The greater tuple comes first. -/
def nodeProfitComparator (addr : ℕ → ℕ) (md : MetaStore) (lhs rhs : ℕ) : Bool :=
  lexLess [compared (timePerCall md rhs) (timePerCall md lhs), compared (notKicked md rhs) (notKicked md lhs),
    compared (parentHighRuntime md rhs) (parentHighRuntime md lhs),
    ((instroInfo md rhs).less (instroInfo md lhs), (instroInfo md lhs).less (instroInfo md rhs)),
    compared (addr rhs) (addr lhs)]

def nodeValueComparator (addr : ℕ → ℕ) (md : MetaStore) (lhs rhs : ℕ) : Bool :=
  lexLess [compared (timePerCall md rhs) (timePerCall md lhs), compared (notKicked md rhs) (notKicked md lhs),
    compared (parentHighRuntime md rhs) (parentHighRuntime md lhs),
    compared (instroInfo md rhs).inclusiveStmtCount (instroInfo md lhs).inclusiveStmtCount,
    compared (addr rhs) (addr lhs)]

def getCallsToNode (md : MetaStore) (N : ℕ) : Except Exn ℚ :=
  match (md N).instrumentationResult with
  | some prevInfo => .ok prevInfo.callCount
  | none =>
    match (md N).decision with
    | none => .error .nullDereference
    | some d => .ok d.info.callsFromParents

/-- The variables of the loop over the candidates. -/
structure Knapsack where
  ret : List ℕ
  curCost : ℚ
  maxCost : ℚ
  maxProfitNode : Option ℕ

def considerNode (addr : ℕ → ℕ) (md : MetaStore) (costLimit : ℚ) (st : Knapsack) (I : ℕ) : Except Exn Knapsack := do
  if isAnyInstrumented md I then throw (.assertion "!pgis::isAnyInstrumented(I)")
  let cost ← getCallsToNode md I
  if cost < costLimit then
    let st := if st.curCost + cost ≤ costLimit then { st with curCost := st.curCost + cost, ret := st.ret ++ [I] } else st
    if st.maxProfitNode.all fun m => nodeValueComparator addr md I m then
      return { st with maxProfitNode := some I, maxCost := cost }
    else return st
  else return st

/-- A better node that did not fit in takes the place of all the others. -/
def Knapsack.result (st : Knapsack) : List ℕ × ℚ :=
  match st.maxProfitNode with
  | some m => if m ∈ st.ret then (st.ret, st.curCost) else ([m], st.maxCost)
  | none => (st.ret, st.curCost)

def getNodesToInstrumentGreedyKnapsackOverhead (addr : ℕ → ℕ) (md : MetaStore) (nodes : List ℕ) (costLimit : ℚ) :
    Except Exn (List ℕ × ℚ) := do
  let st ← nodes.foldlM (considerNode addr md costLimit) ⟨[], 0, 0, none⟩
  return st.result

/-! ## The comparisons -/

theorem perCallLess_self (info : InstumentationInfo) : perCallLess info info = false := by
  unfold perCallLess
  cases info.infoPerCall with
  | none => rfl
  | some p => exact decide_eq_false (lt_irrefl p)

theorem InstumentationInfo.less_self (info : InstumentationInfo) : info.less info = false := by
  refine lexLess_irrefl ?_
  simp only [List.mem_cons, List.not_mem_nil, or_false, forall_eq_or_imp, forall_eq, compared_self, perCallLess_self, and_self]

theorem nodeProfitComparator_self (addr : ℕ → ℕ) (md : MetaStore) (node : ℕ) :
    nodeProfitComparator addr md node node = false := by
  refine lexLess_irrefl ?_
  simp only [List.mem_cons, List.not_mem_nil, or_false, forall_eq_or_imp, forall_eq, compared_self,
    InstumentationInfo.less_self, and_self]

/-! ## The selection -/

/-- The calls of the nodes sum up to `cost`. -/
def CallsSum (md : MetaStore) (nodes : List ℕ) (cost : ℚ) : Prop :=
  ∃ calls, nodes.mapM (getCallsToNode md) = .ok calls ∧ calls.sum = cost

/-- The node has a number of calls. -/
def HasCalls (md : MetaStore) (node : ℕ) : Prop := ∃ calls, getCallsToNode md node = .ok calls

section
variable {addr : ℕ → ℕ} {md : MetaStore} {costLimit cost cost' : ℚ} {nodes nodes' : List ℕ} {n : ℕ}

theorem CallsSum.nil (md : MetaStore) : CallsSum md [] 0 := ⟨[], rfl, rfl⟩

theorem CallsSum.singleton (h : getCallsToNode md n = .ok cost) : CallsSum md [n] cost := by
  refine ⟨[cost], ?_, List.sum_singleton⟩
  rw [List.mapM_cons, h]
  rfl

theorem CallsSum.append (h : CallsSum md nodes cost) (h' : CallsSum md nodes' cost') :
    CallsSum md (nodes ++ nodes') (cost + cost') := by
  obtain ⟨calls, hcalls, rfl⟩ := h
  obtain ⟨calls', hcalls', rfl⟩ := h'
  refine ⟨calls ++ calls', ?_, List.sum_append⟩
  rw [List.mapM_append, hcalls, hcalls']
  rfl

theorem hasCalls_of_decision (h : (md n).decision.isSome = true) : HasCalls md n := by
  obtain ⟨d, hd⟩ := Option.isSome_iff_exists.mp h
  unfold HasCalls getCallsToNode
  cases (md n).instrumentationResult with
  | none => exact ⟨_, by rw [hd]⟩
  | some prevInfo => exact ⟨_, rfl⟩

/-- What the loop has selected of the candidates that it has seen. -/
structure Selecting (md : MetaStore) (costLimit : ℚ) (seen : List ℕ) (st : Knapsack) : Prop where
  sublist : List.Sublist st.ret seen
  sum : CallsSum md st.ret st.curCost
  within : st.curCost ≤ max costLimit 0
  best : ∀ m ∈ st.maxProfitNode, m ∈ seen ∧ getCallsToNode md m = .ok st.maxCost ∧ st.maxCost < costLimit

theorem Selecting.initial (md : MetaStore) (costLimit : ℚ) : Selecting md costLimit [] ⟨[], 0, 0, none⟩ where
  sublist := .slnil
  sum := .nil md
  within := le_max_right ..
  best := fun m hm => by cases hm

theorem considerNode_ok (addr : ℕ → ℕ) (costLimit : ℚ) (st : Knapsack) (hnew : isAnyInstrumented md n = false)
    (hcalls : HasCalls md n) :
    ∃ st', considerNode addr md costLimit st n = .ok st' := by
  obtain ⟨cost, hcost⟩ := hcalls
  unfold considerNode
  rw [hnew, hcost]
  simp only [Bool.false_eq_true, if_false, bind, Except.bind, pure, Except.pure]
  split_ifs <;> exact ⟨_, rfl⟩

theorem considerNode_selecting {seen : List ℕ} {st st' : Knapsack} (h : Selecting md costLimit seen st)
    (hrun : considerNode addr md costLimit st n = .ok st') : Selecting md costLimit (seen ++ [n]) st' := by
  have hseen : Selecting md costLimit (seen ++ [n]) st :=
    { sublist := h.sublist.trans (List.sublist_append_left ..)
      sum := h.sum
      within := h.within
      best := fun m hm => ⟨List.mem_append_left _ (h.best m hm).1, (h.best m hm).2⟩ }
  unfold considerNode at hrun
  cases hinst : isAnyInstrumented md n with
  | true => rw [hinst] at hrun; cases hrun
  | false =>
    cases hcost : getCallsToNode md n with
    | error e => rw [hinst, hcost] at hrun; cases hrun
    | ok cost =>
      rw [hinst, hcost] at hrun
      simp only [Bool.false_eq_true, if_false, bind, Except.bind, pure, Except.pure] at hrun
      by_cases hless : cost < costLimit
      · rw [if_pos hless] at hrun
        -- the node fits in, or it does not
        obtain ⟨st₁, hst₁, hsel⟩ : ∃ st₁, (if st.curCost + cost ≤ costLimit then
            { st with curCost := st.curCost + cost, ret := st.ret ++ [n] } else st) = st₁ ∧
            Selecting md costLimit (seen ++ [n]) st₁ := by
          refine ⟨_, rfl, ?_⟩
          split_ifs with hfits
          · exact
              { sublist := h.sublist.append_right [n]
                sum := h.sum.append (.singleton hcost)
                within := hfits.trans (le_max_left ..)
                best := hseen.best }
          · exact hseen
        rw [hst₁] at hrun
        split_ifs at hrun
        · cases hrun
          exact
            { sublist := hsel.sublist
              sum := hsel.sum
              within := hsel.within
              best := fun m hm => by
                cases hm
                exact ⟨List.mem_append_right _ (List.mem_singleton_self n), hcost, hless⟩ }
        · cases hrun
          exact hsel
      · rw [if_neg hless] at hrun
        cases hrun
        exact hseen

/-- The selection takes nodes of the candidates, each once, and their calls sum up to a cost within the budget. -/
structure WithinBudget (md : MetaStore) (nodes : List ℕ) (costLimit : ℚ) (r : List ℕ × ℚ) : Prop where
  subset : r.1 ⊆ nodes
  once : r.1.Nodup
  sum : CallsSum md r.1 r.2
  within : r.2 ≤ max costLimit 0

theorem Selecting.result {st : Knapsack} (h : Selecting md costLimit nodes st) (hnodup : nodes.Nodup) :
    WithinBudget md nodes costLimit st.result := by
  have hret : WithinBudget md nodes costLimit (st.ret, st.curCost) :=
    ⟨h.sublist.subset, hnodup.sublist h.sublist, h.sum, h.within⟩
  unfold Knapsack.result
  cases hbest : st.maxProfitNode with
  | none => exact hret
  | some m =>
    obtain ⟨hmem, hcost, hless⟩ := h.best m hbest
    change WithinBudget md nodes costLimit (if m ∈ st.ret then (st.ret, st.curCost) else ([m], st.maxCost))
    split_ifs
    · exact hret
    · exact
        { subset := fun n hn => by rwa [List.mem_singleton.mp hn]
          once := List.nodup_singleton m
          sum := .singleton hcost
          within := hless.le.trans (le_max_left ..) }

theorem getNodesToInstrumentGreedyKnapsackOverhead_within (hnodup : nodes.Nodup) {r : List ℕ × ℚ}
    (h : getNodesToInstrumentGreedyKnapsackOverhead addr md nodes costLimit = .ok r) : WithinBudget md nodes costLimit r := by
  obtain ⟨st, hst, hr⟩ := bind_eq_ok.mp h
  cases hr
  have hsel : Selecting md costLimit nodes st := foldlM_ok_inv (.initial md costLimit)
    (fun seen n t t' _ ht hrun => considerNode_selecting ht hrun) hst
  exact hsel.result hnodup

/-- Candidates that are not instrumented yet. -/
theorem getNodesToInstrumentGreedyKnapsackOverhead_ok (addr : ℕ → ℕ) (costLimit : ℚ)
    (hnew : ∀ n ∈ nodes, isAnyInstrumented md n = false) (hcalls : ∀ n ∈ nodes, HasCalls md n) :
    ∃ r, getNodesToInstrumentGreedyKnapsackOverhead addr md nodes costLimit = .ok r := by
  obtain ⟨st, hst, -⟩ := foldlM_total (f := considerNode addr md costLimit) (J := fun _ _ => True) (l := nodes)
    (s := ⟨[], 0, 0, none⟩) trivial fun pre n st hpre _ => by
      have hn : n ∈ nodes := hpre.subset (List.mem_append_right _ (List.mem_singleton_self n))
      obtain ⟨st', hst'⟩ := considerNode_ok addr costLimit st (hnew n hn) (hcalls n hn)
      exact ⟨st', hst', trivial⟩
  refine ⟨st.result, ?_⟩
  unfold getNodesToInstrumentGreedyKnapsackOverhead
  rw [hst]
  rfl

end
end MetaCG.Pgis
