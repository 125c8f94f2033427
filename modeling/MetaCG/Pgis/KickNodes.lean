import Mathlib.Algebra.Order.BigOperators.Group.List
import Mathlib.Data.List.TakeWhile
import MetaCG.Pgis.RuntimeEstimator

/-! Taking nodes out of the instrumentation (`kickNodesRandomly`, `kickNodesByRuntimePerCall`,
`kickNodesByRuntimePerCallKeepSmall` and what they call, `IPCGEstimatorPhase.cpp`).

The nodes of the two lists have a profile result, so the comparisons of the sorts never miss one. What happens to the
lists themselves is left out, since nothing reads them afterwards. -/
namespace MetaCG.Pgis
open Foundations Analysis
set_option autoImplicit false
set_option maxHeartbeats 250000
set_option maxRecDepth 120000

/-- `std::sort` and `std::shuffle`: some rearrangement of the list. -/
structure Algorithms where
  sort : (ℕ → ℕ → Bool) → List ℕ → List ℕ
  shuffle : List ℕ → List ℕ
  sort_perm : ∀ less l, (sort less l).Perm l
  shuffle_perm : ∀ l, (shuffle l).Perm l

inductive OverheadSelection where
  | none
  | random
  | timePerCall
  | timePerCallKeepSmall
deriving DecidableEq

/-- `kickedNodes` lists the calls of `kickSingleNode` and is no variable of the code. -/
structure Kicking where
  md : MetaStore
  kicked : ℚ
  kickedNodes : List ℕ

/-- The metadata after a kick of the node with the decision `d`. -/
def markKicked (md : MetaStore) (node : ℕ) (d : TemporaryInstrumentationDecisionMetadata) : MetaStore :=
  setDecision (resetInstrumentation md node) node { d with isKicked := true }

def kickSingleNode (st : Kicking) (node : ℕ) : Except Exn Kicking :=
  match (st.md node).instrumentationResult with
  | none => .error .nullDereference
  | some result =>
    match (st.md node).decision with
    | none => .error .nullDereference
    | some d => .ok ⟨markKicked st.md node d, st.kicked + result.callCount, st.kickedNodes ++ [node]⟩

/-- The loops over a list, which differ in the test that a node must pass to be kicked. -/
def kickLoop (check : MetaStore → ℕ → Except Exn Bool) (mainMethod : ℕ) (callsToKick : ℚ) :
    List ℕ → Kicking → Except Exn Kicking
  | [], st => .ok st
  | node :: nodes, st => do
    let st ← if ← check st.md node then kickSingleNode st node else pure st
    if st.kicked ≥ callsToKick ∨ node = mainMethod then return st
    kickLoop check mainMethod callsToKick nodes st

def kickNodesFromInstrumentation (mainMethod : ℕ) (nodesToKick : List ℕ) (callsToKick : ℚ) (st : Kicking) :
    Except Exn Kicking :=
  kickLoop (fun _ _ => .ok true) mainMethod callsToKick nodesToKick st

/-- The last check of each strategy. -/
def giveUpUnlessEnough (mainMethod : ℕ) (callsToKick : ℚ) (st : Kicking) : Except Exn Kicking :=
  if st.kicked < callsToKick then .error .exit
  else
    match (st.md mainMethod).decision with
    | none => .error .nullDereference
    | some d => if d.isKicked then .error .exit else .ok st

def inclusiveTimePerCallSum (md : MetaStore) (node : ℕ) : ℚ :=
  ((md node).instrumentationResult.map InstrumentationResultMetaData.inclusiveTimePerCallSum).getD 0

def callCount (md : MetaStore) (node : ℕ) : ℕ :=
  ((md node).instrumentationResult.map InstrumentationResultMetaData.callCount).getD 0

/-- The order by the runtime per call. -/
def lessTimePerCall (md : MetaStore) (lhs rhs : ℕ) : Bool :=
  decide (inclusiveTimePerCallSum md lhs < inclusiveTimePerCallSum md rhs)

def kickNodesByRuntimePerCall (algorithms : Algorithms) (mainMethod : ℕ) (nodesNoHotspot nodesHotspot : List ℕ)
    (callsToKick : ℚ) (md : MetaStore) : Except Exn Kicking := do
  let st : Kicking := ⟨md, 0, []⟩
  if callsToKick > 0 then
    let nodesNoHotspot := algorithms.sort (lessTimePerCall md) nodesNoHotspot
    let nodesHotspot := algorithms.sort (lessTimePerCall md) nodesHotspot
    let st ← kickNodesFromInstrumentation mainMethod nodesNoHotspot callsToKick st
    if st.kicked < callsToKick then
      let st ← kickNodesFromInstrumentation mainMethod nodesHotspot callsToKick st
      giveUpUnlessEnough mainMethod callsToKick st
    else return st
  else return st

def isLeafInstrumentationNode (order : List ℕ → List ℕ) (g : Callgraph) (md : MetaStore) (node : ℕ) : Except Exn Bool := do
  let callees ← getCallees order g node
  return isAnyInstrumented md node && callees.all fun p => !(decide (node ≠ p) && isAnyInstrumented md p)

def kickNodesByRuntimePerCallKeepSmall (algorithms : Algorithms) (order : List ℕ → List ℕ) (g : Callgraph) (mainMethod : ℕ)
    (nodesNoHotspot nodesHotspot : List ℕ) (callsToKick : ℚ) (md : MetaStore) : Except Exn Kicking := do
  let st : Kicking := ⟨md, 0, []⟩
  if callsToKick > 0 then
    let byCalls := algorithms.sort (fun lhs rhs => decide (callCount md lhs > callCount md rhs)) nodesNoHotspot
    -- the fifth with the fewest calls is put aside
    let moveCount := byCalls.length / 5
    let littleCalls := byCalls.drop (byCalls.length - moveCount)
    let nodes := algorithms.sort (lessTimePerCall md) (byCalls.take (byCalls.length - moveCount))
    let st ← kickLoop (isLeafInstrumentationNode order g) mainMethod callsToKick nodes st
    if st.kicked < callsToKick then
      let nodes := algorithms.sort (lessTimePerCall md) (nodes ++ littleCalls)
      let st ← kickLoop (fun md node => .ok (isAnyInstrumented md node)) mainMethod callsToKick nodes st
      if st.kicked < callsToKick then
        let nodesHotspot := algorithms.sort (lessTimePerCall md) nodesHotspot
        let st ← kickNodesFromInstrumentation mainMethod nodesHotspot callsToKick st
        giveUpUnlessEnough mainMethod callsToKick st
      else return st
    else return st
  else return st

/-- `graph->getMain()`; what it caches does not change its answer. -/
def getMainNode (g : Callgraph) : Except Exn (Option ℕ) :=
  match g.getMain false with
  | .ok g' => .ok g'.mainNode
  | .error (e, _) => .error e

def kickCheck (order : List ℕ → List ℕ) (g : Callgraph) (md : MetaStore) (node : ℕ) : Except Exn Bool := do
  if some node ≠ (← getMainNode g) then isLeafInstrumentationNode order g md node else return false

def kickCheckWeak (g : Callgraph) (md : MetaStore) (node : ℕ) : Except Exn Bool := do
  return decide (some node ≠ (← getMainNode g)) && isAnyInstrumented md node

/-- The `do`-loops: kick what `find` finds, until there are enough or it finds nothing. -/
def kickFound (find : MetaStore → Except Exn (Option ℕ)) (mainMethod : ℕ) (callsToKick : ℚ) :
    ℕ → Kicking → Except Stop Kicking
  | 0, _ => .error .fuel
  | fuel + 1, st => do
    match ← lift (find st.md) with
    | none => return st
    | some node =>
      let st ← lift (kickSingleNode st node)
      if node = mainMethod then return st
      if st.kicked < callsToKick then kickFound find mainMethod callsToKick fuel st else return st

/-- The searches of the second loop. -/
def findAny (order : List ℕ → List ℕ) (g : Callgraph) (nodesNoHotspot nodesHotspot : List ℕ) (md : MetaStore) :
    Except Exn (Option ℕ) := do
  match ← nodesNoHotspot.findM? (kickCheckWeak g md) with
  | some node => return some node
  | none =>
    match ← nodesHotspot.findM? (kickCheck order g md) with
    | some node => return some node
    | none => nodesHotspot.findM? (kickCheckWeak g md)

def kickNodesRandomly (algorithms : Algorithms) (order : List ℕ → List ℕ) (g : Callgraph) (fuel mainMethod : ℕ)
    (nodesNoHotspot nodesHotspot : List ℕ) (callsToKick : ℚ) (md : MetaStore) : Except Stop Kicking := do
  let st : Kicking := ⟨md, 0, []⟩
  if callsToKick > 0 then
    let nodesNoHotspot := algorithms.shuffle nodesNoHotspot
    let nodesHotspot := algorithms.shuffle nodesHotspot
    let st ← kickFound (fun md => nodesNoHotspot.findM? (kickCheck order g md)) mainMethod callsToKick fuel st
    if st.kicked < callsToKick then
      let st ← kickFound (findAny order g nodesNoHotspot nodesHotspot) mainMethod callsToKick fuel st
      lift (giveUpUnlessEnough mainMethod callsToKick st)
    else return st
  else return st

/-- The switch of `modifyGraphOverhead`. -/
def kickNodes (algorithms : Algorithms) (order : List ℕ → List ℕ) (g : Callgraph) (selection : OverheadSelection)
    (fuel mainMethod : ℕ) (nodesNoHotspot nodesHotspot : List ℕ) (callsToKick : ℚ) (md : MetaStore) : Except Stop Kicking :=
  match selection with
  | .none => .error (.exn (.assertion "This should be unreachable"))
  | .random => kickNodesRandomly algorithms order g fuel mainMethod nodesNoHotspot nodesHotspot callsToKick md
  | .timePerCall => lift (kickNodesByRuntimePerCall algorithms mainMethod nodesNoHotspot nodesHotspot callsToKick md)
  | .timePerCallKeepSmall =>
    lift (kickNodesByRuntimePerCallKeepSmall algorithms order g mainMethod nodesNoHotspot nodesHotspot callsToKick md)

/-! ## Chains of kicks -/

/-- `st'` is what some kicks leave of `st`. -/
def Kicks : Kicking → Kicking → Prop := Relation.ReflTransGen fun st st' => ∃ n, kickSingleNode st n = .ok st'

section
variable {check : MetaStore → ℕ → Except Exn Bool} {find : MetaStore → Except Exn (Option ℕ)} {mainMethod : ℕ} {callsToKick : ℚ}
  {nodes nodes' : List ℕ} {st st' : Kicking} {md : MetaStore} {algorithms : Algorithms} {order : List ℕ → List ℕ} {g : Callgraph}
  {selection : OverheadSelection} {fuel : ℕ}

/-- The first round of a loop: the node is kicked if it passes the check, and the loop ends or goes on. -/
theorem kickLoop_cons {n : ℕ} (h : kickLoop check mainMethod callsToKick (n :: nodes) st = .ok st') :
    ∃ st₁, (check st.md n = .ok false ∧ st₁ = st ∨ kickSingleNode st n = .ok st₁) ∧
      ((st₁.kicked ≥ callsToKick ∨ n = mainMethod) ∧ st' = st₁ ∨
        kickLoop check mainMethod callsToKick nodes st₁ = .ok st') := by
  rw [kickLoop] at h
  obtain ⟨b, hb, h⟩ := bind_eq_ok.mp h
  have hrest : ∀ st₁, (if st₁.kicked ≥ callsToKick ∨ n = mainMethod then pure st₁
      else kickLoop check mainMethod callsToKick nodes st₁) = Except.ok st' →
      (st₁.kicked ≥ callsToKick ∨ n = mainMethod) ∧ st' = st₁ ∨
        kickLoop check mainMethod callsToKick nodes st₁ = .ok st' := by
    intro st₁ h₁
    split_ifs at h₁ with hstop
    · cases h₁
      exact .inl ⟨hstop, rfl⟩
    · exact .inr h₁
  cases b with
  | false => exact ⟨st, .inl ⟨hb, rfl⟩, hrest st h⟩
  | true =>
    obtain ⟨st₁, hst₁, h⟩ := bind_eq_ok.mp h
    exact ⟨st₁, .inr hst₁, hrest st₁ h⟩

theorem kickLoop_chain (h : kickLoop check mainMethod callsToKick nodes st = .ok st') : Kicks st st' := by
  induction nodes generalizing st with
  | nil =>
    cases h
    exact .refl
  | cons n nodes ih =>
    obtain ⟨st₁, hfirst, hrest⟩ := kickLoop_cons h
    have hchain : Kicks st₁ st' := by
      rcases hrest with ⟨-, rfl⟩ | hrest
      · exact .refl
      · exact ih hrest
    rcases hfirst with ⟨-, rfl⟩ | hst₁
    · exact hchain
    · exact .head ⟨n, hst₁⟩ hchain

theorem kickFound_chain (h : kickFound find mainMethod callsToKick fuel st = .ok st') : Kicks st st' := by
  induction fuel generalizing st with
  | zero => cases h
  | succ fuel ih =>
    rw [kickFound] at h
    obtain ⟨r, -, h⟩ := bind_eq_ok.mp h
    cases r with
    | none =>
      cases h
      exact .refl
    | some n =>
      obtain ⟨st₁, hst₁, h⟩ := bind_eq_ok.mp h
      have hkick : ∃ n, kickSingleNode st n = .ok st₁ := ⟨n, lift_eq_ok.mp hst₁⟩
      split_ifs at h
      · cases h
        exact .single hkick
      · exact .head hkick (ih h)
      · cases h
        exact .single hkick

theorem giveUpUnlessEnough_eq (h : giveUpUnlessEnough mainMethod callsToKick st = .ok st') : st' = st := by
  unfold giveUpUnlessEnough at h
  split_ifs at h
  cases hd : (st.md mainMethod).decision with
  | none => rw [hd] at h; cases h
  | some d =>
    rw [hd] at h
    simp only at h
    split_ifs at h
    cases h
    rfl

theorem kickNodesRandomly_chain
    (h : kickNodesRandomly algorithms order g fuel mainMethod nodes nodes' callsToKick md = .ok st') : Kicks ⟨md, 0, []⟩ st' := by
  unfold kickNodesRandomly at h
  simp only at h
  split_ifs at h
  · obtain ⟨st₁, hst₁, h⟩ := bind_eq_ok.mp h
    have h₁ := kickFound_chain hst₁
    split_ifs at h
    · obtain ⟨st₂, hst₂, h⟩ := bind_eq_ok.mp h
      rw [giveUpUnlessEnough_eq (lift_eq_ok.mp h)]
      exact h₁.trans (kickFound_chain hst₂)
    · cases h
      exact h₁
  · cases h
    exact .refl

theorem kickNodesByRuntimePerCall_chain
    (h : kickNodesByRuntimePerCall algorithms mainMethod nodes nodes' callsToKick md = .ok st') : Kicks ⟨md, 0, []⟩ st' := by
  unfold kickNodesByRuntimePerCall at h
  simp only at h
  split_ifs at h
  · obtain ⟨st₁, hst₁, h⟩ := bind_eq_ok.mp h
    have h₁ := kickLoop_chain hst₁
    split_ifs at h
    · obtain ⟨st₂, hst₂, h⟩ := bind_eq_ok.mp h
      rw [giveUpUnlessEnough_eq h]
      exact h₁.trans (kickLoop_chain hst₂)
    · cases h
      exact h₁
  · cases h
    exact .refl

theorem kickNodesByRuntimePerCallKeepSmall_chain
    (h : kickNodesByRuntimePerCallKeepSmall algorithms order g mainMethod nodes nodes' callsToKick md = .ok st') :
    Kicks ⟨md, 0, []⟩ st' := by
  unfold kickNodesByRuntimePerCallKeepSmall at h
  simp only at h
  split_ifs at h
  · obtain ⟨st₁, hst₁, h⟩ := bind_eq_ok.mp h
    have h₁ := kickLoop_chain hst₁
    split_ifs at h
    · obtain ⟨st₂, hst₂, h⟩ := bind_eq_ok.mp h
      have h₂ := h₁.trans (kickLoop_chain hst₂)
      split_ifs at h
      · obtain ⟨st₃, hst₃, h⟩ := bind_eq_ok.mp h
        rw [giveUpUnlessEnough_eq h]
        exact h₂.trans (kickLoop_chain hst₃)
      · cases h
        exact h₂
    · cases h
      exact h₁
  · cases h
    exact .refl

/-- The strategies do nothing but kick nodes. -/
theorem kickNodes_chain (h : kickNodes algorithms order g selection fuel mainMethod nodes nodes' callsToKick md = .ok st') :
    Kicks ⟨md, 0, []⟩ st' := by
  cases selection with
  | none => cases h
  | random => exact kickNodesRandomly_chain h
  | timePerCall => exact kickNodesByRuntimePerCall_chain (lift_eq_ok.mp h)
  | timePerCallKeepSmall => exact kickNodesByRuntimePerCallKeepSmall_chain (lift_eq_ok.mp h)

end

/-! ## Accounting -/

/-- The node is marked as kicked. -/
def Marked (md : MetaStore) (n : ℕ) : Prop := ∃ d, (md n).decision = some d ∧ d.isKicked = true

/-- What `kickSingleNode` dereferences is there. -/
def Kickable (md : MetaStore) (n : ℕ) : Prop :=
  (md n).instrumentationResult.isSome = true ∧ (md n).decision.isSome = true

/-- The calls of all the nodes of a list. -/
def calls (md : MetaStore) (nodes : List ℕ) : ℚ := (nodes.map fun n => (callCount md n : ℚ)).sum

/-- The sum, the list of the kicked nodes and the marks agree. -/
structure Accounted (md : MetaStore) (st : Kicking) : Prop where
  sum : st.kicked = calls md st.kickedNodes
  once : st.kickedNodes.Nodup
  marked : ∀ n, Marked st.md n ↔ n ∈ st.kickedNodes
  instrumented : ∀ n, isAnyInstrumented st.md n = (decide (n ∉ st.kickedNodes) && isAnyInstrumented md n)
  results : ∀ n, (st.md n).instrumentationResult = (md n).instrumentationResult
  decided : ∀ n, (st.md n).decision.isSome = (md n).decision.isSome

section
variable {md : MetaStore} {l l' : List ℕ}

theorem calls_cons {n : ℕ} : calls md (n :: l) = callCount md n + calls md l := rfl

theorem calls_append : calls md (l ++ l') = calls md l + calls md l' := by
  unfold calls
  rw [List.map_append, List.sum_append]

theorem calls_perm (h : l.Perm l') : calls md l = calls md l' := (h.map _).sum_eq

theorem calls_le_of_subset (hnodup : l.Nodup) (h : l ⊆ l') : calls md l ≤ calls md l' := by
  obtain ⟨l₁, hperm, hsub⟩ := hnodup.subperm h
  rw [← calls_perm hperm]
  refine (hsub.map _).sum_le_sum fun x hx => ?_
  obtain ⟨n, -, rfl⟩ := List.mem_map.mp hx
  exact Nat.cast_nonneg _

end

section
variable {md : MetaStore} {st : Kicking} {n : ℕ}

theorem Accounted.initial (hunmarked : ∀ n, ¬Marked md n) : Accounted md ⟨md, 0, []⟩ where
  sum := rfl
  once := List.nodup_nil
  marked := fun n => by simp [hunmarked n]
  instrumented := fun n => by simp
  results := fun _ => rfl
  decided := fun _ => rfl

section
variable {k : ℕ} {d : TemporaryInstrumentationDecisionMetadata}

theorem markKicked_other (hk : k ≠ n) : markKicked md n d k = md k := by
  rw [markKicked, setDecision, MetaStore.update_other _ hk, resetInstrumentation, setInstrumentation, MetaStore.update_other _ hk]

theorem markKicked_same : markKicked md n d n =
    { md n with instrumentation := .none, decision := some { d with isKicked := true } } := by
  rw [markKicked, setDecision, MetaStore.update_same, resetInstrumentation, setInstrumentation, MetaStore.update_same]

theorem markKicked_result : (markKicked md n d k).instrumentationResult = (md k).instrumentationResult := by
  by_cases hk : k = n
  · rw [hk, markKicked_same]
  · rw [markKicked_other hk]

theorem markKicked_decision (hn : (md n).decision.isSome = true) :
    (markKicked md n d k).decision.isSome = (md k).decision.isSome := by
  by_cases hk : k = n
  · rw [hk, markKicked_same]
    exact hn.symm
  · rw [markKicked_other hk]

theorem isAnyInstrumented_markKicked :
    isAnyInstrumented (markKicked md n d) k = (decide (k ≠ n) && isAnyInstrumented md k) := by
  unfold isAnyInstrumented
  by_cases hk : k = n
  · rw [hk, markKicked_same]
    simp
  · rw [markKicked_other hk]
    simp [hk]

theorem marked_markKicked : Marked (markKicked md n d) k ↔ Marked md k ∨ k = n := by
  unfold Marked
  by_cases hk : k = n
  · rw [hk, markKicked_same]
    exact ⟨fun _ => .inr rfl, fun _ => ⟨_, rfl, rfl⟩⟩
  · rw [markKicked_other hk, or_iff_left hk]

end

/-- `kickSingleNode` on a node that was not kicked before. -/
theorem kickSingleNode_accounted (h : Accounted md st) (hkickable : Kickable md n) (hnew : n ∉ st.kickedNodes) :
    ∃ st', kickSingleNode st n = .ok st' ∧ Accounted md st' ∧ st'.kickedNodes = st.kickedNodes ++ [n] ∧
      ∀ k, isAnyInstrumented st'.md k = (decide (k ≠ n) && isAnyInstrumented st.md k) := by
  obtain ⟨result, hresult⟩ := Option.isSome_iff_exists.mp hkickable.1
  obtain ⟨d, hd⟩ : ∃ d, (st.md n).decision = some d := Option.isSome_iff_exists.mp ((h.decided n).trans hkickable.2)
  refine ⟨⟨markKicked st.md n d, st.kicked + result.callCount, st.kickedNodes ++ [n]⟩, ?_,
    ⟨?_, ?_, fun k => ?_, fun k => ?_, fun k => ?_, fun k => ?_⟩, rfl, fun k => isAnyInstrumented_markKicked⟩
  · unfold kickSingleNode
    rw [h.results, hresult, hd]
  · have hcount : callCount md n = result.callCount := by
      unfold callCount
      rw [hresult]
      rfl
    rw [calls_append, ← h.sum, calls, List.map_singleton, List.sum_singleton, hcount]
  · refine List.nodup_append.mpr ⟨h.once, List.nodup_singleton n, fun a ha b hb hab => hnew ?_⟩
    rw [← List.mem_singleton.mp hb, ← hab]
    exact ha
  · rw [marked_markKicked, h.marked, List.mem_append, List.mem_singleton]
  · rw [isAnyInstrumented_markKicked, h.instrumented, ← Bool.and_assoc, ← Bool.decide_and]
    congr 2
    rw [List.mem_append, List.mem_singleton, not_or, and_comm]
  · exact markKicked_result.trans (h.results k)
  · exact (markKicked_decision (by rw [hd]; rfl)).trans (h.decided k)

theorem kickSingleNode_eq {st' : Kicking} (h : kickSingleNode st n = .ok st') :
    st'.kickedNodes = st.kickedNodes ++ [n] ∧ ∃ d, (st.md n).decision = some d ∧ st'.md = markKicked st.md n d := by
  unfold kickSingleNode at h
  cases hr : (st.md n).instrumentationResult with
  | none => rw [hr] at h; cases h
  | some result =>
    cases hd : (st.md n).decision with
    | none => rw [hr, hd] at h; cases h
    | some d =>
      rw [hr, hd] at h
      cases h
      exact ⟨rfl, d, rfl, rfl⟩

theorem kickSingleNode_decision {st' : Kicking} (h : kickSingleNode st n = .ok st') (k : ℕ) :
    (st'.md k).decision.isSome = (st.md k).decision.isSome := by
  obtain ⟨-, d, hd, hmd⟩ := kickSingleNode_eq h
  rw [hmd]
  exact markKicked_decision (by rw [hd]; rfl)

theorem Kicks.subset {st' : Kicking} (h : Kicks st st') : ∀ k ∈ st.kickedNodes, k ∈ st'.kickedNodes := by
  induction h with
  | refl => exact fun k hk => hk
  | tail _ hstep ih =>
    obtain ⟨n, hstep⟩ := hstep
    intro k hk
    rw [(kickSingleNode_eq hstep).1]
    exact List.mem_append_left _ (ih k hk)

/-- Only a kick takes a node out of the instrumentation. -/
theorem Kicks.kicked_of_not_instrumented (h : Kicks ⟨md, 0, []⟩ st) (hn : isAnyInstrumented md n = true)
    (hout : isAnyInstrumented st.md n = false) : n ∈ st.kickedNodes := by
  induction h with
  | refl => rw [hn] at hout; cases hout
  | @tail st st' _ hstep ih =>
    obtain ⟨k, hstep⟩ := hstep
    obtain ⟨hnodes, d, -, hmd⟩ := kickSingleNode_eq hstep
    rw [hnodes, List.mem_append, List.mem_singleton]
    rw [hmd, isAnyInstrumented_markKicked, Bool.and_eq_false_iff, decide_eq_false_iff_not, not_not] at hout
    exact hout.symm.imp ih id

/-- A node that is still instrumented was not kicked. -/
theorem Accounted.notMem_of_instrumented (h : Accounted md st) (hn : isAnyInstrumented st.md n = true) :
    n ∉ st.kickedNodes ∧ isAnyInstrumented md n = true := by
  rw [h.instrumented, Bool.and_eq_true, decide_eq_true_iff] at hn
  exact hn

theorem Accounted.le_calls (h : Accounted md st) {l : List ℕ} (hfrom : ∀ n ∈ st.kickedNodes, n ∈ l) :
    st.kicked ≤ calls md l := by
  rw [h.sum]
  exact calls_le_of_subset h.once hfrom

theorem Accounted.kicked_eq (h : Accounted md st) {l : List ℕ} (hnodup : l.Nodup) (hmem : ∀ n, n ∈ st.kickedNodes ↔ n ∈ l) :
    st.kicked = calls md l := by
  rw [h.sum]
  exact calls_perm ((List.perm_ext_iff_of_nodup h.once hnodup).mpr hmem)

theorem Accounted.calls_le (h : Accounted md st) {l : List ℕ} (hnodup : l.Nodup) (hall : ∀ n ∈ l, n ∈ st.kickedNodes) :
    calls md l ≤ st.kicked := by
  rw [h.sum]
  exact calls_le_of_subset hnodup hall

end

/-! ## The loops over a list -/

section
variable {md : MetaStore} {st : Kicking} {check : MetaStore → ℕ → Except Exn Bool} {mainMethod : ℕ} {callsToKick : ℚ}
  {nodes : List ℕ}

/-- The nodes that are kicked from `st` to `st'` satisfy `P`. -/
def KicksFrom (P : ℕ → Prop) (st st' : Kicking) : Prop := ∀ n ∈ st'.kickedNodes, n ∈ st.kickedNodes ∨ P n

theorem KicksFrom.refl (P : ℕ → Prop) (st : Kicking) : KicksFrom P st st := fun _ hn => .inl hn

/-- The pass from `st` returns, the accounts agree, and it kicks none but nodes with `P`. -/
def Passes (md : MetaStore) (P : ℕ → Prop) (st : Kicking) (r : Except Exn Kicking) : Prop :=
  ∃ st', r = .ok st' ∧ Accounted md st' ∧ KicksFrom P st st'

/-- `I` relates the state to the nodes that are left, and with it a node passes the check only if it was not kicked before
and satisfies `P`. -/
theorem kickLoop_accounted {I : Kicking → List ℕ → Prop} {P : ℕ → Prop} (hkickable : ∀ n ∈ nodes, Kickable md n)
    (hcheck : ∀ st n rest, Accounted md st → I st (n :: rest) →
      ∃ b, check st.md n = .ok b ∧ (b = true → n ∉ st.kickedNodes ∧ P n))
    (hskip : ∀ st n rest, I st (n :: rest) → I st rest)
    (hkick : ∀ st st' n rest, I st (n :: rest) → st'.kickedNodes = st.kickedNodes ++ [n] → I st' rest)
    (hI : I st nodes) (h : Accounted md st) : Passes md P st (kickLoop check mainMethod callsToKick nodes st) := by
  induction nodes generalizing st with
  | nil => exact ⟨st, rfl, h, .refl P st⟩
  | cons n rest ih =>
    obtain ⟨b, hb, hnew⟩ := hcheck st n rest h hI
    -- what the first node makes of the state
    obtain ⟨st₁, hrun, hacc, hI₁, hfrom⟩ : ∃ st₁, kickLoop check mainMethod callsToKick (n :: rest) st =
        (if st₁.kicked ≥ callsToKick ∨ n = mainMethod then .ok st₁ else kickLoop check mainMethod callsToKick rest st₁) ∧
        Accounted md st₁ ∧ I st₁ rest ∧ KicksFrom P st st₁ := by
      cases b with
      | false =>
        refine ⟨st, ?_, h, hskip st n rest hI, .refl P st⟩
        rw [kickLoop, hb]
        rfl
      | true =>
        obtain ⟨hnotKicked, hP⟩ := hnew rfl
        obtain ⟨st₁, hst₁, hacc, hnodes, -⟩ := kickSingleNode_accounted h (hkickable n (List.mem_cons_self ..)) hnotKicked
        refine ⟨st₁, ?_, hacc, hkick st st₁ n rest hI hnodes, fun k hk => ?_⟩
        · rw [kickLoop, hb]
          change (kickSingleNode st n >>= _) = _
          rw [hst₁]
          rfl
        · rw [hnodes, List.mem_append, List.mem_singleton] at hk
          refine hk.imp_right ?_
          rintro rfl
          exact hP
    rw [hrun]
    split_ifs with hstop
    · exact ⟨st₁, rfl, hacc, hfrom⟩
    · obtain ⟨st', hst', hacc', hfrom'⟩ := ih (fun k hk => hkickable k (List.mem_cons_of_mem n hk)) hI₁ hacc
      exact ⟨st', hst', hacc', fun k hk => (hfrom' k hk).elim (hfrom k) .inr⟩

/-- A loop that only kicks instrumented nodes. -/
theorem kickLoop_instrumented (hkickable : ∀ n ∈ nodes, Kickable md n)
    (hcheck : ∀ md n, n ∈ nodes → ∃ b, check md n = .ok b ∧ (b = true → isAnyInstrumented md n = true))
    (h : Accounted md st) :
    Passes md (fun n => n ∈ nodes ∧ isAnyInstrumented md n = true) st (kickLoop check mainMethod callsToKick nodes st) := by
  refine kickLoop_accounted (I := fun _ rest => ∀ n ∈ rest, n ∈ nodes) hkickable (fun st n rest hacc hI => ?_)
    (fun st n rest hI k hk => hI k (List.mem_cons_of_mem n hk)) (fun st st' n rest hI _ k hk => hI k (List.mem_cons_of_mem n hk))
    (fun n hn => hn) h
  have hn := hI n (List.mem_cons_self ..)
  obtain ⟨b, hb, hins⟩ := hcheck st.md n hn
  exact ⟨b, hb, fun hpass =>
    ⟨(hacc.notMem_of_instrumented (hins hpass)).1, hn, (hacc.notMem_of_instrumented (hins hpass)).2⟩⟩

/-- `kickNodesFromInstrumentation` on nodes that were not kicked before. -/
theorem kickNodesFromInstrumentation_accounted (hkickable : ∀ n ∈ nodes, Kickable md n) (hnodup : nodes.Nodup)
    (hnew : ∀ n ∈ nodes, n ∉ st.kickedNodes) (h : Accounted md st) :
    Passes md (· ∈ nodes) st (kickNodesFromInstrumentation mainMethod nodes callsToKick st) := by
  refine kickLoop_accounted
    (I := fun st rest => rest.Nodup ∧ (∀ n ∈ rest, n ∉ st.kickedNodes) ∧ ∀ n ∈ rest, n ∈ nodes) hkickable
    (fun st n rest _ hI => ⟨true, rfl, fun _ => ⟨hI.2.1 n (List.mem_cons_self ..), hI.2.2 n (List.mem_cons_self ..)⟩⟩)
    (fun st n rest hI => ⟨(List.nodup_cons.mp hI.1).2, fun k hk => hI.2.1 k (List.mem_cons_of_mem n hk),
      fun k hk => hI.2.2 k (List.mem_cons_of_mem n hk)⟩)
    (fun st st' n rest hI hst' => ⟨(List.nodup_cons.mp hI.1).2, fun k hk hmem => ?_,
      fun k hk => hI.2.2 k (List.mem_cons_of_mem n hk)⟩) ⟨hnodup, hnew, fun n hn => hn⟩ h
  rw [hst', List.mem_append, List.mem_singleton] at hmem
  rcases hmem with hmem | rfl
  · exact hI.2.1 k (List.mem_cons_of_mem n hk) hmem
  · exact (List.nodup_cons.mp hI.1).1 hk

/-- A loop that ends before enough calls are kicked was at every node. -/
theorem kickLoop_exhausts {st' : Kicking} (hmain : mainMethod ∉ nodes)
    (hrun : kickLoop check mainMethod callsToKick nodes st = .ok st') (hless : st'.kicked < callsToKick) :
    ∀ n ∈ nodes, n ∈ st'.kickedNodes ∨ ∃ st₁, Kicks st st₁ ∧ Kicks st₁ st' ∧ check st₁.md n = .ok false := by
  induction nodes generalizing st with
  | nil => exact fun n hn => absurd hn List.not_mem_nil
  | cons n nodes ih =>
    rw [List.mem_cons, not_or] at hmain
    obtain ⟨st₁, hfirst, hrest⟩ := kickLoop_cons hrun
    have hloop : kickLoop check mainMethod callsToKick nodes st₁ = .ok st' := by
      rcases hrest with ⟨henough | hstop, rfl⟩ | hrest
      · exact absurd hless (not_lt.mpr henough)
      · exact absurd hstop.symm hmain.1
      · exact hrest
    have hstep : Kicks st st₁ := by
      rcases hfirst with ⟨-, rfl⟩ | hst₁
      · exact .refl
      · exact .single ⟨n, hst₁⟩
    intro k hk
    rcases List.mem_cons.mp hk with rfl | hk
    · rcases hfirst with ⟨hskip, rfl⟩ | hst₁
      · exact .inr ⟨st₁, .refl, kickLoop_chain hloop, hskip⟩
      · exact .inl ((kickLoop_chain hloop).subset k (by
          rw [(kickSingleNode_eq hst₁).1]
          exact List.mem_append_right _ (List.mem_singleton_self k)))
    · exact (ih hmain.2 hloop k hk).imp_right fun ⟨st₂, hst₂, hlater, hskip⟩ => ⟨st₂, hstep.trans hst₂, hlater, hskip⟩

end

/-! ## The loops that search -/

section
variable {md : MetaStore} {st : Kicking} {mainMethod : ℕ} {callsToKick : ℚ} {candidates : List ℕ}
  {find : MetaStore → Except Exn (Option ℕ)}

/-- Each round takes an instrumented candidate out of the instrumentation, so the search fails at last. -/
theorem kickFound_settles (hfind : ∀ md, ∃ r, find md = .ok r ∧ ∀ n ∈ r, n ∈ candidates ∧ isAnyInstrumented md n = true)
    (hkickable : ∀ n ∈ candidates, Kickable md n) (hmain : mainMethod ∉ candidates) (h : Accounted md st) :
    ∃ st', Settles (fun fuel => kickFound find mainMethod callsToKick fuel st) (.ok st') ∧ Accounted md st' ∧
      KicksFrom (fun n => n ∈ candidates ∧ isAnyInstrumented md n = true) st st' ∧
      (st'.kicked < callsToKick → find st'.md = .ok none) := by
  induction hcard : (candidates.toFinset.filter fun n => isAnyInstrumented st.md n = true).card using Nat.strong_induction_on
    generalizing st with
  | _ card ih =>
  obtain ⟨r, hr, hfound⟩ := hfind st.md
  cases r with
  | none =>
    refine ⟨st, Settles.succ ⟨0, fun fuel _ => ?_⟩, h, .refl _ st, fun _ => hr⟩
    change kickFound find mainMethod callsToKick (fuel + 1) st = _
    rw [kickFound, hr]
    rfl
  | some n =>
    obtain ⟨hn, hins⟩ := hfound n rfl
    obtain ⟨hnotKicked, hins₀⟩ := h.notMem_of_instrumented hins
    obtain ⟨st₁, hst₁, hacc, hnodes, hins₁⟩ := kickSingleNode_accounted h (hkickable n hn) hnotKicked
    have hfrom : KicksFrom (fun n => n ∈ candidates ∧ isAnyInstrumented md n = true) st st₁ := by
      intro k hk
      rw [hnodes, List.mem_append, List.mem_singleton] at hk
      refine hk.imp_right ?_
      rintro rfl
      exact ⟨hn, hins₀⟩
    have hnotMain : n ≠ mainMethod := fun he => hmain (he ▸ hn)
    have hround : ∀ fuel, kickFound find mainMethod callsToKick (fuel + 1) st =
        if st₁.kicked < callsToKick then kickFound find mainMethod callsToKick fuel st₁ else .ok st₁ := by
      intro fuel
      rw [kickFound, hr]
      change (lift (kickSingleNode st n) >>= _) = _
      rw [hst₁]
      exact if_neg hnotMain
    by_cases hless : st₁.kicked < callsToKick
    · have herase : (candidates.toFinset.filter fun k => isAnyInstrumented st₁.md k = true) =
          (candidates.toFinset.filter fun k => isAnyInstrumented st.md k = true).erase n := by
        refine Finset.ext fun k => ?_
        rw [Finset.mem_filter, Finset.mem_erase, Finset.mem_filter, hins₁, Bool.and_eq_true, decide_eq_true_iff]
        exact and_left_comm
      have hfewer : (candidates.toFinset.filter fun k => isAnyInstrumented st₁.md k = true).card < card := by
        rw [herase, ← hcard]
        exact Finset.card_erase_lt_of_mem (Finset.mem_filter.mpr ⟨List.mem_toFinset.mpr hn, hins⟩)
      obtain ⟨st', ⟨bound, hbound⟩, hacc', hfrom', hnone⟩ := ih _ hfewer hacc rfl
      refine ⟨st', Settles.succ ⟨bound, fun fuel hfuel => ?_⟩, hacc', fun k hk => (hfrom' k hk).elim (hfrom k) .inr, hnone⟩
      rw [← hbound fuel hfuel]
      exact (hround fuel).trans (if_pos hless)
    · exact ⟨st₁, Settles.succ ⟨0, fun fuel _ => (hround fuel).trans (if_neg hless)⟩, hacc, hfrom, fun h => absurd h hless⟩

end

/-! ## The strategies -/

/-- The lists of the profiled nodes as `modifyGraphOverhead` passes them: nothing is kicked yet, and every node got its
decision metadata in the first loop. -/
structure KickInput (g : Callgraph) (md : MetaStore) (mainMethod : ℕ) (nodesNoHotspot nodesHotspot : List ℕ) : Prop where
  live : ∀ n, n ∈ nodesNoHotspot ∨ n ∈ nodesHotspot → g.hasNode n = true
  profiled : ∀ n, n ∈ nodesNoHotspot ∨ n ∈ nodesHotspot → (md n).instrumentationResult.isSome = true
  decided : ∀ n, g.hasNode n = true → (md n).decision.isSome = true
  unmarked : ∀ n, ¬Marked md n
  nodup_noHotspot : nodesNoHotspot.Nodup
  nodup_hotspot : nodesHotspot.Nodup
  disjoint : ∀ n ∈ nodesNoHotspot, n ∉ nodesHotspot
  main_live : g.hasNode mainMethod = true
  main_noHotspot : mainMethod ∉ nodesNoHotspot

/-- The run returned: main was not kicked, no node was kicked twice, the number that is returned is the sum of the calls
of the nodes that are marked, and it is large enough. -/
structure KickedEnough (md : MetaStore) (mainMethod : ℕ) (callsToKick : ℚ) (st : Kicking) : Prop where
  main_kept : ¬Marked st.md mainMethod
  once : st.kickedNodes.Nodup
  marked : ∀ n, Marked st.md n ↔ n ∈ st.kickedNodes
  sum : st.kicked = (st.kickedNodes.map fun n => (callCount md n : ℚ)).sum
  enough : callsToKick ≤ st.kicked

/-- The run gives up, or it kicked enough. -/
def GivesUpOrKicks (md : MetaStore) (mainMethod : ℕ) (callsToKick : ℚ) (r : Except Exn Kicking) : Prop :=
  r = .error .exit ∨ ∃ st, r = .ok st ∧ KickedEnough md mainMethod callsToKick st

/-- The nodes that a strategy can kick. Main ends a pass over the hotspots, so those that are sorted behind it are out of
reach; the searches pass over main. -/
def candidates (algorithms : Algorithms) (md : MetaStore) (mainMethod : ℕ) (nodesNoHotspot nodesHotspot : List ℕ) :
    OverheadSelection → List ℕ
  | .none => []
  | .random => (nodesNoHotspot ++ nodesHotspot).filter fun n => decide (n ≠ mainMethod) && isAnyInstrumented md n
  | .timePerCall =>
    nodesNoHotspot ++ (algorithms.sort (lessTimePerCall md) nodesHotspot).takeWhile fun n => decide (n ≠ mainMethod)
  | .timePerCallKeepSmall => nodesNoHotspot.filter (isAnyInstrumented md) ++
    (algorithms.sort (lessTimePerCall md) nodesHotspot).takeWhile fun n => decide (n ≠ mainMethod)

/-- The run gives up exactly if the calls of the candidates are too few. -/
def Decides (md : MetaStore) (mainMethod : ℕ) (callsToKick : ℚ) (candidates : List ℕ) (r : Except Exn Kicking) : Prop :=
  GivesUpOrKicks md mainMethod callsToKick r ∧ (r = .error .exit ↔ calls md candidates < callsToKick)

section
variable {algorithms : Algorithms} {order : List ℕ → List ℕ} {g : Callgraph} {md : MetaStore} {mainMethod : ℕ}
  {nodesNoHotspot nodesHotspot nodes l : List ℕ} {callsToKick : ℚ} {st : Kicking}

theorem KickInput.kickable (h : KickInput g md mainMethod nodesNoHotspot nodesHotspot) {n : ℕ}
    (hn : n ∈ nodesNoHotspot ∨ n ∈ nodesHotspot) : Kickable md n := ⟨h.profiled n hn, h.decided n (h.live n hn)⟩

theorem KickInput.main_decided (h : KickInput g md mainMethod nodesNoHotspot nodesHotspot) :
    (md mainMethod).decision.isSome = true := h.decided mainMethod h.main_live

/-- A pass that kicked enough and does not reach main ends the run. -/
theorem Accounted.decides (h : Accounted md st) (hmain : mainMethod ∉ l) (hfrom : ∀ n ∈ st.kickedNodes, n ∈ l)
    (henough : ¬st.kicked < callsToKick) : Decides md mainMethod callsToKick l (.ok st) := by
  have hkicked : KickedEnough md mainMethod callsToKick st :=
    { main_kept := fun hmarked => hmain (hfrom mainMethod ((h.marked mainMethod).mp hmarked))
      once := h.once
      marked := h.marked
      sum := h.sum
      enough := not_lt.mp henough }
  refine ⟨.inr ⟨st, rfl, hkicked⟩, fun hexit => ?_, fun hless => absurd ((h.le_calls hfrom).trans_lt hless) henough⟩
  cases hexit

theorem giveUpUnlessEnough_eq_ite (h : Accounted md st) (hdecided : (md mainMethod).decision.isSome = true) :
    giveUpUnlessEnough mainMethod callsToKick st =
      if st.kicked < callsToKick ∨ mainMethod ∈ st.kickedNodes then .error .exit else .ok st := by
  obtain ⟨d, hd⟩ : ∃ d, (st.md mainMethod).decision = some d :=
    Option.isSome_iff_exists.mp ((h.decided mainMethod).trans hdecided)
  have hmarked : mainMethod ∈ st.kickedNodes ↔ d.isKicked = true := by
    rw [← h.marked]
    exact ⟨fun ⟨d', hd', hkicked⟩ => by rw [hd] at hd'; cases hd'; exact hkicked, fun hkicked => ⟨d, hd, hkicked⟩⟩
  unfold giveUpUnlessEnough
  rw [hd, if_congr (or_congr_right hmarked) rfl rfl]
  by_cases hless : st.kicked < callsToKick
  · rw [if_pos hless, if_pos (.inl hless)]
  · rw [if_neg hless, if_congr (or_iff_right hless) rfl rfl]

theorem giveUpUnlessEnough_exit_iff (h : Accounted md st) (hdecided : (md mainMethod).decision.isSome = true) :
    giveUpUnlessEnough mainMethod callsToKick st = .error .exit ↔ st.kicked < callsToKick ∨ mainMethod ∈ st.kickedNodes := by
  rw [giveUpUnlessEnough_eq_ite h hdecided]
  split_ifs with hgives
  · exact ⟨fun _ => hgives, fun _ => rfl⟩
  · refine ⟨fun hexit => ?_, fun hgives' => absurd hgives' hgives⟩
    cases hexit

theorem giveUpUnlessEnough_cases (h : Accounted md st) (hdecided : (md mainMethod).decision.isSome = true) :
    GivesUpOrKicks md mainMethod callsToKick (giveUpUnlessEnough mainMethod callsToKick st) := by
  rw [giveUpUnlessEnough_eq_ite h hdecided]
  split_ifs with hgives
  · exact .inl rfl
  · rw [not_or, ← h.marked] at hgives
    exact .inr ⟨st, rfl, hgives.2, h.once, h.marked, h.sum, not_lt.mp hgives.1⟩

/-- The pass over the hotspots starts with too few calls and kicks until there are enough or main is kicked. -/
theorem kickHotspots_exit_iff (hkickable : ∀ n ∈ nodes, Kickable md n) (hnodup : nodes.Nodup)
    (hnew : ∀ n ∈ nodes, n ∉ st.kickedNodes) (hmain : mainMethod ∉ st.kickedNodes)
    (hdecided : (md mainMethod).decision.isSome = true) (h : Accounted md st) (hless : st.kicked < callsToKick) :
    (kickNodesFromInstrumentation mainMethod nodes callsToKick st >>= giveUpUnlessEnough mainMethod callsToKick) = .error .exit ↔
      st.kicked + calls md (nodes.takeWhile fun n => decide (n ≠ mainMethod)) < callsToKick := by
  induction nodes generalizing st with
  | nil =>
    change giveUpUnlessEnough mainMethod callsToKick st = _ ↔ st.kicked + 0 < callsToKick
    rw [giveUpUnlessEnough_exit_iff h hdecided, or_iff_left hmain, add_zero]
  | cons n nodes ih =>
    obtain ⟨hn, hnodup⟩ := List.nodup_cons.mp hnodup
    obtain ⟨st₁, hst₁, hacc, hnodes, -⟩ :=
      kickSingleNode_accounted h (hkickable n (List.mem_cons_self ..)) (hnew n (List.mem_cons_self ..))
    have hround : kickNodesFromInstrumentation mainMethod (n :: nodes) callsToKick st =
        if st₁.kicked ≥ callsToKick ∨ n = mainMethod then .ok st₁
        else kickNodesFromInstrumentation mainMethod nodes callsToKick st₁ := by
      unfold kickNodesFromInstrumentation
      rw [kickLoop]
      change (kickSingleNode st n >>= _) = _
      rw [hst₁]
      rfl
    have hsum : st₁.kicked = st.kicked + callCount md n := by
      rw [hacc.sum, hnodes, calls_append, ← h.sum]
      exact congrArg _ (add_zero _)
    have hkicked : ∀ k, k ∈ st₁.kickedNodes ↔ k ∈ st.kickedNodes ∨ k = n := fun k => by
      rw [hnodes, List.mem_append, List.mem_singleton]
    rw [hround]
    by_cases hstop : n = mainMethod
    · rw [if_pos (.inr hstop), List.takeWhile_cons_of_neg (by simp [hstop])]
      change giveUpUnlessEnough mainMethod callsToKick st₁ = _ ↔ st.kicked + 0 < callsToKick
      rw [giveUpUnlessEnough_exit_iff hacc hdecided, hkicked, add_zero]
      exact ⟨fun _ => hless, fun _ => .inr (.inr hstop.symm)⟩
    · have hmain₁ : mainMethod ∉ st₁.kickedNodes := by
        rw [hkicked, not_or]
        exact ⟨hmain, Ne.symm hstop⟩
      rw [List.takeWhile_cons_of_pos (by simp [hstop]), calls_cons, ← add_assoc, ← hsum]
      by_cases hless₁ : st₁.kicked < callsToKick
      · rw [if_neg (not_or.mpr ⟨not_le.mpr hless₁, hstop⟩)]
        refine ih (fun k hk => hkickable k (List.mem_cons_of_mem n hk)) hnodup (fun k hk hmem => ?_) hmain₁ hacc hless₁
        rcases (hkicked k).mp hmem with hmem | rfl
        · exact hnew k (List.mem_cons_of_mem n hk) hmem
        · exact hn hk
      · rw [if_pos (.inl (not_lt.mp hless₁))]
        change giveUpUnlessEnough mainMethod callsToKick st₁ = _ ↔ _
        rw [giveUpUnlessEnough_exit_iff hacc hdecided, or_iff_left hmain₁]
        have hnonneg : 0 ≤ calls md (nodes.takeWhile fun n => decide (n ≠ mainMethod)) :=
          calls_le_of_subset List.nodup_nil (List.nil_subset _)
        exact ⟨fun h => absurd h hless₁, fun h => absurd ((le_add_of_nonneg_right hnonneg).trans_lt h) hless₁⟩

/-- The pass over the hotspots and the last check, after all of `l` is kicked. -/
theorem kickHotspots_decides (hin : KickInput g md mainMethod nodesNoHotspot nodesHotspot) (hperm : nodes.Perm nodesHotspot)
    (hl : ∀ n ∈ l, n ∈ nodesNoHotspot) (hnodup : l.Nodup) (h : Accounted md st) (hkicked : ∀ n, n ∈ st.kickedNodes ↔ n ∈ l)
    (hless : st.kicked < callsToKick) :
    Decides md mainMethod callsToKick (l ++ nodes.takeWhile fun n => decide (n ≠ mainMethod)) (do
      let st ← kickNodesFromInstrumentation mainMethod nodes callsToKick st
      giveUpUnlessEnough mainMethod callsToKick st) := by
  have hkickable : ∀ n ∈ nodes, Kickable md n := fun n hn => hin.kickable (.inr (hperm.mem_iff.mp hn))
  have hnodes : nodes.Nodup := hperm.nodup_iff.mpr hin.nodup_hotspot
  have hnew : ∀ n ∈ nodes, n ∉ st.kickedNodes := fun n hn hmem =>
    hin.disjoint n (hl n ((hkicked n).mp hmem)) (hperm.mem_iff.mp hn)
  have hmain : mainMethod ∉ st.kickedNodes := fun hmem => hin.main_noHotspot (hl mainMethod ((hkicked mainMethod).mp hmem))
  refine ⟨?_, ?_⟩
  · have hpass : Passes md (· ∈ nodes) st (kickNodesFromInstrumentation mainMethod nodes callsToKick st) :=
      kickNodesFromInstrumentation_accounted hkickable hnodes hnew h
    obtain ⟨st', hst', hacc, -⟩ := hpass
    rw [hst']
    exact giveUpUnlessEnough_cases hacc hin.main_decided
  · rw [calls_append, ← h.kicked_eq hnodup hkicked]
    exact kickHotspots_exit_iff hkickable hnodes hnew hmain hin.main_decided h hless

/-- Main is in none of the nodes that are sorted in front of it. -/
theorem KickInput.main_notMem (hin : KickInput g md mainMethod nodesNoHotspot nodesHotspot) (hl : ∀ n ∈ l, n ∈ nodesNoHotspot) :
    mainMethod ∉ l ++ nodes.takeWhile fun n => decide (n ≠ mainMethod) := by
  rw [List.mem_append, not_or]
  exact ⟨fun hmem => hin.main_noHotspot (hl mainMethod hmem), fun hmem => by simpa using List.mem_takeWhile_imp hmem⟩

theorem kickNodesByRuntimePerCall_decides (hin : KickInput g md mainMethod nodesNoHotspot nodesHotspot) (hpos : 0 < callsToKick) :
    Decides md mainMethod callsToKick (candidates algorithms md mainMethod nodesNoHotspot nodesHotspot .timePerCall)
      (kickNodesByRuntimePerCall algorithms mainMethod nodesNoHotspot nodesHotspot callsToKick md) := by
  have hperm := algorithms.sort_perm (lessTimePerCall md) nodesNoHotspot
  have hpass : Passes md (· ∈ algorithms.sort (lessTimePerCall md) nodesNoHotspot) ⟨md, 0, []⟩
      (kickNodesFromInstrumentation mainMethod (algorithms.sort (lessTimePerCall md) nodesNoHotspot) callsToKick ⟨md, 0, []⟩) :=
    kickNodesFromInstrumentation_accounted (fun n hn => hin.kickable (.inl (hperm.mem_iff.mp hn)))
      (hperm.nodup_iff.mpr hin.nodup_noHotspot) (fun n _ => List.not_mem_nil) (.initial hin.unmarked)
  obtain ⟨st, hst, hacc, hfrom⟩ := hpass
  have hfrom' : ∀ n ∈ st.kickedNodes, n ∈ nodesNoHotspot := fun n hn =>
    hperm.mem_iff.mp ((hfrom n hn).resolve_left List.not_mem_nil)
  unfold kickNodesByRuntimePerCall
  rw [if_pos hpos]
  simp only [bind, Except.bind, hst]
  split_ifs with hless
  · refine kickHotspots_decides hin (algorithms.sort_perm _ _) (fun n hn => hn) hin.nodup_noHotspot hacc
      (fun n => ⟨hfrom' n, fun hn => ?_⟩) hless
    have hall := kickLoop_exhausts (fun hmain => hin.main_noHotspot (hperm.mem_iff.mp hmain)) hst hless n (hperm.mem_iff.mpr hn)
    exact hall.resolve_right fun ⟨_, _, _, hskip⟩ => by cases hskip
  · exact hacc.decides (hin.main_notMem fun n hn => hn) (fun n hn => List.mem_append_left _ (hfrom' n hn)) hless

theorem isLeafInstrumentationNode_ok (h : g.Wf) (hord : ∀ l, (order l).Perm l) {n : ℕ} (hlive : g.hasNode n = true)
    (md : MetaStore) :
    ∃ b, isLeafInstrumentationNode order g md n = .ok b ∧ (b = true → isAnyInstrumented md n = true) := by
  obtain ⟨callees, hc, -⟩ := getCallees_ok h hord hlive
  unfold isLeafInstrumentationNode
  rw [hc]
  exact ⟨_, rfl, fun hb => ((Bool.and_eq_true _ _).mp hb).1⟩

theorem kickNodesByRuntimePerCallKeepSmall_decides (h : g.Wf) (hord : ∀ l, (order l).Perm l)
    (hin : KickInput g md mainMethod nodesNoHotspot nodesHotspot) (hpos : 0 < callsToKick) :
    Decides md mainMethod callsToKick (candidates algorithms md mainMethod nodesNoHotspot nodesHotspot .timePerCallKeepSmall)
      (kickNodesByRuntimePerCallKeepSmall algorithms order g mainMethod nodesNoHotspot nodesHotspot callsToKick md) := by
  unfold kickNodesByRuntimePerCallKeepSmall
  rw [if_pos hpos]
  have hperm₁ := algorithms.sort_perm (fun lhs rhs => decide (callCount md lhs > callCount md rhs)) nodesNoHotspot
  generalize algorithms.sort (fun lhs rhs => decide (callCount md lhs > callCount md rhs)) nodesNoHotspot = byCalls at hperm₁ ⊢
  simp only
  generalize byCalls.length - byCalls.length / 5 = kept
  have hperm₂ := algorithms.sort_perm (lessTimePerCall md) (byCalls.take kept)
  generalize algorithms.sort (lessTimePerCall md) (byCalls.take kept) = large at hperm₂ ⊢
  have hperm₃ : (algorithms.sort (lessTimePerCall md) (large ++ byCalls.drop kept)).Perm nodesNoHotspot := by
    refine (algorithms.sort_perm _ _).trans ((hperm₂.append_right _).trans ?_)
    rw [List.take_append_drop]
    exact hperm₁
  generalize algorithms.sort (lessTimePerCall md) (large ++ byCalls.drop kept) = nodes at hperm₃ ⊢
  have hlarge : ∀ n ∈ large, n ∈ nodesNoHotspot := fun n hn =>
    hperm₁.mem_iff.mp (List.mem_of_mem_take (hperm₂.mem_iff.mp hn))
  -- the candidates that are no hotspots
  have hcandidate : ∀ n, n ∈ nodesNoHotspot.filter (isAnyInstrumented md) ↔ n ∈ nodesNoHotspot ∧ isAnyInstrumented md n = true :=
    fun n => List.mem_filter
  have hnoHotspot : ∀ n ∈ nodesNoHotspot.filter (isAnyInstrumented md), n ∈ nodesNoHotspot := fun n hn =>
    ((hcandidate n).mp hn).1
  have hpass₁ : Passes md (fun n => n ∈ large ∧ isAnyInstrumented md n = true) ⟨md, 0, []⟩
      (kickLoop (isLeafInstrumentationNode order g) mainMethod callsToKick large ⟨md, 0, []⟩) :=
    kickLoop_instrumented (fun n hn => hin.kickable (.inl (hlarge n hn)))
      (fun md n hn => isLeafInstrumentationNode_ok h hord (hin.live n (.inl (hlarge n hn))) md) (.initial hin.unmarked)
  obtain ⟨st₁, hst₁, hacc₁, hfrom₁⟩ := hpass₁
  have hfrom₁' : ∀ n ∈ st₁.kickedNodes, n ∈ nodesNoHotspot.filter (isAnyInstrumented md) := fun n hn =>
    (hcandidate n).mpr (((hfrom₁ n hn).resolve_left List.not_mem_nil).imp_left (hlarge n))
  simp only [bind, Except.bind, hst₁]
  split_ifs with hless₁
  · have hpass₂ : Passes md (fun n => n ∈ nodes ∧ isAnyInstrumented md n = true) st₁
        (kickLoop (fun md node => .ok (isAnyInstrumented md node)) mainMethod callsToKick nodes st₁) :=
      kickLoop_instrumented (fun n hn => hin.kickable (.inl (hperm₃.mem_iff.mp hn))) (fun md n _ => ⟨_, rfl, id⟩) hacc₁
    obtain ⟨st₂, hst₂, hacc₂, hfrom₂⟩ := hpass₂
    have hfrom₂' : ∀ n ∈ st₂.kickedNodes, n ∈ nodesNoHotspot.filter (isAnyInstrumented md) := fun n hn =>
      (hfrom₂ n hn).elim (hfrom₁' n) fun hn => (hcandidate n).mpr (hn.imp_left hperm₃.mem_iff.mp)
    simp only [hst₂]
    split_ifs with hless₂
    · refine kickHotspots_decides hin (algorithms.sort_perm _ _) hnoHotspot (hin.nodup_noHotspot.filter _) hacc₂
        (fun n => ⟨hfrom₂' n, fun hn => ?_⟩) hless₂
      -- the second pass was at every node, and one that it left was kicked before
      obtain ⟨hn, hins⟩ := (hcandidate n).mp hn
      have hall := kickLoop_exhausts (fun hmain => hin.main_noHotspot (hperm₃.mem_iff.mp hmain)) hst₂ hless₂ n
        (hperm₃.mem_iff.mpr hn)
      refine hall.elim id fun ⟨st', hbefore, hafter, hskip⟩ => hafter.subset n ?_
      exact Kicks.kicked_of_not_instrumented ((kickLoop_chain hst₁).trans hbefore) hins (Except.ok.inj hskip)
    · exact hacc₂.decides (hin.main_notMem hnoHotspot) (fun n hn => List.mem_append_left _ (hfrom₂' n hn)) hless₂
  · exact hacc₁.decides (hin.main_notMem hnoHotspot) (fun n hn => List.mem_append_left _ (hfrom₁' n hn)) hless₁

section
variable {p : Option ℕ}

theorem kickCheck_ok (h : g.Wf) (hord : ∀ l, (order l).Perm l) (hmain : getMainNode g = .ok p) {n : ℕ}
    (hlive : g.hasNode n = true) (md : MetaStore) :
    ∃ b, kickCheck order g md n = .ok b ∧ (b = true → some n ≠ p ∧ isAnyInstrumented md n = true) := by
  unfold kickCheck
  rw [hmain]
  simp only [bind, Except.bind]
  split_ifs with hn
  · obtain ⟨b, hb, hins⟩ := isLeafInstrumentationNode_ok h hord hlive md
    exact ⟨b, hb, fun hpass => ⟨hn, hins hpass⟩⟩
  · exact ⟨false, rfl, fun hb => absurd hb Bool.false_ne_true⟩

theorem kickCheckWeak_eq (hmain : getMainNode g = .ok p) (md : MetaStore) (n : ℕ) :
    kickCheckWeak g md n = .ok (decide (some n ≠ p) && isAnyInstrumented md n) := by
  unfold kickCheckWeak
  rw [hmain]
  rfl

theorem kickCheckWeak_ok (hmain : getMainNode g = .ok p) (md : MetaStore) (n : ℕ) :
    ∃ b, kickCheckWeak g md n = .ok b ∧ (b = true → some n ≠ p ∧ isAnyInstrumented md n = true) :=
  ⟨_, kickCheckWeak_eq hmain md n, fun hpass => ((Bool.and_eq_true _ _).mp hpass).imp_left of_decide_eq_true⟩

theorem findAny_ok (h : g.Wf) (hord : ∀ l, (order l).Perm l) (hmain : getMainNode g = .ok p)
    (hlive : ∀ n, n ∈ nodesNoHotspot ∨ n ∈ nodesHotspot → g.hasNode n = true) (md : MetaStore) :
    ∃ r, findAny order g nodesNoHotspot nodesHotspot md = .ok r ∧
      ∀ n ∈ r, n ∈ nodesNoHotspot ++ nodesHotspot ∧ some n ≠ p ∧ isAnyInstrumented md n = true := by
  obtain ⟨r₁, hr₁, hfound₁⟩ := findM_ok (l := nodesNoHotspot) fun n _ => kickCheckWeak_ok hmain md n
  obtain ⟨r₂, hr₂, hfound₂⟩ := findM_ok (l := nodesHotspot) fun n hn => kickCheck_ok h hord hmain (hlive n (.inr hn)) md
  obtain ⟨r₃, hr₃, hfound₃⟩ := findM_ok (l := nodesHotspot) fun n _ => kickCheckWeak_ok hmain md n
  unfold findAny
  rw [hr₁]
  cases r₁ with
  | some n => exact ⟨some n, rfl, fun k hk => ⟨List.mem_append_left _ (hfound₁ k hk).1, (hfound₁ k hk).2⟩⟩
  | none =>
    simp only [bind, Except.bind, hr₂]
    cases r₂ with
    | some n => exact ⟨some n, rfl, fun k hk => ⟨List.mem_append_right _ (hfound₂ k hk).1, (hfound₂ k hk).2⟩⟩
    | none => exact ⟨r₃, hr₃, fun k hk => ⟨List.mem_append_right _ (hfound₃ k hk).1, (hfound₃ k hk).2⟩⟩

/-- Where the search fails, main is the only node left that is instrumented. -/
theorem findAny_none (hmain : getMainNode g = .ok p) (h : findAny order g nodesNoHotspot nodesHotspot md = .ok none) {n : ℕ}
    (hn : n ∈ nodesNoHotspot ∨ n ∈ nodesHotspot) (hother : some n ≠ p) : isAnyInstrumented md n = false := by
  have hweak : kickCheckWeak g md n = .ok false := by
    unfold findAny at h
    obtain ⟨r₁, hr₁, h⟩ := bind_eq_ok.mp h
    cases r₁ with
    | some k => cases h
    | none =>
      obtain ⟨r₂, -, h⟩ := bind_eq_ok.mp h
      cases r₂ with
      | some k => cases h
      | none => exact hn.elim (findM_none hr₁ n) (findM_none h n)
  rw [kickCheckWeak_eq hmain, decide_eq_true hother, Bool.true_and] at hweak
  exact Except.ok.inj hweak

end

/-- The second loop of the searches and the last check. -/
theorem kickAny_decides (callsToKick : ℚ) (h : g.Wf) (hord : ∀ l, (order l).Perm l)
    (hmain : getMainNode g = .ok (some mainMethod)) (hin : KickInput g md mainMethod nodesNoHotspot nodesHotspot)
    {noHotspot hotspot : List ℕ}
    (hperm : noHotspot.Perm nodesNoHotspot) (hperm' : hotspot.Perm nodesHotspot) (hnodup : l.Nodup)
    (hcandidate : ∀ n, n ∈ l ↔ (n ∈ nodesNoHotspot ∨ n ∈ nodesHotspot) ∧ n ≠ mainMethod ∧ isAnyInstrumented md n = true)
    (hacc : Accounted md st) (hfrom : ∀ n ∈ st.kickedNodes, n ∈ l) :
    ∃ st', Settles (fun fuel => kickFound (findAny order g noHotspot hotspot) mainMethod callsToKick fuel st) (.ok st') ∧
      Decides md mainMethod callsToKick l (giveUpUnlessEnough mainMethod callsToKick st') := by
  have hlisted : ∀ n, n ∈ noHotspot ∨ n ∈ hotspot → n ∈ nodesNoHotspot ∨ n ∈ nodesHotspot := fun n =>
    Or.imp hperm.mem_iff.mp hperm'.mem_iff.mp
  have hothers : mainMethod ∉ (noHotspot ++ hotspot).filter fun n => decide (n ≠ mainMethod) := fun hmem =>
    of_decide_eq_true (List.mem_filter.mp hmem).2 rfl
  have hfind : ∀ md, ∃ r, findAny order g noHotspot hotspot md = .ok r ∧
      ∀ n ∈ r, n ∈ (noHotspot ++ hotspot).filter (fun n => decide (n ≠ mainMethod)) ∧ isAnyInstrumented md n = true := by
    intro md
    obtain ⟨r, hr, hfound⟩ := findAny_ok h hord hmain (fun n hn => hin.live n (hlisted n hn)) md
    refine ⟨r, hr, fun n hn => ?_⟩
    obtain ⟨hmem, hother, hins⟩ := hfound n hn
    exact ⟨List.mem_filter.mpr ⟨hmem, decide_eq_true fun he => hother (congrArg some he)⟩, hins⟩
  obtain ⟨st', hrun, hacc', hfrom', hnone⟩ : ∃ st', Settles (fun fuel =>
      kickFound (findAny order g noHotspot hotspot) mainMethod callsToKick fuel st) (.ok st') ∧ Accounted md st' ∧
      KicksFrom (fun n => n ∈ (noHotspot ++ hotspot).filter (fun n => decide (n ≠ mainMethod)) ∧ isAnyInstrumented md n = true)
        st st' ∧ (st'.kicked < callsToKick → findAny order g noHotspot hotspot st'.md = .ok none) :=
    kickFound_settles hfind (fun n hn => hin.kickable (hlisted n (List.mem_append.mp (List.mem_filter.mp hn).1))) hothers hacc
  have hkicked : ∀ n ∈ st'.kickedNodes, n ∈ l := fun n hn => by
    refine (hfrom' n hn).elim (hfrom n) fun ⟨hn, hins⟩ => (hcandidate n).mpr ?_
    obtain ⟨hn, hother⟩ := List.mem_filter.mp hn
    exact ⟨hlisted n (List.mem_append.mp hn), of_decide_eq_true hother, hins⟩
  refine ⟨st', hrun, ?_⟩
  by_cases hless : st'.kicked < callsToKick
  · refine ⟨giveUpUnlessEnough_cases hacc' hin.main_decided, ?_⟩
    rw [giveUpUnlessEnough_exit_iff hacc' hin.main_decided]
    refine ⟨fun _ => (hacc'.calls_le hnodup fun n hn => ?_).trans_lt hless, fun _ => .inl hless⟩
    -- the last search failed, so the candidate is not instrumented any more
    obtain ⟨hn, hother, hins⟩ := (hcandidate n).mp hn
    have hout : isAnyInstrumented st'.md n = false := findAny_none hmain (hnone hless)
      (hn.imp hperm.mem_iff.mpr hperm'.mem_iff.mpr) (fun he => hother (Option.some.inj he))
    rw [hacc'.instrumented, hins, Bool.and_true, decide_eq_false_iff_not, not_not] at hout
    exact hout
  · have hmain' : mainMethod ∉ l := fun hmem => ((hcandidate mainMethod).mp hmem).2.1 rfl
    have hgoesOn : ¬(st'.kicked < callsToKick ∨ mainMethod ∈ st'.kickedNodes) :=
      not_or.mpr ⟨hless, fun hmem => hmain' (hkicked mainMethod hmem)⟩
    rw [giveUpUnlessEnough_eq_ite hacc' hin.main_decided, if_neg hgoesOn]
    exact hacc'.decides hmain' hkicked hless

theorem kickNodesRandomly_decides (h : g.Wf) (hord : ∀ l, (order l).Perm l) (hmain : getMainNode g = .ok (some mainMethod))
    (hin : KickInput g md mainMethod nodesNoHotspot nodesHotspot) (hpos : 0 < callsToKick) :
    ∃ r, Settles (fun fuel => kickNodesRandomly algorithms order g fuel mainMethod nodesNoHotspot nodesHotspot callsToKick md)
      (lift r) ∧
      Decides md mainMethod callsToKick (candidates algorithms md mainMethod nodesNoHotspot nodesHotspot .random) r := by
  have hcandidate : ∀ n, n ∈ candidates algorithms md mainMethod nodesNoHotspot nodesHotspot .random ↔
      (n ∈ nodesNoHotspot ∨ n ∈ nodesHotspot) ∧ n ≠ mainMethod ∧ isAnyInstrumented md n = true := fun n => by
    rw [candidates, List.mem_filter, List.mem_append, Bool.and_eq_true, decide_eq_true_iff]
  have hnodup : (candidates algorithms md mainMethod nodesNoHotspot nodesHotspot .random).Nodup :=
    (List.nodup_append.mpr ⟨hin.nodup_noHotspot, hin.nodup_hotspot, fun a ha b hb hab => hin.disjoint a ha (hab ▸ hb)⟩).filter _
  generalize candidates algorithms md mainMethod nodesNoHotspot nodesHotspot .random = l at hcandidate hnodup ⊢
  unfold kickNodesRandomly
  simp only [gt_iff_lt, hpos, if_true]
  have hperm := algorithms.shuffle_perm nodesNoHotspot
  have hperm' := algorithms.shuffle_perm nodesHotspot
  generalize algorithms.shuffle nodesNoHotspot = noHotspot at hperm ⊢
  generalize algorithms.shuffle nodesHotspot = hotspot at hperm' ⊢
  have hlisted : ∀ n ∈ noHotspot, n ∈ nodesNoHotspot ∨ n ∈ nodesHotspot := fun n hn => .inl (hperm.mem_iff.mp hn)
  have hnotMain : mainMethod ∉ noHotspot := fun hmem => hin.main_noHotspot (hperm.mem_iff.mp hmem)
  have hfind : ∀ md, ∃ r, noHotspot.findM? (kickCheck order g md) = .ok r ∧
      ∀ n ∈ r, n ∈ noHotspot ∧ isAnyInstrumented md n = true := fun md => findM_ok fun n hn => by
    obtain ⟨b, hb, hpass⟩ := kickCheck_ok h hord hmain (hin.live n (hlisted n hn)) md
    exact ⟨b, hb, fun ht => (hpass ht).2⟩
  obtain ⟨st₁, ⟨bound₁, hst₁⟩, hacc₁, hfrom₁, -⟩ : ∃ st', Settles (fun fuel =>
      kickFound (fun md => noHotspot.findM? (kickCheck order g md)) mainMethod callsToKick fuel ⟨md, 0, []⟩) (.ok st') ∧
      Accounted md st' ∧ KicksFrom (fun n => n ∈ noHotspot ∧ isAnyInstrumented md n = true) ⟨md, 0, []⟩ st' ∧
      (st'.kicked < callsToKick → noHotspot.findM? (kickCheck order g st'.md) = .ok none) :=
    kickFound_settles hfind (fun n hn => hin.kickable (hlisted n hn)) hnotMain (.initial hin.unmarked)
  have hfrom₁' : ∀ n ∈ st₁.kickedNodes, n ∈ l := fun n hn => by
    obtain ⟨hn, hins⟩ := (hfrom₁ n hn).resolve_left List.not_mem_nil
    exact (hcandidate n).mpr ⟨hlisted n hn, fun he => hnotMain (he ▸ hn), hins⟩
  by_cases hless : st₁.kicked < callsToKick
  · obtain ⟨st₂, ⟨bound₂, hst₂⟩, hdecides⟩ :=
      kickAny_decides callsToKick h hord hmain hin hperm hperm' hnodup hcandidate hacc₁ hfrom₁'
    refine ⟨giveUpUnlessEnough mainMethod callsToKick st₂, ⟨max bound₁ bound₂, fun fuel hfuel => ?_⟩, hdecides⟩
    have hrun₁ := hst₁ fuel ((le_max_left ..).trans hfuel)
    have hrun₂ := hst₂ fuel ((le_max_right ..).trans hfuel)
    simp only at hrun₁ hrun₂
    simp only [bind, Except.bind, hrun₁, hless, if_true, hrun₂]
  · have hnotMain' : mainMethod ∉ l := fun hmem => ((hcandidate mainMethod).mp hmem).2.1 rfl
    refine ⟨.ok st₁, ⟨bound₁, fun fuel hfuel => ?_⟩, hacc₁.decides hnotMain' hfrom₁' hless⟩
    have hrun₁ := hst₁ fuel hfuel
    simp only at hrun₁
    simp only [bind, Except.bind, hrun₁, hless, if_false]
    rfl

/-- Each strategy returns or gives up: what it returns accounts for the nodes that it kicked, and it gives up exactly if
the nodes that it can kick have too few calls. -/
theorem kickNodes_accounted (algorithms : Algorithms) {order : List ℕ → List ℕ} (hord : ∀ l, (order l).Perm l) {g g' : Callgraph}
    (h : g.Wf) {md : MetaStore} {mainMethod : ℕ} (hget : g.getMain false = .ok g') (hmain : g'.mainNode = some mainMethod)
    {nodesNoHotspot nodesHotspot : List ℕ} (hin : KickInput g md mainMethod nodesNoHotspot nodesHotspot) {callsToKick : ℚ}
    (hpos : 0 < callsToKick) (selection : OverheadSelection) (hselected : selection ≠ .none) :
    ∃ r, Settles (fun fuel =>
        kickNodes algorithms order g selection fuel mainMethod nodesNoHotspot nodesHotspot callsToKick md) (lift r) ∧
      GivesUpOrKicks md mainMethod callsToKick r ∧
      (r = .error .exit ↔ calls md (candidates algorithms md mainMethod nodesNoHotspot nodesHotspot selection) < callsToKick) := by
  have hmainNode : getMainNode g = .ok (some mainMethod) := by
    unfold getMainNode
    rw [hget]
    exact congrArg Except.ok hmain
  cases selection with
  | none => exact absurd rfl hselected
  | random => exact kickNodesRandomly_decides h hord hmainNode hin hpos
  | timePerCall => exact ⟨_, .const _, kickNodesByRuntimePerCall_decides hin hpos⟩
  | timePerCallKeepSmall => exact ⟨_, .const _, kickNodesByRuntimePerCallKeepSmall_decides h hord hin hpos⟩

end

/-- Lists with one node stay as they are. -/
def keepOrder : Algorithms := ⟨fun _ l => l, id, fun _ l => List.Perm.refl l, fun l => List.Perm.refl l⟩

/-- All functions were called three times in the profile and are instrumented. -/
def profiledAll : MetaStore := fun _ =>
  { NodeMetaData.create with
    instrumentation := .instrumented
    decision := some .create
    instrumentationResult := some ⟨3, OMap.empty, 0, 0, 0, true⟩ }

theorem kickNodes_accounted_directCall :
    ∃ r, Settles (fun fuel => kickNodes keepOrder id directCall .random fuel 0 [1] [0] 2 profiledAll) (lift r) ∧
      GivesUpOrKicks profiledAll 0 2 r ∧
      (r = .error .exit ↔ calls profiledAll (candidates keepOrder profiledAll 0 [1] [0] .random) < 2) := by
  obtain ⟨g', hget, hmain⟩ : ∃ g', directCall.getMain false = .ok g' ∧ g'.mainNode = some 0 := ⟨_, rfl, by decide⟩
  refine kickNodes_accounted keepOrder (fun l => List.Perm.refl l) (Callgraph.run_wf 0 _) hget hmain ?_ (by decide) .random
    (by decide)
  exact
    { live := by simp only [List.mem_singleton, forall_eq_or_imp, forall_eq]; decide
      profiled := fun _ _ => rfl
      decided := fun _ _ => rfl
      unmarked := fun n ⟨d, hd, hkicked⟩ => by cases hd; cases hkicked
      nodup_noHotspot := by decide
      nodup_hotspot := by decide
      disjoint := by decide
      main_live := by decide
      main_noHotspot := by decide }

end MetaCG.Pgis
