import Mathlib.Data.Rat.Defs
import MetaCG.Analysis.ReachabilityAnalysis
import MetaCG.Foundations.OrderedMap

/-! The metadata that PGIS keeps at the nodes (`PGISMetaData.h`, `CgNodeMetaData.h`).

`MetaStore` gives the metadata of every `CgNode*`, that is, of every slot. Metadata that is only read through
`getOrCreate` and whose default says nothing is a plain field, the others are options. A `double` is a rational, and
a `std::set` is the list of its elements in the order in which it is walked. -/
namespace MetaCG.Pgis
open Foundations Analysis
set_option autoImplicit false
set_option maxHeartbeats 250000
set_option maxRecDepth 120000

inductive InstrumentationState where
  | none
  | instrumented
  | instrumentedPath
deriving DecidableEq, Repr

structure PiraOneData where
  wasInPreviousProfile : Bool
  numStmts : ℤ
deriving DecidableEq

def PiraOneData.create : PiraOneData := ⟨false, 0⟩

structure BaseProfileData where
  numCalls : ℕ
deriving DecidableEq

structure InlineMetaData where
  markedInline : Bool
  likelyInline : Bool
  markedAlwaysInline : Bool
  isTemplate : Bool
deriving DecidableEq

structure CodeRegion where
  parent : String
  functions : List String
  parentCalls : ℚ
deriving DecidableEq

structure CallCountEstimationMetaData where
  calledFunctions : OMap String (List (ℚ × String))
  codeRegions : OMap String CodeRegion
deriving DecidableEq

/-- `infoPerCall` is a quotient; `none` when the divisor is zero. -/
structure InstumentationInfo where
  callsFromParents : ℚ
  inclusiveStmtCount : ℕ
  exclusiveStmtCount : ℕ
  infoPerCall : Option ℚ
  init : Bool
deriving DecidableEq

namespace InstumentationInfo

/-- The default constructor; `make_unique` initialises every member with zero. -/
def default : InstumentationInfo := ⟨0, 0, 0, some 0, false⟩

def create (callsFromParents : ℚ) (inclusiveStmtCount exclusiveStmtCount : ℕ) : InstumentationInfo where
  callsFromParents := callsFromParents
  inclusiveStmtCount := inclusiveStmtCount
  exclusiveStmtCount := exclusiveStmtCount
  infoPerCall := if callsFromParents = 0 then none else some (inclusiveStmtCount / callsFromParents)
  init := true

/-- `operator==`, which ignores `Init`; the quotient of two zeros does not equal itself. -/
def same (a b : InstumentationInfo) : Bool :=
  decide (a.callsFromParents = b.callsFromParents) && decide (a.inclusiveStmtCount = b.inclusiveStmtCount) &&
    decide (a.exclusiveStmtCount = b.exclusiveStmtCount) && decide (a.infoPerCall = b.infoPerCall) &&
    !(a.infoPerCall.isNone && decide (a.inclusiveStmtCount = 0))

theorem eq_of_same {a b : InstumentationInfo} (h : same a b = true) (hinit : a.init = b.init) : a = b := by
  unfold same at h
  simp only [Bool.and_eq_true, decide_eq_true_iff] at h
  obtain ⟨⟨⟨⟨hcalls, hincl⟩, hexcl⟩, hper⟩, -⟩ := h
  cases a
  cases b
  simp only at hcalls hincl hexcl hper hinit
  rw [hcalls, hincl, hexcl, hper, hinit]

theorem same_create {calls : ℚ} (hcalls : calls ≠ 0) (incl excl : ℕ) :
    (create calls incl excl).same (create calls incl excl) = true := by
  simp [same, create, hcalls]

end InstumentationInfo

structure TemporaryInstrumentationDecisionMetadata where
  info : InstumentationInfo
  isKicked : Bool
  parentHasHighExclusiveRuntime : Bool
deriving DecidableEq

def TemporaryInstrumentationDecisionMetadata.create : TemporaryInstrumentationDecisionMetadata :=
  ⟨.default, false, false⟩

structure InstrumentationResultMetaData where
  callCount : ℕ
  callsFromParents : OMap String ℕ
  runtime : ℚ
  inclusiveRunTimeSum : ℚ
  inclusiveTimePerCallSum : ℚ
  isExclusiveRuntime : Bool
deriving DecidableEq

structure NodeMetaData where
  instrumentation : InstrumentationState
  piraOne : PiraOneData
  baseProfile : Option BaseProfileData
  inlineInfo : Option InlineMetaData
  callCountEstimation : Option CallCountEstimationMetaData
  decision : Option TemporaryInstrumentationDecisionMetadata
  instrumentationResult : Option InstrumentationResultMetaData

/-- A node without metadata. -/
def NodeMetaData.create : NodeMetaData := ⟨.none, .create, none, none, none, none, none⟩

abbrev MetaStore := ℕ → NodeMetaData

/-- The store with other decisions. -/
def MetaStore.withDecisions (md : MetaStore) (ds : ℕ → Option TemporaryInstrumentationDecisionMetadata) : MetaStore :=
  fun n => { md n with decision := ds n }

/-- Change the metadata of one node in place. -/
def MetaStore.update (md : MetaStore) (node : ℕ) (f : NodeMetaData → NodeMetaData) : MetaStore :=
  Function.update md node (f (md node))

theorem MetaStore.update_same (md : MetaStore) (node : ℕ) (f : NodeMetaData → NodeMetaData) :
    md.update node f node = f (md node) := Function.update_self ..

theorem MetaStore.update_other (md : MetaStore) {node n : ℕ} (h : n ≠ node) (f : NodeMetaData → NodeMetaData) :
    md.update node f n = md n := Function.update_of_ne h ..

/-! ## Instrumentation -/

def setInstrumentation (md : MetaStore) (node : ℕ) (state : InstrumentationState) : MetaStore :=
  md.update node fun m => { m with instrumentation := state }

def resetInstrumentation (md : MetaStore) (node : ℕ) : MetaStore := setInstrumentation md node .none

def instrumentNode (md : MetaStore) (node : ℕ) : MetaStore := setInstrumentation md node .instrumented

def instrumentPathNode (md : MetaStore) (node : ℕ) : MetaStore := setInstrumentation md node .instrumentedPath

def isAnyInstrumented (md : MetaStore) (node : ℕ) : Bool :=
  decide ((md node).instrumentation = .instrumented) || decide ((md node).instrumentation = .instrumentedPath)

section
variable {md : MetaStore} {node n : ℕ}

theorem setInstrumentation_apply (state : InstrumentationState) :
    setInstrumentation md node state n = { md n with instrumentation := if n = node then state else (md n).instrumentation } := by
  rw [setInstrumentation]
  split_ifs with hn
  · rw [hn, MetaStore.update_same]
  · rw [MetaStore.update_other md hn]

theorem isAnyInstrumented_setInstrumentation (state : InstrumentationState) :
    isAnyInstrumented (setInstrumentation md node state) n =
      if n = node then decide (state ≠ .none) else isAnyInstrumented md n := by
  unfold isAnyInstrumented
  rw [setInstrumentation_apply]
  split_ifs
  · cases state <;> rfl
  · rfl

@[simp] theorem isAnyInstrumented_instrumentNode :
    isAnyInstrumented (instrumentNode md node) n = (decide (n = node) || isAnyInstrumented md n) := by
  rw [instrumentNode, isAnyInstrumented_setInstrumentation]
  split_ifs with hn <;> simp [hn]

@[simp] theorem isAnyInstrumented_instrumentPathNode :
    isAnyInstrumented (instrumentPathNode md node) n = (decide (n = node) || isAnyInstrumented md n) := by
  rw [instrumentPathNode, isAnyInstrumented_setInstrumentation]
  split_ifs with hn <;> simp [hn]

end

/-! ## Nodes and their neighbours -/

/-- `*node` -/
def deref (g : Callgraph) (node : ℕ) : Except Exn CgNode :=
  match g.slot node with
  | some n => .ok n
  | none => .error .nullDereference

/-- `getCallers(NodeId)` -/
def getCallersById (g : Callgraph) (node : ℕ) : Except Exn (List ℕ) :=
  if ∀ elem ∈ g.callers node, elem < g.nodes.length then .ok (g.callers node).dedup else .error .outOfRange

/-- What `getCallees(const CgNode&)` and `getCallers(const CgNode&)` have in common: a set that is walked in `order`. -/
def neighbours (order : List ℕ → List ℕ) (g : Callgraph) (byId : ℕ → Except Exn (List ℕ)) (node : ℕ) :
    Except Exn (List ℕ) := do
  let n ← deref g node
  if g.hasNode n.id then return order (← byId n.id) else return []

def getCallees (order : List ℕ → List ℕ) (g : Callgraph) (node : ℕ) : Except Exn (List ℕ) :=
  neighbours order g (getCalleesById g) node

def getCallers (order : List ℕ → List ℕ) (g : Callgraph) (node : ℕ) : Except Exn (List ℕ) :=
  neighbours order g (getCallersById g) node

/-- `s.rfind(t)`: where the last occurrence begins. -/
def rfind (s t : String) : Option ℕ :=
  (List.range (s.toList.length + 1)).reverse.find? fun i => t.toList.isPrefixOf (s.toList.drop i)

-- `rfind` without a position: a second `MPI_` in the name is found first.
def isMPIFunction (node : CgNode) : Bool := decide (rfind node.functionName "MPI_" = some 0)

section
variable {order : List ℕ → List ℕ} {g : Callgraph} {node : ℕ}

theorem deref_eq_ok {n : CgNode} : deref g node = .ok n ↔ g.slot node = some n := by
  unfold deref
  cases g.slot node with
  | none => simp
  | some m => simp

theorem deref_ok (h : g.hasNode node = true) : ∃ n, deref g node = .ok n := by
  obtain ⟨n, hn⟩ := (g.hasNode_iff node).mp h
  exact ⟨n, deref_eq_ok.mpr hn⟩

theorem hasNode_of_deref {n : CgNode} (h : deref g node = .ok n) : g.hasNode node = true :=
  Callgraph.hasNode_of_slot (deref_eq_ok.mp h)

theorem live_of_neighbours {byId : ℕ → Except Exn (List ℕ)} {l : List ℕ} (h : neighbours order g byId node = .ok l) :
    g.hasNode node = true := by
  unfold neighbours at h
  cases hn : deref g node with
  | error e => rw [hn] at h; cases h
  | ok n => exact hasNode_of_deref hn

theorem neighbours_ok (h : g.Wf) (hord : ∀ l, (order l).Perm l) {byId : ℕ → Except Exn (List ℕ)} {l : List ℕ}
    (hlive : g.hasNode node = true) (hl : byId node = .ok l) :
    ∃ l', neighbours order g byId node = .ok l' ∧ l'.Perm l := by
  obtain ⟨n, hn⟩ := deref_ok hlive
  have hid : n.id = node := h.node_id node n (deref_eq_ok.mp hn)
  refine ⟨order l, ?_, hord l⟩
  unfold neighbours
  rw [hn]
  change (if g.hasNode n.id = true then _ else _) = _
  rw [hid, if_pos hlive, hl]
  rfl

/-- The callees of a node of the graph. -/
theorem getCallees_ok (h : g.Wf) (hord : ∀ l, (order l).Perm l) (hlive : g.hasNode node = true) :
    ∃ callees, getCallees order g node = .ok callees ∧ callees.Nodup ∧ ∀ v, v ∈ callees ↔ Calls g node v := by
  have hids : ∀ v ∈ g.callees node, v < g.nodes.length := fun v hv => (h.edge_lt ((h.mem_callees node v).mp hv)).2
  obtain ⟨callees, hc, hperm⟩ := neighbours_ok h hord hlive (show getCalleesById g node = _ from if_pos hids)
  refine ⟨callees, hc, hperm.nodup_iff.mpr (List.nodup_dedup _), fun v => ?_⟩
  rw [hperm.mem_iff, List.mem_dedup, h.mem_callees, Calls]

/-- The callers of a node of the graph. -/
theorem getCallers_ok (h : g.Wf) (hord : ∀ l, (order l).Perm l) (hlive : g.hasNode node = true) :
    ∃ callers, getCallers order g node = .ok callers ∧ callers.Nodup ∧ ∀ u, u ∈ callers ↔ Calls g u node := by
  have hids : ∀ u ∈ g.callers node, u < g.nodes.length := fun u hu => (h.edge_lt ((h.mem_callers u node).mp hu)).1
  obtain ⟨callers, hc, hperm⟩ := neighbours_ok h hord hlive (show getCallersById g node = _ from if_pos hids)
  refine ⟨callers, hc, hperm.nodup_iff.mpr (List.nodup_dedup _), fun u => ?_⟩
  rw [hperm.mem_iff, List.mem_dedup, h.mem_callers, Calls]

theorem mem_getCallees (h : g.Wf) (hord : ∀ l, (order l).Perm l) {callees : List ℕ}
    (hc : getCallees order g node = .ok callees) (v : ℕ) : v ∈ callees ↔ Calls g node v := by
  obtain ⟨_, hok, -, hmem⟩ := getCallees_ok h hord (live_of_neighbours hc)
  rw [hc] at hok
  cases hok
  exact hmem v

theorem mem_getCallers (h : g.Wf) (hord : ∀ l, (order l).Perm l) {callers : List ℕ}
    (hc : getCallers order g node = .ok callers) (u : ℕ) : u ∈ callers ↔ Calls g u node := by
  obtain ⟨_, hok, -, hmem⟩ := getCallers_ok h hord (live_of_neighbours hc)
  rw [hc] at hok
  cases hok
  exact hmem u

end
end MetaCG.Pgis
