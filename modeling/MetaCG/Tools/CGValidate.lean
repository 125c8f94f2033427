import Mathlib.Algebra.Order.BigOperators.Group.List
import Mathlib.Algebra.Order.Monoid.Unbundled.WithTop
import Mathlib.Data.Rat.Lemmas
import MetaCG.Tools.JSONManager

/-! The validation of a call graph against a profile (`CGValidate.cpp`).

A profile is the list of its call path nodes. The parents of format one and the callers of format two are one field
here, as are `overriddenFunctions` and `overrides`. Options, the files and log output are not modelled. -/
namespace MetaCG.CGValidate
open Foundations
set_option autoImplicit false
set_option maxHeartbeats 250000
set_option maxRecDepth 120000

/-- A call count as a quotient of visits; a division by zero is infinite. -/
abbrev CallCount := WithTop ℚ

abbrev CalledFunctionType := OMap String (Finset (CallCount × String))

/-- The JSON value of a function; `hasBody` may be missing, as may `estimateCallCount` or `meta`. -/
structure Node where
  callees : Finset String
  parents : Finset String
  overrides : List String
  hasBody : Option Bool
  calls : Option CalledFunctionType
deriving DecidableEq

abbrev CG := OMap String Node

/-- A call path node of the profile: the called function, that of the parent node and the visits of all threads. -/
structure Cnode where
  callee : String
  parent : Option String
  visits : ℚ

structure Options where
  patch : Bool
  insertNewNodes : Bool
  useNoBodyDetection : Bool
  useCubeCallCounts : Bool
  version : ℕ

/-- Why a run stops. -/
inductive Stop where
  /-- the recursion over the overridden functions does not return -/
  | recursion
  /-- `assert(callCount != 0)` -/
  | callCount
deriving DecidableEq

/-- The two error messages. -/
inductive Report where
  /-- `nodeName` does not contain parent `parentName` -/
  | parent (nodeName parentName : String)
  /-- `parentName` does not contain callee `nodeName` -/
  | callee (parentName nodeName : String)
deriving DecidableEq

structure State where
  callgraph : CG
  newNodes : List String
  hasCallCount : Bool
  edgesChecked : Finset (String × String)
  verified : Bool
  reports : List Report

def State.initial (callgraph : CG) : State := ⟨callgraph, [], false, ∅, true, []⟩

/-! ## The profile -/

def totalCallCounts (cnodes : List Cnode) (name : String) : ℚ :=
  ((cnodes.filter fun c => c.callee = name).map Cnode.visits).sum

def callCounts (cnodes : List Cnode) (callerName calledName : String) : ℚ :=
  ((cnodes.filter fun c => c.parent = some callerName ∧ c.callee = calledName).map Cnode.visits).sum

def isMain (mangledName : String) : Bool := mangledName = "main"

/-! ## Patching -/

def insertDefaultNode (callgraph : CG) (nodeName : String) (version : ℕ) : CG :=
  callgraph.insert nodeName ⟨∅, ∅, [], some false, if version = 2 then some .empty else none⟩

/-- Whether the node is there afterwards. -/
def getOrInsert (st : State) (nodeName : String) (insertNewNodes : Bool) (version : ℕ) : Bool × State :=
  if (st.callgraph.find nodeName).isSome then (true, st)
  else if insertNewNodes then
    (true, { st with
      callgraph := insertDefaultNode st.callgraph nodeName version
      newNodes := st.newNodes ++ [nodeName] })
  else (false, st)

/-- The field that `patchCallgraph` extends. -/
inductive Mode where
  | callees
  | parents
deriving DecidableEq

/-- `callgraph[nodeName][mode]` with `valueName`. -/
def Node.extend (n : Node) (mode : Mode) (valueName : String) : Node :=
  match mode with
  | .callees => { n with callees := insert valueName n.callees }
  | .parents => { n with parents := insert valueName n.parents }

/-- `callCounts[nodeName][valueName] / totalCallCounts[nodeName]` -/
def callCount (cnodes : List Cnode) (nodeName valueName : String) : CallCount :=
  if totalCallCounts cnodes nodeName = 0 then ⊤
  else ((callCounts cnodes nodeName valueName / totalCallCounts cnodes nodeName : ℚ) : CallCount)

def patchCallgraph (cnodes : List Cnode) (st : State) (nodeName valueName : String) (mode : Mode) (insertNewNodes : Bool)
    (version : ℕ) : Except Stop State :=
  let (nodeExists, st) := getOrInsert st nodeName insertNewNodes version
  let (valueExists, st) := getOrInsert st valueName insertNewNodes version
  match st.callgraph.find nodeName with
  | none => .ok st
  | some n =>
    if nodeExists && valueExists then
      let n := n.extend mode valueName
      match mode, n.calls with
      | .callees, some calledFunctions =>
        if callCount cnodes nodeName valueName = 0 then .error .callCount
        else .ok { st with
          hasCallCount := true
          callgraph := st.callgraph.insert nodeName
            { n with calls := some (calledFunctions.insert valueName {(callCount cnodes nodeName valueName, "")}) } }
      | _, _ => .ok { st with callgraph := st.callgraph.insert nodeName n }
    else .ok st

/-! ## Overridden functions -/

/-- One overridden function: those that are not in the graph are left out. -/
def addOverridden (cg : CG) (visit : Node → Option (Finset String)) (overriddenSet : Finset String) (overridesFn : String) :
    Option (Finset String) :=
  match cg.find overridesFn with
  | none => some overriddenSet
  | some fnNode => (visit fnNode).map fun entries => insert overridesFn overriddenSet ∪ entries

/-- The recursion has no visited set; `none` when the fuel does not suffice. -/
def getAllOverriddenFunctions (cg : CG) : ℕ → Node → Option (Finset String)
  | 0, _ => none
  | fuel + 1, baseFn => baseFn.overrides.foldlM (addOverridden cg (getAllOverriddenFunctions cg fuel)) ∅

/-! ## The edge loop -/

/-- What one edge of the profile is compared with: copies of both nodes, and the functions that the callee overrides. -/
structure Compared where
  parent : Node
  node : Node
  overriddenFunctions : Finset String

namespace Compared
variable (callgraph : CG) (opts : Options) (parentName nodeName : String) (c : Compared)

def overriddenFunctionParentFound : Bool :=
  decide (∃ overriddenFunctionName ∈ c.overriddenFunctions,
    parentName ∈ ((callgraph.find overriddenFunctionName).map Node.parents).getD ∅)

def overriddenFunctionCalleeFound : Bool :=
  decide (∃ overriddenFunctionName ∈ c.overriddenFunctions, overriddenFunctionName ∈ c.parent.callees)

-- A node without the flag counts as one with a body.
def calleeFound : Bool :=
  decide (nodeName ∈ c.parent.callees) || (opts.useNoBodyDetection && !c.parent.hasBody.getD true)

def parentFound : Bool :=
  decide (parentName ∈ c.node.parents) || (opts.useNoBodyDetection && !c.node.hasBody.getD true)

def missesParent : Bool := !c.parentFound opts parentName && !c.overriddenFunctionParentFound callgraph parentName

def missesCallee : Bool := !c.calleeFound opts nodeName && !c.overriddenFunctionCalleeFound

end Compared

/-- The report on a missing parent and its patch. -/
def reportParent (cnodes : List Cnode) (opts : Options) (st : State) (parentName nodeName : String) (missing : Bool) :
    Except Stop State :=
  if missing then
    let st := { st with verified := false, reports := st.reports ++ [.parent nodeName parentName] }
    if opts.patch then patchCallgraph cnodes st nodeName parentName .parents opts.insertNewNodes opts.version else .ok st
  else .ok st

/-- The report on a missing callee and its patch, which `useCubeCallCounts` asks for in any case. -/
def reportCallee (cnodes : List Cnode) (opts : Options) (st : State) (parentName nodeName : String) (missing : Bool) :
    Except Stop State :=
  if missing || opts.useCubeCallCounts then
    let st := { st with
      verified := false
      reports := if missing then st.reports ++ [.callee parentName nodeName] else st.reports }
    if opts.patch then patchCallgraph cnodes st parentName nodeName .callees opts.insertNewNodes opts.version else .ok st
  else .ok st

/-- Both reports; what they say is found out before the graph is patched. -/
def reportEdge (cnodes : List Cnode) (opts : Options) (st : State) (parentName nodeName : String) (c : Compared) :
    Except Stop State := do
  let patchedParent ← reportParent cnodes opts st parentName nodeName (c.missesParent st.callgraph opts parentName)
  reportCallee cnodes opts patchedParent parentName nodeName (c.missesCallee opts nodeName)

/-- One edge of the profile. -/
def checkEdge (fuel : ℕ) (cnodes : List Cnode) (opts : Options) (st : State) (parentName nodeName : String) :
    Except Stop State :=
  let st := { st with edgesChecked := insert (parentName, nodeName) st.edgesChecked }
  let st := (getOrInsert st parentName opts.insertNewNodes opts.version).2
  match st.callgraph.find parentName with
  | none => .ok st
  | some parent =>
    let st := (getOrInsert st nodeName opts.insertNewNodes opts.version).2
    match st.callgraph.find nodeName with
    | none => .ok st
    | some node =>
      match getAllOverriddenFunctions st.callgraph fuel node with
      | none => .error .recursion
      | some overriddenFunctions => reportEdge cnodes opts st parentName nodeName ⟨parent, node, overriddenFunctions⟩

/-- One round of the loop over the call path nodes. -/
def checkCnode (fuel : ℕ) (cnodes : List Cnode) (opts : Options) (st : State) (cnode : Cnode) : Except Stop State :=
  match cnode.parent with
  | none => .ok st
  | some parentName => if isMain cnode.callee then .ok st else checkEdge fuel cnodes opts st parentName cnode.callee

/-- The edge loop of `main`. -/
def checkEdges (fuel : ℕ) (cnodes : List Cnode) (opts : Options) (callgraph : CG) : Except Stop State :=
  cnodes.foldlM (checkCnode fuel cnodes opts) (.initial callgraph)

/-- With `useCubeCallCounts` the calls that the profile does not have get the count zero. -/
def zeroCalls (st : State) : CG :=
  st.callgraph.mapValues fun nodeName n =>
    { n with calls := n.calls.map fun calledFunctions => calledFunctions.mapValues fun calledFunctionName counts =>
        if (nodeName, calledFunctionName) ∈ st.edgesChecked then counts else {((0 : CallCount), "")} }

/-- The graph that is written when the loop returns with something to patch. -/
def patched (opts : Options) (st : State) : CG := if opts.useCubeCallCounts then zeroCalls st else st.callgraph

end MetaCG.CGValidate
