import MetaCG.Foundations.Outcome
import MetaCG.Graph.MetaData

/-! The call graph and its operations (`Callgraph.h`, `Callgraph.cpp`, `CgNode.h`).

A `CgNode*` into a graph is the index of the slot that owns the node; a `CgNode&` handed in from
outside is a `NodeRef`, which also names the graph that owns the node, so that the address
comparison of `hasNode(const CgNode&)` can be expressed. Log output is not modelled. -/
namespace MetaCG
open Foundations
set_option autoImplicit false
set_option maxHeartbeats 250000
set_option maxRecDepth 120000

abbrev NamedMetadata := UMap String MetaData

/-- `MetadataMixin::addMetaData(std::unique_ptr<MetaData>)`. -/
def addMetaData (fields : NamedMetadata) (md : MetaData) : NamedMetadata := fields.insert md.getKey md

structure CgNode where
  id : ℕ
  functionName : String
  origin : Option String
  hasBody : Bool
  metaFields : NamedMetadata

/-- The constructor of `CgNode`: a virtual function gets an empty `OverrideMD`. -/
def CgNode.create (id : ℕ) (function : String) (origin : Option String)
    (isVirtual hasBody : Bool) : CgNode where
  id := id
  functionName := function
  origin := origin
  hasBody := hasBody
  metaFields := if isVirtual then addMetaData ∅ (.override ⟨[], []⟩) else ∅

structure NodeRef where
  graph : ℕ
  id : ℕ
deriving DecidableEq, Repr

structure Callgraph where
  nodes : List (Option CgNode)
  nameIdMap : UMap String (List ℕ)
  edges : UMap (ℕ × ℕ) NamedMetadata
  callerList : UMap ℕ (List ℕ)
  calleeList : UMap ℕ (List ℕ)
  mainNode : Option ℕ
  hasDuplicates : Bool
  numErased : ℕ
  metaFields : NamedMetadata

namespace Callgraph

def empty : Callgraph where
  nodes := []
  nameIdMap := ∅
  edges := ∅
  callerList := ∅
  calleeList := ∅
  mainNode := none
  hasDuplicates := false
  numErased := 0
  metaFields := ∅

/-! ## Look-ups -/

/-- The node owned by slot `i`; `none` for an erased slot and beyond the last slot. -/
def slot (g : Callgraph) (i : ℕ) : Option CgNode := (g.nodes[i]?).join

def size (g : Callgraph) : ℕ := g.nodes.length

def getNodeCount (g : Callgraph) : ℕ := g.nodes.length - g.numErased

def hasNode (g : Callgraph) (id : ℕ) : Bool := (g.slot id).isSome

def hasNodeRef (self : ℕ) (g : Callgraph) (node : NodeRef) : Bool :=
  g.hasNode node.id && decide (node.graph = self)

-- The comparison is `id > nodes.size()`, so the id equal to the size reaches `nodes.at`.
def getNode (g : Callgraph) (id : ℕ) : Except Exn (Option CgNode) :=
  if id > g.nodes.length then .ok none
  else match g.nodes[id]? with
    | some ptr => .ok ptr
    | none => .error .outOfRange

/-- `getNodes(name)` -/
def getNodesNamed (g : Callgraph) (name : String) : List ℕ := UMap.getD g.nameIdMap name []

def getFirstNode (g : Callgraph) (name : String) : Except Exn (Option CgNode) :=
  match g.getNodesNamed name with
  | [] => .ok none
  | id :: _ => g.getNode id

def existsEdge (g : Callgraph) (source target : ℕ) : Bool := decide ((source, target) ∈ g.edges)

def existsEdgeRef (self : ℕ) (g : Callgraph) (source target : NodeRef) : Bool :=
  hasNodeRef self g source && hasNodeRef self g target && g.existsEdge source.id target.id

def callees (g : Callgraph) (id : ℕ) : List ℕ := UMap.getD g.calleeList id []

def callers (g : Callgraph) (id : ℕ) : List ℕ := UMap.getD g.callerList id []

/-- The metadata of an edge; empty when there is no such edge. -/
def edgeMeta (g : Callgraph) (ids : ℕ × ℕ) : NamedMetadata := UMap.getD g.edges ids ∅

def getEdgeMetaData (g : Callgraph) (ids : ℕ × ℕ) (metadataName : String) : Option MetaData :=
  (g.edgeMeta ids).lookup metadataName

/-- `get<EntryFunctionMD>()->getEntryFunctionId()`; `none` without metadata or without an id. -/
def entryFunctionId (g : Callgraph) : Option ℕ :=
  match g.metaFields.lookup "entryFunction" with
  | some (.entryFunction md) => md.entryFunction
  | _ => none

/-! ## Nodes -/

/-- The body of `insert` after its assertion. -/
def insertNode (g : Callgraph) (function : String) (origin : Option String)
    (isVirtual hasBody : Bool) : Callgraph :=
  let id := g.nodes.length
  let nodesWithName := g.getNodesNamed function
  { g with
    nodes := g.nodes ++ [some (CgNode.create id function origin isVirtual hasBody)]
    hasDuplicates := g.hasDuplicates || !nodesWithName.isEmpty
    nameIdMap := g.nameIdMap.insert function (nodesWithName ++ [id]) }

/-- Returns the graph and the id of the new node. -/
def insert (g : Callgraph) (function : String) (origin : Option String)
    (isVirtual hasBody : Bool) : Except Exn (Callgraph × ℕ) :=
  if function = "" then .error (.assertion "Function name must not be empty")
  else .ok (g.insertNode function origin isVirtual hasBody, g.nodes.length)

def getOrInsertNode (g : Callgraph) (function : String) (origin : Option String)
    (isVirtual hasBody : Bool) : Except Exn (Callgraph × ℕ) := do
  match ← g.getFirstNode function with
  | some node => return (g, node.id)
  | none => g.insert function origin isVirtual hasBody

/-- Change the node in slot `id` in place. -/
def updateNode (g : Callgraph) (id : ℕ) (f : CgNode → CgNode) : Callgraph :=
  { g with nodes := g.nodes.modify id (Option.map f) }

/-! ## Edges -/

def addEdgeInternal (g : Callgraph) (caller callee : ℕ) : Bool × Callgraph :=
  if (caller, callee) ∈ g.edges then (false, g)
  else (true, { g with
    calleeList := g.calleeList.insert caller (g.callees caller ++ [callee])
    callerList := g.callerList.insert callee (g.callers callee ++ [caller])
    edges := g.edges.insert (caller, callee) ∅ })

def addEdgeRef (self : ℕ) (g : Callgraph) (parentNode childNode : NodeRef) : Bool × Callgraph :=
  if !hasNodeRef self g parentNode || !hasNodeRef self g childNode then (false, g)
  else g.addEdgeInternal parentNode.id childNode.id

def addEdge (g : Callgraph) (parentID childID : ℕ) : Except Exn (Bool × Callgraph) := do
  match ← g.getNode parentID with
  | none => return (false, g)
  | some _ =>
    match ← g.getNode childID with
    | none => return (false, g)
    | some _ => return g.addEdgeInternal parentID childID

def addEdgeNamed (g : Callgraph) (callerName calleeName : String) : Except Exn (Bool × Callgraph) :=
  match g.getNodesNamed callerName, g.getNodesNamed calleeName with
  | [caller], [callee] => g.addEdge caller callee
  | _, _ => .ok (false, g)

/-- `list.erase(std::find(list.begin(), list.end(), id))` -/
def eraseFound (id : ℕ) (list : List ℕ) : Except Exn (List ℕ) :=
  if id ∈ list then .ok (list.erase id) else .error .undefined

def removeEdge (g : Callgraph) (parentID childID : ℕ) : Except Exn (Bool × Callgraph) :=
  if (parentID, childID) ∈ g.edges then do
    let parentCallees ← eraseFound childID (g.callees parentID)
    let childCallers ← eraseFound parentID (g.callers childID)
    return (true, { g with
      edges := g.edges.erase (parentID, childID)
      calleeList := g.calleeList.insert parentID parentCallees
      callerList := g.callerList.insert childID childCallers })
  else return (false, g)

-- The guard joins the two checks with `&&`: one node of this graph is enough to pass it.
def removeEdgeRef (self : ℕ) (g : Callgraph) (parentNode childNode : NodeRef) :
    Except Exn (Bool × Callgraph) :=
  if !hasNodeRef self g parentNode && !hasNodeRef self g childNode then .ok (false, g)
  else g.removeEdge parentNode.id childNode.id

def removeEdgeNamed (g : Callgraph) (callerName calleeName : String) : Except Exn (Bool × Callgraph) :=
  match g.getNodesNamed callerName, g.getNodesNamed calleeName with
  | [caller], [callee] => g.removeEdge caller callee
  | _, _ => .ok (false, g)

/-- `addEdgeMetaData<T>(ids, md)`; `key` is the `T::key` of the static type `T` at the call. -/
def addEdgeMetaData (g : Callgraph) (key : String) (ids : ℕ × ℕ) (md : MetaData) :
    Bool × Callgraph :=
  match g.edges.lookup ids with
  | some fields => (true, { g with edges := g.edges.insert ids (fields.insert key md) })
  | none => (false, g)

/-! ## Erasing and clearing -/

abbrev EdgeMap := UMap (ℕ × ℕ) NamedMetadata
abbrev NeighbourLists := UMap ℕ (List ℕ)

/-- One round of either edge loop of `erase`: drop the edge `edge neighbour` and the entry `id` in
the neighbour's list. -/
def dropNeighbour (id : ℕ) (edge : ℕ → ℕ × ℕ) (st : EdgeMap × NeighbourLists)
    (neighbour : ℕ) : Except Exn (EdgeMap × NeighbourLists) :=
  match st.2.lookup neighbour with
  | none => .error .outOfRange
  | some list => do
    let rest ← eraseFound id list
    return (st.1.erase (edge neighbour), st.2.insert neighbour rest)

-- The second loop reads the caller list after the first has taken a self edge out of it.
def eraseEdges (g : Callgraph) (id : ℕ) : Except Exn Callgraph := do
  let (edges, callerList) ← (g.callees id).foldlM (dropNeighbour id fun calleeId => (id, calleeId))
    (g.edges, g.callerList)
  let calleeList := g.calleeList.erase id
  let (edges, calleeList) ← (UMap.getD callerList id []).foldlM
    (dropNeighbour id fun callerId => (callerId, id)) (edges, calleeList)
  return { g with edges, calleeList, callerList := callerList.erase id }

/-- The cached main node is forgotten together with entry metadata that names the erased node. -/
def eraseMain (g : Callgraph) (id : ℕ) : Callgraph :=
  if g.mainNode = some id then
    { g with
      mainNode := none
      metaFields := if g.entryFunctionId = some id then g.metaFields.erase "entryFunction" else g.metaFields }
  else g

def erase (g : Callgraph) (id : ℕ) : Except Exn (Bool × Callgraph) :=
  match g.slot id with
  | none => .ok (false, g)
  | some node => do
    let g ← g.eraseEdges id
    let g := g.eraseMain id
    let ids ← eraseFound id (g.getNodesNamed node.functionName)
    return (true, { g with
      nameIdMap := g.nameIdMap.insert node.functionName ids
      nodes := g.nodes.set id none
      numErased := g.numErased + 1 })

-- The metadata of the graph itself is not cleared.
def clear (g : Callgraph) : Callgraph :=
  { g with
    nodes := []
    nameIdMap := ∅
    edges := ∅
    callerList := ∅
    calleeList := ∅
    mainNode := none
    numErased := 0
    hasDuplicates := false }

/-! ## The main function -/

def mainNames : List String := ["main", "_Z4main", "_ZSt4mainiPPc", "_QQmain"]

/-- The first of `names` that has a node decides. -/
def findMain (g : Callgraph) : List String → Except Exn (Option ℕ)
  | [] => .ok none
  | name :: names => do
    match ← g.getFirstNode name with
    | some node => return some node.id
    | none => g.findMain names

/-- `getMain(forceRecompute)`; the returned pointer is the cached `mainNode` of the result. -/
def getMain (g : Callgraph) (forceRecompute : Bool) : Except (Exn × Callgraph) Callgraph :=
  let g := if forceRecompute then { g with mainNode := none } else g
  if g.mainNode.isSome then .ok g
  else
    let byName := Outcome.guard g (g.findMain mainNames) fun node => .ok { g with mainNode := node }
    match g.entryFunctionId with
    | none => byName
    | some id => Outcome.guard g (g.getNode id) fun
      | some _ => .ok { g with mainNode := some id }
      | none => byName

end Callgraph
end MetaCG
