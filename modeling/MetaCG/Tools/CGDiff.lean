import MetaCG.Format.VersionFourMCGWriter
import MetaCG.Format.DotIO

/-! The comparison of two call graphs (`CGDiff.cpp`, `NodeSummary.h`, `NodeDiff.h`, `NameMapping.h`).

The two functions of `nlohmann::json` that are not modelled, `dump` and the sorting of an array, are
parameters. The elements of an `std::unordered_set` of strings are a list without duplicates, and the
walks over hash sets take their order from a `HashOrder`. -/
namespace MetaCG.CGDiff
open Foundations Dot
set_option autoImplicit false
set_option maxHeartbeats 250000
set_option maxRecDepth 120000

abbrev StringSet := List String

/-- `operator==` of two sets. -/
def StringSet.same (a b : StringSet) : Bool := a.all (b.contains ·) && b.all (a.contains ·)

structure NodeSummary where
  name : String
  hasBody : Bool
  callees : StringSet
  metadata : StringSet
  edgeMetadata : UMap String StringSet

/-- The flags that `hasFlag` reads. -/
structure ComparisonMode where
  ignoreEdges : Bool
  ignoreBody : Bool
  ignoreMetadata : Bool
  ignoreEdgeMetadata : Bool
  ignoreGlobalMetadata : Bool

/-- `operator==` of two maps of sets. -/
def sameEdgeMetadata (a b : UMap String StringSet) : Bool :=
  decide (a.keys.length = b.keys.length) && (UMap.toPairs a).all fun e =>
    match b.lookup e.1 with
    | some set => StringSet.same e.2 set
    | none => false

/-- `NodeSummaryComparator::operator()` -/
def sameSummary (mode : ComparisonMode) (a b : NodeSummary) : Bool :=
  decide (a.name = b.name) && (mode.ignoreBody || a.hasBody == b.hasBody) &&
    (mode.ignoreEdges || a.callees.same b.callees) && (mode.ignoreMetadata || a.metadata.same b.metadata) &&
    (mode.ignoreEdgeMetadata || mode.ignoreEdges || sameEdgeMetadata a.edgeMetadata b.edgeMetadata)

structure EdgeDiff where
  callee : String
  onlyInA : Bool
  onlyInB : Bool
  metadataOnlyInA : StringSet
  metadataOnlyInB : StringSet

structure NodeDiff where
  name : String
  diffType : List String
  inGraph : String
  edgeDiffs : List EdgeDiff
  metadataOnlyInA : StringSet
  metadataOnlyInB : StringSet

structure GlobalMDDiff where
  key : String
  aValue : String
  bValue : String

inductive Diff where
  | node (d : NodeDiff)
  | globalMD (d : GlobalMDDiff)

/-! ## The difference of two nodes -/

/-- The elements of `a` that `b` does not have. -/
def without (a b : StringSet) : StringSet := a.filter fun md => !b.contains md

def edgeDiff (nsA nsB : NodeSummary) (edgeMetadataDifferent : Bool) (callee : String) : EdgeDiff :=
  let metadata := if edgeMetadataDifferent then
    match nsA.edgeMetadata.lookup callee, nsB.edgeMetadata.lookup callee with
    | some itA, some itB => (without itA itB, without itB itA)
    | some itA, none => (itA, [])
    | none, some itB => ([], itB)
    | none, none => ([], [])
    else ([], [])
  { callee := callee
    onlyInA := !nsB.callees.contains callee
    onlyInB := !nsA.callees.contains callee
    metadataOnlyInA := metadata.1
    metadataOnlyInB := metadata.2 }

def EdgeDiff.metadataDiffers (ed : EdgeDiff) : Bool := !ed.metadataOnlyInA.isEmpty || !ed.metadataOnlyInB.isEmpty

def createNodeDiff (order : HashOrder) (mode : ComparisonMode) (nsA nsB : NodeSummary) : NodeDiff :=
  let body := if !mode.ignoreBody && nsA.hasBody != nsB.hasBody then ["differentBody"] else []
  let edgeDiffs := if mode.ignoreEdges then [] else
    let edgeMetadataDifferent := !mode.ignoreEdgeMetadata && !sameEdgeMetadata nsA.edgeMetadata nsB.edgeMetadata
    ((order.names (nsA.callees ++ nsB.callees)).map (edgeDiff nsA nsB edgeMetadataDifferent)).filter fun ed =>
      ed.onlyInA || ed.onlyInB || ed.metadataDiffers
  let edges := if edgeDiffs.any fun ed => ed.onlyInA || ed.onlyInB then ["differentEdges"] else []
  let edgeMetadata := if edgeDiffs.any EdgeDiff.metadataDiffers && !mode.ignoreEdgeMetadata then ["differentEdgeMetadata"] else []
  let metadataDiffers := !mode.ignoreMetadata && !nsA.metadata.same nsB.metadata
  { name := nsA.name
    diffType := body ++ edges ++ edgeMetadata ++ if metadataDiffers then ["differentMetadata"] else []
    inGraph := ""
    edgeDiffs := edgeDiffs
    metadataOnlyInA := if metadataDiffers then without nsA.metadata nsB.metadata else []
    metadataOnlyInB := if metadataDiffers then without nsB.metadata nsA.metadata else [] }

def missingNode (ns : NodeSummary) (inGraph : String) : NodeDiff :=
  { name := ns.name
    diffType := ["missingNode"]
    inGraph := inGraph
    edgeDiffs := []
    metadataOnlyInA := []
    metadataOnlyInB := [] }

/-! ## Summaries of the nodes -/

-- Beyond the last slot `getNode` returns a null pointer that belongs to no slot.
/-- `NameMapping::getStrFromNode` -/
def getStrFromNode (graph : Callgraph) (id : ℕ) : Except Exn String :=
  if id > graph.nodes.length then .error .undefined
  else match graph.nodes[id]? with
    | some (some node) => .ok node.functionName
    | some none => .error .nullDereference
    | none => .error .outOfRange

def calleeName (callee : Option CgNode) : Except Exn String :=
  match callee with
  | some node => .ok node.functionName
  | none => .error .nullDereference

section
variable (dump : Json → String) (sortJson : List Json → List Json) (ignoredMdKeys : List String)

/-- `key + ":" + value`, added unless the key is ignored. -/
def addMetadata (set : StringSet) (key value : String) : StringSet :=
  if key ∈ ignoredMdKeys then set else set.insert (key ++ ":" ++ value)

/-- The arrays in the fields of an object are sorted. -/
def sortArrays : Json → Json
  | .obj fields => .obj (fields.map fun e => (e.1, match e.2 with
    | .arr elems => .arr (sortJson elems)
    | j => j))
  | j => j

def collectEdgeMetaData (mcg : Callgraph) (id : ℕ) (edgeMetaData : UMap String StringSet) (callee : Option CgNode) :
    Except Exn (UMap String StringSet) :=
  match callee with
  | none => .error .nullDereference
  | some callee => do
    let fields ← mcg.getAllEdgeMetaData (id, callee.id)
    let emd ← (UMap.toPairs fields).foldlM (fun emd metadata => do
      let value ← metadata.2.toJson (getStrFromNode mcg)
      return addMetadata ignoredMdKeys emd metadata.1 (dump value)) []
    return if callee.functionName ∈ edgeMetaData then edgeMetaData else edgeMetaData.insert callee.functionName emd

def collectAllEdgeMetaData (mode : ComparisonMode) (mcg : Callgraph) (id : ℕ) (callees : List (Option CgNode)) :
    Except Exn (UMap String StringSet) :=
  if mode.ignoreEdgeMetadata then .ok ∅ else callees.foldlM (collectEdgeMetaData dump ignoredMdKeys mcg id) ∅

def collectNodeMetaData (mode : ComparisonMode) (mcg : Callgraph) (fields : NamedMetadata) : Except Exn StringSet :=
  if mode.ignoreMetadata then .ok []
  else (UMap.toPairs fields).foldlM (fun set metadata => do
    let json ← metadata.2.toJson (getStrFromNode mcg)
    return addMetadata ignoredMdKeys set metadata.1 (dump (sortArrays sortJson json))) []

/-- One round of `collectNodeSummaries`: of several nodes of one name the first is kept. -/
def collectNode (order : HashOrder) (mode : ComparisonMode) (mcg : Callgraph) (nodes : UMap String NodeSummary)
    (ptr : Option CgNode) : Except Exn (UMap String NodeSummary) :=
  match ptr with
  | none => .error .nullDereference
  | some node => do
    let callees ← getNeighbours mcg (order.neighbours (mcg.callees node.id))
    let names ← callees.mapM calleeName
    let edgeMetaData ← collectAllEdgeMetaData dump ignoredMdKeys mode mcg node.id callees
    let nodeMetadata ← collectNodeMetaData dump sortJson ignoredMdKeys mode mcg node.metaFields
    return if node.functionName ∈ nodes then nodes
      else nodes.insert node.functionName ⟨node.functionName, node.hasBody, names.dedup, nodeMetadata, edgeMetaData⟩

def collectNodeSummaries (order : HashOrder) (mode : ComparisonMode) (mcg : Callgraph) :
    Except Exn (UMap String NodeSummary) :=
  mcg.nodes.foldlM (collectNode dump sortJson ignoredMdKeys order mode mcg) ∅

/-! ## The comparison -/

-- The first comparison of two values resolves the ids of the first graph in the second.
def compareGlobalA (mcgA mcgB : Callgraph) (diffs : List Diff) (md : String × MetaData) : Except Exn (List Diff) :=
  if md.1 ∈ ignoredMdKeys then .ok diffs
  else match mcgB.metaFields.lookup md.1 with
    | none => do
      let mdA ← md.2.toJson (getStrFromNode mcgA)
      return diffs ++ [.globalMD ⟨md.1, dump mdA, ""⟩]
    | some mdB => do
      let valueA ← md.2.toJson (getStrFromNode mcgB)
      let valueB ← mdB.toJson (getStrFromNode mcgB)
      if dump valueA ≠ dump valueB then do
        let aValue ← md.2.toJson (getStrFromNode mcgA)
        let bValue ← mdB.toJson (getStrFromNode mcgB)
        return diffs ++ [.globalMD ⟨md.1, dump aValue, dump bValue⟩]
      else return diffs

def compareGlobalB (mcgA : Callgraph) (diffs : List Diff) (md : String × MetaData) : Except Exn (List Diff) :=
  if md.1 ∈ ignoredMdKeys then .ok diffs
  else match mcgA.metaFields.lookup md.1 with
    | none => do
      let mdB ← md.2.toJson (getStrFromNode mcgA)
      return diffs ++ [.globalMD ⟨md.1, "", dump mdB⟩]
    | some _ => .ok diffs

def compareGlobals (mode : ComparisonMode) (mcgA mcgB : Callgraph) : Except Exn (List Diff) :=
  if mode.ignoreGlobalMetadata then .ok []
  else do
    let diffs ← (UMap.toPairs mcgA.metaFields).foldlM (compareGlobalA dump ignoredMdKeys mcgA mcgB) []
    (UMap.toPairs mcgB.metaFields).foldlM (compareGlobalB dump ignoredMdKeys mcgA) diffs

/-- One round of the loop over `nodesA`; what is left in `nodesB` has no partner. -/
def compareNode (order : HashOrder) (mode : ComparisonMode) (st : List Diff × UMap String NodeSummary) (nA : NodeSummary) :
    List Diff × UMap String NodeSummary :=
  match st.2.lookup nA.name with
  | none => (st.1 ++ [.node (missingNode nA "cgA")], st.2)
  | some nB =>
    if sameSummary mode nB nA then (st.1, st.2.erase nA.name)
    else (st.1 ++ [.node (createNodeDiff order mode nA nB)], st.2.erase nA.name)

/-- The summaries of a set in the order of the walk. -/
def summaries (order : HashOrder) (nodes : UMap String NodeSummary) : List NodeSummary :=
  (order.names nodes.keys).filterMap nodes.lookup

def compare (order : HashOrder) (mode : ComparisonMode) (mcgA mcgB : Callgraph) : Except Exn (List Diff) := do
  let nodesA ← collectNodeSummaries dump sortJson ignoredMdKeys order mode mcgA
  let nodesB ← collectNodeSummaries dump sortJson ignoredMdKeys order mode mcgB
  let diffs ← compareGlobals dump ignoredMdKeys mode mcgA mcgB
  let (diffs, rest) := (summaries order nodesA).foldl (compareNode order mode) (diffs, nodesB)
  return diffs ++ (summaries order rest).map fun nB => .node (missingNode nB "cgB")

end
end MetaCG.CGDiff
