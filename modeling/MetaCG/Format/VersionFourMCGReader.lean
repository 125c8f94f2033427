import MetaCG.Format.MetaDataJson

/-! The reader of format version 4 (`VersionFourMCGReader.cpp`, `Util.h`).

The reader throws on a malformed file and logs what it skips; log output and the callback for
metadata that could not be created are not modelled. -/
namespace MetaCG
open Foundations
set_option autoImplicit false
set_option maxHeartbeats 250000
set_option maxRecDepth 120000

/-! ## The version of the generator -/

/-- The positions after the dots that `string_split` finds from position `start` on; it goes on two
positions after a dot. -/
def dotPositions : List Char → ℕ → ℕ → List ℕ
  | [], _, _ => []
  | c :: cs, i, start =>
    if start ≤ i ∧ c = '.' then (i + 1) :: dotPositions cs (i + 1) (i + 2) else dotPositions cs (i + 1) start

/-- `getMajorVersionFromString` and `getMinorVersionFromString`, as far as they fail. -/
def checkVersionStr (versionStr : String) : Except Exn Unit :=
  let positions := 0 :: dotPositions versionStr.toList 0 1
  if versionStr.toList.count '.' < 1 then .error .exit
  else if positions.length > 5000 then .error .exit
  else if positions.length < 2 then .error .outOfRange
  else .ok ()

/-! ## Nodes -/

structure TempNodeData where
  nodeId : ℕ
  jEdges : Json
  jMeta : Json

structure ReadState where
  cg : Callgraph
  strToNode : StrToNode
  tempNodeData : List TempNodeData

/-- `registerNode` -/
def registerNode (strToNode : StrToNode) (nodeStr : String) (id : ℕ) : Option StrToNode :=
  match strToNode.lookup nodeStr with
  | some _ => none
  | none => some (strToNode.insert nodeStr id)

def readOrigin (j : Json) : Except Exn (Option String) := do
  let origin ← j.at_ "origin"
  if !origin.is_null && !origin.empty then return some (← origin.getStr) else return none

/-- `createNodeFromJson`; `none` for the null pointer. -/
def createNodeFromJson (cg : Callgraph) (nodeStr : String) (j : Json) (strToNode : StrToNode) :
    Except Exn (Option (Callgraph × ℕ × StrToNode)) := do
  if j.is_null then return none
  if !j.contains "origin" then return none
  let origin ← readOrigin j
  if !j.contains "functionName" then return none
  let functionName ← (← j.at_ "functionName").getStr
  let (cg, id) ← cg.insert functionName origin false false
  if !j.contains "hasBody" then return none
  let hasBody ← (← j.at_ "hasBody").getBool
  let cg := cg.updateNode id fun n => { n with hasBody }
  if !j.contains "meta" then return none
  let jMeta ← j.at_ "meta"
  if !jMeta.is_null && !jMeta.is_object then return none
  match registerNode strToNode nodeStr id with
  | some strToNode => return some (cg, id, strToNode)
  | none => return none

/-- One round of the loop over the nodes. -/
def readNode (st : ReadState) (field : String × Json) : Except Exn ReadState := do
  match ← createNodeFromJson st.cg field.1 field.2 st.strToNode with
  | none => throw (.runtimeError "Error while reading nodes")
  | some (cg, id, strToNode) => do
    let jEdges ← field.2.subscriptMut "callees"
    let jMeta ← field.2.subscriptMut "meta"
    return { cg, strToNode, tempNodeData := st.tempNodeData ++ [⟨id, jEdges, jMeta⟩] }

/-! ## Edges and metadata -/

/-- The metadata of an edge. The created object is a `std::unique_ptr<MetaData>`, so the key of the
base class is the one it is stored under. -/
def readEdgeMeta (strToNode : StrToNode) (ids : ℕ × ℕ) (cg : Callgraph) (mdElem : String × Json) :
    Except Exn Callgraph := do
  match ← MetaData.create mdElem.1 mdElem.2 strToNode with
  | some md => return (cg.addEdgeMetaData MetaData.baseKey ids md).2
  | none => return cg

def readEdge (strToNode : StrToNode) (nodeId : ℕ) (cg : Callgraph) (field : String × Json) :
    Except Exn Callgraph := do
  match strToNode.lookup field.1 with
  | none => throw (.runtimeError "Error while reading edges")
  | some calleeId => do
    let (_, cg) ← cg.addEdge nodeId calleeId
    if field.2.is_null then return cg
    field.2.items.foldlM (readEdgeMeta strToNode (nodeId, calleeId)) cg

def readMeta (strToNode : StrToNode) (fields : NamedMetadata) (mdElem : String × Json) :
    Except Exn NamedMetadata := do
  match ← MetaData.create mdElem.1 mdElem.2 strToNode with
  | some md => return addMetaData fields md
  | none => return fields

/-- The edges and the metadata of one node. -/
def readNodeData (strToNode : StrToNode) (cg : Callgraph) (nodeData : TempNodeData) : Except Exn Callgraph := do
  match ← cg.getNode nodeData.nodeId with
  | none => throw (.assertion "Node must not be null")
  | some _ => do
    let cg ← (← nodeData.jEdges.iterator).foldlM (readEdge strToNode nodeData.nodeId) cg
    match ← cg.getNode nodeData.nodeId with
    | none => throw .nullDereference
    | some node => do
      let metaFields ← (← nodeData.jMeta.iterator).foldlM (readMeta strToNode) node.metaFields
      return cg.updateNode nodeData.nodeId fun n => { n with metaFields }

/-! ## The file -/

/-- The header: a version that starts with 4, and a generator. -/
def readHeader (j : Json) : Except Exn Unit := do
  let mcgInfo ← j.subscriptMut "_MetaCG"
  if mcgInfo.is_null then throw (.runtimeError "Could not read version info from metacg file")
  let mcgVersion ← (← mcgInfo.subscriptMut "version").getStr
  let generator ← mcgInfo.subscriptMut "generator"
  let _ ← (← generator.subscriptMut "name").getStr
  let generatorVersion ← (← generator.subscriptMut "version").getStr
  checkVersionStr generatorVersion
  match mcgVersion.toList with
  | [] => throw .outOfRange
  | c :: _ => if c ≠ '4' then throw (.runtimeError "Trying to read incompatible file with V4 MCGReader")

def read (j : Json) : Except Exn Callgraph := do
  readHeader j
  let jsonCG ← j.subscriptMut "_CG"
  if jsonCG.is_null then throw (.runtimeError "CG in MetaCG file was null.")
  let jNodes ← jsonCG.subscriptMut "nodes"
  if jNodes.is_null then throw (.runtimeError "Nodes entry in MetaCG file was null.")
  let st ← (← jNodes.iterator).foldlM readNode ⟨Callgraph.empty, ∅, []⟩
  let cg ← st.tempNodeData.foldlM (readNodeData st.strToNode) st.cg
  let jGlobalMeta ← jsonCG.subscriptMut "meta"
  let metaFields ← jGlobalMeta.items.foldlM (readMeta st.strToNode) cg.metaFields
  return { cg with metaFields }

end MetaCG
