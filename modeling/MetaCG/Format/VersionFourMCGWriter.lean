import MetaCG.Format.MetaDataJson

/-! The writer of format version 4 (`VersionFourMCGWriter.cpp`, `MCGWriter.h`, `MCGBaseInfo.h`).

`V4WriterMapping` caches the strings it makes from the graph, which does not change while it is
written, so the cache is left out. The index of a node among those of its name fits an `int`. Sorting
the export has no effect on the fields of `_CG`, which are objects, and is not modelled. -/
namespace MetaCG
open Foundations
set_option autoImplicit false
set_option maxHeartbeats 250000
set_option maxRecDepth 120000

/-! ## The header -/

structure MCGFileFormatVersion where
  versionMajor : Int32
  versionMinor : Int32

structure MCGGeneratorVersionInfo where
  name : String
  versionMajor : Int32
  versionMinor : Int32
  sha : String

structure MCGFileInfo where
  version : MCGFileFormatVersion
  generatorInfo : MCGGeneratorVersionInfo

/-- The file info of the fourth version, for a generator. -/
def MCGFileInfo.four (generatorInfo : MCGGeneratorVersionInfo) : MCGFileInfo := ⟨⟨4, 0⟩, generatorInfo⟩

/-- `std::to_string(versionMajor) + '.' + std::to_string(versionMinor)` -/
def getVersionStr (versionMajor versionMinor : Int32) : String :=
  toString versionMajor.toInt ++ "." ++ toString versionMinor.toInt

def attachMCGFormatHeader (fileInfo : MCGFileInfo) : Json :=
  .ofFields [
    ("_MetaCG", .ofFields [
      ("version", .str (getVersionStr fileInfo.version.versionMajor fileInfo.version.versionMinor)),
      ("generator", .ofFields [
        ("name", .str fileInfo.generatorInfo.name),
        ("version", .str (getVersionStr fileInfo.generatorInfo.versionMajor fileInfo.generatorInfo.versionMinor)),
        ("sha", .str fileInfo.generatorInfo.sha)])]),
    ("_CG", .null)]

namespace Callgraph

/-! ## The strings of the nodes -/

def convertToStr (cg : Callgraph) (useNameAsId : Bool) (node : CgNode) : String :=
  if useNameAsId then
    let allNodesWithName := cg.getNodesNamed node.functionName
    if allNodesWithName.length > 1 then node.functionName ++ ("#" ++ toString (allNodesWithName.idxOf node.id))
    else node.functionName
  else toString node.id

def getStrFromNode (cg : Callgraph) (useNameAsId : Bool) (id : ℕ) : Except Exn String := do
  match ← cg.getNode id with
  | some node => return cg.convertToStr useNameAsId node
  | none => throw (.assertion "ID must be valid")

/-! ## Nodes, edges and metadata -/

/-- Metadata whose value is empty or null is not attached. -/
def writeMeta (nodeToStr : ℕ → Except Exn String) (container : NamedMetadata) : Except Exn Json :=
  (UMap.toPairs container).foldlM (fun jMeta e => do
    let jMetaEntry ← e.2.toJson nodeToStr
    if !jMetaEntry.empty && !jMetaEntry.is_null then jMeta.assign e.1 jMetaEntry else return jMeta) (.obj [])

def writeNode (nodeToStr : ℕ → Except Exn String) (jNodes : Json) (node : Option CgNode) : Except Exn Json :=
  match node with
  | none => .ok jNodes
  | some node => do
    let jMeta ← writeMeta nodeToStr node.metaFields
    let jNode := .ofFields [
      ("functionName", .str node.functionName),
      ("origin", match node.origin with | some origin => .str origin | none => .null),
      ("hasBody", .bool node.hasBody),
      ("callees", .obj []),
      ("meta", jMeta)]
    let idStr ← nodeToStr node.id
    jNodes.assign idStr jNode

/-- `getAllEdgeMetaData` -/
def getAllEdgeMetaData (cg : Callgraph) (ids : ℕ × ℕ) : Except Exn NamedMetadata :=
  match cg.edges.lookup ids with
  | some fields => .ok fields
  | none => .error (.assertion "Edge does not exist")

def writeEdgeMeta (nodeToStr : ℕ → Except Exn String) (mdMap : NamedMetadata) : Except Exn Json :=
  (UMap.toPairs mdMap).foldlM (fun jEdgeMD e => do
    let val ← e.2.toJson nodeToStr
    jEdgeMD.assign e.1 val) (.obj [])

def writeEdge (cg : Callgraph) (nodeToStr : ℕ → Except Exn String) (jNodes : Json) (ids : ℕ × ℕ) :
    Except Exn Json := do
  match ← cg.getNode ids.1, ← cg.getNode ids.2 with
  | some caller, some callee => do
    let callerStr ← nodeToStr caller.id
    let calleeStr ← nodeToStr callee.id
    let mdMap ← cg.getAllEdgeMetaData (caller.id, callee.id)
    let jEdgeMD ← writeEdgeMeta nodeToStr mdMap
    let jNode ← jNodes.subscriptMut callerStr
    let jCallees ← jNode.subscriptMut "callees"
    let jCallees ← jCallees.assign calleeStr jEdgeMD
    let jNode ← jNode.assign "callees" jCallees
    jNodes.assign callerStr jNode
  | _, _ => throw (.assertion "Encountered invalid edge")

def write (fileInfo : MCGFileInfo) (useNamesAsIds : Bool) (cg : Callgraph) : Except Exn Json := do
  let j := attachMCGFormatHeader fileInfo
  let nodeToStr := cg.getStrFromNode useNamesAsIds
  let jNodes ← cg.nodes.foldlM (writeNode nodeToStr) (.obj [])
  let jNodes ← cg.edges.keys.foldlM (cg.writeEdge nodeToStr) jNodes
  let jCG ← Json.assign (.obj []) "nodes" jNodes
  let jMeta ← writeMeta nodeToStr cg.metaFields
  let jCG ← jCG.assign "meta" jMeta
  j.assign "_CG" jCG

end Callgraph
end MetaCG
