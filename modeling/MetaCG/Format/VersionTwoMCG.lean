import MetaCG.Format.VersionFourMCGReader
import MetaCG.Format.VersionFourMCGWriter

/-! The writer and the reader of format version 2 (`VersionTwoMCGWriter.cpp`, `VersionTwoMCGReader.cpp`).

Both go through version 4: the writer downgrades what the writer of version 4 writes, the reader
upgrades the file and hands it to the reader of version 4. -/
namespace MetaCG.VersionTwo
open Foundations
set_option autoImplicit false
set_option maxHeartbeats 250000
set_option maxRecDepth 120000

/-- `getVersionTwoFileInfo` -/
def fileInfo (generatorInfo : MCGGeneratorVersionInfo) : MCGFileInfo := ⟨⟨2, 0⟩, generatorInfo⟩

/-! ## Downgrading -/

/-- The origin of a function goes into its file properties, which are made for it if need be. -/
def downgradeOrigin (jMeta origin : Json) : Except Exn Json :=
  if jMeta.contains "fileProperties" then do
    let props ← jMeta.subscriptMut "fileProperties"
    let props ← props.assign "origin" (if origin.is_null then .str "" else origin)
    jMeta.assign "fileProperties" props
  else if origin.is_null then .ok jMeta
  else do
    let props ← Json.assign (.obj []) "origin" origin
    jMeta.assign "fileProperties" props

/-- The `overrideMD` entry becomes four fields of the node; the node and its metadata are returned. -/
def downgradeOverrides (jNode jMeta : Json) : Except Exn (Json × Json) := do
  let jNode ← jNode.assign "isVirtual" (.bool false)
  let jNode ← jNode.assign "doesOverride" (.bool false)
  let jNode ← jNode.assign "overrides" (.arr [])
  let jNode ← jNode.assign "overriddenBy" (.arr [])
  if jMeta.contains "overrideMD" then do
    let jNode ← jNode.assign "isVirtual" (.bool true)
    let jOverrideMD ← jMeta.subscriptMut "overrideMD"
    let overrides ← jOverrideMD.subscriptMut "overrides"
    let overriddenBy ← jOverrideMD.subscriptMut "overriddenBy"
    if overrides.empty then do
      let jNode ← jNode.assign "overriddenBy" overriddenBy
      return (jNode, ← jMeta.erase "overrideMD")
    else do
      let jNode ← jNode.assign "doesOverride" (.bool true)
      let jNode ← jNode.assign "overrides" overrides
      let jNode ← jNode.assign "overriddenBy" overriddenBy
      return (jNode, ← jMeta.erase "overrideMD")
  else return (jNode, jMeta)

/-- One round of the first loop of `downgradeV4FormatToV2Format`. -/
def downgradeNode (jNode : Json) : Except Exn Json := do
  let jNode ← jNode.erase "functionName"
  let jCallees ← jNode.subscriptMut "callees"
  let jCalleesV2 := Json.arr (jCallees.items.map fun jCallee => .str jCallee.1)
  let jNode ← jNode.erase "callees"
  let jNode ← jNode.assign "callers" (.arr [])
  let jNode ← jNode.assign "callees" jCalleesV2
  let jMeta ← downgradeOrigin (← jNode.subscriptMut "meta") (← jNode.subscriptMut "origin")
  let jNode ← jNode.erase "origin"
  let (jNode, jMeta) ← downgradeOverrides jNode jMeta
  jNode.assign "meta" (if jMeta.empty then .null else jMeta)

/-- `jNodes[callee]["callers"].push_back(caller)` -/
def addCaller (caller : String) (jNodes callee : Json) : Except Exn Json := do
  let calleeStr ← callee.getStr
  let jNode ← jNodes.subscriptMut calleeStr
  let jCallers ← (← jNode.subscriptMut "callers").push_back (.str caller)
  jNodes.assign calleeStr (← jNode.assign "callers" jCallers)

-- A node that `operator[]` creates has no callees, so only the nodes at the start are visited.
def addCallers (jNodes : Json) (caller : String) : Except Exn Json := do
  let jNode ← jNodes.subscriptMut caller
  let jCallees ← jNode.subscriptMut "callees"
  jCallees.values.foldlM (addCaller caller) jNodes

/-- `std::sort` of the callers, which are strings. -/
def sortCallersOf (jNode : Json) : Except Exn Json := do
  let callers ← (← jNode.subscriptMut "callers").getStrings
  jNode.assign "callers" (.arr ((callers.mergeSort fun a b => decide (a ≤ b)).map .str))

/-- A loop that rewrites the values of an object in place. -/
def rewriteValues (f : Json → Except Exn Json) (j : Json) : Except Exn Json :=
  j.items.foldlM (fun j it => do j.assign it.1 (← f it.2)) j

/-- The graph is what `j` holds under `nodes`. -/
def downgradeV4FormatToV2Format (sortCallers : Bool) (j : Json) : Except Exn Json := do
  let j ← j.erase "meta"
  let jNodes ← j.subscriptMut "nodes"
  let jNodes ← rewriteValues downgradeNode jNodes
  let jNodes ← (jNodes.items.map Prod.fst).foldlM addCallers jNodes
  if sortCallers then rewriteValues sortCallersOf jNodes else return jNodes

/-- `VersionTwoMCGWriter::write` -/
def write (info v4Info : MCGGeneratorVersionInfo) (exportSorted : Bool) (cg : Callgraph) : Except Exn Json := do
  let j := attachMCGFormatHeader (fileInfo info)
  let v4Json ← cg.write (.four v4Info) true
  let jsonCG ← v4Json.subscriptMut "_CG"
  let jsonCG ← downgradeV4FormatToV2Format exportSorted jsonCG
  j.assign "_CG" jsonCG

/-! ## Upgrading -/

/-- The origin and what is left of the metadata. -/
def upgradeOrigin (jMeta : Json) : Except Exn (Json × Json) :=
  if jMeta.contains "fileProperties" then do
    let props ← jMeta.at_ "fileProperties"
    let origin ← props.at_ "origin"
    if (← origin.getStr) ≠ "" then return (origin, ← jMeta.assign "fileProperties" (← props.erase "origin"))
    else return (.null, jMeta)
  else return (.null, jMeta)

def definesOverrideData (jNode : Json) : Except Exn Bool := do
  if !(← jNode.at_ "overrides").empty then return true
  else return !(← jNode.at_ "overriddenBy").empty

/-- `OverrideMD` is created if the function is virtual or defines override data. -/
def upgradeOverrides (jNode jMeta : Json) : Except Exn Json := do
  let defines ← definesOverrideData jNode
  if (← (← jNode.at_ "isVirtual").getBool) || defines then
    let jOverrides ← jNode.at_ "overrides"
    let jOverriddenBy ← jNode.at_ "overriddenBy"
    jMeta.assign "overrideMD" (.ofFields [("overrides", .arr jOverrides.values), ("overriddenBy", .arr jOverriddenBy.values)])
  else return jMeta

/-- One round of `upgradeV2FormatToV4Format`. -/
def upgradeNode (functionName : String) (jNode : Json) : Except Exn Json := do
  let jNode ← jNode.assign "functionName" (.str functionName)
  let jCallees ← jNode.subscriptMut "callees"
  let jNewCallees ← jCallees.values.foldlM (fun j jCallee => do j.assign (← jCallee.getStr) .null) (.obj [])
  let jNode ← jNode.erase "callees"
  let jNode ← jNode.erase "callers"
  let jNode ← jNode.assign "callees" jNewCallees
  let (origin, jMeta) ← upgradeOrigin (← jNode.at_ "meta")
  let jNode ← jNode.assign "origin" origin
  let jMeta ← upgradeOverrides jNode jMeta
  let jNode ← jNode.assign "meta" jMeta
  let jNode ← jNode.erase "isVirtual"
  let jNode ← jNode.erase "doesOverride"
  let jNode ← jNode.erase "overrides"
  jNode.erase "overriddenBy"

/-- What is left of a value once its elements are moved from. -/
def movedFrom : Json → Json
  | .obj fields => .obj (fields.map fun e => (e.1, .null))
  | .arr elems => .arr (elems.map fun _ => .null)
  | j => j

def upgradeV2FormatToV4Format (j : Json) : Except Exn Json := do
  let jNodes ← j.items.foldlM (fun jNodes it => do jNodes.assign it.1 (← upgradeNode it.1 it.2)) (.obj [])
  let j ← (movedFrom j).assign "nodes" jNodes
  j.assign "meta" (.obj [])

/-- `VersionTwoMCGReader::read` -/
def read (j : Json) : Except Exn Callgraph := do
  if j.is_null then throw (.runtimeError "JSON source did not contain any data.")
  if !j.contains "_MetaCG" then throw (.runtimeError "Could not read version info from metacg file.")
  let mcgInfo ← j.at_ "_MetaCG"
  if mcgInfo.is_null then throw (.runtimeError "Could not read version info from metacg file.")
  let mcgVersion ← (← mcgInfo.at_ "version").getStr
  if mcgVersion.toList.take 1 ≠ ['2'] then
    throw (.runtimeError ("File is of version " ++ mcgVersion ++ ", this reader handles version 2.x"))
  let generator ← mcgInfo.at_ "generator"
  let _ ← (← generator.at_ "name").getStr
  let generatorVersion ← (← generator.at_ "version").getStr
  checkVersionStr generatorVersion
  -- `at` throws when the graph is missing, so the check that follows it in the source cannot fail.
  let jsonCG ← j.at_ "_CG"
  let j ← if jsonCG.is_null then j.assign "_CG" (.obj []) else pure j
  let jsonCG ← upgradeV2FormatToV4Format (← j.subscriptMut "_CG")
  let j ← j.assign "_CG" jsonCG
  let j ← j.assign "_MetaCG" (← mcgInfo.assign "version" (.str "4.0"))
  MetaCG.read j

end MetaCG.VersionTwo
