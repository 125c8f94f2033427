import MetaCG.Format.Json
import MetaCG.Graph.Callgraph

/-! The encoders and decoders of the metadata classes, and the factory (`MetaData.h`).

A `NodeToStrMapping` is a function that may fail, a `StrToNodeMapping` a map to node ids. The factory
knows the classes that `BuiltinMD.h` registers. -/
namespace MetaCG
open Foundations
set_option autoImplicit false
set_option maxHeartbeats 250000
set_option maxRecDepth 120000

abbrev StrToNode := UMap String ℕ

namespace MetaData

def toJson (nodeToStr : ℕ → Except Exn String) : MetaData → Except Exn Json
  | .override md => do
    let jOverrides ← md.overrides.mapM nodeToStr
    let jOverriddenBy ← md.overriddenBy.mapM nodeToStr
    return .ofFields [("overrides", .arr (jOverrides.map .str)), ("overriddenBy", .arr (jOverriddenBy.map .str))]
  | .entryFunction md =>
    match md.entryFunction with
    | some id => return .str (← nodeToStr id)
    | none => return .str ""
  | .codeStatistics numVars => return .ofFields [("numVars", .int numVars.toInt)]
  | .numConditionalBranch numConditionalBranches => return .int numConditionalBranches.toInt
  | .numOperations md => return .ofFields [
      ("numberOfIntOps", .int md.numberOfIntOps.toInt),
      ("numberOfFloatOps", .int md.numberOfFloatOps.toInt),
      ("numberOfControlFlowOps", .int md.numberOfControlFlowOps.toInt),
      ("numberOfMemoryAccesses", .int md.numberOfMemoryAccesses.toInt)]
  | .numStatements numStmts => return .int numStmts.toInt
  | .fileProperties fromSystemInclude => return .ofFields [("systemInclude", .bool fromSystemInclude)]
  | .inlineInfo md => return .ofFields [
      ("markedInline", .bool md.markedInline),
      ("likelyInline", .bool md.likelyInline),
      ("isTemplate", .bool md.isTemplateFunction),
      ("markedAlwaysInline", .bool md.markedAlwaysInline)]
  | .mallocVariable allocs =>
    return .arr (allocs.entries.map fun e => .ofFields [("global", .str e.1), ("allocStmt", .str e.2)])
  | .uniqueType numTypes => return .int numTypes.toInt
  | .loopDepth depth => return .int depth.toInt
  | .globalLoopDepth depth => return .int depth.toInt
  | .loopCallDepth loopFunctionMap => return .obj (loopFunctionMap.entries.map fun e => (e.1, .int e.2.toInt))

/-- The node with this string, which the constructor of `OverrideMD` asserts to exist. -/
def nodeFromStr (strToNode : StrToNode) (s : String) : Except Exn ℕ :=
  match strToNode.lookup s with
  | some id => .ok id
  | none => .error (.assertion "Node is null")

def createOverride (j : Json) (strToNode : StrToNode) : Except Exn OverrideMD := do
  let overrideStrs ← (← j.at_ "overrides").getStrings
  let overrides ← overrideStrs.mapM (nodeFromStr strToNode)
  let overriddenByStrs ← (← j.at_ "overriddenBy").getStrings
  let overriddenBy ← overriddenByStrs.mapM (nodeFromStr strToNode)
  return { overrides, overriddenBy }

/-- The decoders that keep the default when the value is null. -/
def orDefault {α : Type} (j : Json) (default : α) (decode : Except Exn α) : Except Exn α :=
  if j.is_null then .ok default else decode

def createAllocs (j : Json) : Except Exn (OMap String String) :=
  j.values.foldlM (fun allocs elem => do
    let allocStmt ← elem.at_ "allocStmt"
    let global ← (← elem.at_ "global").getStr
    return allocs.insert global (← allocStmt.getStr)) .empty

/-- `get<std::map<std::string, int>>()` -/
def createLoopFunctionMap : Json → Except Exn (OMap String Int32)
  | .obj fields => fields.foldlM (fun m e => do return m.insert e.1 (← e.2.getInt)) .empty
  | _ => .error .typeError

/-- `MetaDataFactory::create`; `none` if the key is not registered.

`FilePropertiesMD` leaves its flag indeterminate when the value is null. -/
def create (key : String) (j : Json) (strToNode : StrToNode) : Except Exn (Option MetaData) :=
  match key with
  | "overrideMD" => do return some (.override (← createOverride j strToNode))
  | "entryFunction" => do return some (.entryFunction ⟨strToNode.lookup (← j.getStr)⟩)
  | "codeStatistics" => do
    return some (.codeStatistics (← orDefault j 0 (do (← j.subscript "numVars").getInt)))
  | "numConditionalBranches" => do return some (.numConditionalBranch (← orDefault j 0 j.getInt))
  | "numOperations" => do
    return some (.numOperations (← orDefault j ⟨0, 0, 0, 0⟩ (do
      return {
        numberOfIntOps := ← (← j.subscript "numberOfIntOps").getInt
        numberOfFloatOps := ← (← j.subscript "numberOfFloatOps").getInt
        numberOfControlFlowOps := ← (← j.subscript "numberOfControlFlowOps").getInt
        numberOfMemoryAccesses := ← (← j.subscript "numberOfMemoryAccesses").getInt })))
  | "numStatements" => do return some (.numStatements (← orDefault j 0 j.getInt))
  | "fileProperties" => do
    return some (.fileProperties (← orDefault j false (do (← j.subscript "systemInclude").getBool)))
  | "inlineInfo" => do
    return some (.inlineInfo (← orDefault j ⟨false, false, false, false⟩ (do
      return {
        markedInline := ← (← j.subscript "markedInline").getBool
        likelyInline := ← (← j.subscript "likelyInline").getBool
        markedAlwaysInline := ← (← j.subscript "markedAlwaysInline").getBool
        isTemplateFunction := ← (← j.subscript "isTemplate").getBool })))
  | "mallocCollector" => do return some (.mallocVariable (← createAllocs j))
  | "uniqueTypeMetaData" => do return some (.uniqueType (← j.getInt))
  | "loopDepth" => do return some (.loopDepth (← orDefault j 0 j.getInt))
  | "globalLoopDepth" => do return some (.globalLoopDepth (← orDefault j 0 j.getInt))
  | "loopCallDepth" => do return some (.loopCallDepth (← orDefault j .empty (createLoopFunctionMap j)))
  | _ => .ok none

end MetaData
end MetaCG
