import MetaCG.Foundations.UnorderedMap
import MetaCG.Foundations.OrderedMap

/-! The built-in metadata kinds and their merge functions (`graph/include/metacg/metadata`).

`MetaData` has one constructor for each class that `BuiltinMD.h` registers. A C++ `int` is an
`Int32`; a `std::map` is an `OMap`; a node id (`size_t`) is a natural number. Failed assertions and
thrown exceptions are values of `Exn`. -/
namespace MetaCG
open Foundations
set_option autoImplicit false
set_option maxHeartbeats 250000
set_option maxRecDepth 120000

/-- The ways in which a modelled function ends without returning. -/
inductive Exn where
  /-- `std::out_of_range` of `at` -/
  | outOfRange
  /-- `std::runtime_error` with its text -/
  | runtimeError (msg : String)
  /-- `nlohmann::json::type_error` -/
  | typeError
  /-- `nlohmann::json::invalid_iterator` -/
  | invalidIterator
  /-- `exit(-1)` -/
  | exit
  /-- a failed `assert` with its text -/
  | assertion (msg : String)
  /-- a null pointer is dereferenced -/
  | nullDereference
  /-- `erase` of the end iterator, `operator[] const` of a missing key -/
  | undefined
deriving DecidableEq, Repr

/-! ## Merge actions and the node mapping (`MergePolicy.h`) -/

structure MergeAction where
  targetNode : ℕ
  replace : Bool
deriving DecidableEq, Repr

abbrev GraphMapping := UMap ℕ ℕ

/-- `mapping.at(id)` -/
def mappingAt (mapping : GraphMapping) (id : ℕ) : Except Exn ℕ :=
  match mapping.lookup id with
  | some mapped => .ok mapped
  | none => .error .outOfRange

/-- `assert(mapping.count(id) == 1 && msg)` followed by `mapping.at(id)`. -/
def mappingAtAsserted (msg : String) (mapping : GraphMapping) (id : ℕ) : Except Exn ℕ :=
  match mapping.lookup id with
  | some mapped => .ok mapped
  | none => .error (.assertion msg)

/-! ## The metadata classes -/

structure OverrideMD where
  overrides : List ℕ
  overriddenBy : List ℕ
deriving DecidableEq, Repr

structure EntryFunctionMD where
  entryFunction : Option ℕ
deriving DecidableEq, Repr

structure NumOperationsMD where
  numberOfIntOps : Int32
  numberOfFloatOps : Int32
  numberOfControlFlowOps : Int32
  numberOfMemoryAccesses : Int32
deriving DecidableEq

structure InlineMD where
  markedInline : Bool
  likelyInline : Bool
  markedAlwaysInline : Bool
  isTemplateFunction : Bool
deriving DecidableEq, Repr

inductive MetaData where
  | override (md : OverrideMD)
  | entryFunction (md : EntryFunctionMD)
  | codeStatistics (numVars : Int32)
  | numConditionalBranch (numConditionalBranches : Int32)
  | numOperations (md : NumOperationsMD)
  | numStatements (numStmts : Int32)
  | fileProperties (fromSystemInclude : Bool)
  | inlineInfo (md : InlineMD)
  | mallocVariable (allocs : OMap String String)
  | uniqueType (numTypes : Int32)
  | loopDepth (loopDepth : Int32)
  | globalLoopDepth (globalLoopDepth : Int32)
  | loopCallDepth (loopFunctionMap : OMap String Int32)
deriving DecidableEq

namespace MetaData

/-- The `key` of the abstract base class `MetaData`. -/
def baseKey : String := "BaseClass"

def getKey : MetaData → String
  | .override _ => "overrideMD"
  | .entryFunction _ => "entryFunction"
  | .codeStatistics _ => "codeStatistics"
  | .numConditionalBranch _ => "numConditionalBranches"
  | .numOperations _ => "numOperations"
  | .numStatements _ => "numStatements"
  | .fileProperties _ => "fileProperties"
  | .inlineInfo _ => "inlineInfo"
  | .mallocVariable _ => "mallocCollector"
  | .uniqueType _ => "uniqueTypeMetaData"
  | .loopDepth _ => "loopDepth"
  | .globalLoopDepth _ => "globalLoopDepth"
  | .loopCallDepth _ => "loopCallDepth"

theorem getKey_ne_baseKey (md : MetaData) : md.getKey ≠ baseKey := by
  cases md <;> simp [getKey, baseKey]

/-- The node ids a metadata object stores. -/
def refs : MetaData → List ℕ
  | .override md => md.overrides ++ md.overriddenBy
  | .entryFunction md => md.entryFunction.toList
  | _ => []

end MetaData

/-! ## Merging -/

/-- `mergeVectors`: append the mapped ids of `src` that `dst` does not hold yet. -/
def mergeVectors (dst src : List ℕ) (mapping : GraphMapping) : Except Exn (List ℕ) :=
  src.foldlM (fun dst entry => do
    let mappedId ← mappingAtAsserted "Mapping must exist" mapping entry
    return if mappedId ∈ dst then dst else dst ++ [mappedId]) dst

def OverrideMD.merge (own other : OverrideMD) (mapping : GraphMapping) : Except Exn OverrideMD := do
  let overriddenBy ← mergeVectors own.overriddenBy other.overriddenBy mapping
  let overrides ← mergeVectors own.overrides other.overrides mapping
  return { overrides, overriddenBy }

def OverrideMD.applyMapping (own : OverrideMD) (mapping : GraphMapping) : Except Exn OverrideMD := do
  let overrides ← own.overrides.mapM (mappingAtAsserted "Incomplete mapping" mapping)
  let overriddenBy ← own.overriddenBy.mapM (mappingAtAsserted "Incomplete mapping" mapping)
  return { overrides, overriddenBy }

/-- With an action the metadata sits on a node and stays as it is; globally the own id wins. -/
def EntryFunctionMD.merge (own other : EntryFunctionMD) (action : Option MergeAction)
    (mapping : GraphMapping) : Except Exn EntryFunctionMD :=
  match action, other.entryFunction, own.entryFunction with
  | none, some id, none => do
    let mapped ← mappingAt mapping id
    return { entryFunction := some mapped }
  | _, _, _ => return own

def EntryFunctionMD.applyMapping (own : EntryFunctionMD) (mapping : GraphMapping) :
    Except Exn EntryFunctionMD :=
  match own.entryFunction with
  | some id => do
    let mapped ← mappingAt mapping id
    return { entryFunction := some mapped }
  | none => return own

/-- The merge of a counter that is summed unless both values agree. -/
def mergeCounter (own other : Int32) : Int32 := if own ≠ other then own + other else own

def NumOperationsMD.add (a b : NumOperationsMD) : NumOperationsMD where
  numberOfIntOps := a.numberOfIntOps + b.numberOfIntOps
  numberOfFloatOps := a.numberOfFloatOps + b.numberOfFloatOps
  numberOfControlFlowOps := a.numberOfControlFlowOps + b.numberOfControlFlowOps
  numberOfMemoryAccesses := a.numberOfMemoryAccesses + b.numberOfMemoryAccesses

def NumOperationsMD.merge (own other : NumOperationsMD) : NumOperationsMD :=
  if other.numberOfIntOps ≠ own.numberOfIntOps ∨ other.numberOfFloatOps ≠ own.numberOfFloatOps ∨
      other.numberOfControlFlowOps ≠ own.numberOfControlFlowOps ∨
      other.numberOfMemoryAccesses ≠ own.numberOfMemoryAccesses
  then own.add other else own

/-- The stronger attributes win; `isTemplateFunction` is kept. -/
def InlineMD.merge (own other : InlineMD) : InlineMD where
  markedInline := own.markedInline || other.markedInline
  likelyInline := own.likelyInline || other.likelyInline
  markedAlwaysInline := own.markedAlwaysInline || other.markedAlwaysInline
  isTemplateFunction := own.isTemplateFunction

/-- `LoopCallDepthMD::merge`: raise the common entries first, then copy the missing ones. -/
def mergeLoopFunctionMap (own other : OMap String Int32) : OMap String Int32 :=
  let raised := own.mapValues fun calledFunction callDepths =>
    match other.find calledFunction with
    | some otherv => if otherv > callDepths then otherv else callDepths
    | none => callDepths
  other.entries.foldl (fun m e => if (m.find e.1).isNone then m.insert e.1 e.2 else m) raised

namespace MetaData

/-- The text of the assertion with which every `merge` compares the keys. -/
def mismatchText : MetaData → String
  | .override _ => "Trying to merge OverrideMD with meta data of different types"
  | .entryFunction _ => "Trying to merge EntryFunctionMD with meta data of different types"
  | .codeStatistics _ => "Trying to merge CodeStatisticsMD with meta data of different types"
  | .numConditionalBranch _ => "Trying to merge NumConditionalBranchMD with meta data of different types"
  | .numOperations _ => "Trying to merge NumOperationsMD with meta data of different types"
  | .numStatements _ => "Trying to merge NumStatementsMD with meta data of different types"
  | .fileProperties _ => "Trying to merge FilePropertiesMD with metadata of different types"
  | .inlineInfo _ => "Trying to merge InlineMD with metadata of different types"
  | .mallocVariable _ => "Trying to merge MallocVariableMD with meta data of different types"
  | .uniqueType _ => "Trying to merge UniqueTypeMD with meta data of different types"
  | .loopDepth _ => "Trying to merge LoopDepthMD with meta data of different types"
  | .globalLoopDepth _ => "Trying to merge GlobalLoopDepthMD with meta data of different types"
  | .loopCallDepth _ => "Trying to merge LoopCallDepthMD with meta data of different types"

/-- `md->merge(toMerge, action, mapping)`. -/
def merge (own toMerge : MetaData) (action : Option MergeAction) (mapping : GraphMapping) :
    Except Exn MetaData :=
  match own, toMerge with
  | .override a, .override b => .override <$> a.merge b mapping
  | .entryFunction a, .entryFunction b => .entryFunction <$> a.merge b action mapping
  | .codeStatistics a, .codeStatistics b => .ok (.codeStatistics (mergeCounter a b))
  | .numConditionalBranch a, .numConditionalBranch b => .ok (.numConditionalBranch (mergeCounter a b))
  | .numOperations a, .numOperations b => .ok (.numOperations (a.merge b))
  | .numStatements a, .numStatements b => .ok (.numStatements (max a b))
  | .fileProperties a, .fileProperties b =>
    .ok (.fileProperties (match action with
      | some act => if act.replace then b else a
      | none => a))
  | .inlineInfo a, .inlineInfo b => .ok (.inlineInfo (a.merge b))
  | .mallocVariable a, .mallocVariable _ => .ok (.mallocVariable a)
  | .uniqueType a, .uniqueType b => .ok (.uniqueType (mergeCounter a b))
  | .loopDepth a, .loopDepth b => .ok (.loopDepth (max b a))
  | .globalLoopDepth a, .globalLoopDepth b => .ok (.globalLoopDepth (max a b))
  | .loopCallDepth a, .loopCallDepth b => .ok (.loopCallDepth (mergeLoopFunctionMap a b))
  | own, _ => .error (.assertion own.mismatchText)

/-- `clone()` followed by `applyMapping(mapping)`. -/
def cloneMapped (md : MetaData) (mapping : GraphMapping) : Except Exn MetaData :=
  match md with
  | .override a => .override <$> a.applyMapping mapping
  | .entryFunction a => .entryFunction <$> a.applyMapping mapping
  | md => .ok md

end MetaData
end MetaCG
