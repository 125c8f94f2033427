import Mathlib.Data.Finset.Basic
import Mathlib.Data.Finset.Dedup
import MetaCG.AliasAnalysis.EquivClassContainer

/-! Pointer resolution across translation units (`CGMerge.cpp`).

Of the nodes of the whole call graph only the callees and callers are kept, which is all that these
functions read and write. -/
namespace MetaCG.CGMerge
open Foundations AliasAnalysis
set_option autoImplicit false
set_option maxHeartbeats 250000
set_option maxRecDepth 120000

structure CGNode where
  callees : Finset String
  callers : Finset String
deriving DecidableEq

abbrev WholeCG := OMap String CGNode

/-! ## New edges -/

def addCallees (calledFunctionNamesMangled : List String) (json : WholeCG) (caller : String) : Except Fault WholeCG :=
  match json.find caller with
  | some node => .ok (json.insert caller { node with callees := node.callees ∪ calledFunctionNamesMangled.toFinset })
  | none => .error .outOfRange

/-- A called function without a node is only warned about. -/
def addCaller (caller : String) (json : WholeCG) (called : String) : WholeCG :=
  match json.find called with
  | some node => json.insert called { node with callers := insert caller node.callers }
  | none => json

def addCallToCallGraph (data : EquivClassContainer) (callingFunctionName calledFunctionName : String) (json : WholeCG) :
    Except Fault WholeCG :=
  match data.functionInfoMap.find callingFunctionName, data.functionInfoMap.find calledFunctionName with
  | some calling, some called =>
    calling.mangledNames.foldlM (fun json caller => do
      let json ← addCallees called.mangledNames json caller
      pure (called.mangledNames.foldl (addCaller caller) json)) json
  | none, _ => .error (.assertion "ItCalling != Data.FunctionInfoMap.end()")
  | _, none => .error (.assertion "ItCalled != Data.FunctionInfoMap.end()")

def mergeFunctionCall : ℕ → EquivClassContainer × WholeCG → String × CallInfoConstIter →
    Except Fault (EquivClassContainer × WholeCG)
  | 0, _, _ => .error .outOfFuel
  | fuel + 1, (data, json), (calledObj, ce) => do
    let (ret, data) ← AliasAnalysis.mergeFunctionCall fuel data calledObj ce
    let json ← addCallToCallGraph data ret.2.1 ret.2.2 json
    ret.1.foldlM (mergeFunctionCall fuel) (data, json)

/-! ## The second file -/

/-- The `PointerEquivalenceData` of a file. -/
structure PointerEquivalenceData where
  equivClasses : List EquivClass
  functionMap : OMap String String
  functionInfoMap : OMap String FunctionInfo
  callInfoMap : OMap String CallInfo
  callExprParentMap : OMap String String

def to_json (c : EquivClassContainer) : PointerEquivalenceData where
  equivClasses := c.equivClasses.cells.map Prod.snd
  functionMap := c.functionMap
  functionInfoMap := c.functionInfoMap
  callInfoMap := c.callInfoMap
  callExprParentMap := c.callExprParentMap

def from_json (j : PointerEquivalenceData) : EquivClassContainer :=
  let equivClasses := j.equivClasses.foldl (fun l c => l.insert_end c) .empty
  EquivClassContainer.initReferencedInCalls
    { equivClasses := equivClasses
      functionMap := j.functionMap
      functionInfoMap := j.functionInfoMap
      callInfoMap := j.callInfoMap
      findMap := equivClasses.cells.foldl (fun m cell => cell.2.objects.foldl (fun m obj => m.emplace obj cell.1) m) .empty
      callExprParentMap := j.callExprParentMap
      referencedInCalls := .empty }

/-! ## Functions -/

/-- One entry of the second file's `FunctionInfoMap`, with the parameters to merge so far. -/
def importFunctionInfo (state : OMap String FunctionInfo × List (String × String)) (functionInfo : String × FunctionInfo) :
    Except Fault (OMap String FunctionInfo × List (String × String)) :=
  match state.1.find functionInfo.1 with
  | none => .ok (state.1.insert functionInfo.1 functionInfo.2, state.2)
  | some iter =>
    if iter.parameters.length ≠ functionInfo.2.parameters.length then
      .error (.assertion "Iter->second.Parameters.size() == FunctionInfo.second.Parameters.size()")
    else if iter.isVariadic ≠ functionInfo.2.isVariadic then
      .error (.assertion "Iter->second.IsVariadic == FunctionInfo.second.IsVariadic")
    else if iter.mangledNames ≠ functionInfo.2.mangledNames then
      .error (.assertion "Iter->second.MangledNames == FunctionInfo.second.MangledNames")
    else
      let paramsToMerge := (iter.parameters.zip functionInfo.2.parameters).filter fun names => decide (names.1 ≠ names.2)
      let returns := if iter.referencedInReturnStmts.isEmpty then functionInfo.2.referencedInReturnStmts
        else iter.referencedInReturnStmts
      .ok (state.1.insert functionInfo.1 { iter with referencedInReturnStmts := returns }, state.2 ++ paramsToMerge)

/-! ## Classes -/

/-- `std::unique` with `erase`. -/
def unique {α : Type} [DecidableEq α] : List α → List α
  | [] => []
  | [a] => [a]
  | a :: b :: l => if a = b then unique (b :: l) else a :: unique (b :: l)

def sortedObjects (objects : List String) : List String := unique (objects.insertionSort (· ≤ ·))

def sortedPrefixes (prefixes : List Prefix) : List Prefix := unique (prefixes.insertionSort fun p q => q.lt p = false)

abbrev ImportState := EquivClassContainer × List (String × String)

/-- Case 1: the class is new. -/
def newClass (state : ImportState) (equiv : EquivClass) : ImportState :=
  ({ state.1 with
    equivClasses := state.1.equivClasses.emplace_front equiv
    findMap := equiv.objects.foldl (fun m e => m.emplace e state.1.equivClasses.next) state.1.findMap }, state.2)

/-- Cases 2 and 3: the objects and prefixes of the second file's class are added to the class at `it`. -/
def extendClass (state : ImportState) (equiv : EquivClass) (it : EquivClassesIterator) : Except Fault ImportState := do
  let c ← state.1.deref it
  let merged := getPrefixesToMerge { c with objects := sortedObjects (c.objects ++ equiv.objects) } equiv.prefixes state.2
  pure ({ state.1 with
    equivClasses := state.1.equivClasses.modify it fun _ =>
      { merged.1 with prefixes := sortedPrefixes merged.1.prefixes }
    findMap := equiv.objects.foldl (fun m e => m.emplace e it) state.1.findMap }, merged.2)

/-- A class with one object keeps its `Objects` as they are. -/
def extendPrefixes (state : ImportState) (equiv : EquivClass) (it : EquivClassesIterator) : Except Fault ImportState := do
  let c ← state.1.deref it
  let merged := getPrefixesToMerge c equiv.prefixes state.2
  pure ({ state.1 with
    equivClasses := state.1.equivClasses.modify it fun _ =>
      { merged.1 with prefixes := sortedPrefixes merged.1.prefixes } }, merged.2)

/-- One further object of a class. `itFirstInner` is the end iterator (`none`) as long as `AllNew` holds. -/
def unifyObject (state : Option EquivClassesIterator × ImportState) (obj : String) :
    Except Fault (Option EquivClassesIterator × ImportState) :=
  match state.1, state.2.1.findMap.find obj with
  | none, itSecond => .ok (itSecond, state.2)
  | some itFirstInner, some itSecond =>
    if itSecond ≠ itFirstInner then do
      let (tmp, data) ← merge state.2.1 itFirstInner itSecond
      match data.findMap.find tmp.iter with
      | some it => pure (some it, data, state.2.2 ++ tmp.objectsToMerge)
      | none => .error .undefined
    else .ok state
  | some _, none => .ok state

def importClass (state : ImportState) (equiv : EquivClass) : Except Fault ImportState :=
  match equiv.objects with
  | [] => .error .undefined
  | [obj] =>
    match state.1.findMap.find obj with
    | some it => extendPrefixes state equiv it
    | none => .ok (newClass state equiv)
  | obj :: objs => do
    let (itFirstInner, state) ← objs.foldlM unifyObject (state.1.findMap.find obj, state)
    match itFirstInner with
    | none => .ok (newClass state equiv)
    | some it => extendClass state equiv it

/-! ## The merge -/

/-- The first file's maps with the entries of the second file's, and the parameters to merge. -/
def importMaps (file1Data file2Data : EquivClassContainer) : Except Fault (EquivClassContainer × List (String × String)) := do
  let (functionInfoMap, paramsToMerge) ←
    file2Data.functionInfoMap.entries.foldlM importFunctionInfo (file1Data.functionInfoMap, [])
  let data := EquivClassContainer.initReferencedInCalls
    { file1Data with
      functionMap := file1Data.functionMap.union file2Data.functionMap
      functionInfoMap := functionInfoMap
      callInfoMap := file1Data.callInfoMap.union file2Data.callInfoMap
      callExprParentMap := file1Data.callExprParentMap.union file2Data.callExprParentMap }
  pure (data, paramsToMerge)

def mergeEquivalenceClasses (fuel : ℕ) (file1Data : EquivClassContainer) (file2 : PointerEquivalenceData) (wholeCG : WholeCG) :
    Except Fault (EquivClassContainer × WholeCG) := do
  let file2Data := from_json file2
  let (data, paramsToMerge) ← importMaps file1Data file2Data
  let (data, objectsToMerge) ← (file2Data.equivClasses.cells.map Prod.snd).foldlM importClass (data, [])
  -- the calls found here are found again by the sweep over all classes
  let (_, data) ← objectsToMerge.foldlM (mergeObjects (mergeRecurisve fuel) .undefined) ([], data)
  let (functionsToMerge, data) ← paramsToMerge.foldlM (mergeObjects (mergeRecurisve fuel) .undefined) ([], data)
  let functionsToMerge := (data.equivClasses.cells.map Prod.snd).foldl (getFunctionsToMerge data) functionsToMerge
  functionsToMerge.foldlM (mergeFunctionCall fuel) (data, wholeCG)

end MetaCG.CGMerge
