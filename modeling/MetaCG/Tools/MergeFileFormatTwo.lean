import MetaCG.Tools.CGMerge
import MetaCG.Tools.GlobalCallDepth

/-! `mergeFileFormatTwo` of `CGMerge.cpp`.

The file that the result is written to is expected to be empty, and the header that is attached to it
is left out. -/
namespace MetaCG.FormatTwo
open Foundations
set_option autoImplicit false
set_option maxHeartbeats 250000
set_option maxRecDepth 120000

/-! ## One function -/

/-- The lambda `doMerge`; the overridden functions are united and not stored. -/
def doMerge (t s : Node) : Node :=
  { t with
    callees := t.callees ∪ s.callees
    isVirtual := s.isVirtual
    doesOverride := s.doesOverride
    hasBody := s.hasBody }

/-- The four branches on the two bodies, with the flag `hasLoopInfo`. -/
def mergeBodies (hasLoopInfo : Bool) (c v : Node) : Bool × Node :=
  if v.hasBody && c.hasBody then
    let c := doMerge c v
    (hasLoopInfo,
      if c.info.numStatements ≠ v.info.numStatements then
        { c with info := { c.info with numStatements := c.info.numStatements + v.info.numStatements } }
      else c)
  else if v.hasBody then
    let c := doMerge c v
    let c := { c with info := { c.info with
      numStatements := v.info.numStatements
      fileProperties := v.info.fileProperties
      inlineInfo := v.info.inlineInfo.subscript } }
    if c.info.loopDepth.contains then
      (true, { c with info := { c.info with
        numConditionalBranches := v.info.numConditionalBranches.subscript
        loopDepth := v.info.loopDepth.subscript
        numOperations := v.info.numOperations.subscript } })
    else (hasLoopInfo, c)
  else (hasLoopInfo, c)

def mergeEstimateCallCount (c v : Option EstimateCallCount) : Option EstimateCallCount :=
  match c, v with
  | none, v => v
  | c, none => c
  | some c, some v => some
    { calls := c.calls.unionWith (· ∪ ·) v.calls
      codeRegions := c.codeRegions.unionWith (fun iter region => { iter with functions := iter.functions ∪ region.functions })
        v.codeRegions }

/-- The two loops over the loop call depths. -/
def mergeLoopCallDepth (vc vd : Depths) : Depths :=
  let vc := vc.mapValues fun calledFunction callDepths =>
    match vd.find calledFunction with
    | some otherv => if otherv > callDepths then otherv else callDepths
    | none => callDepths
  vd.entries.foldl (fun vc e => vc.emplace e.1 e.2) vc

def mergeLoops (hasLoopInfo : Bool) (c v : Option Depths) : Option Depths :=
  if hasLoopInfo then
    match c, v with
    | none, v => v
    | c, none => c
    | some vc, some vd => some (mergeLoopCallDepth vc vd)
  else c

/-- The function `v` of the current file is merged into `c`. -/
def mergeNode (hasLoopInfo : Bool) (c v : Node) : Bool × Node :=
  let (hasLoopInfo, c) := mergeBodies hasLoopInfo c v
  (hasLoopInfo,
    { c with
      info := { c.info with
        estimateCallCount := mergeEstimateCallCount c.info.estimateCallCount v.info.estimateCallCount
        loopCallDepth := mergeLoops hasLoopInfo c.info.loopCallDepth v.info.loopCallDepth }
      callers := c.callers ∪ v.callers })

/-- One function of a file: the first occurrence is copied. -/
def mergeFunction (st : Bool × CG) (it : String × Node) : Bool × CG :=
  match st.2.find it.1 with
  | none => (st.1, st.2.insert it.1 it.2)
  | some c =>
    let r := mergeNode st.1 c it.2
    (r.1, st.2.insert it.1 r.2)

/-! ## The files -/

structure InputFile where
  cg : CG
  pointerEquivalenceData : Option CGMerge.PointerEquivalenceData

inductive MergeError where
  /-- in `calculateGlobalCallDepth` -/
  | depth (error : DepthError)
  /-- in `mergeEquivalenceClasses` -/
  | resolution (fault : AliasAnalysis.Fault)
deriving DecidableEq, Repr

structure MergeState where
  functionInfoMap : FuncMap
  wholeCG : CG
  hasLoopInfo : Bool
  hasAAInfo : Bool
  file1Data : AliasAnalysis.EquivClassContainer

def MergeState.initial : MergeState := ⟨.empty, .empty, false, false, .empty⟩

/-- The part of the graph that the pointer resolution reads and writes. -/
def callsOf (cg : CG) : CGMerge.WholeCG := cg.map fun _ node => ⟨node.callees, node.callers⟩

def withCalls (cg : CG) (calls : CGMerge.WholeCG) : CG :=
  cg.mapValues fun function node =>
    match calls.find function with
    | some c => { node with callees := c.callees, callers := c.callers }
    | none => node

/-- The file without its pointer data. -/
def mergeGraph (st : MergeState) (cg : CG) : MergeState :=
  let r := cg.entries.foldl mergeFunction (st.hasLoopInfo, st.wholeCG)
  { st with functionInfoMap := buildFromJSONv2 st.functionInfoMap cg, hasLoopInfo := r.1, wholeCG := r.2 }

def mergeFile (fuel : ℕ) (st : MergeState) (file : InputFile) : Except MergeError MergeState :=
  let st := mergeGraph st file.cg
  match file.pointerEquivalenceData with
  | none => .ok st
  | some data => do
    let (file1Data, calls) ←
      (CGMerge.mergeEquivalenceClasses fuel st.file1Data data (callsOf st.wholeCG)).mapError .resolution
    return { st with hasAAInfo := true, file1Data := file1Data, wholeCG := withCalls st.wholeCG calls }

structure WholeCGFinal where
  cg : CG
  pointerEquivalenceData : Option CGMerge.PointerEquivalenceData

/-- The override data that the function table has collected. -/
def withOverrides (functionInfoMap : FuncMap) (wholeCG : CG) : CG :=
  wholeCG.mapValues fun curFunc jsonFunc =>
    match functionInfoMap.find curFunc with
    | some fi => { jsonFunc with overriddenBy := fi.overriddenBy, overrides := fi.overriddenFunctions }
    | none => jsonFunc

/-- What happens after the loop over the files. -/
def finish (w : Walk) (st : MergeState) : Except MergeError WholeCGFinal := do
  let cg := withOverrides st.functionInfoMap st.wholeCG
  let cg ← (if st.hasLoopInfo && !st.hasAAInfo then (calculateGlobalCallDepth w cg true).mapError .depth else .ok cg)
  return ⟨cg, if st.hasAAInfo then some (CGMerge.to_json st.file1Data) else none⟩

def mergeFileFormatTwo (w : Walk) (fuel : ℕ) (inputFiles : List InputFile) : Except MergeError WholeCGFinal := do
  let st ← inputFiles.foldlM (mergeFile fuel) .initial
  finish w st

end MetaCG.FormatTwo
