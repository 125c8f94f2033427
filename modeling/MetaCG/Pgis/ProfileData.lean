import Mathlib.Algebra.Order.Ring.Rat
import Mathlib.Data.UInt
import MetaCG.Pgis.NodeMetaData

/-! The profile of a function in full (`BaseProfileData`, `PiraOneData` and `InstrumentationResultMetaData` of
`CgNodeMetaData.h`), as a profile fills it in and one run of PGIS hands it to the next.

Whether a node has metadata matters here, so each kind is an option. Counters are 64 bits wide. Times are rational numbers,
without the rounding of floating-point numbers. A quotient of times and calls is `none` if the divisor is zero. -/
namespace MetaCG.Pgis.Profile
open Foundations
set_option autoImplicit false
set_option maxHeartbeats 250000
set_option maxRecDepth 120000

/-- What one thread contributes to a node. -/
structure CgLocation where
  time : ℚ
  inclusiveTime : ℚ
  threadId : ℤ
  procId : ℤ
  numCalls : UInt64

structure BaseProfileData where
  numCalls : UInt64
  timeInSeconds : ℚ
  inclTimeInSeconds : ℚ
  /-- The callers are pointers, and one that is not in the graph is a null pointer. -/
  callFrom : UMap (Option ℕ) UInt64
  cgLoc : List CgLocation

structure PiraOneData where
  wasInPreviousProfile : Bool
  dominantRuntime : Bool
  hasBody : Bool
  numStmts : ℤ
deriving DecidableEq

structure InstrumentationResultMetaData where
  callCount : UInt64
  callsFromParents : OMap String UInt64
  runtime : ℚ
  timePerCall : Option ℚ
  inclusiveRunTimeCube : ℚ
  inclusiveTimePerCallCube : Option ℚ
  inclusiveRunTimeSum : ℚ
  inclusiveTimePerCallSum : Option ℚ
  isExclusiveRuntime : Bool
  shouldBeInstrumented : Bool

/-- The metadata of a node. -/
structure NodeData where
  instrumentation : InstrumentationState
  piraOne : Option PiraOneData
  baseProfile : Option BaseProfileData
  instrumentationResult : Option InstrumentationResultMetaData

abbrev Store := ℕ → NodeData

def BaseProfileData.create : BaseProfileData := ⟨0, 0, 0, ∅, []⟩

def PiraOneData.create : PiraOneData := ⟨false, false, false, 0⟩

def InstrumentationResultMetaData.create : InstrumentationResultMetaData where
  callCount := 0
  callsFromParents := OMap.empty
  runtime := 0
  timePerCall := some 0
  inclusiveRunTimeCube := 0
  inclusiveTimePerCallCube := some 0
  inclusiveRunTimeSum := 0
  inclusiveTimePerCallSum := some 0
  isExclusiveRuntime := false
  shouldBeInstrumented := false

/-- A node without metadata. -/
def NodeData.create : NodeData := ⟨.none, none, none, none⟩

/-! ## Operations -/

namespace BaseProfileData

def addCalls (bpd : BaseProfileData) (nrCall : UInt64) : BaseProfileData := { bpd with numCalls := bpd.numCalls + nrCall }

def addRuntime (bpd : BaseProfileData) (runtime : ℚ) : Except Exn BaseProfileData :=
  if runtime < 0 then .error (.assertion "runtime >= 0")
  else .ok { bpd with timeInSeconds := bpd.timeInSeconds + runtime }

def addInclusiveRuntimeInSeconds (bpd : BaseProfileData) (newInclusiveTimeInSeconds : ℚ) : Except Exn BaseProfileData :=
  if newInclusiveTimeInSeconds < 0 then .error (.assertion "newInclusiveTimeInSeconds >= 0")
  else .ok { bpd with inclTimeInSeconds := bpd.inclTimeInSeconds + newInclusiveTimeInSeconds }

def addNumberOfCallsFrom (bpd : BaseProfileData) (parentNode : Option ℕ) (calls : UInt64) : BaseProfileData :=
  { bpd with callFrom := bpd.callFrom.insert parentNode (UMap.getD bpd.callFrom parentNode 0 + calls) }

def pushCgLocation (bpd : BaseProfileData) (toPush : CgLocation) : BaseProfileData :=
  { bpd with cgLoc := bpd.cgLoc ++ [toPush] }

/-- The calls by the name of the caller; the pairs come in the order of the hash map, and a later one wins. -/
def getCallsFromParents (g : Callgraph) (bpd : BaseProfileData) : Except Exn (OMap String UInt64) :=
  (UMap.toPairs bpd.callFrom).foldlM (fun result p =>
    match p.1 with
    | none => .ok result
    | some parent => do return result.insert (← deref g parent).functionName p.2) OMap.empty

end BaseProfileData

/-- `comesFromCube()` of the data that `getOrCreate` finds or makes. -/
def NodeData.comesFromCube (d : NodeData) : Bool := (d.piraOne.getD .create).wasInPreviousProfile

/-- `getOrCreate<PiraOneData>()` -/
def NodeData.withPiraOne (d : NodeData) : NodeData := { d with piraOne := some (d.piraOne.getD .create) }

/-- `isAnyInstrumented` -/
def NodeData.isAnyInstrumented (d : NodeData) : Bool :=
  decide (d.instrumentation = .instrumented) || decide (d.instrumentation = .instrumentedPath)

/-- `attachMetaDataToGraph<PiraOneData>` and `attachMetaDataToGraph<BaseProfileData>`, for each node of a graph. -/
def NodeData.attachMetaData (d : NodeData) : NodeData :=
  { d.withPiraOne with baseProfile := some (d.baseProfile.getD .create) }

/-! ## What a change leaves alone -/

section
variable (d : NodeData)

@[simp] theorem NodeData.comesFromCube_withPiraOne : d.withPiraOne.comesFromCube = d.comesFromCube := rfl

@[simp] theorem NodeData.withPiraOne_twice : d.withPiraOne.withPiraOne = d.withPiraOne := rfl

@[simp] theorem NodeData.baseProfile_withPiraOne : d.withPiraOne.baseProfile = d.baseProfile := rfl

@[simp] theorem NodeData.instrumentationResult_withPiraOne : d.withPiraOne.instrumentationResult = d.instrumentationResult := rfl

end
end MetaCG.Pgis.Profile
