import MetaCG.Pgis.ProfileData

/-! What the metadata of a profile looks like in a file (`toJson` and the constructors of `CgNodeMetaData.h`).

Unlike the identifiers and counters of the call graph itself these fields are floating-point numbers, so a value holds a
rational. A quotient that is no number is written as null, which is not a number when it is read. -/
namespace MetaCG.Pgis.Profile
open Foundations
set_option autoImplicit false
set_option maxHeartbeats 250000
set_option maxRecDepth 120000

inductive Value where
  | null
  | bool (b : Bool)
  | unsigned (n : ℕ)
  | integer (z : ℤ)
  | number (q : ℚ)
  | obj (fields : List (String × Value))

namespace Value

def ofFields (l : List (String × Value)) : Value := .obj (Ordered.ofList l)

def isNull : Value → Bool
  | .null => true
  | _ => false

/-- `j[key]` of a constant value. -/
def subscript (j : Value) (key : String) : Except Exn Value :=
  match j with
  | .obj fields =>
    match Ordered.find key fields with
    | some v => .ok v
    | none => .error .undefined
  | _ => .error .typeError

/-- The conversion of a floating-point number to an integer type drops the fraction. -/
def truncate (q : ℚ) : ℤ := q.num.tdiv q.den

/-- `get<unsigned long long int>()` -/
def getUnsigned : Value → Except Exn UInt64
  | .unsigned n => .ok (UInt64.ofNat n)
  | .integer z => .ok (UInt64.ofNat (z % 18446744073709551616).toNat)
  | .number q => .ok (UInt64.ofNat (truncate q % 18446744073709551616).toNat)
  | .bool b => .ok (if b then 1 else 0)
  | _ => .error .typeError

/-- `get<double>()` -/
def getNumber : Value → Except Exn ℚ
  | .unsigned n => .ok n
  | .integer z => .ok z
  | .number q => .ok q
  | _ => .error .typeError

/-- `get<bool>()` -/
def getBool : Value → Except Exn Bool
  | .bool b => .ok b
  | _ => .error .typeError

/-- `get<long long int>()` -/
def getInteger : Value → Except Exn ℤ
  | .unsigned n => .ok n
  | .integer z => .ok z
  | .number q => .ok (truncate q)
  | .bool b => .ok (if b then 1 else 0)
  | _ => .error .typeError

/-- `get<std::map<std::string, unsigned long long>>()` -/
def getCounters : Value → Except Exn (OMap String UInt64)
  | .obj fields => fields.foldlM (fun m e => do return m.insert e.1 (← e.2.getUnsigned)) OMap.empty
  | _ => .error .typeError

def ofQuotient : Option ℚ → Value
  | some q => .number q
  | none => .null

def ofCounters (m : OMap String UInt64) : Value := .obj (m.entries.map fun e => (e.1, .unsigned e.2.toNat))

end Value

/-! ## The classes -/

def BaseProfileData.toJson (bpd : BaseProfileData) : Value := .ofFields [
  ("numCalls", .unsigned bpd.numCalls.toNat),
  ("timeInSeconds", .number bpd.timeInSeconds),
  ("inclusiveRtInSeconds", .number bpd.inclTimeInSeconds)]

def BaseProfileData.ofJson (j : Value) : Except Exn BaseProfileData :=
  if j.isNull then .ok .create
  else do
    let jsonNumCalls ← (← j.subscript "numCalls").getUnsigned
    let rtInSeconds ← (← j.subscript "timeInSeconds").getNumber
    let inclRtInSeconds ← (← j.subscript "inclusiveRtInSeconds").getNumber
    return { BaseProfileData.create with
      numCalls := jsonNumCalls, timeInSeconds := rtInSeconds, inclTimeInSeconds := inclRtInSeconds }

def PiraOneData.toJson (p : PiraOneData) : Value := .integer p.numStmts

def PiraOneData.ofJson (j : Value) : Except Exn PiraOneData :=
  if j.isNull then .ok .create else do return { PiraOneData.create with numStmts := ← j.getInteger }

def InstrumentationResultMetaData.toJson (r : InstrumentationResultMetaData) : Value := .ofFields [
  ("calls", .unsigned r.callCount.toNat),
  ("runtime", .number r.runtime),
  ("timePerCall", .ofQuotient r.timePerCall),
  ("exclusive", .bool r.isExclusiveRuntime),
  ("inclusiveRuntimeCube", .number r.inclusiveRunTimeCube),
  ("inclusiveTimePerCallCube", .ofQuotient r.inclusiveTimePerCallCube),
  ("inclusiveRuntimeSum", .number r.inclusiveRunTimeSum),
  ("inclusiveTimePerCallSum", .ofQuotient r.inclusiveTimePerCallSum),
  ("shouldBeInstrumented", .bool r.shouldBeInstrumented),
  ("callsFromParents", .ofCounters r.callsFromParents)]

def InstrumentationResultMetaData.ofJson (j : Value) : Except Exn InstrumentationResultMetaData :=
  if j.isNull then .ok .create
  else do
    let callCount ← (← j.subscript "calls").getUnsigned
    let runtime ← (← j.subscript "runtime").getNumber
    let timePerCall ← (← j.subscript "timePerCall").getNumber
    let isExclusiveRuntime ← (← j.subscript "exclusive").getBool
    let inclusiveRunTimeCube ← (← j.subscript "inclusiveRuntimeCube").getNumber
    let inclusiveTimePerCallCube ← (← j.subscript "inclusiveTimePerCallCube").getNumber
    let inclusiveRunTimeSum ← (← j.subscript "inclusiveRuntimeSum").getNumber
    let inclusiveTimePerCallSum ← (← j.subscript "inclusiveTimePerCallSum").getNumber
    let shouldBeInstrumented ← (← j.subscript "shouldBeInstrumented").getBool
    let callsFromParents ← (← j.subscript "callsFromParents").getCounters
    return {
      callCount, callsFromParents, runtime, timePerCall := some timePerCall, inclusiveRunTimeCube,
      inclusiveTimePerCallCube := some inclusiveTimePerCallCube, inclusiveRunTimeSum,
      inclusiveTimePerCallSum := some inclusiveTimePerCallSum, isExclusiveRuntime, shouldBeInstrumented }

/-- The metadata of a node in the next process: it is written and read, and what is missing is attached. The mark for the
instrumentation is not written. -/
def NodeData.reload (d : NodeData) : Except Exn NodeData := do
  let piraOne ← d.piraOne.mapM fun p => PiraOneData.ofJson p.toJson
  let baseProfile ← d.baseProfile.mapM fun bpd => BaseProfileData.ofJson bpd.toJson
  let instrumentationResult ← d.instrumentationResult.mapM fun r => InstrumentationResultMetaData.ofJson r.toJson
  return NodeData.attachMetaData { instrumentation := .none, piraOne, baseProfile, instrumentationResult }

/-! ## Round trips -/

/-- Whether the three quotients of a result are numbers. -/
def InstrumentationResultMetaData.finite (r : InstrumentationResultMetaData) : Bool :=
  r.timePerCall.isSome && r.inclusiveTimePerCallCube.isSome && r.inclusiveTimePerCallSum.isSome

theorem Value.subscript_ofFields {l : List (String × Value)} (hn : (l.map Prod.fst).Nodup) {key : String} {v : Value}
    (h : Ordered.find key l = some v) : (Value.ofFields l).subscript key = .ok v := by
  rw [← Ordered.find_ofList hn] at h
  simp only [Value.subscript, Value.ofFields, h]

@[simp] theorem Value.isNull_ofFields (l : List (String × Value)) : (Value.ofFields l).isNull = false := rfl

@[simp] theorem Value.getUnsigned_toNat (n : UInt64) : (Value.unsigned n.toNat).getUnsigned = .ok n := by
  rw [Value.getUnsigned, UInt64.ofNat_toNat]

theorem Value.getCounters_ofCounters (m : OMap String UInt64) : (Value.ofCounters m).getCounters = .ok m := by
  unfold Value.ofCounters Value.getCounters
  dsimp only
  rw [List.foldlM_map]
  have hloop : m.entries.foldlM (fun acc e => (do
      return OMap.insert e.1 (← (Value.unsigned e.2.toNat).getUnsigned) acc : Except Exn (OMap String UInt64))) OMap.empty =
      .ok (m.entries.foldl (fun acc e => OMap.insert e.1 e.2 acc) OMap.empty) :=
    foldlM_eq_foldl (fun acc e _ => by rw [Value.getUnsigned_toNat]; rfl) _
  exact hloop.trans (congrArg _ (OMap.foldl_insert_entries m))

/-- The callers and the locations are not written. -/
theorem BaseProfileData.ofJson_toJson (bpd : BaseProfileData) :
    BaseProfileData.ofJson bpd.toJson = .ok { bpd with callFrom := ∅, cgLoc := [] } := by
  have hcalls : bpd.toJson.subscript "numCalls" = .ok (.unsigned bpd.numCalls.toNat) :=
    Value.subscript_ofFields (by simp) rfl
  have htime : bpd.toJson.subscript "timeInSeconds" = .ok (.number bpd.timeInSeconds) :=
    Value.subscript_ofFields (by simp) rfl
  have hincl : bpd.toJson.subscript "inclusiveRtInSeconds" = .ok (.number bpd.inclTimeInSeconds) :=
    Value.subscript_ofFields (by simp) rfl
  have hnull : bpd.toJson.isNull = false := rfl
  unfold BaseProfileData.ofJson
  rw [hnull]
  simp only [Bool.false_eq_true, if_false, hcalls, htime, hincl, ok_bind, Value.getUnsigned_toNat, Value.getNumber]
  rfl

/-- Only the number of statements is written. -/
theorem PiraOneData.ofJson_toJson (p : PiraOneData) :
    PiraOneData.ofJson p.toJson = .ok { PiraOneData.create with numStmts := p.numStmts } := rfl

/-- A result is read back as it was if its quotients are numbers, and stops the reader otherwise. -/
theorem InstrumentationResultMetaData.ofJson_toJson (r : InstrumentationResultMetaData) :
    InstrumentationResultMetaData.ofJson r.toJson = if r.finite then .ok r else .error .typeError := by
  have hcalls : r.toJson.subscript "calls" = .ok (.unsigned r.callCount.toNat) := Value.subscript_ofFields (by simp) rfl
  have hruntime : r.toJson.subscript "runtime" = .ok (.number r.runtime) := Value.subscript_ofFields (by simp) rfl
  have hper : r.toJson.subscript "timePerCall" = .ok (.ofQuotient r.timePerCall) := Value.subscript_ofFields (by simp) rfl
  have hexclusive : r.toJson.subscript "exclusive" = .ok (.bool r.isExclusiveRuntime) :=
    Value.subscript_ofFields (by simp) rfl
  have hcube : r.toJson.subscript "inclusiveRuntimeCube" = .ok (.number r.inclusiveRunTimeCube) :=
    Value.subscript_ofFields (by simp) rfl
  have hperCube : r.toJson.subscript "inclusiveTimePerCallCube" = .ok (.ofQuotient r.inclusiveTimePerCallCube) :=
    Value.subscript_ofFields (by simp) rfl
  have hsum : r.toJson.subscript "inclusiveRuntimeSum" = .ok (.number r.inclusiveRunTimeSum) :=
    Value.subscript_ofFields (by simp) rfl
  have hperSum : r.toJson.subscript "inclusiveTimePerCallSum" = .ok (.ofQuotient r.inclusiveTimePerCallSum) :=
    Value.subscript_ofFields (by simp) rfl
  have hshould : r.toJson.subscript "shouldBeInstrumented" = .ok (.bool r.shouldBeInstrumented) :=
    Value.subscript_ofFields (by simp) rfl
  have hparents : r.toJson.subscript "callsFromParents" = .ok (.ofCounters r.callsFromParents) :=
    Value.subscript_ofFields (by simp) rfl
  have hnull : r.toJson.isNull = false := rfl
  unfold InstrumentationResultMetaData.ofJson
  rw [hnull]
  simp only [Bool.false_eq_true, if_false, hcalls, hruntime, hper, hexclusive, hcube, hperCube, hsum, hperSum, hshould,
    hparents, ok_bind, Value.getUnsigned_toNat, Value.getNumber, Value.getBool, Value.getCounters_ofCounters]
  obtain ⟨callCount, callsFromParents, runtime, timePerCall, cube, perCube, sum, perSum, exclusive, should⟩ := r
  cases timePerCall with
  | none => rfl
  | some q =>
    cases perCube with
    | none => rfl
    | some q' =>
      cases perSum with
      | none => rfl
      | some q'' => rfl

/-- What is left of the metadata of a node in the next process. -/
def NodeData.reloaded (d : NodeData) : NodeData where
  instrumentation := .none
  piraOne := some { PiraOneData.create with numStmts := (d.piraOne.getD .create).numStmts }
  baseProfile := some { d.baseProfile.getD .create with callFrom := ∅, cgLoc := [] }
  instrumentationResult := d.instrumentationResult

/-- The next process gets the statements, the sums of the profile and the result, unless a quotient is no number. -/
theorem NodeData.reload_eq (d : NodeData) : d.reload =
    if d.instrumentationResult.all InstrumentationResultMetaData.finite then .ok d.reloaded else .error .typeError := by
  obtain ⟨instrumentation, piraOne, baseProfile, result⟩ := d
  unfold NodeData.reload
  dsimp only
  cases piraOne <;> cases baseProfile <;> cases result <;>
    simp only [Option.mapM_none, Option.mapM_some, PiraOneData.ofJson_toJson, BaseProfileData.ofJson_toJson,
      InstrumentationResultMetaData.ofJson_toJson, Option.all_none, Option.all_some]
  all_goals first
    | rfl
    | split_ifs <;> rfl

end MetaCG.Pgis.Profile
