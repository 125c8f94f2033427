import MetaCG.Foundations.StableList

/-! Equivalence classes of objects and their unification (`AliasAnalysis.h`, `AliasAnalysis.cpp`).

Iterators into `callInfoMap` and `findMap` are the keys they point to: entries of these maps are never
erased. An iterator into `equivClasses` is a cell of the list and dangles once the cell is erased. -/
namespace MetaCG.AliasAnalysis
open Foundations
set_option autoImplicit false
set_option maxHeartbeats 250000
set_option maxRecDepth 120000

/-- How a run can end early. `outOfFuel` is not an outcome of the code: it says that the recursion was cut off. -/
inductive Fault where
  | assertion (condition : String)
  /-- `at` of a missing key -/
  | outOfRange
  /-- an end iterator or an erased one is dereferenced -/
  | undefined
  | outOfFuel
deriving DecidableEq, Repr

structure Prefix where
  object : String
  /-- empty for the `*` operator -/
  member : String
deriving DecidableEq, Repr

/-- `operator<` of two prefixes. -/
def Prefix.lt (lhs rhs : Prefix) : Bool :=
  if lhs.object < rhs.object then true
  else if rhs.object < lhs.object then false
  else if !lhs.member.isEmpty && !rhs.member.isEmpty then decide (lhs.member < rhs.member)
  else !lhs.member.isEmpty

structure EquivClass where
  objects : List String
  prefixes : List Prefix
deriving DecidableEq, Repr

structure FunctionInfo where
  mangledNames : List String
  parameters : List String
  referencedInReturnStmts : List String
  isVariadic : Bool
deriving DecidableEq, Repr

structure CallInfo where
  calledObjects : List String
  arguments : List (List String)
deriving DecidableEq, Repr

abbrev EquivClassesIterator := ℕ

abbrev CallInfoConstIter := String

/-- Function objects, each with a call that may call it. -/
abbrev FunctionCalls := List (String × CallInfoConstIter)

structure EquivClassContainer where
  equivClasses : StableList EquivClass
  functionMap : OMap String String
  functionInfoMap : OMap String FunctionInfo
  callInfoMap : OMap String CallInfo
  findMap : OMap String EquivClassesIterator
  callExprParentMap : OMap String String
  referencedInCalls : OMap String (List CallInfoConstIter)

namespace EquivClassContainer

def empty : EquivClassContainer := ⟨.empty, .empty, .empty, .empty, .empty, .empty, .empty⟩

/-- The calls by the objects they call. -/
def callsByObject (callInfoMap : OMap String CallInfo) : OMap String (List CallInfoConstIter) :=
  callInfoMap.entries.foldl (fun refs call =>
    call.2.calledObjects.foldl (fun refs ref => refs.insert ref ((refs.find ref).getD [] ++ [call.1])) refs) .empty

def initReferencedInCalls (data : EquivClassContainer) : EquivClassContainer :=
  { data with referencedInCalls := callsByObject data.callInfoMap }

def deref (data : EquivClassContainer) (it : EquivClassesIterator) : Except Fault EquivClass :=
  match data.equivClasses.get it with
  | some c => .ok c
  | none => .error .undefined

end EquivClassContainer

/-- The condition of the search in `GetPrefixesToMerge`; two members are equal when both are empty or
both are not and agree. -/
def mergesWith (p foundPrefix : Prefix) : Bool :=
  decide (p.object ≠ foundPrefix.object) &&
    ((p.member.isEmpty && foundPrefix.member.isEmpty) ||
      ((!p.member.isEmpty && !foundPrefix.member.isEmpty) && decide (p.member = foundPrefix.member)))

/-- One round of `GetPrefixesToMerge`. -/
def prefixToMerge (state : EquivClass × List (String × String)) (p : Prefix) : EquivClass × List (String × String) :=
  match state.1.prefixes.find? (mergesWith p) with
  | some o1 => (state.1, state.2 ++ [(p.object, o1.object)])
  | none => ({ state.1 with prefixes := state.1.prefixes ++ [p] }, state.2)

def getPrefixesToMerge (equivClassToMergeInto : EquivClass) (prefixesToMerge : List Prefix)
    (objectsToMerge : List (String × String)) : EquivClass × List (String × String) :=
  prefixesToMerge.foldl prefixToMerge (equivClassToMergeInto, objectsToMerge)

/-- The calls that call an object of the class. -/
def usedInCall (data : EquivClassContainer) (e : EquivClass) : List CallInfoConstIter :=
  e.objects.flatMap fun obj => (data.referencedInCalls.find obj).getD []

def getFunctionsToMerge (data : EquivClassContainer) (ret : FunctionCalls) (e : EquivClass) : FunctionCalls :=
  let functionDecls := e.objects.filter fun obj => (data.functionMap.find obj).isSome
  ret ++ functionDecls.flatMap fun f => (usedInCall data e).map fun c => (f, c)

structure MergeResult where
  /-- an iterator into `findMap` -/
  iter : String
  objectsToMerge : List (String × String)
deriving DecidableEq, Repr

/-- The container with the new class `e` in the place of the classes `c1` and `c2`. -/
def replaceClasses (data : EquivClassContainer) (e1 e2 : EquivClassesIterator) (c1 c2 e : EquivClass) : EquivClassContainer :=
  let iter := data.equivClasses.next
  { data with
    equivClasses := ((data.equivClasses.insert_end e).erase e1).erase e2
    findMap := (c1.objects ++ c2.objects).foldl (fun m entry => m.insert entry iter) data.findMap }

-- The prefixes of the local `E` are sorted and made unique only after it was copied into the list: the
-- class in the list keeps its duplicates.
def merge (data : EquivClassContainer) (e1 e2 : EquivClassesIterator) : Except Fault (MergeResult × EquivClassContainer) :=
  if e1 = e2 then .error (.assertion "E1 != E2") else do
    let c1 ← data.deref e1
    let c2 ← data.deref e2
    match c1.objects, c2.objects with
    | front :: _, _ :: _ =>
      let merged := getPrefixesToMerge ⟨c1.objects ++ c2.objects, c1.prefixes⟩ c2.prefixes []
      .ok (⟨front, merged.2⟩, replaceClasses data e1 e2 c1 c2 merged.1)
    | [], _ => .error (.assertion "!E1->Objects.empty()")
    | _, [] => .error (.assertion "!E2->Objects.empty()")

/-- Merge the classes of two objects unless they are in one class already, and append what this returns.
`missing` is what happens when an object is not in `findMap`. -/
def mergeObjects
    (mergeClasses : EquivClassContainer → EquivClassesIterator → EquivClassesIterator →
      Except Fault ((FunctionCalls × EquivClassesIterator) × EquivClassContainer))
    (missing : Fault) (state : FunctionCalls × EquivClassContainer) (entry : String × String) :
    Except Fault (FunctionCalls × EquivClassContainer) :=
  match state.2.findMap.find entry.1, state.2.findMap.find entry.2 with
  | some f, some f1 =>
    if f = f1 then .ok state else do
      let tmp ← mergeClasses state.2 f f1
      pure (state.1 ++ tmp.1.1, tmp.2)
  | _, _ => .error missing

def mergeRecurisve : ℕ → EquivClassContainer → EquivClassesIterator → EquivClassesIterator →
    Except Fault ((FunctionCalls × EquivClassesIterator) × EquivClassContainer)
  | 0, _, _, _ => .error .outOfFuel
  | fuel + 1, data, e1, e2 => do
    let (result, data) ← merge data e1 e2
    let (ret, data) ← result.objectsToMerge.foldlM
      (mergeObjects (mergeRecurisve fuel) (.assertion "F != Data.FindMap.end()")) ([], data)
    -- `result.iter` is looked up again: the nested merges have replaced the class it pointed to
    match data.findMap.find result.iter with
    | none => .error .undefined
    | some iter =>
      let e ← data.deref iter
      pure ((getFunctionsToMerge data ret e, iter), data)

/-- One parameter with its argument objects; a parameter without an argument only needs to be known. -/
def mergeParameter (fuel : ℕ) (ci : CallInfo) (state : FunctionCalls × EquivClassContainer) (arg : String × ℕ) :
    Except Fault (FunctionCalls × EquivClassContainer) :=
  if (state.2.findMap.find arg.1).isNone then .error (.assertion "ItL != Data.FindMap.end()")
  else ((ci.arguments[arg.2]?).getD []).foldlM
    (fun state r => mergeObjects (mergeRecurisve fuel) (.assertion "ItR != Data.FindMap.end()") state (arg.1, r)) state

def mergeReturns (fuel : ℕ) (callExprUSR : String) (returns : List String) (state : FunctionCalls × EquivClassContainer) :
    Except Fault (FunctionCalls × EquivClassContainer) :=
  if returns.isEmpty then .ok state
  else if (state.2.findMap.find callExprUSR).isNone then .error (.assertion "ItL != Data.FindMap.end()")
  else returns.foldlM
    (fun state r => mergeObjects (mergeRecurisve fuel) (.assertion "ItR != Data.FindMap.end()") state (callExprUSR, r)) state

-- The result is an engaged `std::optional` on every path, so it is not modelled as one.
def mergeFunctionCallImpl (fuel : ℕ) (data : EquivClassContainer) (calledFunctionName callingFunctionName : String)
    (ci : CallInfo) (callExprUSR : String) :
    Except Fault ((FunctionCalls × (String × String)) × EquivClassContainer) :=
  match data.functionInfoMap.find calledFunctionName with
  | none => .error (.assertion "Data.FunctionInfoMap.find(CalledFunctionName) != Data.FunctionInfoMap.end()")
  | some calledFunction => do
    let state ← calledFunction.parameters.zipIdx.foldlM (mergeParameter fuel ci) ([], data)
    let state ← mergeReturns fuel callExprUSR calledFunction.referencedInReturnStmts state
    pure ((state.1, (callingFunctionName, calledFunctionName)), state.2)

/-- `operator[]`: a missing key is inserted with the empty string. -/
def parentOf (data : EquivClassContainer) (ce : CallInfoConstIter) : String × EquivClassContainer :=
  match data.callExprParentMap.find ce with
  | some parent => (parent, data)
  | none => ("", { data with callExprParentMap := data.callExprParentMap.insert ce "" })

def mergeFunctionCall (fuel : ℕ) (data : EquivClassContainer) (calledObj : String) (ce : CallInfoConstIter) :
    Except Fault ((FunctionCalls × (String × String)) × EquivClassContainer) :=
  match data.functionMap.find calledObj with
  | none => .error (.assertion "FunctionMapIter != Data.FunctionMap.end()")
  | some calledFunctionName =>
    let (callingFunctionName, data) := parentOf data ce
    match data.callInfoMap.find ce with
    | none => .error .undefined
    | some ci => mergeFunctionCallImpl fuel data calledFunctionName callingFunctionName ci ce

end MetaCG.AliasAnalysis
