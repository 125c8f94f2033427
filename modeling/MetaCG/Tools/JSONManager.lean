import Mathlib.Data.Finset.Sort
import Mathlib.Data.Rat.Init
import MetaCG.Foundations.OrderedMap
import MetaCG.Foundations.Search

/-! Files of format two and the function table that is built from them (`JSONManager.h`,
`JSONManager.cpp`).

A file is given by the members that the tools read. The ones that a collector may leave out are
`Option`s, or `Member`s where a merge can make them null; arrays that are read as
`std::set<std::string>` are sets. -/
namespace MetaCG.FormatTwo
open Foundations
set_option autoImplicit false
set_option maxHeartbeats 250000
set_option maxRecDepth 120000

/-- A member of a JSON object: not there, null or a value. -/
inductive Member (α : Type) where
  | missing
  | null
  | value (a : α)
deriving DecidableEq

namespace Member
variable {α : Type}

def contains : Member α → Bool
  | .missing => false
  | _ => true

/-- `j[key]` of a variable: a missing member becomes null. -/
def subscript : Member α → Member α
  | .missing => .null
  | m => m

end Member

structure FileProperties where
  origin : String
  systemInclude : Bool
deriving DecidableEq

structure CodeRegion where
  parent : String
  functions : Finset String
  parentCalls : ℚ
deriving DecidableEq

structure EstimateCallCount where
  calls : OMap String (Finset (ℚ × String))
  codeRegions : OMap String CodeRegion
deriving DecidableEq

/-- The members of `"meta"` that are read or written. -/
structure MetaInfo where
  numStatements : ℤ
  fileProperties : FileProperties
  inlineInfo : Member Bool
  numConditionalBranches : Member ℤ
  numOperations : Member ℤ
  loopDepth : Member ℤ
  loopCallDepth : Option (OMap String ℤ)
  globalLoopDepth : Option ℤ
  estimateCallCount : Option EstimateCallCount
deriving DecidableEq

/-- The JSON value of a function. -/
structure Node where
  callees : Finset String
  callers : Finset String
  overrides : Finset String
  overriddenBy : Finset String
  isVirtual : Bool
  doesOverride : Bool
  hasBody : Bool
  info : MetaInfo
deriving DecidableEq

/-- The value of `"_CG"`. -/
abbrev CG := OMap String Node

/-! ## The function table -/

structure FunctionInfo where
  functionName : String
  isVirtual : Bool
  doesOverride : Bool
  numStatements : ℤ
  hasBody : Bool
  callees : Finset String
  parents : Finset String
  overriddenFunctions : Finset String
  overriddenBy : Finset String
  fileProperty : Option FileProperties
deriving DecidableEq

/-- The default constructor. -/
def FunctionInfo.create : FunctionInfo := ⟨"_UNDEF_", false, false, -1, false, ∅, ∅, ∅, ∅, none⟩

abbrev FuncMap := OMap String FunctionInfo

/-- The value of `getOrInsert`. -/
def getOrInsert (function : String) (functions : FuncMap) : FunctionInfo :=
  match functions.find function with
  | some fi => fi
  | none => { FunctionInfo.create with functionName := function }

/-- One round of the loop that reads a file. Other than in format one, `doesOverride` is not read. -/
def readFunction (functionMap : FuncMap) (it : String × Node) : FuncMap :=
  let fi := getOrInsert it.1 functionMap
  functionMap.insert it.1
    { fi with
      functionName := it.1
      hasBody := it.2.hasBody
      isVirtual := it.2.isVirtual
      callees := fi.callees ∪ it.2.callees
      overriddenFunctions := fi.overriddenFunctions ∪ it.2.overrides
      overriddenBy := fi.overriddenBy ∪ it.2.overriddenBy
      parents := fi.parents ∪ it.2.callers
      numStatements := it.2.info.numStatements
      fileProperty := some it.2.info.fileProperties }

/-! ## Potential targets -/

/-- `functionMap[next].overriddenFunctions` -/
def overriddenFunctions (functionMap : FuncMap) (next : String) : Finset String :=
  match functionMap.find next with
  | some fi => fi.overriddenFunctions
  | none => ∅

/-- All names in the override data. -/
def overrideNames (functionMap : FuncMap) : Finset String :=
  (functionMap.entries.map fun e => e.2.overriddenFunctions).foldr (· ∪ ·) ∅

theorem mem_overrideNames {functionMap : FuncMap} {next name : String} (h : name ∈ overriddenFunctions functionMap next) :
    name ∈ overrideNames functionMap := by
  have key : ∀ (l : List (String × FunctionInfo)) (fi : FunctionInfo), (next, fi) ∈ l → name ∈ fi.overriddenFunctions →
      name ∈ (l.map fun e => e.2.overriddenFunctions).foldr (· ∪ ·) ∅ := by
    intro l fi hfi hname
    induction l with
    | nil => cases hfi
    | cons e l ih =>
      rw [List.map_cons, List.foldr_cons, Finset.mem_union]
      rcases List.mem_cons.mp hfi with rfl | hfi
      · exact .inl hname
      · exact .inr (ih hfi)
  unfold overriddenFunctions at h
  cases hfi : functionMap.find next with
  | none =>
    rw [hfi] at h
    exact absurd h (Finset.notMem_empty name)
  | some fi =>
    rw [hfi] at h
    exact key functionMap.entries fi (OMap.mem_entries.mpr hfi) h

/-- The elements of a `std::set<std::string>` in the order of its iterators. -/
def elements (names : Finset String) : List String := names.sort

@[simp] theorem mem_elements {names : Finset String} {name : String} : name ∈ elements names ↔ name ∈ names :=
  Finset.mem_sort _

theorem elements_nodup (names : Finset String) : (elements names).Nodup := Finset.sort_nodup ..

/-- The names taken from the queue. -/
def visitOverridden (functionMap : FuncMap) (visited : Finset String) (workQ : List String) : Finset String :=
  match workQ with
  | [] => visited
  | next :: workQ =>
    visitOverridden functionMap (insert next visited)
      (workQ ++ (elements (overriddenFunctions functionMap next)).filter fun om => om ∉ insert next visited)
termination_by Search.remaining (overrideNames functionMap ∪ workQ.toFinset) visited workQ
decreasing_by
  refine Search.remaining_mono (fun n hn => ?_) _ _ (Search.visit_lt
    (Finset.mem_union_right _ (List.mem_toFinset.mpr (List.mem_cons_self ..)))
    fun v hv => of_decide_eq_true (List.mem_filter.mp hv).2)
  rcases Finset.mem_union.mp hn with hn | hn
  · exact Finset.mem_union_left _ hn
  · rcases List.mem_append.mp (List.mem_toFinset.mp hn) with hn | hn
    · exact Finset.mem_union_right _ (List.mem_toFinset.mpr (List.mem_cons_of_mem _ hn))
    · exact Finset.mem_union_left _ (mem_overrideNames (mem_elements.mp (List.mem_filter.mp hn).1))

structure Targets where
  functionMap : FuncMap
  potentialTargets : OMap String (Finset String)
  overrides : OMap String (Finset String)

/-- `map[key].insert(names.begin(), names.end())` -/
def addNames (map : OMap String (Finset String)) (key : String) (names : Finset String) : OMap String (Finset String) :=
  map.insert key ((map.find key).getD ∅ ∪ names)

/-- One overridden function of the virtual function `k`. -/
def addOverridden (k : String) (st : Targets) (overriddenFunction : String) : Targets :=
  let visited := visitOverridden st.functionMap ∅ [overriddenFunction]
  { functionMap := (elements visited).foldl (fun m next => m.emplace next FunctionInfo.create) st.functionMap
    potentialTargets := (elements visited).foldl (fun m next => addNames m next {k}) st.potentialTargets
    overrides := addNames st.overrides k visited }

def addPotentialTarget (st : Targets) (it : String × FunctionInfo) : Targets :=
  if it.2.isVirtual && it.2.doesOverride then (elements it.2.overriddenFunctions).foldl (addOverridden it.1) st else st

/-- The second half of `buildFromJSON` and `buildFromJSONv2`. -/
def addPotentialTargets (functionMap : FuncMap) : FuncMap :=
  let st := functionMap.entries.foldl addPotentialTarget ⟨functionMap, .empty, .empty⟩
  st.functionMap.mapValues fun k funcInfo =>
    { funcInfo with
      overriddenBy := funcInfo.overriddenBy ∪ (st.potentialTargets.find k).getD ∅
      overriddenFunctions := funcInfo.overriddenFunctions ∪ (st.overrides.find k).getD ∅ }

/-- The function table after `buildFromJSONv2`, which returns the `"_CG"` of the file. -/
def buildFromJSONv2 (functionMap : FuncMap) (cg : CG) : FuncMap :=
  addPotentialTargets (cg.entries.foldl readFunction functionMap)

/-! ## What the table collects -/

/-- `doesOverride` is nowhere set. -/
def NoOverride (functionMap : FuncMap) : Prop := ∀ k fi, functionMap.find k = some fi → fi.doesOverride = false

theorem NoOverride.empty : NoOverride .empty := fun k fi h => by cases h

theorem NoOverride.readFunction {functionMap : FuncMap} (h : NoOverride functionMap) (it : String × Node) :
    NoOverride (readFunction functionMap it) := by
  intro k fi hfi
  rw [FormatTwo.readFunction, OMap.find_insert] at hfi
  split_ifs at hfi with hk
  · cases hfi
    change (getOrInsert it.1 functionMap).doesOverride = false
    unfold getOrInsert
    cases hold : functionMap.find it.1 with
    | none => rfl
    | some old => exact h it.1 old hold
  · exact h k fi hfi

/-- Without overriding functions there are no potential targets. -/
theorem NoOverride.addPotentialTargets {functionMap : FuncMap} (h : NoOverride functionMap) :
    addPotentialTargets functionMap = functionMap := by
  have hfold : ∀ (l : List (String × FunctionInfo)), (∀ e ∈ l, e.2.doesOverride = false) → ∀ st : Targets,
      l.foldl addPotentialTarget st = st := by
    intro l
    induction l with
    | nil => exact fun _ st => rfl
    | cons e l ih =>
      intro hl st
      have hskip : addPotentialTarget st e = st := by
        rw [addPotentialTarget, hl e (List.mem_cons_self ..), Bool.and_false, if_neg Bool.false_ne_true]
      rw [List.foldl_cons, hskip]
      exact ih (fun e' he' => hl e' (List.mem_cons_of_mem e he')) st
  have hall : ∀ e ∈ functionMap.entries, e.2.doesOverride = false := fun e he => h e.1 e.2 (OMap.mem_entries.mp he)
  unfold FormatTwo.addPotentialTargets
  rw [hfold functionMap.entries hall]
  refine OMap.ext_entries ?_
  change functionMap.entries.map _ = functionMap.entries
  simp

end MetaCG.FormatTwo
