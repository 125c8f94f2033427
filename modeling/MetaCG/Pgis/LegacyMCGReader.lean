import MetaCG.Foundations.HashTable
import MetaCG.Graph.ByName
import MetaCG.Tools.OverrideClosure

/-! The reader of format one (`LegacyMCGReader.cpp`) from its function table on.

The table is a hash table that `buildVirtualFunctionHierarchy` extends while it runs over it. A rehash loses the
iterator of that loop, which is the error `undefined`. `namedMetadata` of a function is never filled and left out. -/
namespace MetaCG.Pgis
open Foundations
set_option autoImplicit false
set_option maxHeartbeats 250000
set_option maxRecDepth 120000

structure FunctionInfo where
  functionName : String
  isVirtual : Bool
  doesOverride : Bool
  numStatements : ℤ
  hasBody : Bool
  callees : Finset String
  parents : Finset String
  overriddenFunctions : Finset String
  overriddenBy : Finset String
  visited : Bool
  irrelevant : Bool
deriving DecidableEq

/-- The default constructor. -/
def FunctionInfo.create : FunctionInfo := ⟨"_UNDEF_", false, false, -1, false, ∅, ∅, ∅, ∅, false, false⟩

abbrev FuncMapT := HashTable String FunctionInfo

abbrev StrStrMap := UMap String (Finset String)

def FunctionInfo.overriding (fi : FunctionInfo) : Overriding := ⟨fi.isVirtual, fi.doesOverride, fi.overriddenFunctions⟩

def recorded (functions : FuncMapT) (name : String) : Option Overriding :=
  (functions.lookup name).map FunctionInfo.overriding

/-! ## The virtual function hierarchy -/

/-- `functions[next].overriddenFunctions` -/
def overriddenFunctions (functions : FuncMapT) (next : String) : Finset String :=
  match functions.lookup next with
  | some fi => fi.overriddenFunctions
  | none => ∅

/-- All names in the override data. -/
def overrideNames (functions : FuncMapT) : Finset String := functions.keys.biUnion (overriddenFunctions functions)

theorem mem_overrideNames {functions : FuncMapT} {name : String} :
    name ∈ overrideNames functions ↔ ∃ next, name ∈ overriddenFunctions functions next := by
  rw [overrideNames, Finset.mem_biUnion]
  refine exists_congr fun next => and_iff_right_of_imp fun h => ?_
  by_contra hnot
  rw [overriddenFunctions, HashTable.lookup_eq_none.mpr hnot] at h
  exact absurd h (Finset.notMem_empty name)

/-- A function that is inserted has no override data. -/
theorem overriddenFunctions_subscript {functions functions' : FuncMapT} {next : String}
    (h : functions.subscript FunctionInfo.create next = some functions') :
    overriddenFunctions functions' = overriddenFunctions functions := by
  funext name
  unfold overriddenFunctions
  rw [(HashTable.subscript_cases h).2.2]
  split_ifs with hn
  · rw [hn]
    cases functions.lookup next <;> rfl
  · rfl

/-- `potentialTargets[g].insert(k)` -/
def insertTarget (potentialTargets : StrStrMap) (g k : String) : StrStrMap :=
  potentialTargets.insert g (insert k (UMap.getD potentialTargets g ∅))

/-- The loop over `workQ`. -/
def visitOverridden (order : SetOrder String) (k : String) (functions : FuncMapT) (potentialTargets : StrStrMap)
    (visited : Finset String) (workQ : List String) : Except Exn (FuncMapT × StrStrMap) :=
  match workQ with
  | [] => .ok (functions, potentialTargets)
  | next :: workQ =>
    match _hsubscript : functions.subscript FunctionInfo.create next with
    | none => .error .undefined
    | some functions' =>
      visitOverridden order k functions' (insertTarget potentialTargets next k) (insert next visited)
        (workQ ++ (order.run (overriddenFunctions functions' next)).filter fun om => om ∉ insert next visited)
termination_by Search.remaining (overrideNames functions ∪ workQ.toFinset) visited workQ
decreasing_by
  refine Search.remaining_mono (fun n hn => ?_) _ _ (Search.visit_lt
    (Finset.mem_union_right _ (List.mem_toFinset.mpr (List.mem_cons_self ..)))
    fun v hv => of_decide_eq_true (List.mem_filter.mp hv).2)
  have hnames : ∀ name next, name ∈ overriddenFunctions functions' next → name ∈ overrideNames functions := by
    intro name next hname
    rw [overriddenFunctions_subscript _hsubscript] at hname
    exact mem_overrideNames.mpr ⟨next, hname⟩
  rcases Finset.mem_union.mp hn with hn | hn
  · obtain ⟨next', hn⟩ := mem_overrideNames.mp hn
    exact Finset.mem_union_left _ (hnames n next' hn)
  · rcases List.mem_append.mp (List.mem_toFinset.mp hn) with hn | hn
    · exact Finset.mem_union_right _ (List.mem_toFinset.mpr (List.mem_cons_of_mem _ hn))
    · exact Finset.mem_union_left _ (hnames n next ((order.mem_run _ n).mp (List.mem_filter.mp hn).1))

/-- One overridden function of the virtual function `k`. -/
def addOverridden (order : SetOrder String) (k : String) (st : FuncMapT × StrStrMap) (overriddenFunction : String) :
    Except Exn (FuncMapT × StrStrMap) :=
  visitOverridden order k st.1 (insertTarget st.2 overriddenFunction k) ∅ [overriddenFunction]

def addPotentialTarget (order : SetOrder String) (st : FuncMapT × StrStrMap) (it : String × FunctionInfo) :
    Except Exn (FuncMapT × StrStrMap) :=
  if it.2.isVirtual && it.2.doesOverride then
    (order.run it.2.overriddenFunctions).foldlM (addOverridden order it.1) st
  else .ok st

-- The functions that the loop inserts are not virtual, so it makes no difference whether the iterator meets them.
def buildVirtualFunctionHierarchy (order : SetOrder String) (functions : FuncMapT) : Except Exn (FuncMapT × StrStrMap) :=
  (UMap.toPairs functions.toMap).foldlM (addPotentialTarget order) (functions, ∅)

/-! ## The graph -/

def setVirtual (virtualness : Bool) (n : CgNode) : CgNode :=
  { n with
    metaFields :=
      if virtualness then
        if "overrideMD" ∈ n.metaFields then n.metaFields else addMetaData n.metaFields (.override ⟨[], []⟩)
      else n.metaFields.erase "overrideMD" }

/-- Get or insert the callee and add the edge from `node`. -/
def addCall (self node : ℕ) (g : Callgraph) (c : String) : Except Exn Callgraph := do
  let (g, calleeNode) ← g.getOrInsertNode c none false false
  return (Callgraph.addEdgeRef self g ⟨self, node⟩ ⟨self, calleeNode⟩).2

/-- One callee with its potential targets. -/
def addCallee (order : SetOrder String) (self node : ℕ) (st : Callgraph × StrStrMap) (c : String) :
    Except Exn (Callgraph × StrStrMap) := do
  let g ← addCall self node st.1 c
  let potTargets := UMap.getD st.2 c ∅
  let g ← (order.run potTargets).foldlM (addCall self node) g
  return (g, st.2.insert c potTargets)

def buildNode (order : SetOrder String) (self : ℕ) (st : Callgraph × StrStrMap) (it : String × FunctionInfo) :
    Except Exn (Callgraph × StrStrMap) := do
  let (g, node) ← st.1.getOrInsertNode it.1 none false false
  let g := g.updateNode node fun n => { setVirtual it.2.isVirtual n with hasBody := it.2.hasBody }
  let (g, potentialTargets) ← (order.run it.2.callees).foldlM (addCallee order self node) (g, st.2)
  -- `setMetaDataContainer` drops what `setVirtual` has attached.
  return (g.updateNode node fun n => { n with metaFields := ∅ }, potentialTargets)

def buildGraph (order : SetOrder String) (self : ℕ) (functions : UMap String FunctionInfo) (potentialTargets : StrStrMap)
    (g : Callgraph) : Except Exn Callgraph := do
  let (g, _) ← (UMap.toPairs functions).foldlM (buildNode order self) (g, potentialTargets)
  return g

end MetaCG.Pgis
