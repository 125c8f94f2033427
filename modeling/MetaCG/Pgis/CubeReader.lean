import Mathlib.Data.List.Count
import MetaCG.Graph.DuplicateNames
import MetaCG.Pgis.CallEstimates
import MetaCG.Pgis.ProfileData
import MetaCG.Tools.CGPatchRuntime

/-! Reading a profile into a call graph (`CubeReader.h`).

A cube is a forest of call paths. Each path belongs to a function, and its root stands for the program. The reader walks
over all paths, adds the edges between the functions and attaches what the path says to the function. Every metric of a cube is
a floating-point number. Here the visits are natural and the times rational numbers, so no sum is rounded; only the counter
of visits wraps around. -/
namespace MetaCG.Pgis.Profile
open Foundations
set_option autoImplicit false
set_option maxHeartbeats 250000
set_option maxRecDepth 120000

structure Thread where
  id : ℤ
  procId : ℤ
deriving DecidableEq

/-- A call path; its parent is a position in the list of all paths. -/
structure Cnode where
  name : String
  parent : Option ℕ
  visits : Thread → ℕ
  time : Thread → ℚ
  inclusiveTime : Thread → ℚ

structure Cube where
  threads : List Thread
  cnodes : List Cnode
  parent_lt : ∀ cnode ∈ cnodes, ∀ p, cnode.parent = some p → p < cnodes.length

namespace Cube
variable (cube : Cube)

/-- `get_parent()` -/
def parentOf (cnode : Cnode) : Option Cnode := cnode.parent.bind (cube.cnodes[·]?)

/-- `impl::visits`, converted to the type of the counter. -/
def visits (cnode : Cnode) : UInt64 := UInt64.ofNat (cube.threads.map cnode.visits).sum

/-- `impl::time` -/
def time (cnode : Cnode) : ℚ := (cube.threads.map cnode.time).sum

def inclusiveTime (cnode : Cnode) : ℚ := (cube.threads.map cnode.inclusiveTime).sum

/-- The locations of a call path, one for each thread. -/
def locations (cnode : Cnode) : List CgLocation :=
  cube.threads.map fun thread =>
    ⟨cnode.time thread, cnode.inclusiveTime thread, thread.id, thread.procId, UInt64.ofNat (cnode.visits thread)⟩

end Cube

structure Profiled where
  graph : Callgraph
  md : Store

/-- `setComesFromCube`, if there is `PiraOneData`. -/
def setComesFromCube (d : NodeData) : NodeData :=
  { d with piraOne := d.piraOne.map fun p => { p with wasInPreviousProfile := true } }

def attRuntime (cube : Cube) (cnode : Cnode) (d : NodeData) : Except Exn NodeData :=
  match d.baseProfile with
  | none => .ok (setComesFromCube d)
  | some bpd => do return setComesFromCube { d with baseProfile := some (← bpd.addRuntime (cube.time cnode)) }

def attNrCall (cube : Cube) (cnode : Cnode) (pn : Option ℕ) (d : NodeData) : NodeData :=
  { d with baseProfile := d.baseProfile.map fun bpd =>
      (bpd.addCalls (cube.visits cnode)).addNumberOfCallsFrom pn (cube.visits cnode) }

def attInclRuntime (cube : Cube) (cnode : Cnode) (d : NodeData) : Except Exn NodeData :=
  match d.baseProfile with
  | none => .ok (setComesFromCube d)
  | some bpd => do
    let bpd ← ((cube.locations cnode).foldl BaseProfileData.pushCgLocation bpd).addInclusiveRuntimeInSeconds
      (cube.inclusiveTime cnode)
    return { d with baseProfile := some bpd }

/-- The three functions that `buildFromCube` hands to `build`. -/
def applyOne (cube : Cube) (cnode : Cnode) (pCgNode : Option ℕ) (d : NodeData) : Except Exn NodeData := do
  let d ← attRuntime cube cnode d
  attInclRuntime cube cnode (attNrCall cube cnode pCgNode d)

/-- A function that is not in the graph gets a node without metadata. -/
def apply (cube : Cube) (cnode : Cnode) (pNodeName : String) (st : Profiled) : Except Exn Profiled := do
  let (g, target) ← st.graph.getOrInsertNode cnode.name none false false
  let md := if st.graph.hasNode target then st.md else Function.update st.md target .create
  let parent ← if g.hasName pNodeName then some <$> getSingleNode g pNodeName else .ok none
  let d ← applyOne cube cnode parent (md target)
  return ⟨g, Function.update md target d⟩

-- Both ends of the edge are looked up before the nodes are inserted.
def addProfiledEdge (g : Callgraph) (pName cName : String) : Except Exn Callgraph :=
  if g.existsAnyEdge pName cName then .ok g else Prod.snd <$> g.addEdgeNamed pName cName

/-- One round of the loop of `build`. -/
def readCnode (cube : Cube) (st : Profiled) (cnode : Cnode) : Except Exn Profiled :=
  match cube.parentOf cnode with
  | none =>
    if cnode.name = "main" then .error (.assertion "getName(useMangledNames, cnode) != \"main\"") else .ok st
  | some pNode =>
    if (cube.parentOf pNode).isSome then do
      apply cube cnode pNode.name { st with graph := ← addProfiledEdge st.graph pNode.name cnode.name }
    else if pNode.name = "main" then .error (.assertion "pName != \"main\"")
    else apply cube cnode pNode.name st

def buildFromCube (cube : Cube) (st : Profiled) : Except Exn Profiled := cube.cnodes.foldlM (readCnode cube) st

/-! ## What a cube says about the functions -/

namespace Cube
variable (cube : Cube)

/-- Whether the path belongs to the function; the root of a path belongs to none. -/
def isOf (f : String) (cnode : Cnode) : Bool := cnode.parent.isSome && decide (cnode.name = f)

/-- The paths of a function among the first `k`. -/
def pathsOf (k : ℕ) (f : String) : List Cnode := (cube.cnodes.take k).filter (isOf f)

/-- Whether a function has a node once `k` paths are read. -/
def known (g : Callgraph) (k : ℕ) (f : String) : Bool := g.hasName f || (cube.cnodes.take k).any (isOf f)

/-- The calls between functions that have nodes when the call is read. -/
def calls (g : Callgraph) (k : ℕ) : Set (String × String) :=
  {e | ∃ i < k, ∃ cnode pNode, cube.cnodes[i]? = some cnode ∧ cube.parentOf cnode = some pNode ∧
    (cube.parentOf pNode).isSome = true ∧ e = (pNode.name, cnode.name) ∧
    cube.known g i pNode.name = true ∧ cube.known g i cnode.name = true}

/-- The caller under which the visits of the path at `i` are counted. -/
def callerOf (g : Callgraph) (i : ℕ) (cnode : Cnode) : Option String :=
  (cube.parentOf cnode).bind fun pNode => if cube.known g (i + 1) pNode.name then some pNode.name else none

/-- The visits of a function that are counted under a caller. -/
def visitsFrom (g : Callgraph) (k : ℕ) (caller : Option String) (f : String) : UInt64 :=
  (((cube.cnodes.take k).zipIdx.filter fun e => isOf f e.1 && decide (cube.callerOf g e.2 e.1 = caller)).map
    fun e => cube.visits e.1).sum

/-- What the first `k` paths add to the profile of a function. -/
structure Adds (g : Callgraph) (k : ℕ) (graph : Callgraph) (f : String) (bpd bpd' : BaseProfileData) : Prop where
  numCalls : bpd'.numCalls = bpd.numCalls + ((cube.pathsOf k f).map cube.visits).sum
  timeInSeconds : bpd'.timeInSeconds = bpd.timeInSeconds + ((cube.pathsOf k f).map cube.time).sum
  inclTimeInSeconds : bpd'.inclTimeInSeconds = bpd.inclTimeInSeconds + ((cube.pathsOf k f).map cube.inclusiveTime).sum
  cgLoc : bpd'.cgLoc = bpd.cgLoc ++ (cube.pathsOf k f).flatMap cube.locations
  unknown : UMap.getD bpd'.callFrom none 0 = UMap.getD bpd.callFrom none 0 + cube.visitsFrom g k none f
  callFrom : ∀ u, UMap.getD bpd'.callFrom (some u) 0 =
    UMap.getD bpd.callFrom (some u) 0 + (graph.nameOf u).elim 0 fun p => cube.visitsFrom g k (some p) f

/-- What the first `k` paths make of the metadata of a node of the function. -/
structure Fills (g : Callgraph) (k : ℕ) (graph : Callgraph) (f : String) (d d' : NodeData) : Prop where
  instrumentation : d'.instrumentation = d.instrumentation
  instrumentationResult : d'.instrumentationResult = d.instrumentationResult
  piraOne : d'.piraOne = if cube.pathsOf k f = [] then d.piraOne else (setComesFromCube d).piraOne
  bare : d.baseProfile = none → d'.baseProfile = none
  baseProfile : ∀ bpd, d.baseProfile = some bpd → ∃ bpd', d'.baseProfile = some bpd' ∧ cube.Adds g k graph f bpd bpd'

/-- The metadata at the start; a node that is not there yet will have none. -/
def start (g : Callgraph) (md : Store) (n : ℕ) : NodeData := if g.hasNode n then md n else .create

/-- What holds once `k` paths are read into the graph `g` with the metadata `md`. -/
structure Imported (g : Callgraph) (md : Store) (k : ℕ) (st : Profiled) : Prop where
  graph : g.Extends {f | (cube.cnodes.take k).any (isOf f) = true} (cube.calls g k) st.graph
  data : ∀ n f, st.graph.nameOf n = some f → cube.Fills g k st.graph f (start g md n) (st.md n)

/-- The path passes the assertions. -/
def Accepted (g : Callgraph) (md : Store) (cnode : Cnode) : Prop :=
  if cnode.parent.isSome then
    cnode.name ≠ "" ∧ ∀ n, g.nameOf n = some cnode.name → (md n).baseProfile.isSome = true →
      0 ≤ cube.time cnode ∧ 0 ≤ cube.inclusiveTime cnode
  else cnode.name ≠ "main"

end Cube

/-! ## The metadata of one node -/

section
variable {cube : Cube} {cnode : Cnode} {pn : Option ℕ} {d : NodeData} {bpd : BaseProfileData}

theorem setComesFromCube_twice (d : NodeData) : setComesFromCube (setComesFromCube d) = setComesFromCube d := by
  simp [setComesFromCube, Function.comp_def]

theorem pushLocations (l : List CgLocation) (bpd : BaseProfileData) :
    l.foldl BaseProfileData.pushCgLocation bpd = { bpd with cgLoc := bpd.cgLoc ++ l } := by
  induction l generalizing bpd with
  | nil => simp
  | cons a l ih =>
    rw [List.foldl_cons, ih, BaseProfileData.pushCgLocation]
    simp

theorem applyOne_bare (h : d.baseProfile = none) : applyOne cube cnode pn d = .ok (setComesFromCube d) := by
  have hfirst : attRuntime cube cnode d = .ok (setComesFromCube d) := by
    unfold attRuntime
    rw [h]
  have hbare : (attNrCall cube cnode pn (setComesFromCube d)).baseProfile = none := by
    simp [attNrCall, setComesFromCube, h]
  have hsame : attNrCall cube cnode pn (setComesFromCube d) = setComesFromCube d := by
    simp [attNrCall, setComesFromCube, h]
  unfold applyOne attInclRuntime
  rw [hfirst, ok_bind, hbare]
  change Except.ok (setComesFromCube (attNrCall cube cnode pn (setComesFromCube d))) = _
  rw [hsame, setComesFromCube_twice]

/-- The profile of a function after one more path. -/
def withPath (cube : Cube) (cnode : Cnode) (pn : Option ℕ) (bpd : BaseProfileData) : BaseProfileData where
  numCalls := bpd.numCalls + cube.visits cnode
  timeInSeconds := bpd.timeInSeconds + cube.time cnode
  inclTimeInSeconds := bpd.inclTimeInSeconds + cube.inclusiveTime cnode
  callFrom := bpd.callFrom.insert pn (UMap.getD bpd.callFrom pn 0 + cube.visits cnode)
  cgLoc := bpd.cgLoc ++ cube.locations cnode

theorem applyOne_profiled (h : d.baseProfile = some bpd) :
    applyOne cube cnode pn d =
      if cube.time cnode < 0 then .error (.assertion "runtime >= 0")
      else if cube.inclusiveTime cnode < 0 then .error (.assertion "newInclusiveTimeInSeconds >= 0")
      else .ok { setComesFromCube d with baseProfile := some (withPath cube cnode pn bpd) } := by
  unfold applyOne attRuntime BaseProfileData.addRuntime
  rw [h]
  dsimp only
  split_ifs with htime hincl
  · rfl
  all_goals
    simp only [pure, Except.pure, ok_bind, attNrCall, setComesFromCube, Option.map_some, attInclRuntime, pushLocations,
      BaseProfileData.addCalls, BaseProfileData.addNumberOfCallsFrom, BaseProfileData.addInclusiveRuntimeInSeconds]
  · rw [if_pos hincl]
    rfl
  · rw [if_neg hincl]
    rfl

end

/-! ## The graph -/

section
variable {g : Callgraph}

/-- A graph whose functions have different names. -/
def SingleNames (g : Callgraph) : Prop := ∀ name, (g.getNodesNamed name).length ≤ 1

theorem SingleNames.eq_singleton (hone : SingleNames g) {f : String} {u : ℕ} (hu : u ∈ g.getNodesNamed f) :
    g.getNodesNamed f = [u] := by
  have hlen := hone f
  match hl : g.getNodesNamed f with
  | [] => rw [hl] at hu; cases hu
  | [v] =>
    rw [hl] at hu
    rw [List.mem_singleton.mp hu]
  | _ :: _ :: _ =>
    rw [hl] at hlen
    simp at hlen

theorem SingleNames.inj (hone : SingleNames g) (h : g.Wf) {u v : ℕ} {f : String} (hu : g.nameOf u = some f)
    (hv : g.nameOf v = some f) : u = v := by
  have hsingle := hone.eq_singleton ((Callgraph.mem_getNodesNamed h).mpr hu)
  have hmem := (Callgraph.mem_getNodesNamed h).mpr hv
  rw [hsingle, List.mem_singleton] at hmem
  exact hmem.symm

theorem SingleNames.extends {g' : Callgraph} {names : Set String} {calls : Set (String × String)} (hone : SingleNames g)
    (h : g.Extends names calls g') : SingleNames g' := by
  intro name
  have hlen := hone name
  by_cases hname : name ∈ names
  · rw [h.named name hname]
    omega
  · rw [h.others name hname]
    exact hlen

theorem hasName_iff_named (g : Callgraph) (f : String) : g.hasName f = true ↔ g.getNodesNamed f ≠ [] := by
  rw [Callgraph.hasName, Callgraph.firstNamed, List.isSome_head?]

theorem hasName_iff_nameOf (h : g.Wf) (f : String) : g.hasName f = true ↔ ∃ u, g.nameOf u = some f := by
  rw [hasName_iff_named, h.nodesNamed_ne_nil_iff]
  exact exists_congr fun u => (Callgraph.nameOf_eq_some u f).symm

theorem getSingleNode_ok (h : g.Wf) (hone : SingleNames g) {f : String} {u : ℕ} (hu : g.nameOf u = some f) :
    getSingleNode g f = .ok u := by
  have hsingle := hone.eq_singleton ((Callgraph.mem_getNodesNamed h).mpr hu)
  have hlookup : g.nameIdMap.lookup f = some [u] := by
    cases hl : g.nameIdMap.lookup f with
    | none => simp [Callgraph.getNodesNamed, UMap.getD, hl] at hsingle
    | some l =>
      rw [Callgraph.getNodesNamed, UMap.getD, hl, Option.getD_some] at hsingle
      rw [hsingle]
  obtain ⟨n, hn, -⟩ := (Callgraph.nameOf_eq_some u f).mp hu
  unfold getSingleNode
  rw [hlookup]
  dsimp only
  rw [Callgraph.getNode_of_lt (Callgraph.slot_lt hn), hn]

/-- A node needs a name. -/
theorem getOrInsertNode_empty (h : g.Wf) (r : Callgraph × ℕ) : g.getOrInsertNode "" none false false ≠ .ok r := by
  have hnone : g.firstNamed "" = none := by
    rw [Callgraph.firstNamed_eq_none_iff]
    by_contra hne
    obtain ⟨i, n, hn, hname⟩ := (h.nodesNamed_ne_nil_iff "").mp hne
    exact h.node_name i n hn hname
  unfold Callgraph.getOrInsertNode
  rw [Callgraph.getFirstNode_eq h, hnone, ok_bind]
  exact fun hr => by cases hr

/-- The edge is added if both functions have a node. -/
theorem addProfiledEdge_extends (h : g.Wf) (hone : SingleNames g) (pName cName : String) :
    ∃ g', addProfiledEdge g pName cName = .ok g' ∧
      g.Extends ∅ {e | e = (pName, cName) ∧ g.hasName pName = true ∧ g.hasName cName = true} g' := by
  by_cases hboth : g.hasName pName = true ∧ g.hasName cName = true
  · obtain ⟨u, hu⟩ := (hasName_iff_nameOf h pName).mp hboth.1
    obtain ⟨v, hv⟩ := (hasName_iff_nameOf h cName).mp hboth.2
    have hcalls : {e | e = (pName, cName) ∧ g.hasName pName = true ∧ g.hasName cName = true} = {(pName, cName)} := by
      ext e
      simp [hboth.1, hboth.2]
    have hadd := h.addEdgeRef_extends 0 hu hv
    rw [hcalls]
    have hU := hone.eq_singleton ((Callgraph.mem_getNodesNamed h).mpr hu)
    have hV := hone.eq_singleton ((Callgraph.mem_getNodesNamed h).mpr hv)
    have hulive := Callgraph.hasNode_of_nameOf hu
    have hvlive := Callgraph.hasNode_of_nameOf hv
    have hinternal : Callgraph.addEdgeRef 0 g ⟨0, u⟩ ⟨0, v⟩ = g.addEdgeInternal u v := by
      rw [Callgraph.addEdgeRef, Callgraph.hasNodeRef, Callgraph.hasNodeRef, hulive, hvlive]
      simp
    rw [hinternal] at hadd
    by_cases he : (u, v) ∈ g.edges
    · refine ⟨g, ?_, ?_⟩
      · unfold addProfiledEdge Callgraph.existsAnyEdge
        rw [hU, hV]
        simp [Callgraph.existsEdge, he]
      · rw [Callgraph.addEdgeInternal_of_mem he] at hadd
        exact hadd
    · refine ⟨(g.addEdgeInternal u v).2, ?_, hadd⟩
      obtain ⟨n, hn⟩ := (g.hasNode_iff u).mp hulive
      obtain ⟨m, hm⟩ := (g.hasNode_iff v).mp hvlive
      unfold addProfiledEdge Callgraph.existsAnyEdge Callgraph.addEdgeNamed
      rw [hU, hV]
      simp only [List.any_cons, List.any_nil, Bool.or_false, Callgraph.existsEdge, he, decide_false, Bool.false_eq_true,
        if_false, Callgraph.addEdge]
      rw [Callgraph.getNode_of_lt (Callgraph.slot_lt hn), hn, ok_bind]
      dsimp only
      rw [Callgraph.getNode_of_lt (Callgraph.slot_lt hm), hm]
      rfl
  · have hcalls : {e | e = (pName, cName) ∧ g.hasName pName = true ∧ g.hasName cName = true} = ∅ := by
      ext e
      simp only [Set.mem_ofPred_eq, Set.mem_empty_iff_false, iff_false]
      exact fun he => hboth he.2
    refine ⟨g, ?_, hcalls ▸ .refl h⟩
    rw [not_and_or, hasName_iff_named, hasName_iff_named, not_not, not_not] at hboth
    unfold addProfiledEdge Callgraph.existsAnyEdge Callgraph.addEdgeNamed
    rcases hboth with hnone | hnone
    · rw [hnone]
      rfl
    · rw [hnone]
      rcases hl : g.getNodesNamed pName with _ | ⟨u, _ | ⟨v, l⟩⟩ <;> simp

end

/-! ## One more path -/

namespace Cube
variable {cube : Cube} {g : Callgraph} {k : ℕ} {cnode : Cnode} {f : String}

theorem take_succ (hc : cube.cnodes[k]? = some cnode) : cube.cnodes.take (k + 1) = cube.cnodes.take k ++ [cnode] := by
  rw [List.take_add_one, hc, Option.toList_some]

theorem length_take (hc : cube.cnodes[k]? = some cnode) : (cube.cnodes.take k).length = k := by
  have hk := (List.getElem?_eq_some_iff.mp hc).1
  rw [List.length_take]
  omega

theorem isOf_iff : isOf f cnode = true ↔ cnode.parent.isSome = true ∧ cnode.name = f := by
  rw [isOf, Bool.and_eq_true, decide_eq_true_iff]

theorem parentOf_isSome (hc : cnode ∈ cube.cnodes) : (cube.parentOf cnode).isSome = cnode.parent.isSome := by
  unfold parentOf
  cases hp : cnode.parent with
  | none => rfl
  | some p => rw [Option.bind_some, List.getElem?_eq_getElem (cube.parent_lt cnode hc p hp)]; rfl

theorem parentOf_mem {pNode : Cnode} (h : cube.parentOf cnode = some pNode) : pNode ∈ cube.cnodes := by
  obtain ⟨p, -, hp⟩ := Option.bind_eq_some_iff.mp h
  exact List.mem_of_getElem? hp

theorem pathsOf_succ (hc : cube.cnodes[k]? = some cnode) (f : String) :
    cube.pathsOf (k + 1) f = cube.pathsOf k f ++ if isOf f cnode then [cnode] else [] := by
  rw [pathsOf, take_succ hc, List.filter_append, List.filter_singleton, ← pathsOf]
  cases isOf f cnode <;> rfl

theorem known_mono {i j : ℕ} (hij : i ≤ j) (h : cube.known g i f = true) : cube.known g j f = true := by
  rw [known, Bool.or_eq_true] at h ⊢
  refine h.imp_right fun h => ?_
  rw [List.any_eq_true] at h ⊢
  obtain ⟨c, hc, hof⟩ := h
  exact ⟨c, (List.take_prefix_take_left hij).subset hc, hof⟩

theorem visitsFrom_succ (hc : cube.cnodes[k]? = some cnode) (g : Callgraph) (caller : Option String) (f : String) :
    cube.visitsFrom g (k + 1) caller f = cube.visitsFrom g k caller f +
      if isOf f cnode && decide (cube.callerOf g k cnode = caller) then cube.visits cnode else 0 := by
  rw [visitsFrom, take_succ hc, List.zipIdx_append, length_take hc, List.filter_append, List.map_append, List.sum_append,
    ← visitsFrom, Nat.zero_add, List.zipIdx_singleton, List.filter_singleton]
  split_ifs with hof
  · rw [hof]
    simp
  · rw [Bool.not_eq_true] at hof
    rw [hof]
    simp

/-- A caller that has no node yet has no visits. -/
theorem visitsFrom_unknown {p : String} (h : cube.known g k p = false) (f : String) : cube.visitsFrom g k (some p) f = 0 := by
  have hnone : ((cube.cnodes.take k).zipIdx.filter fun e => isOf f e.1 && decide (cube.callerOf g e.2 e.1 = some p)) = [] := by
    refine List.filter_eq_nil_iff.mpr fun e he hcaller => ?_
    rw [Bool.and_eq_true, decide_eq_true_iff] at hcaller
    have hlt : e.2 < k := by
      have hlen := List.snd_lt_of_mem_zipIdx he
      rw [Nat.add_zero, List.length_take] at hlen
      omega
    obtain ⟨pNode, -, hif⟩ := Option.bind_eq_some_iff.mp hcaller.2
    split_ifs at hif with hknown
    cases hif
    rw [known_mono (by omega : e.2 + 1 ≤ k) hknown] at h
    cases h
  rw [visitsFrom, hnone]
  rfl

theorem calls_succ (hc : cube.cnodes[k]? = some cnode) (g : Callgraph) :
    cube.calls g (k + 1) = cube.calls g k ∪ {e | ∃ pNode, cube.parentOf cnode = some pNode ∧
      (cube.parentOf pNode).isSome = true ∧ e = (pNode.name, cnode.name) ∧ cube.known g k pNode.name = true ∧
      cube.known g k cnode.name = true} := by
  refine Set.ext fun e => ?_
  constructor
  · rintro ⟨i, hi, c, pNode, hci, hrest⟩
    rcases Nat.lt_succ_iff_lt_or_eq.mp hi with hlt | rfl
    · exact .inl ⟨i, hlt, c, pNode, hci, hrest⟩
    · rw [hc] at hci
      cases hci
      exact .inr ⟨pNode, hrest⟩
  · rintro (⟨i, hi, hrest⟩ | ⟨pNode, hrest⟩)
    · exact ⟨i, Nat.lt_succ_of_lt hi, hrest⟩
    · exact ⟨k, Nat.lt_succ_self k, cnode, pNode, hc, hrest⟩


section
variable {graph graph' : Callgraph} {bpd bpd' : BaseProfileData} {d d' : NodeData} {pn : Option ℕ}

/-- The counts do not change when nodes are added for functions that are not known yet. -/
theorem Adds.grow (h : cube.Adds g k graph f bpd bpd') (hkept : ∀ u p, graph.nameOf u = some p → graph'.nameOf u = some p)
    (hnew : ∀ u p, graph'.nameOf u = some p → graph.nameOf u = some p ∨ cube.known g k p = false) :
    cube.Adds g k graph' f bpd bpd' where
  numCalls := h.numCalls
  timeInSeconds := h.timeInSeconds
  inclTimeInSeconds := h.inclTimeInSeconds
  cgLoc := h.cgLoc
  unknown := h.unknown
  callFrom := by
    intro u
    rw [h.callFrom]
    congr 1
    cases hu : graph.nameOf u with
    | some p => rw [hkept u p hu]
    | none =>
      cases hu' : graph'.nameOf u with
      | none => rfl
      | some p =>
        rcases hnew u p hu' with hold | hunknown
        · rw [hu] at hold
          cases hold
        · exact (visitsFrom_unknown hunknown f).symm

theorem Adds.other (h : cube.Adds g k graph f bpd bpd') (hc : cube.cnodes[k]? = some cnode) (hf : isOf f cnode = false) :
    cube.Adds g (k + 1) graph f bpd bpd' := by
  have hpaths : cube.pathsOf (k + 1) f = cube.pathsOf k f := by
    rw [pathsOf_succ hc, hf]
    exact List.append_nil _
  have hvisits : ∀ caller, cube.visitsFrom g (k + 1) caller f = cube.visitsFrom g k caller f := by
    intro caller
    rw [visitsFrom_succ hc, hf]
    exact add_zero _
  refine ⟨?_, ?_, ?_, ?_, ?_, fun u => ?_⟩
  · rw [hpaths, h.numCalls]
  · rw [hpaths, h.timeInSeconds]
  · rw [hpaths, h.inclTimeInSeconds]
  · rw [hpaths, h.cgLoc]
  · rw [hvisits, h.unknown]
  · simp only [hvisits, h.callFrom u]

theorem Adds.path (h : cube.Adds g k graph f bpd bpd') (hc : cube.cnodes[k]? = some cnode) (hf : isOf f cnode = true)
    (hinj : ∀ u v p, graph.nameOf u = some p → graph.nameOf v = some p → u = v)
    (hlive : ∀ u, pn = some u → (graph.nameOf u).isSome = true) (hpn : cube.callerOf g k cnode = pn.bind graph.nameOf) :
    cube.Adds g (k + 1) graph f bpd (withPath cube cnode pn bpd') := by
  have hpaths : cube.pathsOf (k + 1) f = cube.pathsOf k f ++ [cnode] := by
    rw [pathsOf_succ hc, if_pos hf]
  refine ⟨?_, ?_, ?_, ?_, ?_, fun u => ?_⟩
  · change bpd'.numCalls + cube.visits cnode = _
    rw [hpaths, h.numCalls, List.map_append, List.sum_append, List.map_singleton, List.sum_singleton, add_assoc]
  · change bpd'.timeInSeconds + cube.time cnode = _
    rw [hpaths, h.timeInSeconds, List.map_append, List.sum_append, List.map_singleton, List.sum_singleton, add_assoc]
  · change bpd'.inclTimeInSeconds + cube.inclusiveTime cnode = _
    rw [hpaths, h.inclTimeInSeconds, List.map_append, List.sum_append, List.map_singleton, List.sum_singleton, add_assoc]
  · change bpd'.cgLoc ++ cube.locations cnode = _
    rw [hpaths, h.cgLoc, List.flatMap_append, List.flatMap_singleton, List.append_assoc]
  · change UMap.getD (bpd'.callFrom.insert pn _) none 0 = _
    rw [UMap.getD_insert, visitsFrom_succ hc, hf, Bool.true_and, ← add_assoc, ← h.unknown, hpn]
    cases pn with
    | none => simp
    | some v =>
      obtain ⟨p, hp⟩ := Option.isSome_iff_exists.mp (hlive v rfl)
      simp [hp]
  · change UMap.getD (bpd'.callFrom.insert pn _) (some u) 0 = _
    rw [UMap.getD_insert]
    by_cases hu : some u = pn
    · obtain ⟨p, hp⟩ := Option.isSome_iff_exists.mp (hlive u hu.symm)
      rw [if_pos hu, ← hu, h.callFrom u, hp, Option.elim_some, Option.elim_some, visitsFrom_succ hc, hf, hpn, ← hu,
        Option.bind_some, hp]
      simp [add_assoc]
    · rw [if_neg hu, h.callFrom u]
      congr 1
      cases hp : graph.nameOf u with
      | none => rfl
      | some p =>
        have hne : cube.callerOf g k cnode ≠ some p := by
          intro heq
          rw [hpn] at heq
          obtain ⟨v, hv, hvp⟩ := Option.bind_eq_some_iff.mp heq
          exact hu (by rw [hv, hinj u v p hp hvp])
        rw [Option.elim_some, Option.elim_some, visitsFrom_succ hc, decide_eq_false hne, Bool.and_false]
        exact (add_zero _).symm

theorem Fills.grow (h : cube.Fills g k graph f d d') (hkept : ∀ u p, graph.nameOf u = some p → graph'.nameOf u = some p)
    (hnew : ∀ u p, graph'.nameOf u = some p → graph.nameOf u = some p ∨ cube.known g k p = false) :
    cube.Fills g k graph' f d d' := by
  refine ⟨h.instrumentation, h.instrumentationResult, h.piraOne, h.bare, fun bpd hbpd => ?_⟩
  obtain ⟨bpd', hbpd', hadds⟩ := h.baseProfile bpd hbpd
  exact ⟨bpd', hbpd', hadds.grow hkept hnew⟩

theorem Fills.other (h : cube.Fills g k graph f d d') (hc : cube.cnodes[k]? = some cnode) (hf : isOf f cnode = false) :
    cube.Fills g (k + 1) graph f d d' := by
  refine ⟨h.instrumentation, h.instrumentationResult, ?_, h.bare, fun bpd hbpd => ?_⟩
  · rw [h.piraOne, pathsOf_succ hc, hf]
    simp
  · obtain ⟨bpd', hbpd', hadds⟩ := h.baseProfile bpd hbpd
    exact ⟨bpd', hbpd', hadds.other hc hf⟩

/-- A node that no path has met yet. -/
theorem Fills.start (d : NodeData) (graph : Callgraph) (hpaths : cube.pathsOf k f = [])
    (hvisits : ∀ caller, cube.visitsFrom g k caller f = 0) : cube.Fills g k graph f d d := by
  refine ⟨rfl, rfl, ?_, id, fun bpd hbpd => ⟨bpd, hbpd, ?_, ?_, ?_, ?_, ?_, fun u => ?_⟩⟩
  · rw [if_pos hpaths]
  · rw [hpaths]
    exact (add_zero _).symm
  · rw [hpaths]
    exact (add_zero _).symm
  · rw [hpaths]
    exact (add_zero _).symm
  · rw [hpaths]
    exact (List.append_nil _).symm
  · rw [hvisits, add_zero]
  · simp only [hvisits]
    cases graph.nameOf u <;> exact (add_zero _).symm

theorem Fills.isSome_baseProfile (h : cube.Fills g k graph f d d') : d'.baseProfile.isSome = d.baseProfile.isSome := by
  cases hd : d.baseProfile with
  | none => rw [h.bare hd]
  | some bpd =>
    obtain ⟨bpd', hbpd', -⟩ := h.baseProfile bpd hd
    rw [hbpd']
    rfl

theorem Fills.path {d'' : NodeData} (h : cube.Fills g k graph f d d') (hc : cube.cnodes[k]? = some cnode)
    (hf : isOf f cnode = true) (hinj : ∀ u v p, graph.nameOf u = some p → graph.nameOf v = some p → u = v)
    (hlive : ∀ u, pn = some u → (graph.nameOf u).isSome = true) (hpn : cube.callerOf g k cnode = pn.bind graph.nameOf)
    (happ : applyOne cube cnode pn d' = .ok d'') : cube.Fills g (k + 1) graph f d d'' := by
  have hpaths : cube.pathsOf (k + 1) f ≠ [] := by
    rw [pathsOf_succ hc, if_pos hf]
    simp
  have hpira : (setComesFromCube d').piraOne = (setComesFromCube d).piraOne := by
    rw [setComesFromCube, h.piraOne]
    split_ifs
    · rfl
    · change (setComesFromCube (setComesFromCube d)).piraOne = _
      rw [setComesFromCube_twice]
  cases hd : d.baseProfile with
  | none =>
    rw [applyOne_bare (h.bare hd)] at happ
    cases happ
    refine ⟨h.instrumentation, h.instrumentationResult, ?_, fun _ => h.bare hd, fun bpd hbpd => ?_⟩
    · rw [if_neg hpaths, hpira]
    · rw [hd] at hbpd
      cases hbpd
  | some bpd =>
    obtain ⟨bpd', hbpd', hadds⟩ := h.baseProfile bpd hd
    rw [applyOne_profiled hbpd'] at happ
    split_ifs at happ
    cases happ
    refine ⟨h.instrumentation, h.instrumentationResult, ?_, fun hnone => ?_, fun b hb => ⟨_, rfl, ?_⟩⟩
    · rw [if_neg hpaths, ← hpira]
    · rw [hd] at hnone
      cases hnone
    · rw [hd] at hb
      cases hb
      exact hadds.path hc hf hinj hlive hpn

end

/-! ## One round -/

section
variable {st : Profiled}

/-- What `apply` does to a graph whose functions have different names. -/
theorem apply_eq (hwf : st.graph.Wf) (hone : SingleNames st.graph) (hname : cnode.name ≠ "") (pName : String) :
    ∃ g' t pn, st.graph.Extends {cnode.name} ∅ g' ∧ g'.nameOf t = some cnode.name ∧
      pn.bind g'.nameOf = (if g'.hasName pName then some pName else none) ∧
      (∀ u, pn = some u → (g'.nameOf u).isSome = true) ∧
      apply cube cnode pName st = (do
        let d ← applyOne cube cnode pn (if st.graph.hasNode t then st.md t else .create)
        return ⟨g', Function.update st.md t d⟩) := by
  obtain ⟨g', t, hget, ht, hext⟩ := hwf.getOrInsertNode_extends hname none false false
  have hone' := hone.extends hext
  have hdata : (if st.graph.hasNode t then st.md else Function.update st.md t .create) t =
      if st.graph.hasNode t then st.md t else .create := by
    split_ifs
    · rfl
    · exact Function.update_self ..
  have hkeep : ∀ d, Function.update (if st.graph.hasNode t then st.md else Function.update st.md t .create) t d =
      Function.update st.md t d := by
    intro d
    split_ifs
    · rfl
    · exact Function.update_idem ..
  by_cases hp : g'.hasName pName = true
  · obtain ⟨u, hu⟩ := (hasName_iff_nameOf hext.wf pName).mp hp
    refine ⟨g', t, some u, hext, ht, ?_, fun v hv => ?_, ?_⟩
    · rw [if_pos hp, Option.bind_some, hu]
    · cases hv
      rw [hu]
      rfl
    · unfold apply
      rw [hget, ok_bind]
      dsimp only
      rw [if_pos hp, getSingleNode_ok hext.wf hone' hu]
      simp only [Functor.map, Except.map, ok_bind, hdata, hkeep]
  · refine ⟨g', t, none, hext, ht, ?_, fun v hv => (by cases hv), ?_⟩
    · rw [if_neg hp]
      rfl
    · unfold apply
      rw [hget, ok_bind]
      dsimp only
      rw [if_neg hp]
      simp only [ok_bind, hdata, hkeep]

theorem hasName_of_extends {g' : Callgraph} {E : Set (String × String)}
    (h : g.Extends {f | (cube.cnodes.take k).any (isOf f) = true} E g') (f : String) : g'.hasName f = cube.known g k f := by
  rw [Bool.eq_iff_iff, hasName_iff_named, h.named_iff, known, Bool.or_eq_true, hasName_iff_named]
  rfl

/-- The node of the path's function before the path is read. -/
theorem Imported.target {md : Store} (h : cube.Imported g md k st) {g' : Callgraph} {t : ℕ} {E : Set (String × String)}
    (hext : st.graph.Extends {cnode.name} E g') (hone' : SingleNames g') (ht : g'.nameOf t = some cnode.name) :
    cube.Fills g k st.graph cnode.name (start g md t) (if st.graph.hasNode t then st.md t else .create) := by
  by_cases hlive : st.graph.hasNode t = true
  · obtain ⟨m, hm⟩ := Callgraph.nameOf_of_hasNode hlive
    have hname : m = cnode.name := Option.some.inj ((hext.kept t m hm).symm.trans ht)
    rw [if_pos hlive]
    exact h.data t cnode.name (hname ▸ hm)
  · have hgone : g.hasNode t ≠ true := by
      intro hgt
      obtain ⟨m, hm⟩ := Callgraph.nameOf_of_hasNode hgt
      exact hlive (Callgraph.hasNode_of_nameOf (h.graph.kept t m hm))
    have hunknown : cube.known g k cnode.name = false := by
      rw [← hasName_of_extends h.graph, ← Bool.not_eq_true, hasName_iff_nameOf h.graph.wf]
      rintro ⟨u, hu⟩
      have hut := hone'.inj hext.wf (hext.kept u _ hu) ht
      exact hlive (hut ▸ Callgraph.hasNode_of_nameOf hu)
    have hnone : ∀ c ∈ cube.cnodes.take k, isOf cnode.name c = false := by
      intro c hc
      rw [known, Bool.or_eq_false_iff, List.any_eq_false] at hunknown
      exact Bool.not_eq_true _ ▸ hunknown.2 c hc
    rw [if_neg hlive, start, if_neg hgone]
    refine .start _ _ (List.filter_eq_nil_iff.mpr fun c hc => ?_) fun caller => ?_
    · rw [hnone c hc]
      exact Bool.false_ne_true
    · have hnil : ((cube.cnodes.take k).zipIdx.filter fun e =>
          isOf cnode.name e.1 && decide (cube.callerOf g e.2 e.1 = caller)) = [] := by
        refine List.filter_eq_nil_iff.mpr fun e he => ?_
        rw [hnone e.1 (List.fst_mem_of_mem_zipIdx he)]
        exact Bool.false_ne_true
      rw [visitsFrom, hnil]
      rfl

/-- A path of a function is read. -/
theorem Imported.visit {md : Store} (hone : SingleNames g) (h : cube.Imported g md k st)
    (hc : cube.cnodes[k]? = some cnode) {pNode : Cnode} (hp : cube.parentOf cnode = some pNode) (hname : cnode.name ≠ "")
    {g₁ : Callgraph} {E : Set (String × String)} (hadd : st.graph.Extends ∅ E g₁)
    (hE : cube.calls g k ∪ E = cube.calls g (k + 1)) :
    (∀ st', apply cube cnode pNode.name ⟨g₁, st.md⟩ = .ok st' → cube.Imported g md (k + 1) st') ∧
      ((∃ st', apply cube cnode pNode.name ⟨g₁, st.md⟩ = .ok st') ↔
        ∀ n, g.nameOf n = some cnode.name → (md n).baseProfile.isSome = true →
          0 ≤ cube.time cnode ∧ 0 ≤ cube.inclusiveTime cnode) := by
  have hof : isOf cnode.name cnode = true := by
    rw [isOf_iff, ← parentOf_isSome (List.mem_of_getElem? hc), hp]
    exact ⟨rfl, rfl⟩
  have hone₁ : SingleNames g₁ := (hone.extends h.graph).extends hadd
  obtain ⟨g', t, pn, hext, ht, hpn, hlive, happ⟩ := @apply_eq cube cnode ⟨g₁, st.md⟩ hadd.wf hone₁ hname pNode.name
  have hone' : SingleNames g' := hone₁.extends hext
  have hall : st.graph.Extends {cnode.name} E g' := by
    have hboth := hadd.trans hext
    rwa [Set.empty_union, Set.union_empty] at hboth
  have hgraph : g.Extends {f | (cube.cnodes.take (k + 1)).any (isOf f) = true} (cube.calls g (k + 1)) g' := by
    have hboth := h.graph.trans hall
    have hnames : {f | (cube.cnodes.take k).any (isOf f) = true} ∪ {cnode.name} =
        {f | (cube.cnodes.take (k + 1)).any (isOf f) = true} := by
      ext f
      rw [take_succ hc]
      simp only [Set.mem_union, Set.mem_ofPred_eq, Set.mem_singleton_iff, List.any_append, Bool.or_eq_true, List.any_cons,
        List.any_nil, Bool.or_false]
      refine or_congr_right ?_
      rw [isOf_iff, ← (isOf_iff.mp hof).1]
      simp [eq_comm]
    rwa [hE, hnames] at hboth
  have hnodes : g₁.hasNode t = st.graph.hasNode t := by
    rw [Bool.eq_iff_iff]
    constructor
    · intro hl
      obtain ⟨m, hm⟩ := Callgraph.nameOf_of_hasNode hl
      exact Callgraph.hasNode_of_nameOf ((hadd.new t m hm).resolve_right (Set.notMem_empty m))
    · intro hl
      obtain ⟨m, hm⟩ := Callgraph.nameOf_of_hasNode hl
      exact Callgraph.hasNode_of_nameOf (hadd.kept t m hm)
  dsimp only at happ
  rw [hnodes] at happ
  have hnew : ∀ u p, g'.nameOf u = some p → st.graph.nameOf u = some p ∨ p = cnode.name := fun u p hu => hall.new u p hu
  have hgrow : ∀ u p, g'.nameOf u = some p → st.graph.nameOf u = some p ∨ cube.known g k p = false := by
    intro u p hu
    rcases hnew u p hu with hold | rfl
    · exact .inl hold
    · by_cases hk : cube.known g k cnode.name = true
      · rw [← hasName_of_extends h.graph, hasName_iff_nameOf h.graph.wf] at hk
        obtain ⟨v, hv⟩ := hk
        have huv := hone'.inj hgraph.wf hu (hall.kept v _ hv)
        exact .inl (huv ▸ hv)
      · exact .inr (Bool.not_eq_true _ ▸ hk)
  have htarget := h.target hall hone' ht
  have hcaller : cube.callerOf g k cnode = pn.bind g'.nameOf := by
    rw [hpn, callerOf, hp, Option.bind_some, hasName_of_extends hgraph]
  rw [happ]
  refine ⟨fun st' hst' => ?_, ?_⟩
  · obtain ⟨d, hd, hst'⟩ := bind_eq_ok.mp hst'
    cases hst'
    refine ⟨hgraph, fun n f hn => ?_⟩
    change cube.Fills g (k + 1) g' f (start g md n) (Function.update st.md t d n)
    by_cases hnt : n = t
    · subst hnt
      rw [ht] at hn
      cases hn
      rw [Function.update_self]
      exact (htarget.grow hall.kept hgrow).path hc hof (fun u v p => hone'.inj hgraph.wf) hlive hcaller hd
    · have hother : f ≠ cnode.name := by
        rintro rfl
        exact hnt (hone'.inj hgraph.wf hn ht)
      rw [Function.update_of_ne hnt]
      refine ((h.data n f ((hnew n f hn).resolve_right hother)).grow hall.kept hgrow).other hc ?_
      rw [isOf, decide_eq_false fun heq => hother heq.symm, Bool.and_false]
  · -- the node of the function is the only one with its name
    have hnode : ∀ n, g.nameOf n = some cnode.name → n = t := fun n hn => hone'.inj hgraph.wf (hgraph.kept n _ hn) ht
    have hstart : (start g md t).baseProfile.isSome = true → g.nameOf t = some cnode.name ∧ (md t).baseProfile.isSome = true := by
      intro hsome
      unfold start at hsome
      split_ifs at hsome with hgt
      · obtain ⟨m, hm⟩ := Callgraph.nameOf_of_hasNode hgt
        have hmc : m = cnode.name := Option.some.inj ((hgraph.kept t m hm).symm.trans ht)
        exact ⟨hmc ▸ hm, hsome⟩
      · cases hsome
    cases hbase : (if st.graph.hasNode t then st.md t else NodeData.create).baseProfile with
    | none =>
      rw [applyOne_bare hbase]
      refine iff_of_true ⟨_, rfl⟩ fun n hn hsome => ?_
      have hsame := htarget.isSome_baseProfile
      rw [hbase, start, if_pos (hnode n hn ▸ Callgraph.hasNode_of_nameOf hn), ← hnode n hn, hsome] at hsame
      cases hsame
    | some bpd =>
      have hsome : (start g md t).baseProfile.isSome = true := by
        rw [← htarget.isSome_baseProfile, hbase]
        rfl
      rw [applyOne_profiled hbase]
      constructor
      · rintro ⟨st', hst'⟩ n - -
        obtain ⟨d, hd, -⟩ := bind_eq_ok.mp hst'
        have htime : ¬cube.time cnode < 0 := by
          intro hneg
          rw [if_pos hneg] at hd
          cases hd
        have hincl : ¬cube.inclusiveTime cnode < 0 := by
          intro hneg
          rw [if_neg htime, if_pos hneg] at hd
          cases hd
        exact ⟨not_lt.mp htime, not_lt.mp hincl⟩
      · intro hcond
        obtain ⟨htime, hincl⟩ := hcond t (hstart hsome).1 (hstart hsome).2
        rw [if_neg (not_lt.mpr htime), if_neg (not_lt.mpr hincl)]
        exact ⟨_, rfl⟩

/-- The root of a path is skipped. -/
theorem Imported.skip {md : Store} (h : cube.Imported g md k st) (hc : cube.cnodes[k]? = some cnode)
    (hroot : cnode.parent = none) : cube.Imported g md (k + 1) st := by
  have hof : ∀ f, isOf f cnode = false := fun f => by rw [isOf, hroot]; rfl
  have hparent : cube.parentOf cnode = none := by rw [parentOf, hroot]; rfl
  have hcalls : cube.calls g (k + 1) = cube.calls g k := by
    rw [calls_succ hc, hparent]
    simp
  refine ⟨?_, fun n f hn => (h.data n f hn).other hc (hof f)⟩
  rw [hcalls, take_succ hc]
  simp only [List.any_append, List.any_cons, List.any_nil, hof, Bool.or_false]
  exact h.graph

theorem Imported.addEdge {md : Store} (hone : SingleNames g) (h : cube.Imported g md k st) (hc : cube.cnodes[k]? = some cnode)
    {pNode : Cnode} (hp : cube.parentOf cnode = some pNode) (hinner : (cube.parentOf pNode).isSome = true) :
    ∃ g₁ E, addProfiledEdge st.graph pNode.name cnode.name = .ok g₁ ∧ st.graph.Extends ∅ E g₁ ∧
      cube.calls g k ∪ E = cube.calls g (k + 1) := by
  obtain ⟨g₁, hadd, hext⟩ := addProfiledEdge_extends h.graph.wf (hone.extends h.graph) pNode.name cnode.name
  refine ⟨g₁, _, hadd, hext, ?_⟩
  rw [calls_succ hc]
  congr 1
  ext e
  simp only [Set.mem_ofPred_eq, hasName_of_extends h.graph, hp, Option.some.injEq]
  constructor
  · rintro ⟨he, hboth⟩
    exact ⟨pNode, rfl, hinner, he, hboth⟩
  · rintro ⟨p, rfl, -, he, hboth⟩
    exact ⟨he, hboth⟩

/-- One round: it succeeds if the path passes the assertions. -/
theorem Imported.round {md : Store} (hone : SingleNames g) (h : cube.Imported g md k st) (hc : cube.cnodes[k]? = some cnode) :
    (∀ st', readCnode cube st cnode = .ok st' → cube.Imported g md (k + 1) st' ∧ cube.Accepted g md cnode) ∧
      ((∀ c ∈ cube.cnodes, cube.Accepted g md c) → ∃ st', readCnode cube st cnode = .ok st') := by
  have hmem := List.mem_of_getElem? hc
  unfold readCnode
  cases hp : cube.parentOf cnode with
  | none =>
    have hroot : cnode.parent = none := by
      rw [← Option.isNone_iff_eq_none, ← Option.not_isSome, ← parentOf_isSome hmem, hp]
      rfl
    have hacc : cube.Accepted g md cnode ↔ cnode.name ≠ "main" := by
      rw [Accepted, hroot]
      exact Iff.rfl
    dsimp only
    refine ⟨fun st' hst' => ?_, fun hall => ?_⟩
    · split_ifs at hst' with hmain
      cases hst'
      exact ⟨h.skip hc hroot, hacc.mpr hmain⟩
    · rw [if_neg (hacc.mp (hall cnode hmem))]
      exact ⟨st, rfl⟩
  | some pNode =>
    have hsome : cnode.parent.isSome = true := by
      rw [← parentOf_isSome hmem, hp]
      rfl
    have hacc : cube.Accepted g md cnode ↔ cnode.name ≠ "" ∧ ∀ n, g.nameOf n = some cnode.name →
        (md n).baseProfile.isSome = true → 0 ≤ cube.time cnode ∧ 0 ≤ cube.inclusiveTime cnode := by
      rw [Accepted, if_pos hsome]
    -- reading the path into the graph `g₁`, in which its edge is already
    have key : ∀ {g₁ : Callgraph} {E : Set (String × String)}, st.graph.Extends ∅ E g₁ →
        cube.calls g k ∪ E = cube.calls g (k + 1) →
        (∀ st', apply cube cnode pNode.name ⟨g₁, st.md⟩ = .ok st' → cube.Imported g md (k + 1) st' ∧ cube.Accepted g md cnode) ∧
          (cube.Accepted g md cnode → ∃ st', apply cube cnode pNode.name ⟨g₁, st.md⟩ = .ok st') := by
      intro g₁ E hadd hE
      by_cases hname : cnode.name = ""
      · refine ⟨fun st' hst' => ?_, fun ha => absurd hname (hacc.mp ha).1⟩
        obtain ⟨r, hget, -⟩ := bind_eq_ok.mp hst'
        exact absurd (hname ▸ hget) (getOrInsertNode_empty hadd.wf r)
      · obtain ⟨hstep, hiff⟩ := h.visit hone hc hp hname hadd hE
        exact ⟨fun st' hst' => ⟨hstep st' hst', hacc.mpr ⟨hname, hiff.mp ⟨st', hst'⟩⟩⟩, fun ha => hiff.mpr (hacc.mp ha).2⟩
    dsimp only
    split_ifs with hinner hmain
    · obtain ⟨g₁, E, hadd, hext, hE⟩ := h.addEdge hone hc hp hinner
      rw [hadd, ok_bind]
      exact ⟨(key hext hE).1, fun hall => (key hext hE).2 (hall cnode hmem)⟩
    · refine ⟨fun st' hst' => (by cases hst'), fun hall => ?_⟩
      have hpacc := hall pNode (parentOf_mem hp)
      rw [Accepted, ← parentOf_isSome (parentOf_mem hp), if_neg hinner] at hpacc
      exact absurd hmain hpacc
    · have hE : cube.calls g k ∪ ∅ = cube.calls g (k + 1) := by
        rw [calls_succ hc]
        congr 1
        ext e
        simp only [Set.mem_empty_iff_false, Set.mem_ofPred_eq, false_iff]
        rintro ⟨p, hp', hinner', -⟩
        rw [hp] at hp'
        cases hp'
        exact hinner hinner'
      have hself : st.graph.Extends ∅ ∅ st.graph := .refl h.graph.wf
      exact ⟨(key hself hE).1, fun hall => (key hself hE).2 (hall cnode hmem)⟩

theorem Imported.none (hg : g.Wf) (md : Store) : cube.Imported g md 0 ⟨g, md⟩ := by
  have hnames : {f | (cube.cnodes.take 0).any (isOf f) = true} = ∅ := by simp
  have hcalls : cube.calls g 0 = ∅ := by
    refine Set.eq_empty_of_forall_notMem ?_
    rintro e ⟨i, hi, -⟩
    exact absurd hi (Nat.not_lt_zero i)
  refine ⟨?_, fun n f hn => ?_⟩
  · rw [hnames, hcalls]
    exact .refl hg
  · rw [start, if_pos (Callgraph.hasNode_of_nameOf hn)]
    exact .start _ _ rfl fun _ => rfl

theorem getElem?_at_end {pre : List Cnode} {c : Cnode} (h : pre ++ [c] <+: cube.cnodes) :
    cube.cnodes[pre.length]? = some c := by
  obtain ⟨post, hpost⟩ := h
  rw [← hpost, List.append_assoc, List.getElem?_append_right le_rfl, Nat.sub_self]
  rfl

/-- What a run of the reader leaves behind; it has checked every path. -/
theorem Imported.of_build (hg : g.Wf) (hone : SingleNames g) {md : Store} {st' : Profiled}
    (h : buildFromCube cube ⟨g, md⟩ = .ok st') :
    cube.Imported g md cube.cnodes.length st' ∧ ∀ cnode ∈ cube.cnodes, cube.Accepted g md cnode := by
  have hinv := foldlM_ok_inv (J := fun pre st => cube.Imported g md pre.length st ∧ ∀ c ∈ pre, cube.Accepted g md c)
    ⟨.none hg md, fun c hc => absurd hc List.not_mem_nil⟩ (fun pre c st st₁ hpre hJ hround => ?_) h
  · exact hinv
  · obtain ⟨himp, hacc⟩ := (hJ.1.round hone (getElem?_at_end hpre)).1 st₁ hround
    rw [List.length_append]
    refine ⟨himp, fun c' hc' => ?_⟩
    rcases List.mem_append.mp hc' with hc' | hc'
    · exact hJ.2 c' hc'
    · rw [List.mem_singleton.mp hc']
      exact hacc

theorem Imported.total (hg : g.Wf) (hone : SingleNames g) {md : Store}
    (hall : ∀ cnode ∈ cube.cnodes, cube.Accepted g md cnode) : ∃ st', buildFromCube cube ⟨g, md⟩ = .ok st' := by
  have hloop := foldlM_total (f := readCnode cube) (l := cube.cnodes) (s := (⟨g, md⟩ : Profiled))
    (J := fun pre st => cube.Imported g md pre.length st) (.none hg md) fun pre c st hpre hJ => ?_
  · obtain ⟨st', hst', -⟩ := hloop
    exact ⟨st', hst'⟩
  · obtain ⟨hstep, htotal⟩ := hJ.round hone (getElem?_at_end hpre)
    obtain ⟨st₁, hround⟩ := htotal hall
    refine ⟨st₁, hround, ?_⟩
    rw [List.length_append]
    exact (hstep st₁ hround).1

/-- A cube is read if all its paths pass the assertions. The graph gets a node for every function of the cube, and the
edges of the calls whose two ends had a node when the call was read. Each profile grows by what the paths of its function
say, and a function that the cube brings in stays without a profile. -/
theorem buildFromCube_imports (hg : g.Wf) (hone : SingleNames g) (cube : Cube) (md : Store) :
    ((∃ st', buildFromCube cube ⟨g, md⟩ = .ok st') ↔ ∀ cnode ∈ cube.cnodes, cube.Accepted g md cnode) ∧
      ∀ st', buildFromCube cube ⟨g, md⟩ = .ok st' → cube.Imported g md cube.cnodes.length st' :=
  ⟨⟨fun ⟨_, hst'⟩ => (Imported.of_build hg hone hst').2, Imported.total hg hone⟩,
    fun _ hst' => (Imported.of_build hg hone hst').1⟩

/-- The program `a.out` calls `main`, which calls `helper` five times. -/
def twoCalls : Cube where
  threads := [⟨0, 0⟩]
  cnodes := [⟨"a.out", none, fun _ => 1, fun _ => 0, fun _ => 3⟩, ⟨"main", some 0, fun _ => 1, fun _ => 2, fun _ => 3⟩,
    ⟨"helper", some 1, fun _ => 5, fun _ => 1, fun _ => 1⟩]
  parent_lt := by simp

/-- A graph of the function `main` alone. -/
def onlyMain : Callgraph := Callgraph.empty.insertNode "main" none false true

theorem onlyMain_singleNames : SingleNames onlyMain := by
  intro name
  rw [onlyMain, Callgraph.getNodesNamed_insertNode]
  split_ifs
  · decide
  · exact Nat.zero_le 1

/-- `helper` is only in the cube: it gets a node, but the call that brings it in gets no edge. -/
theorem buildFromCube_imports_twoCalls : ∃ st',
    buildFromCube twoCalls ⟨onlyMain, fun _ => NodeData.create.attachMetaData⟩ = .ok st' ∧
      st'.graph.hasName "helper" = true ∧ ("main", "helper") ∉ st'.graph.callsNamed := by
  have himport := buildFromCube_imports (g := onlyMain) (Callgraph.Wf.empty.insertNode "main" none false true (by decide))
    onlyMain_singleNames twoCalls fun _ => NodeData.create.attachMetaData
  have haccepted : ∀ cnode ∈ twoCalls.cnodes,
      twoCalls.Accepted onlyMain (fun _ => NodeData.create.attachMetaData) cnode := by
    simp [twoCalls, Accepted, time, inclusiveTime]
  obtain ⟨st', hst'⟩ := himport.1.mpr haccepted
  have hgraph := (himport.2 st' hst').graph
  refine ⟨st', hst', ?_, fun hcall => ?_⟩
  · rw [hasName_of_extends hgraph]
    rfl
  · have hmain : onlyMain.callsNamed = ∅ := by
      refine Set.eq_empty_of_forall_notMem ?_
      rintro e ⟨u, v, he, -⟩
      exact absurd he (AList.notMem_empty _)
    rw [hgraph.calls, hmain, Set.empty_union] at hcall
    obtain ⟨i, hi, c, p, hc, -, -, he, -, hknown⟩ := hcall
    have hname : "helper" = c.name := (Prod.ext_iff.mp he).2
    rw [← hname] at hknown
    have hpos : i = 0 ∨ i = 1 ∨ i = 2 := by
      change i < 3 at hi
      omega
    rcases hpos with rfl | rfl | rfl <;> exact absurd hknown (by decide)

end
end Cube
end MetaCG.Pgis.Profile
