import Mathlib.Data.Finset.Insert
import MetaCG.Format.VersionTwoFidelity
import MetaCG.Graph.ByName
import MetaCG.Manager.ActiveGraph

/-! The runtime of CGPatch (`CGPatchRuntime.cpp`), up to the call of `MPI_Finalize`.

A process has its own memory: a `const char*` and the address of a function are numbers, `text` and
`findSymbol` say what they stand for. A graph lies in the heap of the manager under the number of the
`std::make_unique` that made it. -/
namespace MetaCG
open Foundations
set_option autoImplicit false
set_option maxHeartbeats 250000
set_option maxRecDepth 120000

namespace Callgraph

def existsAnyEdge (g : Callgraph) (source target : String) : Bool :=
  (g.getNodesNamed source).any fun sourceId => (g.getNodesNamed target).any fun targetId => g.existsEdge sourceId targetId

def setHasBody (g : Callgraph) (id : ℕ) (bodyStatus : Bool) : Callgraph :=
  g.updateNode id fun n => { n with hasBody := bodyStatus }

end Callgraph

namespace CGPatch

/-- A call of `__metacg_indirect_call`. -/
structure IndirectCall where
  name : ℕ
  address : ℕ
deriving DecidableEq

structure Runtime where
  manager : MCGManager
  globalCallgraph : Option ℕ
  visitedMap : UMap ℕ (Finset ℕ)
  counter : ℤ

/-- Before the static objects are constructed. -/
def Runtime.initial : Runtime := ⟨.initial, none, ∅, 0⟩

def initializeGlobalCallgraph (rt : Runtime) : Runtime :=
  if rt.manager.getAllManagedGraphNames.isEmpty then
    let (globalCallgraph, manager) := rt.manager.getOrCreateCallgraph "globalCallGraph" true 0
    { rt with manager := manager, globalCallgraph := some globalCallgraph, counter := 0 }
  else rt

/-- The edge of a call that is not known yet; `self` is where the graph lies. -/
def addCall (self : ℕ) (g : Callgraph) (name symbol : String) : Except Exn Callgraph := do
  let (g, caller) ← g.getOrInsertNode name none false false
  let (g, callee) ← g.getOrInsertNode symbol none false false
  let g := (g.setHasBody caller true).setHasBody callee true
  return (Callgraph.addEdgeRef self g ⟨self, caller⟩ ⟨self, callee⟩).2

section
variable (text findSymbol : ℕ → String)

/-- `__metacg_indirect_call` -/
def indirectCall (rt : Runtime) (call : IndirectCall) : Except Exn Runtime :=
  match rt.globalCallgraph with
  | none => .ok rt
  | some _ =>
    let knownCalls := UMap.getD rt.visitedMap call.name ∅
    if call.address ∈ knownCalls then .ok rt
    else
      let rt := { rt with visitedMap := rt.visitedMap.insert call.name (insert call.address knownCalls) }
      let rt := initializeGlobalCallgraph rt
      let symbol := findSymbol call.address
      if symbol = "" then .ok rt
      else match rt.globalCallgraph with
        | none => .error .undefined
        | some self =>
          match rt.manager.heap.lookup self with
          | none => .error .undefined
          | some g =>
            if g.existsAnyEdge (text call.name) symbol then .ok rt
            else do
              let g ← addCall self g (text call.name) symbol
              return { rt with manager := rt.manager.setGraph self g, counter := rt.counter + 1 }

end

/-- A process of the job: its memory and its calls until `MPI_Finalize`. -/
structure Rank where
  text : ℕ → String
  findSymbol : ℕ → String
  events : List IndirectCall

/-- The state when `MPI_Finalize` is called. -/
def Rank.run (rank : Rank) : Except Exn Runtime :=
  rank.events.foldlM (indirectCall rank.text rank.findSymbol) (initializeGlobalCallgraph .initial)

/-- The names of callers and callees whose symbols are found. -/
def Rank.calls (rank : Rank) : Set (String × String) :=
  {p | ∃ e ∈ rank.events, rank.findSymbol e.address ≠ "" ∧ p = (rank.text e.name, rank.findSymbol e.address)}

/-- The name is that of a caller or a callee. -/
def Seen (calls : Set (String × String)) (name : String) : Prop := ∃ p ∈ calls, name = p.1 ∨ name = p.2

/-! ## The graph of a rank -/

open Callgraph

/-- A graph as the runtime builds it: names are unique, and there are no origins and no metadata. -/
structure Bare (g : Callgraph) : Prop where
  wf : g.Wf
  live : ∀ i, i < g.nodes.length → g.hasNode i = true
  unique : ∀ i k n m, g.slot i = some n → g.slot k = some m → n.functionName = m.functionName → i = k
  node : ∀ i n, g.slot i = some n → n.origin = none ∧ n.metaFields = ∅
  plain : PlainEdges g
  globals : g.metaFields = ∅

theorem Bare.empty : Bare Callgraph.empty where
  wf := .empty
  live := fun i hi => by simp [Callgraph.empty] at hi
  unique := fun i k n m hn => by simp [Callgraph.empty, slot] at hn
  node := fun i n hn => by simp [Callgraph.empty, slot] at hn
  plain := fun e => rfl
  globals := rfl

section
variable {g : Callgraph}

theorem Bare.insertNode (h : Bare g) {name : String} (hname : name ≠ "") (hnew : g.firstNamed name = none) :
    Bare (g.insertNode name none false false) where
  wf := h.wf.insertNode _ _ _ _ hname
  live := by
    intro i hi
    rw [hasNode, slot_insertNode]
    split_ifs with he
    · rfl
    · refine h.live i ?_
      rw [Callgraph.insertNode, List.length_append, List.length_singleton] at hi
      omega
  unique := by
    have hother : ∀ k m, g.slot k = some m → m.functionName ≠ name := by
      intro k m hm he
      have hmem := (h.wf.mem_named name k).mpr ⟨m, hm, he⟩
      rw [(g.firstNamed_eq_none_iff name).mp hnew] at hmem
      cases hmem
    intro i k n m hn hm he
    rw [slot_insertNode] at hn hm
    split_ifs at hn hm with hi hk hk
    · rw [hi, hk]
    · cases hn
      exact absurd he.symm (hother k m hm)
    · cases hm
      exact absurd he (hother i n hn)
    · exact h.unique i k n m hn hm he
  node := by
    intro i n hn
    rw [slot_insertNode] at hn
    split_ifs at hn with hi
    · cases hn
      exact ⟨rfl, rfl⟩
    · exact h.node i n hn
  plain := h.plain
  globals := h.globals

/-- What a node with a name is after `getOrInsertNode`, and that nothing else changes. -/
structure GotNode (g : Callgraph) (name : String) (g' : Callgraph) (i : ℕ) : Prop where
  bare : Bare g'
  edges : g'.edges = g.edges
  slot : ∃ n, g'.slot i = some n ∧ n.functionName = name
  old : ∀ k n, g.slot k = some n → g'.slot k = some n
  new : ∀ k n, g'.slot k = some n → g.slot k = some n ∨ k = i

theorem Bare.getOrInsertNode (h : Bare g) {name : String} (hname : name ≠ "") :
    ∃ g' i, g.getOrInsertNode name none false false = .ok (g', i) ∧ GotNode g name g' i := by
  rcases h.wf.getOrInsertNode_total hname none false false with ⟨i, n, hn, hnn, hr⟩ | ⟨hfirst, hr⟩
  · exact ⟨g, i, hr, h, rfl, ⟨n, hn, hnn⟩, fun k m hm => hm, fun k m hm => .inl hm⟩
  · have hslot := slot_insertNode g name none false false
    refine ⟨g.insertNode name none false false, g.nodes.length, hr, ?_, rfl, ?_, ?_, ?_⟩
    · exact h.insertNode hname hfirst
    · exact ⟨_, by rw [hslot, if_pos rfl], rfl⟩
    · intro k n hn
      rw [hslot, if_neg (Nat.ne_of_lt (slot_lt hn)), hn]
    · intro k n hn
      rw [hslot] at hn
      split_ifs at hn with hk
      · exact .inr hk
      · exact .inl hn

theorem slot_setHasBody (g : Callgraph) (id : ℕ) (b : Bool) (i : ℕ) :
    (g.setHasBody id b).slot i = (g.slot i).map fun n => if i = id then { n with hasBody := b } else n := by
  rw [Callgraph.setHasBody, slot_updateNode]
  split_ifs with hi
  · simp only [hi]
  · exact Option.map_id'.symm

theorem Bare.setHasBody (h : Bare g) (id : ℕ) (b : Bool) : Bare (g.setHasBody id b) := by
  have hslot : ∀ i n, (g.setHasBody id b).slot i = some n → ∃ m, g.slot i = some m ∧
      n.functionName = m.functionName ∧ n.origin = m.origin ∧ n.metaFields = m.metaFields := by
    intro i n hn
    rw [slot_setHasBody] at hn
    obtain ⟨m, hm, rfl⟩ := Option.map_eq_some_iff.mp hn
    refine ⟨m, hm, ?_⟩
    split_ifs <;> exact ⟨rfl, rfl, rfl⟩
  refine ⟨h.wf.updateNode _ _ fun _ _ => ⟨rfl, rfl⟩, fun i hi => ?_, fun i k n m hn hm he => ?_, fun i n hn => ?_,
    h.plain, h.globals⟩
  · rw [hasNode, slot_setHasBody, Option.isSome_map]
    refine h.live i ?_
    rw [Callgraph.setHasBody, updateNode, List.length_modify] at hi
    exact hi
  · obtain ⟨n', hn', hname, -⟩ := hslot i n hn
    obtain ⟨m', hm', hname', -⟩ := hslot k m hm
    exact h.unique i k n' m' hn' hm' (by rw [← hname, ← hname', he])
  · obtain ⟨n', hn', -, horigin, hmeta⟩ := hslot i n hn
    rw [horigin, hmeta]
    exact h.node i n' hn'

theorem Bare.addEdgeInternal (h : Bare g) {u v : ℕ} (hu : g.hasNode u = true) (hv : g.hasNode v = true) :
    Bare (g.addEdgeInternal u v).2 := by
  have hwf := h.wf.addEdgeInternal hu hv
  by_cases he : (u, v) ∈ g.edges
  · rw [addEdgeInternal_of_mem he]
    exact h
  · rw [addEdgeInternal_of_notMem he] at hwf ⊢
    refine ⟨hwf, h.live, h.unique, h.node, fun e => ?_, h.globals⟩
    change UMap.getD (g.edges.insert (u, v) ∅) e ∅ = ∅
    rw [UMap.getD_insert]
    split_ifs
    · rfl
    · exact h.plain e

/-- The graph of a rank that has seen the calls `calls`. -/
structure Recorded (calls : Set (String × String)) (g : Callgraph) : Prop extends Bare g where
  body : ∀ i n, g.slot i = some n → n.hasBody = true
  names : ∀ name, (∃ i n, g.slot i = some n ∧ n.functionName = name) ↔ Seen calls name
  calls : ∀ p, p ∈ calls ↔ p ∈ g.callsNamed

theorem Recorded.empty : Recorded ∅ Callgraph.empty := by
  refine ⟨.empty, fun i n hn => ?_, fun name => ?_, fun p => ?_⟩
  · simp [Callgraph.empty, slot] at hn
  · simp [Callgraph.empty, slot, Seen]
  · simp [Callgraph.callsNamed, Callgraph.empty]

theorem Recorded.existsAnyEdge_iff {calls : Set (String × String)} (h : Recorded calls g) (caller callee : String) :
    g.existsAnyEdge caller callee = true ↔ (caller, callee) ∈ calls := by
  rw [h.calls]
  simp only [existsAnyEdge, existsEdge, List.any_eq_true, decide_eq_true_eq, callsNamed, Set.mem_ofPred_eq, nameOf_eq_some,
    ← h.wf.mem_named]
  constructor
  · rintro ⟨u, hu, v, hv, he⟩
    exact ⟨u, v, he, hu, hv⟩
  · rintro ⟨u, v, he, hu, hv⟩
    exact ⟨u, hu, v, hv, he⟩

/-- What `addCall` does to a bare graph. -/
structure Called (g : Callgraph) (caller callee : String) (g' : Callgraph) (u v : ℕ) : Prop where
  bare : Bare g'
  caller : g'.nameOf u = some caller
  callee : g'.nameOf v = some callee
  edges : ∀ e, e ∈ g'.edges ↔ e = (u, v) ∨ e ∈ g.edges
  old : ∀ k name, g.nameOf k = some name → g'.nameOf k = some name
  node : ∀ k n', g'.slot k = some n' → ((k = u ∨ k = v) ∧ n'.hasBody = true) ∨
    ∃ n, g.slot k = some n ∧ n'.functionName = n.functionName ∧ n'.hasBody = n.hasBody

theorem Bare.addCall (h : Bare g) (self : ℕ) {caller callee : String} (hcaller : caller ≠ "") (hcallee : callee ≠ "") :
    ∃ g' u v, addCall self g caller callee = .ok g' ∧ Called g caller callee g' u v := by
  obtain ⟨g₁, u, hg₁, hu⟩ := h.getOrInsertNode hcaller
  obtain ⟨g₂, v, hg₂, hv⟩ := hu.bare.getOrInsertNode hcallee
  have hslot : ∀ k, ((g₂.setHasBody u true).setHasBody v true).slot k =
      (g₂.slot k).map fun n => if k = u ∨ k = v then { n with hasBody := true } else n := by
    intro k
    rw [slot_setHasBody, slot_setHasBody, Option.map_map]
    congr 1
    funext n
    rw [Function.comp_apply]
    by_cases hkv : k = v
    · rw [if_pos hkv, if_pos (show k = u ∨ k = v from .inr hkv)]
      split_ifs <;> rfl
    · rw [if_neg hkv]
      simp only [hkv, or_false]
  have hname : ∀ k, ((g₂.setHasBody u true).setHasBody v true).nameOf k = g₂.nameOf k := by
    intro k
    rw [nameOf, nameOf, hslot, Option.map_map]
    congr 1
    funext n
    rw [Function.comp_apply]
    split_ifs <;> rfl
  obtain ⟨n, hn, hnn⟩ := hu.slot
  have hun : g₂.nameOf u = some caller := (nameOf_eq_some u caller).mpr ⟨n, hv.old u n hn, hnn⟩
  have hvn : g₂.nameOf v = some callee := (nameOf_eq_some v callee).mpr hv.slot
  have hlive : ∀ {k name}, g₂.nameOf k = some name → ((g₂.setHasBody u true).setHasBody v true).hasNode k = true := by
    intro k name hk
    rw [← hname] at hk
    obtain ⟨m, hm, -⟩ := (nameOf_eq_some k name).mp hk
    exact hasNode_of_slot hm
  have hbare := (hv.bare.setHasBody u true).setHasBody v true
  refine ⟨(((g₂.setHasBody u true).setHasBody v true).addEdgeInternal u v).2, u, v, ?_,
    hbare.addEdgeInternal (hlive hun) (hlive hvn), ?_, ?_, fun e => ?_, fun k name hk => ?_, fun k n' hn' => ?_⟩
  · rw [CGPatch.addCall, hg₁, ok_bind]
    dsimp only
    rw [hg₂, ok_bind]
    dsimp only
    rw [addEdgeRef, hasNodeRef, hasNodeRef, hlive hun, hlive hvn]
    simp only [Bool.true_and, decide_true, Bool.not_true, Bool.or_self, Bool.false_eq_true, if_false]
    rfl
  · rw [nameOf_addEdgeInternal, hname]
    exact hun
  · rw [nameOf_addEdgeInternal, hname]
    exact hvn
  · have hedges : ((g₂.setHasBody u true).setHasBody v true).edges = g.edges := hv.edges.trans hu.edges
    rw [mem_edges_addEdgeInternal, hedges]
  · obtain ⟨m, hm, hmn⟩ := (nameOf_eq_some k name).mp hk
    rw [nameOf_addEdgeInternal, hname]
    exact (nameOf_eq_some k name).mpr ⟨m, hv.old k m (hu.old k m hm), hmn⟩
  · rw [slot_addEdgeInternal, hslot] at hn'
    obtain ⟨m, hm, rfl⟩ := Option.map_eq_some_iff.mp hn'
    by_cases hk : k = u ∨ k = v
    · exact .inl ⟨hk, by rw [if_pos hk]⟩
    · rw [if_neg hk]
      rcases hv.new k m hm with hm | hkv
      · rcases hu.new k m hm with hm | hku
        · exact .inr ⟨m, hm, rfl, rfl⟩
        · exact absurd (.inl hku) hk
      · exact absurd (.inr hkv) hk

/-- The call is added, and nothing else. -/
theorem Recorded.addCall {calls : Set (String × String)} (h : Recorded calls g) (self : ℕ) {caller callee : String}
    (hcaller : caller ≠ "") (hcallee : callee ≠ "") :
    ∃ g', addCall self g caller callee = .ok g' ∧ Recorded (insert (caller, callee) calls) g' := by
  obtain ⟨g', u, v, hg', hc⟩ := h.toBare.addCall self hcaller hcallee
  refine ⟨g', hg', hc.bare, fun k n' hn' => ?_, fun name => ?_, fun p => ?_⟩
  · rcases hc.node k n' hn' with ⟨-, hbody⟩ | ⟨n, hn, -, hbody⟩
    · exact hbody
    · rw [hbody]
      exact h.body k n hn
  · have hnew : ∀ {k}, k = u ∨ k = v → ∀ {n'}, g'.slot k = some n' → n'.functionName = caller ∨ n'.functionName = callee := by
      intro k hk n' hn'
      rcases hk with rfl | rfl
      · obtain ⟨m, hm, hname⟩ := (nameOf_eq_some k caller).mp hc.caller
        rw [hn'] at hm
        cases hm
        exact .inl hname
      · obtain ⟨m, hm, hname⟩ := (nameOf_eq_some k callee).mp hc.callee
        rw [hn'] at hm
        cases hm
        exact .inr hname
    constructor
    · rintro ⟨k, n', hn', rfl⟩
      rcases hc.node k n' hn' with ⟨hk, -⟩ | ⟨n, hn, hname, -⟩
      · exact ⟨(caller, callee), Set.mem_insert _ _, hnew hk hn'⟩
      · obtain ⟨p, hp, hnp⟩ := (h.names n'.functionName).mp ⟨k, n, hn, hname.symm⟩
        exact ⟨p, Set.mem_insert_of_mem _ hp, hnp⟩
    · rintro ⟨p, hp, hnp⟩
      rcases Set.mem_insert_iff.mp hp with rfl | hp
      · rcases hnp with rfl | rfl
        · exact ⟨u, (nameOf_eq_some u _).mp hc.caller⟩
        · exact ⟨v, (nameOf_eq_some v _).mp hc.callee⟩
      · obtain ⟨k, hk⟩ := (h.names name).mpr ⟨p, hp, hnp⟩
        exact ⟨k, (nameOf_eq_some k name).mp (hc.old k name ((nameOf_eq_some k name).mpr hk))⟩
  · rw [Set.mem_insert_iff, h.calls]
    constructor
    · rintro (rfl | ⟨a, b, he, ha, hb⟩)
      · exact ⟨u, v, (hc.edges _).mpr (.inl rfl), hc.caller, hc.callee⟩
      · exact ⟨a, b, (hc.edges _).mpr (.inr he), hc.old a _ ha, hc.old b _ hb⟩
    · rintro ⟨a, b, he, ha, hb⟩
      rcases (hc.edges _).mp he with heq | he
      · cases heq
        rw [hc.caller] at ha
        rw [hc.callee] at hb
        exact .inl (Prod.ext (Option.some.inj ha).symm (Option.some.inj hb).symm)
      · obtain ⟨hla, hlb⟩ := h.wf.edge_live a b he
        have hkept : ∀ {k name}, g.hasNode k = true → g'.nameOf k = some name → g.nameOf k = some name := by
          intro k name hk hname
          obtain ⟨n, hn⟩ := (g.hasNode_iff k).mp hk
          have hold := (nameOf_eq_some k n.functionName).mpr ⟨n, hn, rfl⟩
          rw [hc.old k _ hold] at hname
          rw [hold, hname]
        exact .inr ⟨a, b, he, hkept hla ha, hkept hlb hb⟩

end

/-! ## The runtime of a rank -/

/-- The state of a rank that has seen the calls `calls`: its one graph is managed and active. -/
structure RankState (calls : Set (String × String)) (rt : Runtime) (g : Callgraph) : Prop where
  manager : rt.manager = ⟨(∅ : UMap ℕ Callgraph).insert 0 g, (∅ : UMap String ℕ).insert "globalCallGraph" 0, some 0⟩
  globalCallgraph : rt.globalCallgraph = some 0
  recorded : Recorded calls g

theorem RankState.start : RankState ∅ (initializeGlobalCallgraph .initial) Callgraph.empty := ⟨rfl, rfl, .empty⟩

/-- A known call has been seen before. -/
def Visited (text findSymbol : ℕ → String) (calls : Set (String × String)) (rt : Runtime) : Prop :=
  ∀ name, ∀ address ∈ UMap.getD rt.visitedMap name ∅, findSymbol address ≠ "" → (text name, findSymbol address) ∈ calls

/-- The call of an event, if its symbol is found. -/
def callOf (text findSymbol : ℕ → String) (e : IndirectCall) : Set (String × String) :=
  {p | findSymbol e.address ≠ "" ∧ p = (text e.name, findSymbol e.address)}

section
variable {text findSymbol : ℕ → String} {calls : Set (String × String)} {rt : Runtime} {g : Callgraph} {e : IndirectCall}

theorem callOf_of_ne (h : findSymbol e.address ≠ "") : callOf text findSymbol e = {(text e.name, findSymbol e.address)} := by
  ext p
  simp [callOf, h]

/-- The address is noted under the name. -/
def noteCall (rt : Runtime) (e : IndirectCall) : Runtime :=
  { rt with visitedMap := rt.visitedMap.insert e.name (insert e.address (UMap.getD rt.visitedMap e.name ∅)) }

theorem Visited.noteCall (hv : Visited text findSymbol calls rt) :
    Visited text findSymbol (calls ∪ callOf text findSymbol e) (noteCall rt e) := by
  intro name address haddress hsymbol
  change address ∈ UMap.getD (rt.visitedMap.insert e.name _) name ∅ at haddress
  rw [UMap.getD_insert] at haddress
  split_ifs at haddress with hname
  · subst hname
    rcases Finset.mem_insert.mp haddress with rfl | haddress
    · exact .inr ⟨hsymbol, rfl⟩
    · exact .inl (hv e.name address haddress hsymbol)
  · exact .inl (hv name address haddress hsymbol)

/-- The graph of a running rank is there, so that it is not made again. -/
theorem RankState.initialize (h : RankState calls rt g) : initializeGlobalCallgraph rt = rt := by
  unfold initializeGlobalCallgraph
  rw [h.manager]
  rfl

theorem RankState.lookup (h : RankState calls rt g) : rt.manager.heap.lookup 0 = some g := by
  rw [h.manager]
  exact AList.lookup_insert ∅

theorem RankState.indirectCall (h : RankState calls rt g) (hv : Visited text findSymbol calls rt) (he : text e.name ≠ "") :
    ∃ rt' g', CGPatch.indirectCall text findSymbol rt e = .ok rt' ∧ RankState (calls ∪ callOf text findSymbol e) rt' g' ∧
      Visited text findSymbol (calls ∪ callOf text findSymbol e) rt' := by
  have hnote : RankState calls (noteCall rt e) g := ⟨h.manager, h.globalCallgraph, h.recorded⟩
  have hskip : (findSymbol e.address ≠ "" → (text e.name, findSymbol e.address) ∈ calls) →
      calls ∪ callOf text findSymbol e = calls := by
    intro hknown
    refine Set.union_eq_self_of_subset_right ?_
    rintro p ⟨hne, rfl⟩
    exact hknown hne
  by_cases hseen : e.address ∈ UMap.getD rt.visitedMap e.name ∅
  · refine ⟨rt, g, ?_, ?_⟩
    · simp only [CGPatch.indirectCall, h.globalCallgraph, hseen, if_true]
    · rw [hskip fun hne => hv e.name e.address hseen hne]
      exact ⟨h, hv⟩
  · have hrun : CGPatch.indirectCall text findSymbol rt e =
        if findSymbol e.address = "" then .ok (noteCall rt e)
        else if g.existsAnyEdge (text e.name) (findSymbol e.address) then .ok (noteCall rt e)
        else do
          let g ← CGPatch.addCall 0 g (text e.name) (findSymbol e.address)
          return { noteCall rt e with manager := rt.manager.setGraph 0 g, counter := rt.counter + 1 } := by
      have hinit : initializeGlobalCallgraph (noteCall rt e) = noteCall rt e := hnote.initialize
      unfold noteCall at hinit ⊢
      unfold CGPatch.indirectCall
      dsimp only
      rw [hinit]
      dsimp only
      rw [h.globalCallgraph]
      dsimp only
      rw [if_neg hseen, h.lookup]
    have hvisited : Visited text findSymbol (calls ∪ callOf text findSymbol e) (noteCall rt e) := hv.noteCall
    rw [hrun]
    by_cases hempty : findSymbol e.address = ""
    · rw [if_pos hempty, hskip fun hne => absurd hempty hne]
      rw [hskip fun hne => absurd hempty hne] at hvisited
      exact ⟨_, g, rfl, hnote, hvisited⟩
    · rw [if_neg hempty]
      by_cases hexists : g.existsAnyEdge (text e.name) (findSymbol e.address) = true
      · have hmem := (h.recorded.existsAnyEdge_iff _ _).mp hexists
        rw [if_pos hexists, hskip fun _ => hmem]
        rw [hskip fun _ => hmem] at hvisited
        exact ⟨_, g, rfl, hnote, hvisited⟩
      · obtain ⟨g', hg', hrec⟩ := h.recorded.addCall 0 he hempty
        rw [if_neg hexists, hg', ok_bind]
        refine ⟨_, g', rfl, ⟨?_, h.globalCallgraph, ?_⟩, hvisited⟩
        · change rt.manager.setGraph 0 g' = _
          rw [h.manager]
          rfl
        · rw [callOf_of_ne hempty, Set.union_singleton]
          exact hrec

end

/-- Every rank gets to `MPI_Finalize`, with its calls in its graph. -/
theorem Rank.run_recorded (rank : Rank) (hnames : ∀ e ∈ rank.events, rank.text e.name ≠ "") :
    ∃ rt g, rank.run = .ok rt ∧ RankState rank.calls rt g := by
  suffices htotal : ∃ rt, rank.run = .ok rt ∧ ∃ g, RankState rank.calls rt g ∧
      Visited rank.text rank.findSymbol rank.calls rt by
    obtain ⟨rt, hrun, g, hstate, -⟩ := htotal
    exact ⟨rt, g, hrun, hstate⟩
  refine foldlM_total (J := fun pre rt => ∃ g, RankState {p | ∃ e ∈ pre, p ∈ callOf rank.text rank.findSymbol e} rt g ∧
      Visited rank.text rank.findSymbol {p | ∃ e ∈ pre, p ∈ callOf rank.text rank.findSymbol e} rt) ?_ ?_
  · have hnone : {p | ∃ e ∈ ([] : List IndirectCall), p ∈ callOf rank.text rank.findSymbol e} = ∅ := by
      ext p
      simp
    rw [hnone]
    exact ⟨_, .start, fun name address h => by cases h⟩
  · rintro pre e rt hpre ⟨g, hstate, hv⟩
    obtain ⟨rt', g', hrun, hstate', hv'⟩ :=
      hstate.indirectCall hv (hnames e (hpre.subset (List.mem_append_right _ (List.mem_singleton_self e))))
    have hnext : {p | ∃ x ∈ pre ++ [e], p ∈ callOf rank.text rank.findSymbol x} =
        {p | ∃ x ∈ pre, p ∈ callOf rank.text rank.findSymbol x} ∪ callOf rank.text rank.findSymbol e := by
      ext p
      simp [or_and_right, exists_or]
    rw [hnext]
    exact ⟨rt', hrun, g', hstate', hv'⟩

end CGPatch
end MetaCG
