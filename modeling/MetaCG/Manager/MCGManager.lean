import MetaCG.Merge.Sequence

/-! The graph manager (`MCGManager.h`, `MCGManager.cpp`) and its whole-program merge.

A `Callgraph*` is an address into `heap`; `managedGraphs` owns one address for each name and
`activeGraph` is a plain pointer. `mergeIntoActiveGraph` walks an `std::unordered_set` of names, so
it takes the order of the walk as an argument. -/
namespace MetaCG
open Foundations
set_option autoImplicit false
set_option maxHeartbeats 250000
set_option maxRecDepth 120000

structure MCGManager where
  heap : UMap ℕ Callgraph
  managedGraphs : UMap String ℕ
  activeGraph : Option ℕ

namespace MCGManager

-- The empty name stands for the active graph, whether or not a graph is managed under it.
def getCallgraph (m : MCGManager) (name : String) : Option ℕ :=
  if name = "" then m.activeGraph else m.managedGraphs.lookup name

def assertActive (m : MCGManager) (callgraph : String) : Except Exn Bool :=
  match m.managedGraphs.lookup callgraph with
  | some graph => .ok (decide (some graph = m.activeGraph))
  | none => .error (.assertion "Graph is not part of managed graphs")

def getAllManagedGraphNames (m : MCGManager) : List String := m.managedGraphs.keys

/-- Store `g` where the active graph lies. -/
def setGraph (m : MCGManager) (graph : ℕ) (g : Callgraph) : MCGManager :=
  { m with heap := m.heap.insert graph g }

/-- One round of the loop in `mergeIntoActiveGraph`. -/
def mergeNamed (policy : MergePolicy) (activeCallgraph : ℕ) (m : MCGManager) (callgraphName : String) :
    Except (Exn × MCGManager) MCGManager :=
  Outcome.guard m (m.assertActive callgraphName) fun active =>
    if active then .ok m
    else match m.getCallgraph callgraphName with
      | none => .error (.assertion "Callgraph is null!", m)
      | some currentCallgraph =>
        match m.heap.lookup activeCallgraph, m.heap.lookup currentCallgraph with
        | some g, some other =>
          match Callgraph.mergeInto policy g other with
          | .ok g => .ok (m.setGraph activeCallgraph g)
          | .error (e, g) => .error (e, m.setGraph activeCallgraph g)
        | _, _ => .error (.undefined, m)

def mergeIntoActiveGraph (policy : MergePolicy) (order : List String) (m : MCGManager) :
    Except (Exn × MCGManager) MCGManager :=
  match m.activeGraph with
  | none =>
    .error (.assertion "Graph manager could not merge into active Graph, no active graph exists", m)
  | some activeCallgraph => order.foldlM (mergeNamed policy activeCallgraph) m

/-! ## The merge as a sequence -/

/-- The graph that `activeGraph` points to. -/
def active (m : MCGManager) : Option Callgraph := m.activeGraph.bind m.heap.lookup

/-- The graph managed under `name`, unless it is the active one. -/
def other (m : MCGManager) (name : String) : Option Callgraph :=
  (m.managedGraphs.lookup name).bind fun graph => if some graph = m.activeGraph then none else m.heap.lookup graph

/-- The graphs that a walk in the given order merges into the active one. -/
def others (m : MCGManager) (order : List String) : List Callgraph := order.filterMap m.other

/-- A manager whose managed graphs exist, with an active graph and no graph under the empty name. -/
structure Managed (m : MCGManager) : Prop where
  owned : ∀ e ∈ UMap.toPairs m.managedGraphs, e.2 ∈ m.heap
  named : "" ∉ m.managedGraphs

/-- Walking in the given order leaves `g` as the active graph. -/
def MergesTo (m : MCGManager) (order : List String) (g : Callgraph) : Prop :=
  ∃ m', mergeIntoActiveGraph mergeByName order m = .ok m' ∧ m'.active = some g

theorem other_setGraph {m : MCGManager} {a : ℕ} (ha : m.activeGraph = some a) (g : Callgraph) :
    (m.setGraph a g).other = m.other := by
  funext name
  unfold other setGraph
  cases m.managedGraphs.lookup name with
  | none => rfl
  | some graph =>
    simp only [Option.bind_some, ha, Option.some.injEq]
    split_ifs with h
    · rfl
    · rw [UMap.lookup_insert_ite, if_neg h]

theorem Managed.setGraph {m : MCGManager} (h : m.Managed) (a : ℕ) (g : Callgraph) : (m.setGraph a g).Managed where
  owned := by
    intro e he
    exact (AList.mem_insert _).mpr (.inr (h.owned e he))
  named := h.named

/-- One round skips the active graph and merges any other one. -/
theorem mergeNamed_eq {m : MCGManager} (h : m.Managed) {a : ℕ} {T : Callgraph} (ha : m.activeGraph = some a)
    (hT : m.heap.lookup a = some T) (policy : MergePolicy) {name : String} (hname : name ∈ m.managedGraphs) :
    mergeNamed policy a m name = match m.other name with
      | none => .ok m
      | some S => match Callgraph.mergeInto policy T S with
        | .ok g => .ok (m.setGraph a g)
        | .error (e, g) => .error (e, m.setGraph a g) := by
  obtain ⟨graph, hg⟩ := (UMap.mem_iff_lookup name m.managedGraphs).mp hname
  obtain ⟨S, hS⟩ := (UMap.mem_iff_lookup graph m.heap).mp (h.owned _ ((UMap.mem_toPairs name graph _).mpr hg))
  have hne : name ≠ "" := fun he => h.named (he ▸ hname)
  have hget : m.getCallgraph name = some graph := by rw [getCallgraph, if_neg hne, hg]
  unfold mergeNamed assertActive other
  simp only [hg, Outcome.guard_ok, Option.bind_some, ha]
  by_cases hact : some graph = some a
  · simp [hact]
  · simp only [hact, hget, hT, hS, decide_false, Bool.false_eq_true, if_false]

/-- The walk merges the other graphs into the active one, in its order. -/
theorem mergesTo_iff {m : MCGManager} (h : m.Managed) {T : Callgraph} (hT : m.active = some T)
    {order : List String} (horder : ∀ name ∈ order, name ∈ m.managedGraphs) (g : Callgraph) :
    m.MergesTo order g ↔ Callgraph.mergeAll mergeByName T (m.others order) = .ok g := by
  obtain ⟨a, ha, hTa⟩ := Option.bind_eq_some_iff.mp hT
  have hrun : mergeIntoActiveGraph mergeByName order m = order.foldlM (mergeNamed mergeByName a) m := by
    rw [mergeIntoActiveGraph, ha]
  rw [MergesTo, hrun]
  clear hrun hT
  induction order generalizing m T with
  | nil =>
    simp only [List.foldlM_nil, others, List.filterMap_nil, Callgraph.mergeAll]
    constructor
    · rintro ⟨m', hm', hg⟩
      cases hm'
      rw [active, ha, Option.bind_some, hTa] at hg
      cases hg
      rfl
    · intro hg
      cases hg
      exact ⟨m, rfl, by rw [active, ha, Option.bind_some, hTa]⟩
  | cons name order ih =>
    have hrest : ∀ n ∈ order, n ∈ m.managedGraphs := fun n hn => horder n (List.mem_cons_of_mem name hn)
    have hstep := mergeNamed_eq h ha hTa mergeByName (horder name (List.mem_cons_self ..))
    rw [List.foldlM_cons, hstep, others, List.filterMap_cons]
    cases hS : m.other name with
    | none => exact ih h hrest ha hTa
    | some S =>
      simp only [Callgraph.mergeAll, List.foldlM_cons]
      cases hm : Callgraph.mergeInto mergeByName T S with
      | error e =>
        constructor
        · rintro ⟨m', hm', -⟩
          cases hm'
        · intro hg
          cases hg
      | ok T' =>
        have hT' : (m.setGraph a T').heap.lookup a = some T' := by
          rw [setGraph, UMap.lookup_insert_ite, if_pos rfl]
        have hih := ih (m := m.setGraph a T') (h.setGraph a T') hrest ha hT'
        rw [others, other_setGraph ha] at hih
        exact hih

theorem others_perm {m : MCGManager} {o₁ o₂ : List String} (h : o₁.Perm o₂) :
    (m.others o₁).Perm (m.others o₂) := h.filterMap _

/-! ## The structure of a whole-program merge -/

/-- The input of a whole-program merge: the active graph can be merged into, the others from. -/
structure WholeProgram (m : MCGManager) (T : Callgraph) : Prop where
  managed : m.Managed
  active : m.active = some T
  target : T.Target
  source : ∀ S ∈ m.others m.getAllManagedGraphNames, S.Source

/-- The orders in which the names can be visited. -/
def Order (m : MCGManager) (order : List String) : Prop := order.Perm m.getAllManagedGraphNames

section
variable {m : MCGManager} {T : Callgraph} {order : List String}

theorem Order.mem (h : m.Order order) : ∀ name ∈ order, name ∈ m.managedGraphs :=
  fun _ hn => AList.mem_keys.mpr (h.mem_iff.mp hn)

theorem WholeProgram.sources (h : WholeProgram m T) (ho : m.Order order) : ∀ S ∈ m.others order, S.Source :=
  fun S hS => h.source S ((others_perm ho).mem_iff.mp hS)

theorem WholeProgram.mergesTo_iff_mergeAll (h : WholeProgram m T) (ho : m.Order order) (g : Callgraph) :
    m.MergesTo order g ↔ Callgraph.mergeAll mergeByName T (m.others order) = .ok g :=
  mergesTo_iff h.managed h.active ho.mem g

theorem WholeProgram.returns_iff (h : WholeProgram m T) (ho : m.Order order) :
    (∃ g, m.MergesTo order g) ↔ T.MergeableAlong (m.others order) := by
  simp only [h.mergesTo_iff_mergeAll ho]
  exact Callgraph.mergeAll_ok_iff h.target (h.sources ho)

end

/-- The active graph is `whole`; the graphs `a` and `b` are to be merged into it. -/
def withTwo (whole a b : Callgraph) : MCGManager where
  heap := ((∅ : UMap ℕ Callgraph).insert 0 whole |>.insert 1 a).insert 2 b
  managedGraphs := ((∅ : UMap String ℕ).insert "whole" 0 |>.insert "a" 1).insert "b" 2
  activeGraph := some 0

theorem withTwo_wholeProgram {whole a b : Callgraph} (hw : whole.Target) (ha : a.Source) (hb : b.Source) :
    WholeProgram (withTwo whole a b) whole where
  managed := by
    have hkeys : (withTwo whole a b).heap.keys = [2, 1, 0] := rfl
    have hnames : UMap.toPairs (withTwo whole a b).managedGraphs = [("b", 2), ("a", 1), ("whole", 0)] := rfl
    refine ⟨fun e he => ?_, ?_⟩
    · rw [hnames] at he
      rw [AList.mem_keys, hkeys]
      revert e
      decide
    · change ¬ "" ∈ (withTwo Callgraph.empty Callgraph.empty Callgraph.empty).managedGraphs
      decide
  active := rfl
  target := hw
  source := by
    intro S hS
    have hl : (withTwo whole a b).others (withTwo whole a b).getAllManagedGraphNames = [b, a] := rfl
    rw [hl, List.mem_cons, List.mem_singleton] at hS
    rcases hS with rfl | rfl
    · exact hb
    · exact ha

end MCGManager
end MetaCG
