import MetaCG.Graph.History

/-! What a call graph does with ids and nodes that it does not own.

`hasNode` compares an id with the number of slots by `<`, `getNode` by `>`: the two disagree on the
id that equals the size. Of the operations on `CgNode&`, `removeEdge` alone accepts a pair of which
only one node is its own. -/
namespace MetaCG
open Foundations
set_option autoImplicit false
set_option maxHeartbeats 250000
set_option maxRecDepth 120000

namespace Callgraph

/-! ## Ids -/

theorem getNode_size (g : Callgraph) : g.getNode g.size = .error .outOfRange := by
  unfold getNode size
  rw [if_neg (lt_irrefl _), List.getElem?_eq_none le_rfl]

theorem getNode_of_ne_size {g : Callgraph} {i : ℕ} (h : i ≠ g.size) : g.getNode i = .ok (g.slot i) := by
  by_cases hi : i < g.nodes.length
  · exact getNode_of_lt hi
  · have hgt : i > g.nodes.length := by
      unfold size at h
      omega
    rw [getNode, if_pos hgt, slot_of_ge hgt.le]

/-- `getNode(id)` returns, and returns a node exactly for the ids that `hasNode` accepts. -/
def LookupTotal (g : Callgraph) (id : ℕ) : Prop :=
  ∃ ptr, g.getNode id = .ok ptr ∧ (ptr.isSome = true ↔ g.hasNode id = true)

theorem lookupTotal_iff (g : Callgraph) (id : ℕ) : g.LookupTotal id ↔ id ≠ g.size := by
  constructor
  · rintro ⟨ptr, hptr, -⟩ rfl
    rw [getNode_size] at hptr
    cases hptr
  · exact fun h => ⟨g.slot id, getNode_of_ne_size h, Iff.rfl⟩

/-- `g'` is `g` with the edge `(u, v)` and nothing else. -/
structure EdgeAdded (g : Callgraph) (u v : ℕ) (g' : Callgraph) : Prop where
  edges : ∀ e, g'.edges.lookup e = if e = (u, v) then some ∅ else g.edges.lookup e
  callees : ∀ w, g'.callees w = if w = u then g.callees u ++ [v] else g.callees w
  callers : ∀ w, g'.callers w = if w = v then g.callers v ++ [u] else g.callers w
  rest : { g' with edges := g.edges, calleeList := g.calleeList, callerList := g.callerList } = g

theorem edgeAdded_withEdge (g : Callgraph) (u v : ℕ) : EdgeAdded g u v (g.withEdge u v) where
  edges := fun _ => UMap.lookup_insert_ite _ _ _ _
  callees := callees_withEdge g u v
  callers := callers_withEdge g u v
  rest := rfl

/-- `addEdge(parentID, childID)` returns; it adds the edge or leaves the graph as it is. -/
def InsertionAtomic (g : Callgraph) (parentID childID : ℕ) : Prop :=
  ∃ added g', g.addEdge parentID childID = .ok (added, g') ∧
    (added = true ↔ g.hasNode parentID = true ∧ g.hasNode childID = true ∧ (parentID, childID) ∉ g.edges) ∧
    (added = true → EdgeAdded g parentID childID g') ∧ (added = false → g' = g)

theorem addEdge_of_dead_parent {g : Callgraph} {u : ℕ} (hu : u ≠ g.size) (h : g.hasNode u = false) (v : ℕ) :
    g.addEdge u v = .ok (false, g) := by
  have hnone : g.slot u = none := Option.not_isSome_iff_eq_none.mp (by rw [← hasNode, h]; exact Bool.false_ne_true)
  rw [addEdge, getNode_of_ne_size hu, hnone]
  rfl

theorem addEdge_of_live_parent {g : Callgraph} {u : ℕ} (h : g.hasNode u = true) (v : ℕ) :
    g.addEdge u v = g.getNode v >>= fun ptr =>
      .ok (if ptr.isSome then g.addEdgeInternal u v else (false, g)) := by
  obtain ⟨n, hn⟩ := (g.hasNode_iff u).mp h
  rw [addEdge, getNode_of_lt (slot_lt hn), hn]
  change (g.getNode v >>= fun ptr => _) = _
  cases g.getNode v with
  | error e => rfl
  | ok ptr => cases ptr <;> rfl

/-- Where `addEdge` throws, it does so on the size, for the parent or behind a live parent. -/
def PastTheEnd (g : Callgraph) (parentID childID : ℕ) : Prop :=
  parentID = g.size ∨ g.hasNode parentID = true ∧ childID = g.size

theorem addEdge_pastTheEnd {g : Callgraph} {u v : ℕ} (h : g.PastTheEnd u v) :
    g.addEdge u v = .error .outOfRange := by
  rcases h with rfl | ⟨hu, rfl⟩
  · rw [addEdge, getNode_size]
    rfl
  · rw [addEdge_of_live_parent hu, getNode_size]
    rfl

theorem insertionAtomic_of_not_pastTheEnd {g : Callgraph} {u v : ℕ} (h : ¬ g.PastTheEnd u v) :
    g.InsertionAtomic u v := by
  unfold PastTheEnd at h
  push Not at h
  obtain ⟨hsize, hchild⟩ := h
  cases hu : g.hasNode u with
  | false => exact ⟨false, g, addEdge_of_dead_parent hsize hu v, by simp [hu], nofun, fun _ => rfl⟩
  | true =>
    have hrun := addEdge_of_live_parent hu v
    rw [getNode_of_ne_size (hchild hu)] at hrun
    cases hv : g.hasNode v with
    | false =>
      have hnone : (g.slot v).isSome = false := hv
      have hrun' : g.addEdge u v = .ok (if (g.slot v).isSome then g.addEdgeInternal u v else (false, g)) := hrun
      rw [hnone] at hrun'
      exact ⟨false, g, hrun', by simp [hv], nofun, fun _ => rfl⟩
    | true =>
      have hrun' : g.addEdge u v = .ok (g.addEdgeInternal u v) := addEdge_of_live hu hv
      by_cases he : (u, v) ∈ g.edges
      · rw [addEdgeInternal_of_mem he] at hrun'
        exact ⟨false, g, hrun', by simp [he], nofun, fun _ => rfl⟩
      · rw [addEdgeInternal_of_notMem he] at hrun'
        exact ⟨true, g.withEdge u v, hrun', by simp [hu, hv, he], fun _ => edgeAdded_withEdge g u v, nofun⟩

theorem insertionAtomic_iff (g : Callgraph) (u v : ℕ) : g.InsertionAtomic u v ↔ ¬ g.PastTheEnd u v := by
  constructor
  · rintro ⟨added, g', hrun, -⟩ hpast
    rw [addEdge_pastTheEnd hpast] at hrun
    cases hrun
  · exact insertionAtomic_of_not_pastTheEnd

/-- After every history, look-up and insertion by id are total and atomic except on the id that
equals the number of slots. -/
theorem run_lookup_insertion_iff (self : ℕ) (ops : List Op) (i j : ℕ) :
    ((run self ops).LookupTotal i ↔ i ≠ (run self ops).size) ∧
    ((run self ops).InsertionAtomic i j ↔ ¬ (run self ops).PastTheEnd i j) :=
  ⟨lookupTotal_iff _ i, insertionAtomic_iff _ i j⟩

theorem run_oneNode_throws :
    (run 0 [.insert "a" none false true]).getNode 1 = .error .outOfRange ∧
    (run 0 [.insert "a" none false true]).addEdge 1 0 = .error .outOfRange ∧
    (run 0 [.insert "a" none false true]).addEdge 0 1 = .error .outOfRange ∧
    ¬ (run 0 [.insert "a" none false true]).LookupTotal 1 ∧
    ¬ (run 0 [.insert "a" none false true]).InsertionAtomic 0 1 := by
  have hsize : (run 0 [.insert "a" none false true]).size = 1 := rfl
  have hpast : (run 0 [.insert "a" none false true]).PastTheEnd 0 1 := .inr ⟨rfl, rfl⟩
  refine ⟨hsize ▸ getNode_size _, addEdge_pastTheEnd (.inl rfl), addEdge_pastTheEnd hpast, ?_, ?_⟩
  · exact fun h => (lookupTotal_iff _ 1).mp h hsize.symm
  · exact fun h => (insertionAtomic_iff _ 0 1).mp h hpast

/-! ## Nodes of another graph -/

section Foreign
variable {self other : ℕ} {g h : Callgraph} {a b : NodeRef}

theorem hasNodeRef_graph {node : NodeRef} (hn : hasNodeRef self g node = true) : node.graph = self := by
  unfold hasNodeRef at hn
  simp only [Bool.and_eq_true, decide_eq_true_eq] at hn
  exact hn.2

/-- A node of another graph is not one of this graph, although its id may be. -/
theorem hasNodeRef_foreign {node : NodeRef} (hne : self ≠ other) (hn : hasNodeRef other h node = true) :
    hasNodeRef self g node = false := by
  have hgraph := hasNodeRef_graph hn
  unfold hasNodeRef
  rw [hgraph, decide_eq_false (Ne.symm hne), Bool.and_false]

/-- The three operations on a pair of nodes return false and leave the graph as it is. -/
structure Rejected (self : ℕ) (g : Callgraph) (a b : NodeRef) : Prop where
  addEdge : addEdgeRef self g a b = (false, g)
  removeEdge : removeEdgeRef self g a b = .ok (false, g)
  existsEdge : existsEdgeRef self g a b = false

theorem addEdgeRef_of_foreign (hab : hasNodeRef self g a = false ∨ hasNodeRef self g b = false) :
    addEdgeRef self g a b = (false, g) := by
  rw [addEdgeRef, if_pos]
  rcases hab with hab | hab <;> simp [hab]

theorem existsEdgeRef_of_foreign (hab : hasNodeRef self g a = false ∨ hasNodeRef self g b = false) :
    existsEdgeRef self g a b = false := by
  unfold existsEdgeRef
  rcases hab with hab | hab <;> simp [hab]

/-- `removeEdge` with one node of its own removes whatever edge joins the two ids. -/
theorem Wf.removeEdgeRef_of_own (hg : g.Wf) (hab : hasNodeRef self g a = true ∨ hasNodeRef self g b = true) :
    Callgraph.removeEdgeRef self g a b =
      .ok (if (a.id, b.id) ∈ g.edges then (true, g.withoutEdge a.id b.id) else (false, g)) := by
  rw [Callgraph.removeEdgeRef, if_neg, hg.removeEdge_eq]
  rcases hab with hab | hab <;> simp [hab]

theorem removeEdgeRef_of_foreign (ha : hasNodeRef self g a = false) (hb : hasNodeRef self g b = false) :
    removeEdgeRef self g a b = .ok (false, g) := by
  rw [removeEdgeRef, if_pos]
  simp [ha, hb]

/-- One of the nodes is the graph's own, and their ids are the ends of an edge of the graph. -/
def OwnEdgeNamed (self : ℕ) (g : Callgraph) (a b : NodeRef) : Prop :=
  (hasNodeRef self g a = true ∨ hasNodeRef self g b = true) ∧ (a.id, b.id) ∈ g.edges

theorem Wf.rejected_iff (hg : g.Wf) (hab : hasNodeRef self g a = false ∨ hasNodeRef self g b = false) :
    Rejected self g a b ↔ ¬ OwnEdgeNamed self g a b := by
  constructor
  · rintro ⟨-, hrun, -⟩ ⟨hown, he⟩
    rw [hg.removeEdgeRef_of_own hown, if_pos he] at hrun
    cases hrun
  · intro hnot
    refine ⟨addEdgeRef_of_foreign hab, ?_, existsEdgeRef_of_foreign hab⟩
    by_cases hown : hasNodeRef self g a = true ∨ hasNodeRef self g b = true
    · have he : (a.id, b.id) ∉ g.edges := fun he => hnot ⟨hown, he⟩
      rw [hg.removeEdgeRef_of_own hown, if_neg he]
    · push Not at hown
      exact removeEdgeRef_of_foreign (Bool.not_eq_true _ ▸ hown.1) (Bool.not_eq_true _ ▸ hown.2)

end Foreign

/-- Nodes of another graph are rejected without effect iff no edge of the graph joins the ids of a
mixed pair. -/
theorem run_rejected_iff {self other : ℕ} (hne : self ≠ other) (ops otherOps : List Op) {a b : NodeRef}
    (hforeign : hasNodeRef other (run other otherOps) a = true ∨ hasNodeRef other (run other otherOps) b = true) :
    Rejected self (run self ops) a b ↔ ¬ OwnEdgeNamed self (run self ops) a b := by
  refine (run_wf self ops).rejected_iff ?_
  rcases hforeign with hforeign | hforeign
  · exact .inl (hasNodeRef_foreign hne hforeign)
  · exact .inr (hasNodeRef_foreign hne hforeign)

/-- Two functions and a call between them. -/
def callsNext : List Op := [.insert "f" none false true, .insert "g" none false true, .addEdge 0 1]

theorem run_rejected_twoFunctions :
    hasNodeRef 1 (run 1 [.insert "h" none false true]) ⟨1, 0⟩ = true ∧
      Rejected 0 (run 0 [.insert "f" none false true, .insert "g" none false true]) ⟨1, 0⟩ ⟨0, 1⟩ :=
  ⟨rfl, (run_rejected_iff Nat.zero_ne_one [.insert "f" none false true, .insert "g" none false true]
    [.insert "h" none false true] (.inl rfl)).mpr fun h => absurd h.2 (by decide)⟩

/-- The first node of another graph and the own callee: the own call is gone. -/
theorem run_foreign_removes :
    hasNodeRef 1 (run 1 [.insert "h" none false true]) ⟨1, 0⟩ = true ∧
      hasNodeRef 0 (run 0 callsNext) ⟨1, 0⟩ = false ∧
      removeEdgeRef 0 (run 0 callsNext) ⟨1, 0⟩ ⟨0, 1⟩ = .ok (true, (run 0 callsNext).withoutEdge 0 1) ∧
      ¬ Rejected 0 (run 0 callsNext) ⟨1, 0⟩ ⟨0, 1⟩ := by
  have hedge : (0, 1) ∈ (run 0 callsNext).edges := by decide
  refine ⟨rfl, rfl, ?_, fun h => ?_⟩
  · rw [(run_wf 0 callsNext).removeEdgeRef_of_own (.inr rfl), if_pos hedge]
  · exact ((run_wf 0 callsNext).rejected_iff (.inl rfl)).mp h ⟨.inr rfl, hedge⟩

end Callgraph
end MetaCG
