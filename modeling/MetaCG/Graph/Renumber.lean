import Mathlib.Logic.Equiv.Basic
import MetaCG.Graph.Compact

/-! The same graph with another numbering of its nodes.

A numbering permutes the slots, so every node gets the id of its new slot and all containers and all metadata follow. -/
namespace MetaCG
open Foundations
set_option autoImplicit false
set_option maxHeartbeats 250000
set_option maxRecDepth 120000

/-- A permutation of the slots of `g`. -/
structure Numbering (g : Callgraph) where
  perm : Equiv.Perm ℕ
  bound : ∀ i, perm i < g.nodes.length ↔ i < g.nodes.length

/-- The numbering that exchanges a node with the first one. -/
def Numbering.first {g : Callgraph} (n : ℕ) (hn : n < g.nodes.length) : Numbering g where
  perm := Equiv.swap n 0
  bound := by
    intro i
    rw [Equiv.swap_apply_def]
    split_ifs <;> omega

namespace Callgraph

def renumberLists (f : ℕ → ℕ) (lists : NeighbourLists) : NeighbourLists :=
  UMap.ofPairs ((UMap.toPairs lists).map fun e => (f e.1, e.2.map f))

def renumber (g : Callgraph) (σ : Numbering g) : Callgraph where
  nodes := (List.range g.nodes.length).map fun i => (g.slot (σ.perm.symm i)).map (CgNode.renumber σ.perm)
  nameIdMap := UMap.mapValues (fun ids => (List.range g.nodes.length).filter fun i => decide (σ.perm.symm i ∈ ids)) g.nameIdMap
  edges := UMap.ofPairs ((UMap.toPairs g.edges).map fun e => ((σ.perm e.1.1, σ.perm e.1.2), renameMeta σ.perm e.2))
  callerList := renumberLists σ.perm g.callerList
  calleeList := renumberLists σ.perm g.calleeList
  mainNode := g.mainNode.map σ.perm
  hasDuplicates := g.hasDuplicates
  numErased := g.numErased
  metaFields := renameMeta σ.perm g.metaFields

section
variable {g : Callgraph} (σ : Numbering g)

theorem length_renumber : (g.renumber σ).nodes.length = g.nodes.length := by
  unfold renumber
  rw [List.length_map, List.length_range]

theorem bound_symm (i : ℕ) : σ.perm.symm i < g.nodes.length ↔ i < g.nodes.length := by
  rw [← σ.bound, Equiv.apply_symm_apply]

theorem slot_renumber (i : ℕ) : (g.renumber σ).slot i = (g.slot (σ.perm.symm i)).map (CgNode.renumber σ.perm) := by
  by_cases hi : i < g.nodes.length
  · unfold slot renumber
    rw [List.getElem?_map, List.getElem?_range hi]
    rfl
  · have hnone : g.slot (σ.perm.symm i) = none := by
      cases hslot : g.slot (σ.perm.symm i) with
      | none => rfl
      | some n => exact absurd ((bound_symm σ i).mp (slot_lt hslot)) hi
    have hout : (g.renumber σ).nodes[i]? = none := List.getElem?_eq_none ((length_renumber σ).symm ▸ not_lt.mp hi)
    rw [hnone, slot, hout]
    rfl

theorem hasNode_renumber (i : ℕ) : (g.renumber σ).hasNode i = g.hasNode (σ.perm.symm i) := by
  rw [hasNode, hasNode, slot_renumber, Option.isSome_map]

theorem callees_renumber (u : ℕ) : (g.renumber σ).callees u = (g.callees (σ.perm.symm u)).map σ.perm := by
  have hlookup := UMap.lookup_ofPairs_map σ.perm.injective (List.map σ.perm) g.calleeList (σ.perm.symm u)
  rw [Equiv.apply_symm_apply] at hlookup
  unfold callees UMap.getD renumber renumberLists
  rw [hlookup]
  cases g.calleeList.lookup (σ.perm.symm u) <;> rfl

theorem callers_renumber (v : ℕ) : (g.renumber σ).callers v = (g.callers (σ.perm.symm v)).map σ.perm := by
  have hlookup := UMap.lookup_ofPairs_map σ.perm.injective (List.map σ.perm) g.callerList (σ.perm.symm v)
  rw [Equiv.apply_symm_apply] at hlookup
  unfold callers UMap.getD renumber renumberLists
  rw [hlookup]
  cases g.callerList.lookup (σ.perm.symm v) <;> rfl

theorem mem_edges_renumber (u v : ℕ) : (u, v) ∈ (g.renumber σ).edges ↔ (σ.perm.symm u, σ.perm.symm v) ∈ g.edges := by
  have hinj : Function.Injective fun e : ℕ × ℕ => (σ.perm e.1, σ.perm e.2) := fun e e' he =>
    Prod.ext (σ.perm.injective (Prod.mk.inj he).1) (σ.perm.injective (Prod.mk.inj he).2)
  have hlookup := UMap.lookup_ofPairs_map hinj (renameMeta σ.perm) g.edges (σ.perm.symm u, σ.perm.symm v)
  have hpair : (σ.perm (σ.perm.symm u, σ.perm.symm v).1, σ.perm (σ.perm.symm u, σ.perm.symm v).2) = (u, v) :=
    Prod.ext (σ.perm.apply_symm_apply u) (σ.perm.apply_symm_apply v)
  rw [hpair] at hlookup
  rw [UMap.mem_iff_lookup, UMap.mem_iff_lookup]
  change (∃ w, (UMap.ofPairs _).lookup (u, v) = some w) ↔ _
  rw [hlookup]
  simp only [Option.map_eq_some_iff]
  exact ⟨fun ⟨_, w, hw, _⟩ => ⟨w, hw⟩, fun ⟨w, hw⟩ => ⟨_, w, hw, rfl⟩⟩

theorem isNamed_renumber (name : String) (i : ℕ) : (g.renumber σ).isNamed name i = g.isNamed name (σ.perm.symm i) := by
  unfold isNamed
  rw [slot_renumber, Option.any_map]
  rfl

theorem getNodesNamed_renumber (name : String) : (g.renumber σ).getNodesNamed name =
    (List.range g.nodes.length).filter fun i => decide (σ.perm.symm i ∈ g.getNodesNamed name) := by
  have hlookup := UMap.lookup_ofPairs_map (fun _ _ h => h : Function.Injective (id : String → String))
    (fun ids => (List.range g.nodes.length).filter fun i => decide (σ.perm.symm i ∈ ids)) g.nameIdMap name
  unfold getNodesNamed UMap.getD renumber UMap.mapValues
  simp only [id] at hlookup
  rw [hlookup]
  cases g.nameIdMap.lookup name with
  | none => simp
  | some ids => rfl

theorem nodes_eq_map_slot (g : Callgraph) : g.nodes = (List.range g.nodes.length).map g.slot := by
  refine List.ext_getElem? fun i => ?_
  rw [List.getElem?_map]
  by_cases hi : i < g.nodes.length
  · rw [List.getElem?_range hi, List.getElem?_eq_getElem hi, Option.map_some, slot, List.getElem?_eq_getElem hi]
    rfl
  · rw [List.getElem?_eq_none (not_lt.mp hi), List.getElem?_eq_none (by rw [List.length_range]; exact not_lt.mp hi)]
    rfl

theorem range_map_perm : ((List.range g.nodes.length).map σ.perm.symm).Perm (List.range g.nodes.length) := by
  refine (List.perm_ext_iff_of_nodup (List.nodup_range.map σ.perm.symm.injective) List.nodup_range).mpr fun i => ?_
  rw [List.mem_map, List.mem_range]
  constructor
  · rintro ⟨k, hk, rfl⟩
    exact (bound_symm σ k).mpr (List.mem_range.mp hk)
  · exact fun hi => ⟨σ.perm i, List.mem_range.mpr ((σ.bound i).mpr hi), σ.perm.symm_apply_apply i⟩

/-- A numbering keeps the graph well formed. -/
theorem Wf.renumber (h : g.Wf) : (g.renumber σ).Wf where
  callees_nodup := by
    intro u
    rw [callees_renumber]
    exact (h.callees_nodup _).map σ.perm.injective
  callers_nodup := by
    intro v
    rw [callers_renumber]
    exact (h.callers_nodup _).map σ.perm.injective
  mem_callees := by
    intro u v
    rw [callees_renumber, mem_edges_renumber, ← h.mem_callees, List.mem_map]
    exact ⟨fun ⟨w, hw, he⟩ => he ▸ (σ.perm.symm_apply_apply w).symm ▸ hw, fun hv => ⟨_, hv, σ.perm.apply_symm_apply v⟩⟩
  mem_callers := by
    intro u v
    rw [callers_renumber, mem_edges_renumber, ← h.mem_callers, List.mem_map]
    exact ⟨fun ⟨w, hw, he⟩ => he ▸ (σ.perm.symm_apply_apply w).symm ▸ hw, fun hu => ⟨_, hu, σ.perm.apply_symm_apply u⟩⟩
  edge_live := by
    intro u v he
    rw [hasNode_renumber, hasNode_renumber]
    exact h.edge_live _ _ ((mem_edges_renumber σ u v).mp he)
  node_id := by
    intro i n hn
    rw [slot_renumber] at hn
    obtain ⟨m, hm, rfl⟩ := Option.map_eq_some_iff.mp hn
    rw [CgNode.renumber, h.node_id _ m hm, Equiv.apply_symm_apply]
  node_name := by
    intro i n hn
    rw [slot_renumber] at hn
    obtain ⟨m, hm, rfl⟩ := Option.map_eq_some_iff.mp hn
    exact h.node_name _ m hm
  names := by
    intro name
    rw [getNodesNamed_renumber, length_renumber]
    refine List.filter_congr fun i _ => ?_
    rw [isNamed_renumber, Bool.eq_iff_iff, decide_eq_true_iff, h.mem_named, isNamed_iff]
  erased := by
    have hnone : (Option.isNone ∘ fun i => (g.slot (σ.perm.symm i)).map (CgNode.renumber σ.perm)) =
        (Option.isNone ∘ g.slot) ∘ σ.perm.symm := funext fun i => Option.isNone_map
    change g.numErased = ((List.range g.nodes.length).map _).countP Option.isNone
    rw [h.erased, List.countP_map, hnone, ← List.countP_map, (range_map_perm σ).countP_eq]
    conv_lhs => rw [nodes_eq_map_slot g]
    rw [List.countP_map]
  main_live := by
    intro i hi
    obtain ⟨k, hk, rfl⟩ := Option.map_eq_some_iff.mp hi
    rw [hasNode_renumber, Equiv.symm_apply_apply]
    exact h.main_live k hk

end

end Callgraph
end MetaCG
