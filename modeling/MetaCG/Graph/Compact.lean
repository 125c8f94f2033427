import MetaCG.Merge.NodeLoop
import MetaCG.Format.MetaDataCodec

/-! The graph that is left when the erased slots are taken out.

The live nodes move together and keep their order; `newId` counts how far each of them moves. Without
erased slots nothing changes. -/
namespace MetaCG
open Foundations
set_option autoImplicit false
set_option maxHeartbeats 250000
set_option maxRecDepth 120000

def renameMeta (f : ℕ → ℕ) (fields : NamedMetadata) : NamedMetadata := UMap.mapValues (MetaData.rename f) fields

theorem renameMeta_self {f : ℕ → ℕ} (hf : ∀ i, f i = i) (fields : NamedMetadata) : renameMeta f fields = fields :=
  UMap.mapValues_eq_self (fun _ => MetaData.rename_of_refs fun i _ => hf i) fields

def CgNode.renumber (f : ℕ → ℕ) (n : CgNode) : CgNode := { n with id := f n.id, metaFields := renameMeta f n.metaFields }

namespace Callgraph

/-- The id of a node after compaction. -/
def newId (g : Callgraph) (i : ℕ) : ℕ := i - (g.nodes.take i).countP Option.isNone

def isErased (g : Callgraph) (i : ℕ) : Bool :=
  match g.nodes[i]? with
  | some none => true
  | _ => false

def compactLists (g : Callgraph) (lists : NeighbourLists) : NeighbourLists :=
  UMap.ofPairs (((UMap.toPairs lists).filter fun e => !g.isErased e.1).map fun e => (g.newId e.1, e.2.map g.newId))

def compact (g : Callgraph) : Callgraph where
  nodes := g.liveNodes.map fun n => some (CgNode.renumber g.newId n)
  nameIdMap := UMap.mapValues (List.map g.newId) g.nameIdMap
  edges := UMap.ofPairs ((UMap.toPairs g.edges).map fun e => ((g.newId e.1.1, g.newId e.1.2), renameMeta g.newId e.2))
  callerList := g.compactLists g.callerList
  calleeList := g.compactLists g.calleeList
  mainNode := g.mainNode.map g.newId
  hasDuplicates := g.hasDuplicates
  numErased := 0
  metaFields := renameMeta g.newId g.metaFields

section
variable {g : Callgraph}

theorem NoErased.newId (hn : g.NoErased) (i : ℕ) : g.newId i = i := by
  have hzero : (g.nodes.take i).countP Option.isNone = 0 := by
    rw [List.countP_eq_zero]
    intro p hp
    have hne := hn p (List.mem_of_mem_take hp)
    simpa [Option.isNone_iff_eq_none] using hne
  rw [Callgraph.newId, hzero, Nat.sub_zero]

theorem NoErased.isErased (hn : g.NoErased) (i : ℕ) : g.isErased i = false := by
  rw [Callgraph.isErased]
  cases hp : g.nodes[i]? with
  | none => rfl
  | some p =>
    cases p with
    | none => exact absurd rfl (hn none (List.mem_of_getElem? hp))
    | some n => rfl

theorem NoErased.compactLists (hn : g.NoErased) (lists : NeighbourLists) : g.compactLists lists = lists := by
  have hid : g.newId = id := funext hn.newId
  have hall : (UMap.toPairs lists).filter (fun e => !g.isErased e.1) = UMap.toPairs lists :=
    List.filter_eq_self.mpr fun e _ => by rw [hn.isErased]; rfl
  rw [Callgraph.compactLists, hall, hid]
  simp only [id_eq, List.map_id_fun, Prod.mk.eta, List.map_id', UMap.ofPairs_toPairs]

/-- A graph without erased slots is compact. -/
theorem Wf.compact_eq (h : g.Wf) (hn : g.NoErased) : g.compact = g := by
  have hid := hn.newId
  have hfun : g.newId = id := funext hid
  have hnodes : (g.liveNodes.map fun n => some (CgNode.renumber g.newId n)) = g.nodes := by
    conv_rhs => rw [hn.nodes_eq]
    refine List.map_congr_left fun n _ => ?_
    rw [CgNode.renumber, hid, renameMeta_self hid]
  have hedges : UMap.ofPairs ((UMap.toPairs g.edges).map fun e => ((g.newId e.1.1, g.newId e.1.2), renameMeta g.newId e.2)) =
      g.edges := by
    have hpair : (fun e : (ℕ × ℕ) × NamedMetadata => ((g.newId e.1.1, g.newId e.1.2), renameMeta g.newId e.2)) = id := by
      funext e
      rw [hid, hid, renameMeta_self hid]
      rfl
    rw [hpair, List.map_id, UMap.ofPairs_toPairs]
  have hnames : UMap.mapValues (List.map g.newId) g.nameIdMap = g.nameIdMap :=
    UMap.mapValues_eq_self (fun l => by rw [hfun, List.map_id]) _
  have herased : g.numErased = 0 := by
    rw [h.erased, List.countP_eq_zero]
    intro p hp
    simpa [Option.isNone_iff_eq_none] using hn p hp
  have hmain : g.mainNode.map g.newId = g.mainNode := by rw [hfun, Option.map_id]; rfl
  rw [Callgraph.compact, hnodes, hedges, hnames, hn.compactLists, hn.compactLists, hmain, renameMeta_self hid, ← herased]

end
end Callgraph
end MetaCG
