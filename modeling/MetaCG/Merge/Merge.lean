import MetaCG.Graph.EdgeInvariant

/-! Merging one call graph into another (`Callgraph::merge`, `MergePolicy.h`, `MergePolicy.cpp`).

A thrown exception or a failed assertion leaves the target as it is at that point, so the loops
carry the target through both outcomes. The source is a value: it cannot change. -/
namespace MetaCG
open Foundations
set_option autoImplicit false
set_option maxHeartbeats 250000
set_option maxRecDepth 120000

/-! ## Recorder and policy -/

structure MergeRecorder where
  actions : UMap ℕ MergeAction
  mapping : GraphMapping

namespace MergeRecorder

def empty : MergeRecorder := ⟨∅, ∅⟩

def recordMerge (r : MergeRecorder) (sourceId : ℕ) (action : MergeAction) : MergeRecorder :=
  ⟨r.actions.insert sourceId action, r.mapping.insert sourceId action.targetNode⟩

def recordCopy (r : MergeRecorder) (sourceId targetId : ℕ) : MergeRecorder :=
  ⟨r.actions, r.mapping.insert sourceId targetId⟩

def getAction (r : MergeRecorder) (sourceId : ℕ) : Option MergeAction := r.actions.lookup sourceId

end MergeRecorder

abbrev MergePolicy := Callgraph → CgNode → Except Exn (Option MergeAction)

/-- `MergeByName::findMatchingNode` -/
def mergeByName : MergePolicy := fun targetCG sourceNode =>
  match targetCG.getNodesNamed sourceNode.functionName with
  | [] => .ok none
  | front :: _ => do
    match ← targetCG.getNode front with
    | none => throw (.assertion "Node must not be null")
    | some targetNode =>
      if targetNode.hasBody || !sourceNode.hasBody then return some ⟨targetNode.id, false⟩
      else return some ⟨targetNode.id, true⟩

namespace Callgraph

/-! ## Steps 1 and 2: nodes -/

/-- Replace the core attributes with those of the source node. -/
def replaceCore (source target : CgNode) : CgNode :=
  { target with functionName := source.functionName, hasBody := source.hasBody, origin := source.origin }

def mergeNode (policy : MergePolicy) (st : Callgraph × MergeRecorder) (ptr : Option CgNode) :
    Except (Exn × (Callgraph × MergeRecorder)) (Callgraph × MergeRecorder) :=
  match ptr with
  | none => .error (.nullDereference, st)
  | some node =>
    Outcome.guard st (policy st.1 node) fun
      | some action =>
        Outcome.guard st (st.1.getNode action.targetNode) fun
          | none => .error (.assertion "Target node must not be null", st)
          | some _ =>
            let target :=
              if action.replace then st.1.updateNode action.targetNode (replaceCore node) else st.1
            .ok (target, st.2.recordMerge node.id action)
      | none =>
        Outcome.guard st (st.1.insert node.functionName node.origin false node.hasBody) fun r =>
          .ok (r.1, st.2.recordCopy node.id r.2)

/-! ## Step 3: edges and their metadata -/

def recordedText : String := "All nodes have to be recorded at this point"

-- The cloned object is held by a `std::unique_ptr<MetaData>`, so the static key is the base class's.
def mergeEdgeMetaData (recorder : MergeRecorder) (source : ℕ) (ids : ℕ × ℕ) (g : Callgraph)
    (edgeMd : String × MetaData) : Except (Exn × Callgraph) Callgraph :=
  match g.getEdgeMetaData ids edgeMd.1 with
  | some md =>
    match recorder.getAction source with
    | none => .error (.assertion "Metadata should not exists without a merge action", g)
    | some action =>
      Outcome.guard g (md.merge edgeMd.2 (some action) recorder.mapping) fun merged =>
        .ok (g.addEdgeMetaData edgeMd.1 ids merged).2
  | none =>
    Outcome.guard g (edgeMd.2.cloneMapped recorder.mapping) fun clonedMd =>
      .ok (g.addEdgeMetaData MetaData.baseKey ids clonedMd).2

def ensureEdge (g : Callgraph) (caller callee : ℕ) : Except (Exn × Callgraph) Callgraph :=
  if g.existsEdge caller callee then .ok g
  else Outcome.guard g (g.addEdge caller callee) fun r => .ok r.2

def mergeEdge (recorder : MergeRecorder) (g : Callgraph) (edge : (ℕ × ℕ) × NamedMetadata) :
    Except (Exn × Callgraph) Callgraph :=
  Outcome.guard g (mappingAtAsserted recordedText recorder.mapping edge.1.1) fun mappedCallerId =>
    Outcome.guard g (mappingAtAsserted recordedText recorder.mapping edge.1.2) fun mappedCalleeId => do
      let g ← g.ensureEdge mappedCallerId mappedCalleeId
      (UMap.toPairs edge.2).foldlM
        (mergeEdgeMetaData recorder edge.1.1 (mappedCallerId, mappedCalleeId)) g

/-! ## Step 4: node metadata -/

/-- Store `md` under `key` in the metadata of a node. -/
def setNodeMeta (g : Callgraph) (id : ℕ) (key : String) (md : MetaData) : Callgraph :=
  g.updateNode id fun n => { n with metaFields := n.metaFields.insert key md }

def nodeMeta (g : Callgraph) (id : ℕ) (key : String) : Option MetaData :=
  (g.slot id).bind fun n => n.metaFields.lookup key

def mergeNodeMetaEntry (recorder : MergeRecorder) (source mappedNodeId : ℕ) (g : Callgraph)
    (md : String × MetaData) : Except (Exn × Callgraph) Callgraph :=
  match g.nodeMeta mappedNodeId md.1 with
  | some own =>
    match recorder.getAction source with
    | none => .error (.assertion "Metadata must not exist without previous merge action", g)
    | some action =>
      Outcome.guard g (own.merge md.2 (some action) recorder.mapping) fun merged =>
        .ok (g.setNodeMeta mappedNodeId md.1 merged)
  | none =>
    Outcome.guard g (md.2.cloneMapped recorder.mapping) fun clonedMd =>
      .ok (g.setNodeMeta mappedNodeId clonedMd.getKey clonedMd)

def mergeNodeMetaData (recorder : MergeRecorder) (g : Callgraph) (ptr : Option CgNode) :
    Except (Exn × Callgraph) Callgraph :=
  match ptr with
  | none => .error (.nullDereference, g)
  | some node =>
    Outcome.guard g (mappingAtAsserted recordedText recorder.mapping node.id) fun mappedNodeId =>
      Outcome.guard g (g.getNode mappedNodeId) fun
        | none => .error (.assertion "Mapped node ID must be valid", g)
        | some _ =>
          (UMap.toPairs node.metaFields).foldlM (mergeNodeMetaEntry recorder node.id mappedNodeId) g

/-! ## Step 5: global metadata -/

def mergeGlobalMetaData (recorder : MergeRecorder) (g : Callgraph) (md : String × MetaData) :
    Except (Exn × Callgraph) Callgraph :=
  match g.metaFields.lookup md.1 with
  | some existingMd =>
    Outcome.guard g (existingMd.merge md.2 none recorder.mapping) fun merged =>
      .ok { g with metaFields := g.metaFields.insert md.1 merged }
  | none =>
    Outcome.guard g (md.2.cloneMapped recorder.mapping) fun clonedMd =>
      .ok { g with metaFields := addMetaData g.metaFields clonedMd }

/-! ## The whole merge -/

def mergeNodes (policy : MergePolicy) (g other : Callgraph) :
    Except (Exn × (Callgraph × MergeRecorder)) (Callgraph × MergeRecorder) :=
  other.nodes.foldlM (mergeNode policy) (g, MergeRecorder.empty)

/-- Steps 3 to 5, with the ids finalized. -/
def mergeRest (recorder : MergeRecorder) (other g : Callgraph) : Except (Exn × Callgraph) Callgraph := do
  let g ← (UMap.toPairs other.edges).foldlM (mergeEdge recorder) g
  let g ← other.nodes.foldlM (mergeNodeMetaData recorder) g
  let g ← (UMap.toPairs other.metaFields).foldlM (mergeGlobalMetaData recorder) g
  return { g with mainNode := none }

def merge (policy : MergePolicy) (g other : Callgraph) :
    Except (Exn × Callgraph) (MergeRecorder × Callgraph) :=
  match mergeNodes policy g other with
  | .error (e, st) => .error (e, st.1)
  | .ok (g, recorder) =>
    match mergeRest recorder other g with
    | .error e => .error e
    | .ok g => .ok (recorder, g)

/-- The graph that `merge` leaves behind, whether it returns or throws. -/
def mergeLeaves (policy : MergePolicy) (g other : Callgraph) : Callgraph :=
  match merge policy g other with
  | .ok (_, g) => g
  | .error (_, g) => g

/-! ## The invariant across a merge

Nothing is assumed about the source: whatever it holds, and wherever the merge stops, the target
stays well formed. -/

theorem mergeByName_some {g : Callgraph} (h : g.Wf) {node : CgNode} {action : MergeAction}
    (hp : mergeByName g node = .ok (some action)) :
    ∃ t, g.slot action.targetNode = some t ∧ t.functionName = node.functionName := by
  unfold mergeByName at hp
  cases hl : g.getNodesNamed node.functionName with
  | nil => rw [hl] at hp; cases hp
  | cons front rest =>
    have hmem : front ∈ g.getNodesNamed node.functionName := by rw [hl]; exact List.mem_cons_self ..
    obtain ⟨t, ht, hname⟩ := (h.mem_named _ _).mp hmem
    have hid : t.id = front := h.node_id front t ht
    simp only [hl, getNode_of_lt (slot_lt ht), ht, bind, Except.bind] at hp
    refine ⟨t, ?_, hname⟩
    split_ifs at hp <;> cases hp <;> rw [hid] <;> exact ht

theorem Wf.mergeNode {st : Callgraph × MergeRecorder} (h : st.1.Wf) (ptr : Option CgNode) :
    (Outcome.final (mergeNode mergeByName st ptr)).1.Wf := by
  cases ptr with
  | none => exact h
  | some node =>
    refine Outcome.final_guard (I := fun st : Callgraph × MergeRecorder => st.1.Wf) h (fun m hm => ?_)
    cases m with
    | none =>
      refine Outcome.final_guard (I := fun st : Callgraph × MergeRecorder => st.1.Wf) h (fun r hr => ?_)
      obtain ⟨g', id⟩ := r
      obtain ⟨hname, rfl, -⟩ := insert_cases hr
      exact h.insertNode _ _ _ _ hname
    | some action =>
      refine Outcome.final_guard (I := fun st : Callgraph × MergeRecorder => st.1.Wf) h (fun p _ => ?_)
      cases p with
      | none => exact h
      | some _ =>
        obtain ⟨t, ht, hname⟩ := mergeByName_some h hm
        change (if action.replace then st.1.updateNode action.targetNode (replaceCore node) else st.1).Wf
        split_ifs
        · refine h.updateNode _ _ (fun n hn => ⟨rfl, ?_⟩)
          rw [ht] at hn
          cases hn
          exact hname.symm
        · exact h

/-- Replacing the metadata of an edge leaves the edges themselves alone. -/
theorem mem_edges_addEdgeMetaData (g : Callgraph) (key : String) (ids : ℕ × ℕ) (md : MetaData) (e : ℕ × ℕ) :
    e ∈ (g.addEdgeMetaData key ids md).2.edges ↔ e ∈ g.edges := by
  unfold addEdgeMetaData
  cases hl : g.edges.lookup ids with
  | none => rfl
  | some fields =>
    change e ∈ AList.insert ids _ g.edges ↔ _
    rw [AList.mem_insert]
    constructor
    · rintro (rfl | he)
      · exact UMap.mem_of_lookup hl
      · exact he
    · exact fun he => .inr he

/-- Everything but the edge metadata survives `addEdgeMetaData`. -/
theorem addEdgeMetaData_frame (g : Callgraph) (key : String) (ids : ℕ × ℕ) (md : MetaData) :
    (g.addEdgeMetaData key ids md).2 = { g with edges := (g.addEdgeMetaData key ids md).2.edges } := by
  unfold addEdgeMetaData
  cases g.edges.lookup ids <;> rfl

theorem Wf.addEdgeMetaData {g : Callgraph} (h : g.Wf) (key : String) (ids : ℕ × ℕ) (md : MetaData) :
    (g.addEdgeMetaData key ids md).2.Wf := by
  have hmem := mem_edges_addEdgeMetaData g key ids md
  rw [addEdgeMetaData_frame] at hmem ⊢
  exact h.of_same_names rfl (fun _ => rfl) rfl hmem rfl rfl h.erased h.main_live

/-- What a property of the target has to survive to hold throughout the edge and the node metadata loop. -/
structure KeptByMerge (I : Callgraph → Prop) : Prop where
  addEdge : ∀ {g g' u v b}, I g → g.addEdge u v = .ok (b, g') → I g'
  addEdgeMetaData : ∀ {g}, I g → ∀ key ids md, I (g.addEdgeMetaData key ids md).2
  setNodeMeta : ∀ {g}, I g → ∀ id key md, I (g.setNodeMeta id key md)

theorem KeptByMerge.mergeEdge {I : Callgraph → Prop} (hI : KeptByMerge I) {g : Callgraph} (h : I g)
    (r : MergeRecorder) (edge : (ℕ × ℕ) × NamedMetadata) : I (Outcome.final (mergeEdge r g edge)) := by
  refine Outcome.final_guard h (fun u _ => Outcome.final_guard h (fun v _ => ?_))
  refine Outcome.final_bind ?_ (fun g' hg' => ?_)
  · unfold ensureEdge
    split_ifs
    · exact h
    · exact Outcome.final_guard h (fun p hp => hI.addEdge h hp)
  · refine Outcome.final_foldlM (fun g'' md hg'' => ?_) _ g' hg'
    unfold mergeEdgeMetaData
    cases g''.getEdgeMetaData (u, v) md.1 with
    | none => exact Outcome.final_guard hg'' (fun c _ => hI.addEdgeMetaData hg'' _ _ _)
    | some own =>
      cases r.getAction edge.1.1 with
      | none => exact hg''
      | some action => exact Outcome.final_guard hg'' (fun c _ => hI.addEdgeMetaData hg'' _ _ _)

/-- What survives `setNodeMeta` survives a round of the node metadata loop. -/
theorem mergeNodeMetaData_kept {I : Callgraph → Prop} (hI : ∀ {g}, I g → ∀ id key md, I (g.setNodeMeta id key md))
    {g : Callgraph} (h : I g) (r : MergeRecorder) (ptr : Option CgNode) : I (Outcome.final (mergeNodeMetaData r g ptr)) := by
  cases ptr with
  | none => exact h
  | some node =>
    refine Outcome.final_guard h (fun t _ => Outcome.final_guard h (fun p _ => ?_))
    cases p with
    | none => exact h
    | some _ =>
      refine Outcome.final_foldlM (fun g' md hg' => ?_) _ g h
      unfold mergeNodeMetaEntry
      cases g'.nodeMeta t md.1 with
      | none => exact Outcome.final_guard hg' (fun c _ => hI hg' _ _ _)
      | some own =>
        cases r.getAction node.id with
        | none => exact hg'
        | some action => exact Outcome.final_guard hg' (fun c _ => hI hg' _ _ _)

theorem KeptByMerge.mergeNodeMetaData {I : Callgraph → Prop} (hI : KeptByMerge I) {g : Callgraph} (h : I g)
    (r : MergeRecorder) (ptr : Option CgNode) : I (Outcome.final (mergeNodeMetaData r g ptr)) :=
  mergeNodeMetaData_kept hI.setNodeMeta h r ptr

theorem Wf.setNodeMeta {g : Callgraph} (h : g.Wf) (id : ℕ) (key : String) (md : MetaData) :
    (g.setNodeMeta id key md).Wf := h.updateNode _ _ (fun _ _ => ⟨rfl, rfl⟩)

theorem Wf.keptByMerge : KeptByMerge Wf :=
  ⟨fun h => h.addEdge, fun h => h.addEdgeMetaData, fun h => h.setNodeMeta⟩

theorem Wf.withMeta {g : Callgraph} (h : g.Wf) (fields : NamedMetadata) :
    ({ g with metaFields := fields } : Callgraph).Wf :=
  h.of_same_names rfl (fun _ => rfl) rfl (fun _ => Iff.rfl) rfl rfl h.erased h.main_live

theorem Wf.mergeGlobalMetaData {g : Callgraph} (h : g.Wf) (r : MergeRecorder) (md : String × MetaData) :
    (Outcome.final (mergeGlobalMetaData r g md)).Wf := by
  unfold Callgraph.mergeGlobalMetaData
  cases g.metaFields.lookup md.1 with
  | none => exact Outcome.final_guard h (fun c _ => h.withMeta _)
  | some own => exact Outcome.final_guard h (fun c _ => h.withMeta _)

theorem Wf.mergeRest {g : Callgraph} (h : g.Wf) (r : MergeRecorder) (other : Callgraph) :
    (Outcome.final (mergeRest r other g)).Wf := by
  refine Outcome.final_bind (Outcome.final_foldlM (I := Wf) (fun g e hg => Wf.keptByMerge.mergeEdge hg r e) _ g h) (fun g₁ h₁ => ?_)
  refine Outcome.final_bind (Outcome.final_foldlM (I := Wf) (fun g p hg => Wf.keptByMerge.mergeNodeMetaData hg r p) _ g₁ h₁)
    (fun g₂ h₂ => ?_)
  refine Outcome.final_bind (Outcome.final_foldlM (fun g md hg => hg.mergeGlobalMetaData r md) _ g₂ h₂)
    (fun g₃ h₃ => ?_)
  exact h₃.withMain (fun i hi => by cases hi)

theorem Wf.mergeLeaves {g : Callgraph} (h : g.Wf) (other : Callgraph) :
    (mergeLeaves mergeByName g other).Wf := by
  have hnodes := Outcome.final_foldlM (I := fun st : Callgraph × MergeRecorder => st.1.Wf)
    (fun st ptr hst => Wf.mergeNode hst ptr) other.nodes (g, MergeRecorder.empty) h
  unfold Callgraph.mergeLeaves Callgraph.merge mergeNodes
  cases hn : other.nodes.foldlM (Callgraph.mergeNode mergeByName) (g, MergeRecorder.empty) with
  | error e =>
    rw [hn] at hnodes
    exact hnodes
  | ok st =>
    rw [hn] at hnodes
    have hrest := Wf.mergeRest (g := st.1) hnodes st.2 other
    cases hr : Callgraph.mergeRest st.2 other st.1 with
    | error e =>
      rw [hr] at hrest
      simp only [hr]
      exact hrest
    | ok g' =>
      rw [hr] at hrest
      simp only [hr]
      exact hrest

end Callgraph
end MetaCG
