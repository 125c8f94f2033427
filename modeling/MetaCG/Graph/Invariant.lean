import MetaCG.Graph.Callgraph

/-! The representation invariant of a call graph and the operations that keep it.

`Wf` states how the five containers of `Callgraph` agree. The edge part says that the two
adjacency maps list every edge once and nothing else; the node part says that `nameIdMap` is the
index of the live slots by name, in increasing order. -/
namespace MetaCG
open Foundations
set_option autoImplicit false
set_option maxHeartbeats 250000
set_option maxRecDepth 120000

namespace Callgraph

/-! ## Slots -/

theorem slot_eq_some_iff (g : Callgraph) (i : ℕ) (n : CgNode) :
    g.slot i = some n ↔ g.nodes[i]? = some (some n) := by
  simp [slot, Option.join_eq_some_iff]

theorem slot_lt {g : Callgraph} {i : ℕ} {n : CgNode} (h : g.slot i = some n) : i < g.nodes.length := by
  rw [slot_eq_some_iff] at h
  exact (List.getElem?_eq_some_iff.mp h).1

theorem slot_of_ge {g : Callgraph} {i : ℕ} (h : g.nodes.length ≤ i) : g.slot i = none := by
  rw [slot, List.getElem?_eq_none h]
  rfl

theorem hasNode_iff (g : Callgraph) (i : ℕ) : g.hasNode i = true ↔ ∃ n, g.slot i = some n := by
  rw [hasNode, Option.isSome_iff_exists]

theorem hasNode_of_slot {g : Callgraph} {i : ℕ} {n : CgNode} (h : g.slot i = some n) :
    g.hasNode i = true := (g.hasNode_iff i).mpr ⟨n, h⟩

theorem hasNode_lt {g : Callgraph} {i : ℕ} (h : g.hasNode i = true) : i < g.nodes.length := by
  obtain ⟨n, hn⟩ := (g.hasNode_iff i).mp h
  exact slot_lt hn

theorem getNode_of_lt {g : Callgraph} {i : ℕ} (h : i < g.nodes.length) :
    g.getNode i = .ok (g.slot i) := by
  rw [getNode, if_neg (by omega), slot, List.getElem?_eq_getElem h]
  rfl

theorem getNode_eq_ok {g : Callgraph} {i : ℕ} {p : Option CgNode} (h : g.getNode i = .ok p) :
    p = g.slot i := by
  unfold getNode at h
  split_ifs at h with hi
  · cases h
    exact (slot_of_ge (by omega)).symm
  · unfold slot
    cases hn : g.nodes[i]? with
    | none => rw [hn] at h; cases h
    | some q => rw [hn] at h; cases h; rfl

def isNamed (g : Callgraph) (name : String) (i : ℕ) : Bool :=
  (g.slot i).any fun n => decide (n.functionName = name)

theorem isNamed_iff (g : Callgraph) (name : String) (i : ℕ) :
    g.isNamed name i = true ↔ ∃ n, g.slot i = some n ∧ n.functionName = name := by
  simp [isNamed, Option.any_eq_true]

/-! ## The invariant -/

/-- How the containers of a call graph agree. -/
structure Wf (g : Callgraph) : Prop where
  callees_nodup : ∀ u, (g.callees u).Nodup
  callers_nodup : ∀ v, (g.callers v).Nodup
  mem_callees : ∀ u v, v ∈ g.callees u ↔ (u, v) ∈ g.edges
  mem_callers : ∀ u v, u ∈ g.callers v ↔ (u, v) ∈ g.edges
  edge_live : ∀ u v, (u, v) ∈ g.edges → g.hasNode u = true ∧ g.hasNode v = true
  node_id : ∀ i n, g.slot i = some n → n.id = i
  node_name : ∀ i n, g.slot i = some n → n.functionName ≠ ""
  names : ∀ name, g.getNodesNamed name = (List.range g.nodes.length).filter (g.isNamed name)
  erased : g.numErased = g.nodes.countP Option.isNone
  main_live : ∀ i, g.mainNode = some i → g.hasNode i = true

theorem Wf.empty : Wf Callgraph.empty where
  callees_nodup := fun _ => List.nodup_nil
  callers_nodup := fun _ => List.nodup_nil
  mem_callees := fun _ _ => by simp [Callgraph.empty, callees]
  mem_callers := fun _ _ => by simp [Callgraph.empty, callers]
  edge_live := fun _ _ h => absurd h (AList.notMem_empty _)
  node_id := fun _ _ h => by simp [Callgraph.empty, slot] at h
  node_name := fun _ _ h => by simp [Callgraph.empty, slot] at h
  names := fun _ => rfl
  erased := rfl
  main_live := fun _ h => by simp [Callgraph.empty] at h

theorem Wf.mem_named {g : Callgraph} (h : g.Wf) (name : String) (i : ℕ) :
    i ∈ g.getNodesNamed name ↔ ∃ n, g.slot i = some n ∧ n.functionName = name := by
  rw [h.names, List.mem_filter, isNamed_iff, List.mem_range]
  constructor
  · exact fun hi => hi.2
  · rintro ⟨n, hn, he⟩
    exact ⟨slot_lt hn, n, hn, he⟩

theorem Wf.edge_lt {g : Callgraph} (h : g.Wf) {u v : ℕ} (he : (u, v) ∈ g.edges) :
    u < g.nodes.length ∧ v < g.nodes.length := by
  obtain ⟨hu, hv⟩ := h.edge_live u v he
  exact ⟨hasNode_lt hu, hasNode_lt hv⟩

/-- Changes that leave the names of the live slots and all containers but `nodes` alone. -/
theorem Wf.of_same_names {g g' : Callgraph} (h : g.Wf)
    (hlen : g'.nodes.length = g.nodes.length)
    (hslot : ∀ i, (g'.slot i).map (fun n => (n.id, n.functionName)) =
      (g.slot i).map (fun n => (n.id, n.functionName)))
    (hnames : g'.nameIdMap = g.nameIdMap) (hedges : ∀ e, e ∈ g'.edges ↔ e ∈ g.edges)
    (hcallees : g'.calleeList = g.calleeList) (hcallers : g'.callerList = g.callerList)
    (herased : g'.numErased = g'.nodes.countP Option.isNone)
    (hmain : ∀ i, g'.mainNode = some i → g.hasNode i = true) : g'.Wf := by
  have hlive : ∀ i, g'.hasNode i = g.hasNode i := by
    intro i
    have hi := congrArg Option.isSome (hslot i)
    rw [Option.isSome_map, Option.isSome_map] at hi
    exact hi
  have hnode : ∀ i n, g'.slot i = some n →
      ∃ m, g.slot i = some m ∧ n.id = m.id ∧ n.functionName = m.functionName := by
    intro i n hn
    have hi := hslot i
    rw [hn, Option.map_some] at hi
    obtain ⟨m, hm, he⟩ := Option.map_eq_some_iff.mp hi.symm
    obtain ⟨h1, h2⟩ := Prod.mk.inj he
    exact ⟨m, hm, h1.symm, h2.symm⟩
  have hnamed : ∀ name, g'.isNamed name = g.isNamed name := by
    intro name
    funext i
    have hi := hslot i
    unfold isNamed
    cases hg : g.slot i with
    | none =>
      rw [hg] at hi
      rw [Option.map_eq_none_iff.mp hi]
    | some m =>
      rw [hg] at hi
      obtain ⟨n, hn, he⟩ := Option.map_eq_some_iff.mp hi
      have h2 : n.functionName = m.functionName := (Prod.mk.inj he).2
      rw [hn]
      simp [h2]
  exact {
    callees_nodup := by unfold callees; rw [hcallees]; exact h.callees_nodup
    callers_nodup := by unfold callers; rw [hcallers]; exact h.callers_nodup
    mem_callees := by unfold callees; rw [hcallees]; intro u v; rw [hedges]; exact h.mem_callees u v
    mem_callers := by unfold callers; rw [hcallers]; intro u v; rw [hedges]; exact h.mem_callers u v
    edge_live := by
      intro u v he
      rw [hlive, hlive]
      exact h.edge_live u v ((hedges _).mp he)
    node_id := by
      intro i n hn
      obtain ⟨m, hm, h1, -⟩ := hnode i n hn
      rw [h1]
      exact h.node_id i m hm
    node_name := by
      intro i n hn
      obtain ⟨m, hm, -, h2⟩ := hnode i n hn
      rw [h2]
      exact h.node_name i m hm
    names := by
      intro name
      unfold getNodesNamed
      rw [hnames, hlen, hnamed]
      exact h.names name
    erased := herased
    main_live := by
      intro i hi
      rw [hlive]
      exact hmain i hi }

/-! ## Inserting and changing nodes -/

theorem slot_insertNode (g : Callgraph) (f : String) (o : Option String) (v b : Bool) (i : ℕ) :
    (g.insertNode f o v b).slot i =
      if i = g.nodes.length then some (CgNode.create g.nodes.length f o v b) else g.slot i := by
  simp only [slot, insertNode]
  split_ifs with hi
  · subst hi
    rw [List.getElem?_concat_length]
    rfl
  · by_cases hlt : i < g.nodes.length
    · rw [List.getElem?_append_left hlt]
    · rw [List.getElem?_eq_none (by simp; omega), List.getElem?_eq_none (by omega)]

/-- A successful `insert` appends a node with a name. -/
theorem insert_cases {g g' : Callgraph} {f : String} {o : Option String} {v b : Bool} {id : ℕ}
    (h : g.insert f o v b = .ok (g', id)) : f ≠ "" ∧ g' = g.insertNode f o v b ∧ id = g.nodes.length := by
  unfold insert at h
  split_ifs at h with hf
  cases h
  exact ⟨hf, rfl, rfl⟩

/-- A successful `getOrInsertNode` either changes nothing or appends a node with a name. -/
theorem getOrInsertNode_cases {g g' : Callgraph} {f : String} {o : Option String} {v b : Bool} {id : ℕ}
    (h : g.getOrInsertNode f o v b = .ok (g', id)) : g' = g ∨ (f ≠ "" ∧ g' = g.insertNode f o v b) := by
  obtain ⟨p, -, h⟩ := bind_eq_ok.mp h
  cases p with
  | some node =>
    cases h
    exact .inl rfl
  | none =>
    obtain ⟨hf, hg, -⟩ := insert_cases h
    exact .inr ⟨hf, hg⟩

theorem getNodesNamed_insertNode (g : Callgraph) (f name : String) (o : Option String) (v b : Bool) :
    (g.insertNode f o v b).getNodesNamed name =
      if name = f then g.getNodesNamed f ++ [g.nodes.length] else g.getNodesNamed name := by
  simp only [getNodesNamed, insertNode]
  exact UMap.getD_insert _ _ _ _ _

theorem isNamed_insertNode_lt (g : Callgraph) (f name : String) (o : Option String) (v b : Bool)
    {i : ℕ} (hi : i < g.nodes.length) :
    (g.insertNode f o v b).isNamed name i = g.isNamed name i := by
  rw [isNamed, slot_insertNode, if_neg (by omega), isNamed]

theorem Wf.insertNode {g : Callgraph} (h : g.Wf) (f : String) (o : Option String) (v b : Bool)
    (hf : f ≠ "") : (g.insertNode f o v b).Wf := by
  have hlive : ∀ i, g.hasNode i = true → (g.insertNode f o v b).hasNode i = true := by
    intro i hi
    rw [hasNode, slot_insertNode, if_neg (Nat.ne_of_lt (hasNode_lt hi))]
    exact hi
  exact {
    callees_nodup := h.callees_nodup
    callers_nodup := h.callers_nodup
    mem_callees := h.mem_callees
    mem_callers := h.mem_callers
    edge_live := fun u w he => ⟨hlive u (h.edge_live u w he).1, hlive w (h.edge_live u w he).2⟩
    node_id := by
      intro i n hn
      rw [slot_insertNode] at hn
      split_ifs at hn with hi
      · cases hn
        exact hi.symm
      · exact h.node_id i n hn
    node_name := by
      intro i n hn
      rw [slot_insertNode] at hn
      split_ifs at hn with hi
      · cases hn
        exact hf
      · exact h.node_name i n hn
    names := by
      intro name
      have hlen : (g.insertNode f o v b).nodes.length = g.nodes.length + 1 := by
        simp [Callgraph.insertNode]
      have hold : (List.range g.nodes.length).filter ((g.insertNode f o v b).isNamed name) =
          (List.range g.nodes.length).filter (g.isNamed name) :=
        List.filter_congr fun i hi => isNamed_insertNode_lt g f name o v b (List.mem_range.mp hi)
      have hnew : (g.insertNode f o v b).isNamed name g.nodes.length = decide (f = name) := by
        rw [isNamed, slot_insertNode, if_pos rfl]
        rfl
      rw [hlen, List.range_succ, List.filter_append, hold, getNodesNamed_insertNode, ← h.names name]
      by_cases hname : name = f
      · subst hname
        simp [hnew]
      · rw [if_neg hname]
        simp [hnew, Ne.symm hname]
    erased := by
      simp only [Callgraph.insertNode, List.countP_append]
      rw [h.erased]
      simp
    main_live := fun i hi => hlive i (h.main_live i hi) }

theorem slot_updateNode (g : Callgraph) (id : ℕ) (f : CgNode → CgNode) (i : ℕ) :
    (g.updateNode id f).slot i = if i = id then (g.slot i).map f else g.slot i := by
  simp only [slot, updateNode, List.getElem?_modify]
  cases g.nodes[i]? with
  | none => simp
  | some p =>
    by_cases hi : id = i
    · subst hi
      simp
    · simp [hi, Ne.symm hi]

theorem countP_isNone_modify (l : List (Option CgNode)) (id : ℕ) (f : CgNode → CgNode) :
    (l.modify id (Option.map f)).countP Option.isNone = l.countP Option.isNone := by
  induction l generalizing id with
  | nil => cases id <;> rfl
  | cons p l ih =>
    cases id with
    | zero => cases p <;> rfl
    | succ id => simp only [List.modify_succ_cons, List.countP_cons, ih id]

theorem Wf.updateNode {g : Callgraph} (h : g.Wf) (id : ℕ) (f : CgNode → CgNode)
    (hf : ∀ n, g.slot id = some n → (f n).id = n.id ∧ (f n).functionName = n.functionName) :
    (g.updateNode id f).Wf := by
  refine h.of_same_names ?_ ?_ rfl (fun _ => Iff.rfl) rfl rfl ?_ h.main_live
  · simp [Callgraph.updateNode]
  · intro i
    rw [slot_updateNode]
    split_ifs with hi
    · subst hi
      cases hn : g.slot i with
      | none => rfl
      | some n =>
        obtain ⟨h1, h2⟩ := hf n hn
        simp [h1, h2]
    · rfl
  · simp only [Callgraph.updateNode, countP_isNone_modify]
    exact h.erased

end Callgraph
end MetaCG
