import MetaCG.Merge.Merge

/-! Every state of a call graph that a client can reach.

`Op` lists the mutating operations, `Op.apply` the state each of them leaves behind (when it throws,
the state at the throw), and `run` whole histories. `RepInv` is the representation invariant in the
words of the containers; it holds after every history. -/
namespace MetaCG
open Foundations
set_option autoImplicit false
set_option maxHeartbeats 250000
set_option maxRecDepth 120000

namespace Callgraph

/-- The five containers, the counters and the cached pointer agree. -/
structure RepInv (g : Callgraph) : Prop where
  edge_lists : ∀ u v, ((u, v) ∈ g.edges ↔ (g.callees u).count v = 1) ∧
    ((g.callees u).count v = 1 ↔ (g.callers v).count u = 1)
  edge_live : ∀ u v, (u, v) ∈ g.edges → g.hasNode u = true ∧ g.hasNode v = true
  slot_id : ∀ i n, g.slot i = some n → n.id = i
  name_ids : ∀ name, (g.getNodesNamed name).Pairwise (· < ·) ∧
    ∀ i, i ∈ g.getNodesNamed name ↔ ∃ n, g.slot i = some n ∧ n.functionName = name
  node_count : g.getNodeCount = g.nodes.countP Option.isSome
  main_live : ∀ i, g.mainNode = some i → g.hasNode i = true

theorem countP_isNone_add_isSome (l : List (Option CgNode)) :
    l.countP Option.isNone + l.countP Option.isSome = l.length := by
  induction l with
  | nil => rfl
  | cons p l ih =>
    rw [List.countP_cons, List.countP_cons, List.length_cons]
    cases p <;> simp <;> omega

theorem Wf.repInv {g : Callgraph} (h : g.Wf) : g.RepInv where
  edge_lists := by
    intro u v
    rw [(h.callees_nodup u).count, (h.callers_nodup v).count]
    simp [h.mem_callees, h.mem_callers]
  edge_live := h.edge_live
  slot_id := h.node_id
  name_ids := by
    intro name
    refine ⟨?_, h.mem_named name⟩
    rw [h.names]
    exact List.pairwise_lt_range.filter _
  node_count := by
    have hc := countP_isNone_add_isSome g.nodes
    rw [getNodeCount, h.erased]
    omega
  main_live := h.main_live

/-! ## Histories -/

inductive Op where
  | insert (function : String) (origin : Option String) (isVirtual hasBody : Bool)
  | getOrInsertNode (function : String) (origin : Option String) (isVirtual hasBody : Bool)
  | erase (id : ℕ)
  | addEdge (parentID childID : ℕ)
  | addEdgeRef (parentNode childNode : NodeRef)
  | addEdgeNamed (callerName calleeName : String)
  | removeEdge (parentID childID : ℕ)
  | removeEdgeRef (parentNode childNode : NodeRef)
  | removeEdgeNamed (callerName calleeName : String)
  | clear
  | merge (other : Callgraph)
  | getMain (forceRecompute : Bool)
  | addMetaData (md : MetaData)
  | addNodeMetaData (id : ℕ) (md : MetaData)
  | addEdgeMetaData (key : String) (ids : ℕ × ℕ) (md : MetaData)

/-- The graph after an operation that throws before it changes anything. -/
def orKeep {α : Type} (g : Callgraph) (x : Except Exn α) (graph : α → Callgraph) : Callgraph :=
  match x with
  | .ok a => graph a
  | .error _ => g

theorem Wf.orKeep {α : Type} {g : Callgraph} (h : g.Wf) {x : Except Exn α} {graph : α → Callgraph}
    (hx : ∀ a, x = .ok a → (graph a).Wf) : (g.orKeep x graph).Wf := by
  cases x with
  | error e => exact h
  | ok a => exact hx a rfl

def Op.apply (self : ℕ) (g : Callgraph) : Op → Callgraph
  | .insert f o v b => g.orKeep (g.insert f o v b) Prod.fst
  | .getOrInsertNode f o v b => g.orKeep (g.getOrInsertNode f o v b) Prod.fst
  | .erase id => g.orKeep (g.erase id) Prod.snd
  | .addEdge p c => g.orKeep (g.addEdge p c) Prod.snd
  | .addEdgeRef p c => (Callgraph.addEdgeRef self g p c).2
  | .addEdgeNamed p c => g.orKeep (g.addEdgeNamed p c) Prod.snd
  | .removeEdge p c => g.orKeep (g.removeEdge p c) Prod.snd
  | .removeEdgeRef p c => g.orKeep (Callgraph.removeEdgeRef self g p c) Prod.snd
  | .removeEdgeNamed p c => g.orKeep (g.removeEdgeNamed p c) Prod.snd
  | .clear => g.clear
  | .merge other => mergeLeaves mergeByName g other
  | .getMain force => Outcome.final (g.getMain force)
  | .addMetaData md => { g with metaFields := MetaCG.addMetaData g.metaFields md }
  | .addNodeMetaData id md => g.setNodeMeta id md.getKey md
  | .addEdgeMetaData key ids md => (g.addEdgeMetaData key ids md).2

/-- The state after a history on a fresh graph; `self` is the identity of the object. -/
def run (self : ℕ) (ops : List Op) : Callgraph := ops.foldl (Op.apply self) Callgraph.empty

/-! ## Each operation keeps the invariant -/

theorem Wf.insert {g g' : Callgraph} (h : g.Wf) {f : String} {o : Option String} {v b : Bool} {id : ℕ}
    (hr : g.insert f o v b = .ok (g', id)) : g'.Wf := by
  obtain ⟨hf, rfl, -⟩ := insert_cases hr
  exact h.insertNode f o v b hf

theorem Wf.getOrInsertNode {g g' : Callgraph} (h : g.Wf) {f : String} {o : Option String} {v b : Bool}
    {id : ℕ} (hr : g.getOrInsertNode f o v b = .ok (g', id)) : g'.Wf := by
  rcases getOrInsertNode_cases hr with rfl | ⟨hf, rfl⟩
  · exact h
  · exact h.insertNode f o v b hf

theorem Wf.addEdgeRef {g : Callgraph} (h : g.Wf) (self : ℕ) (p c : NodeRef) :
    (Callgraph.addEdgeRef self g p c).2.Wf := by
  unfold Callgraph.addEdgeRef
  split_ifs with hc
  · exact h
  · simp only [hasNodeRef, Bool.or_eq_true, Bool.not_eq_true', not_or, Bool.not_eq_false,
      Bool.and_eq_true] at hc
    exact h.addEdgeInternal hc.1.1 hc.2.1

theorem Wf.addEdgeNamed {g g' : Callgraph} (h : g.Wf) {p c : String} {b : Bool}
    (hr : g.addEdgeNamed p c = .ok (b, g')) : g'.Wf := by
  unfold Callgraph.addEdgeNamed at hr
  split at hr
  · exact h.addEdge hr
  · cases hr
    exact h

theorem Wf.removeEdge_ok {g g' : Callgraph} (h : g.Wf) {u v : ℕ} {b : Bool}
    (hr : g.removeEdge u v = .ok (b, g')) : g'.Wf := by
  obtain ⟨b', g'', hr', hwf⟩ := h.removeEdge u v
  rw [hr'] at hr
  cases hr
  exact hwf

theorem Wf.removeEdgeRef {g g' : Callgraph} (h : g.Wf) {self : ℕ} {p c : NodeRef} {b : Bool}
    (hr : Callgraph.removeEdgeRef self g p c = .ok (b, g')) : g'.Wf := by
  unfold Callgraph.removeEdgeRef at hr
  split_ifs at hr
  · cases hr
    exact h
  · exact h.removeEdge_ok hr

theorem Wf.removeEdgeNamed {g g' : Callgraph} (h : g.Wf) {p c : String} {b : Bool}
    (hr : g.removeEdgeNamed p c = .ok (b, g')) : g'.Wf := by
  unfold Callgraph.removeEdgeNamed at hr
  split at hr
  · exact h.removeEdge_ok hr
  · cases hr
    exact h

theorem Wf.getFirstNode_live {g : Callgraph} (h : g.Wf) {name : String} {node : CgNode}
    (hr : g.getFirstNode name = .ok (some node)) : g.hasNode node.id = true := by
  unfold Callgraph.getFirstNode at hr
  split at hr
  · cases hr
  · next id rest _ =>
    have hs : g.slot id = some node := (getNode_eq_ok hr).symm
    rw [h.node_id id node hs]
    exact hasNode_of_slot hs

theorem Wf.findMain_live {g : Callgraph} (h : g.Wf) (names : List String) {i : ℕ}
    (hr : g.findMain names = .ok (some i)) : g.hasNode i = true := by
  induction names with
  | nil => cases hr
  | cons name names ih =>
    unfold Callgraph.findMain at hr
    cases hf : g.getFirstNode name with
    | error e => rw [hf] at hr; cases hr
    | ok p =>
      rw [hf] at hr
      cases p with
      | none => exact ih hr
      | some node =>
        cases hr
        exact h.getFirstNode_live hf

theorem Wf.getMain {g : Callgraph} (h : g.Wf) (force : Bool) : (Outcome.final (g.getMain force)).Wf := by
  have hg : (if force then { g with mainNode := none } else g : Callgraph).Wf := by
    split_ifs
    · exact h.withMain (fun i hi => by cases hi)
    · exact h
  unfold Callgraph.getMain
  generalize (if force then { g with mainNode := none } else g : Callgraph) = g₁ at hg
  have hname : (Outcome.final (Outcome.guard g₁ (g₁.findMain mainNames) fun node =>
      .ok { g₁ with mainNode := node })).Wf := by
    refine Outcome.final_guard hg (fun p hp => hg.withMain (fun i hi => ?_))
    subst hi
    exact hg.findMain_live _ hp
  simp only
  split_ifs
  · exact hg
  · cases g₁.entryFunctionId with
    | none => exact hname
    | some id =>
      refine Outcome.final_guard hg (fun p hp => ?_)
      cases p with
      | none => exact hname
      | some n =>
        refine hg.withMain (fun i hi => ?_)
        cases hi
        exact hasNode_of_slot (getNode_eq_ok hp).symm

theorem Wf.apply {g : Callgraph} (h : g.Wf) (self : ℕ) (op : Op) : (op.apply self g).Wf := by
  cases op with
  | insert f o v b => exact h.orKeep fun a ha => h.insert ha
  | getOrInsertNode f o v b => exact h.orKeep fun a ha => h.getOrInsertNode ha
  | erase id =>
    obtain ⟨b, g', hr, hwf⟩ := h.erase id
    exact h.orKeep fun a ha => by rw [hr] at ha; cases ha; exact hwf
  | addEdge p c => exact h.orKeep fun a ha => h.addEdge ha
  | addEdgeRef p c => exact h.addEdgeRef self p c
  | addEdgeNamed p c => exact h.orKeep fun a ha => h.addEdgeNamed ha
  | removeEdge p c => exact h.orKeep fun a ha => h.removeEdge_ok ha
  | removeEdgeRef p c => exact h.orKeep fun a ha => h.removeEdgeRef ha
  | removeEdgeNamed p c => exact h.orKeep fun a ha => h.removeEdgeNamed ha
  | clear => exact Wf.clear g
  | merge other => exact h.mergeLeaves other
  | getMain force => exact h.getMain force
  | addMetaData md => exact h.withMeta _
  | addNodeMetaData id md => exact h.setNodeMeta _ _ _
  | addEdgeMetaData key ids md => exact h.addEdgeMetaData _ _ _

theorem Wf.foldl_apply {g : Callgraph} (h : g.Wf) (self : ℕ) (ops : List Op) :
    (ops.foldl (Op.apply self) g).Wf := by
  induction ops generalizing g with
  | nil => exact h
  | cons op ops ih => exact ih (h.apply self op)

theorem run_wf (self : ℕ) (ops : List Op) : (run self ops).Wf := Wf.empty.foldl_apply self ops

/-- The representation invariant holds after every history. -/
theorem run_repInv (self : ℕ) (ops : List Op) : (run self ops).RepInv := (run_wf self ops).repInv

end Callgraph
end MetaCG
