import MetaCG.Format.ReadNodes

/-! What holds of every graph that the reader of version 4 returns, whatever the file.

The id of a node is its place in the file. The loop over the edges and the metadata calls three
operations of the graph only, so what they keep is kept (`KeptByRead`). -/
namespace MetaCG
open Foundations Callgraph
set_option autoImplicit false
set_option maxHeartbeats 250000
set_option maxRecDepth 120000

/-! ## The loop over the nodes -/

theorem createNodeFromJson_ok {cg cg' : Callgraph} {s : String} {j : Json} {m m' : StrToNode} {id : ℕ}
    (h : createNodeFromJson cg s j m = .ok (some (cg', id, m'))) :
    ∃ n : CgNode, n.functionName ≠ "" ∧ cg' = cg.addRead n ∧ id = cg.nodes.length ∧ m.lookup s = none ∧
      m' = m.insert s id := by
  unfold createNodeFromJson at h
  split at h
  · cases h
  split at h
  · cases h
  obtain ⟨origin, -, h⟩ := bind_eq_ok.mp h
  split at h
  · cases h
  obtain ⟨jName, -, h⟩ := bind_eq_ok.mp h
  obtain ⟨functionName, -, h⟩ := bind_eq_ok.mp h
  obtain ⟨⟨cg₁, id₁⟩, hinsert, h⟩ := bind_eq_ok.mp h
  simp only at h
  split at h
  · cases h
  obtain ⟨jBody, -, h⟩ := bind_eq_ok.mp h
  obtain ⟨hasBody, -, h⟩ := bind_eq_ok.mp h
  split at h
  · cases h
  obtain ⟨jMeta, -, h⟩ := bind_eq_ok.mp h
  split at h
  · cases h
  obtain ⟨hname, rfl, rfl⟩ := insert_cases hinsert
  unfold registerNode at h
  cases hl : m.lookup s with
  | some k =>
    rw [hl] at h
    cases h
  | none =>
    rw [hl] at h
    cases h
    exact ⟨⟨0, functionName, origin, hasBody, ∅⟩, hname, rfl, rfl, rfl, rfl⟩

/-- The callees of a node in a file and what a temporary entry keeps of them. -/
def Keeps (pre : List (String × Json)) (e : String × Json) (t : TempNodeData) : Prop :=
  (pre.map Prod.fst)[t.nodeId]? = some e.1 ∧ e.2.subscriptMut "callees" = .ok t.jEdges

theorem Keeps.concat {pre : List (String × Json)} {e : String × Json} {t : TempNodeData} (h : Keeps pre e t)
    (a : String × Json) : Keeps (pre ++ [a]) e t := by
  refine ⟨?_, h.2⟩
  rw [List.map_append, List.map_singleton, getElem?_concat_iff]
  exact .inl h.1

/-- What the loop has built from the fields `pre` of a file. -/
structure NodesPlaced (pre : List (String × Json)) (st : ReadState) : Prop where
  wf : st.cg.Wf
  length : st.cg.nodes.length = pre.length
  live : ∀ k, k < pre.length → st.cg.hasNode k = true
  edges : st.cg.edges = ∅
  lookup : ∀ s k, st.strToNode.lookup s = some k ↔ (pre.map Prod.fst)[k]? = some s
  kept : ∀ e ∈ pre, ∃ t ∈ st.tempNodeData, Keeps pre e t
  temp : ∀ t ∈ st.tempNodeData, ∃ e ∈ pre, Keeps pre e t

theorem NodesPlaced.start : NodesPlaced [] ⟨Callgraph.empty, ∅, []⟩ where
  wf := Wf.empty
  length := rfl
  live := fun k hk => absurd hk (Nat.not_lt_zero k)
  edges := rfl
  lookup := fun s k => by simp
  kept := fun e he => absurd he List.not_mem_nil
  temp := fun t ht => absurd ht List.not_mem_nil

theorem NodesPlaced.next {pre : List (String × Json)} {st st' : ReadState} (h : NodesPlaced pre st) {e : String × Json}
    (hread : readNode st e = .ok st') : NodesPlaced (pre ++ [e]) st' := by
  obtain ⟨created, hcreate, hread⟩ := bind_eq_ok.mp hread
  cases created with
  | none => cases hread
  | some created =>
    obtain ⟨cg, id, strToNode⟩ := created
    obtain ⟨jEdges, hcallees, hread⟩ := bind_eq_ok.mp hread
    obtain ⟨jMeta, -, hread⟩ := bind_eq_ok.mp hread
    cases hread
    obtain ⟨n, hname, rfl, rfl, hfree, rfl⟩ := createNodeFromJson_ok hcreate
    have hkeeps : Keeps (pre ++ [e]) e ⟨st.cg.nodes.length, jEdges, jMeta⟩ := by
      refine ⟨?_, hcallees⟩
      rw [List.map_append, List.map_singleton, getElem?_concat_iff, List.length_map]
      exact .inr ⟨h.length, rfl⟩
    exact {
      wf := h.wf.addRead hname
      length := by
        simp only [addRead, Callgraph.updateNode, insertNode, List.length_modify, List.length_append,
          List.length_singleton, h.length]
      live := by
        intro k hk
        rw [List.length_append, List.length_singleton] at hk
        rw [hasNode_iff]
        by_cases hlast : k = st.cg.nodes.length
        · exact ⟨_, by rw [slot_addRead, if_pos hlast]⟩
        · obtain ⟨n', hn'⟩ := (st.cg.hasNode_iff k).mp (h.live k (by have := h.length; omega))
          exact ⟨n', by rw [slot_addRead, if_neg hlast, hn']⟩
      edges := h.edges
      lookup := by
        intro s k
        rw [UMap.lookup_insert_ite, List.map_append, List.map_singleton, getElem?_concat_iff, List.length_map, ← h.length,
          ← h.lookup]
        split_ifs with hs
        · rw [hs, hfree, Option.some.injEq]
          exact ⟨fun hk => .inr ⟨hk.symm, rfl⟩, fun hk => hk.elim (fun hc => by cases hc) fun hk => hk.1.symm⟩
        · exact ⟨.inl, fun hk => hk.elim id fun hk => absurd hk.2 hs⟩
      kept := by
        intro e' he'
        rcases List.mem_append.mp he' with he' | he'
        · obtain ⟨t, ht, hk⟩ := h.kept e' he'
          exact ⟨t, List.mem_append_left _ ht, hk.concat e⟩
        · rw [List.mem_singleton.mp he']
          exact ⟨_, List.mem_append_right _ (List.mem_singleton_self _), hkeeps⟩
      temp := by
        intro t ht
        rcases List.mem_append.mp ht with ht | ht
        · obtain ⟨e', he', hk⟩ := h.temp t ht
          exact ⟨e', List.mem_append_left _ he', hk.concat e⟩
        · rw [List.mem_singleton.mp ht]
          exact ⟨e, List.mem_append_right _ (List.mem_singleton_self e), hkeeps⟩ }

theorem readNodes_placed {nodes : List (String × Json)} {st : ReadState}
    (h : nodes.foldlM readNode ⟨Callgraph.empty, ∅, []⟩ = .ok st) : NodesPlaced nodes st :=
  foldlM_ok_inv (J := NodesPlaced) NodesPlaced.start (fun _ _ _ _ _ ht hstep => ht.next hstep) h

/-! ## The loop over the edges and the metadata -/

/-- What a property of the graph has to survive to hold throughout the second loop, when metadata of an
edge is created only if `created`. -/
structure KeptByRead (created : Prop) (I : Callgraph → Prop) : Prop where
  addEdge : ∀ {g g' u v b}, I g → g.addEdge u v = .ok (b, g') → I g'
  addEdgeMetaData : created → ∀ {g}, I g → ∀ ids md, I (g.addEdgeMetaData MetaData.baseKey ids md).2
  setFields : ∀ {g}, I g → ∀ id fields, I (g.updateNode id fun n => { n with metaFields := fields })

/-- The keys listed on the edges of a node are registered only if `created`. -/
def EdgesCreate (created : Prop) (jEdges : List (String × Json)) : Prop :=
  ∀ field ∈ jEdges, ∀ x ∈ field.2.items, MetaData.isRegistered x.1 = true → created

section
variable {created : Prop} {I : Callgraph → Prop} {m : StrToNode} {cg cg' : Callgraph}

/-- The edge comes first; what survives the storing of metadata survives the rest. -/
theorem readEdge_ok {a : ℕ} {field : String × Json} (hrun : readEdge m a cg field = .ok cg') :
    ∃ calleeId b cg₁, m.lookup field.1 = some calleeId ∧ cg.addEdge a calleeId = .ok (b, cg₁) ∧
      ∀ {created I}, KeptByRead created I → (∀ x ∈ field.2.items, MetaData.isRegistered x.1 = true → created) →
        I cg₁ → I cg' := by
  unfold readEdge at hrun
  cases hl : m.lookup field.1 with
  | none =>
    rw [hl] at hrun
    cases hrun
  | some calleeId =>
    simp only [hl] at hrun
    obtain ⟨⟨b, cg₁⟩, hadd, hrun⟩ := bind_eq_ok.mp hrun
    refine ⟨calleeId, b, cg₁, rfl, hadd, fun {created I} hI hc h₁ => ?_⟩
    simp only at hrun
    split at hrun
    · cases hrun
      exact h₁
    · refine foldlM_ok_inv (J := fun _ t => I t) h₁ ?_ hrun
      intro pre x t t' hpre ht hstep
      obtain ⟨md, hcreate, hstep⟩ := bind_eq_ok.mp hstep
      cases md with
      | none =>
        cases hstep
        exact ht
      | some md =>
        cases hstep
        have hreg := (MetaData.create_spec hcreate).2.mp rfl
        exact hI.addEdgeMetaData (hc x (hpre.subset (List.mem_append_right _ (List.mem_singleton_self x))) hreg) ht _ _

theorem KeptByRead.readEdge (hI : KeptByRead created I) (h : I cg) {a : ℕ} {field : String × Json}
    (hc : ∀ x ∈ field.2.items, MetaData.isRegistered x.1 = true → created) (hrun : readEdge m a cg field = .ok cg') : I cg' := by
  obtain ⟨calleeId, b, cg₁, -, hadd, hrest⟩ := readEdge_ok hrun
  exact hrest hI hc (hI.addEdge h hadd)

/-- The edges come first, then the metadata of the node. -/
theorem readNodeData_ok {t : TempNodeData} (hrun : readNodeData m cg t = .ok cg') :
    ∃ jEdges cg₁ metaFields, t.jEdges.iterator = .ok jEdges ∧ jEdges.foldlM (readEdge m t.nodeId) cg = .ok cg₁ ∧
      cg' = cg₁.updateNode t.nodeId fun n => { n with metaFields } := by
  obtain ⟨p, -, hrun⟩ := bind_eq_ok.mp hrun
  cases p with
  | none => cases hrun
  | some _ =>
    obtain ⟨jEdges, hiter, hrun⟩ := bind_eq_ok.mp hrun
    obtain ⟨cg₁, hedges, hrun⟩ := bind_eq_ok.mp hrun
    obtain ⟨p, -, hrun⟩ := bind_eq_ok.mp hrun
    cases p with
    | none => cases hrun
    | some node =>
      obtain ⟨items, -, hrun⟩ := bind_eq_ok.mp hrun
      obtain ⟨metaFields, -, hrun⟩ := bind_eq_ok.mp hrun
      cases hrun
      exact ⟨jEdges, cg₁, metaFields, hiter, hedges, rfl⟩

theorem KeptByRead.readNodeData (hI : KeptByRead created I) (h : I cg) {t : TempNodeData}
    (hc : ∀ jEdges, t.jEdges.iterator = .ok jEdges → EdgesCreate created jEdges) (hrun : readNodeData m cg t = .ok cg') :
    I cg' := by
  obtain ⟨jEdges, cg₁, metaFields, hiter, hedges, rfl⟩ := readNodeData_ok hrun
  have h₁ : I cg₁ := foldlM_ok_inv (J := fun _ t => I t) h (fun _ x _ _ hpre ht hstep =>
    hI.readEdge ht (hc jEdges hiter x (hpre.subset (List.mem_append_right _ (List.mem_singleton_self x)))) hstep) hedges
  exact hI.setFields h₁ _ _

/-- What survives the operations survives the loop. -/
theorem KeptByRead.readData (hI : KeptByRead created I) (h : I cg) {temp : List TempNodeData}
    (hc : ∀ t ∈ temp, ∀ jEdges, t.jEdges.iterator = .ok jEdges → EdgesCreate created jEdges)
    (hrun : temp.foldlM (MetaCG.readNodeData m) cg = .ok cg') : I cg' :=
  foldlM_ok_inv (J := fun _ t => I t) h (fun _ t _ _ hpre hs hstep =>
    hI.readNodeData hs (hc t (hpre.subset (List.mem_append_right _ (List.mem_singleton_self t)))) hstep) hrun

end

/-! ## What is kept -/

theorem Wf.keptByRead : KeptByRead True Wf :=
  ⟨fun h => h.addEdge, fun _ _ h => h.addEdgeMetaData _, fun h _ _ => h.updateNode _ _ fun _ _ => ⟨rfl, rfl⟩⟩

theorem hasNode_addEdge {g g' : Callgraph} {u v : ℕ} {b : Bool} (h : g.addEdge u v = .ok (b, g')) (i : ℕ) :
    g'.hasNode i = g.hasNode i := by
  rcases addEdge_cases h with ⟨-, rfl⟩ | ⟨-, -, he⟩
  · rfl
  · rw [show g' = (g.addEdgeInternal u v).2 from congrArg Prod.snd he]
    by_cases hmem : (u, v) ∈ g.edges
    · rw [addEdgeInternal_of_mem hmem]
    · rw [addEdgeInternal_of_notMem hmem]
      rfl

/-- The first `count` ids are nodes. -/
def FirstLive (count : ℕ) (g : Callgraph) : Prop := ∀ k, k < count → g.hasNode k = true

theorem firstLive_keptByRead (count : ℕ) : KeptByRead True (FirstLive count) where
  addEdge := fun h hadd k hk => (hasNode_addEdge hadd k).trans (h k hk)
  addEdgeMetaData := fun _ g h ids md k hk => by
    rw [addEdgeMetaData_frame]
    exact h k hk
  setFields := fun {g} h id fields k hk => by
    obtain ⟨n, hn⟩ := (g.hasNode_iff k).mp (h k hk)
    rw [hasNode_iff, slot_updateNode]
    split_ifs with hid
    · rw [hn]
      exact ⟨_, rfl⟩
    · exact ⟨n, hn⟩

theorem edge_keptByRead (e : ℕ × ℕ) : KeptByRead True (fun g => e ∈ g.edges) where
  addEdge := fun {g g' u v b} h hadd => by
    rcases addEdge_cases hadd with ⟨-, rfl⟩ | ⟨-, -, he⟩
    · exact h
    · rw [show g' = (g.addEdgeInternal u v).2 from congrArg Prod.snd he]
      by_cases hmem : (u, v) ∈ g.edges
      · rw [addEdgeInternal_of_mem hmem]
        exact h
      · rw [addEdgeInternal_of_notMem hmem]
        exact (mem_edges_withEdge g u v e).mpr (.inr h)
  addEdgeMetaData := fun _ _ h ids md => (mem_edges_addEdgeMetaData _ _ ids md e).mpr h
  setFields := fun h _ _ => h

/-- The keys of edge metadata are the base key, and there are none unless metadata was created. -/
def OnlyBaseKey (created : Prop) (g : Callgraph) : Prop :=
  ∀ ids key, key ∈ g.edgeMeta ids → key = MetaData.baseKey ∧ created

theorem onlyBaseKey_keptByRead (created : Prop) : KeptByRead created (OnlyBaseKey created) where
  addEdge := fun {g g' u v b} h hadd => by
    rcases addEdge_cases hadd with ⟨-, rfl⟩ | ⟨-, -, he⟩
    · exact h
    · rw [show g' = (g.addEdgeInternal u v).2 from congrArg Prod.snd he]
      by_cases hmem : (u, v) ∈ g.edges
      · rw [addEdgeInternal_of_mem hmem]
        exact h
      · rw [addEdgeInternal_of_notMem hmem]
        intro ids key hkey
        rw [edgeMeta_withEdge hmem] at hkey
        exact h ids key hkey
  addEdgeMetaData := fun hc g h ids md p key hkey => by
    by_cases hmem : ids ∈ g.edges
    · rw [(addEdgeMetaData_set hmem _ _).edgeMeta] at hkey
      split_ifs at hkey with hp
      · rcases (AList.mem_insert _).mp hkey with hkey | hkey
        · exact ⟨hkey, hc⟩
        · exact h ids key hkey
      · exact h p key hkey
    · have hsame : (g.addEdgeMetaData MetaData.baseKey ids md).2 = g := by
        rw [Callgraph.addEdgeMetaData, AList.lookup_eq_none.mpr hmem]
      rw [hsame] at hkey
      exact h p key hkey
  setFields := fun h _ _ => h

/-! ## The edges -/

section
variable {m : StrToNode} {cg cg' : Callgraph} {count : ℕ}

theorem edgesCreate_true (jEdges : List (String × Json)) : EdgesCreate True jEdges := fun _ _ _ _ _ => trivial

theorem mem_addEdge {g g' : Callgraph} {u v : ℕ} {b : Bool} (hu : g.hasNode u = true) (hv : g.hasNode v = true)
    (h : g.addEdge u v = .ok (b, g')) : (u, v) ∈ g'.edges := by
  rw [addEdge_of_live hu hv] at h
  by_cases hmem : (u, v) ∈ g.edges
  · rw [addEdgeInternal_of_mem hmem] at h
    cases h
    exact hmem
  · rw [addEdgeInternal_of_notMem hmem] at h
    cases h
    exact (mem_edges_withEdge g u v (u, v)).mpr (.inl rfl)

theorem readEdge_mem (hlive : FirstLive count cg) (hm : ∀ s k, m.lookup s = some k → k < count) {a : ℕ} (ha : a < count)
    {field : String × Json} (hrun : readEdge m a cg field = .ok cg') :
    ∃ k, m.lookup field.1 = some k ∧ (a, k) ∈ cg'.edges := by
  obtain ⟨k, b, cg₁, hk, hadd, hrest⟩ := readEdge_ok hrun
  exact ⟨k, hk, hrest (edge_keptByRead (a, k)) (fun _ _ _ => trivial) (mem_addEdge (hlive a ha) (hlive k (hm _ k hk)) hadd)⟩

theorem readNodeData_mem (hlive : FirstLive count cg) (hm : ∀ s k, m.lookup s = some k → k < count) {t : TempNodeData}
    (ht : t.nodeId < count) (hrun : readNodeData m cg t = .ok cg') :
    ∃ jEdges, t.jEdges.iterator = .ok jEdges ∧
      ∀ field ∈ jEdges, ∃ k, m.lookup field.1 = some k ∧ (t.nodeId, k) ∈ cg'.edges := by
  obtain ⟨jEdges, cg₁, metaFields, hiter, hedges, rfl⟩ := readNodeData_ok hrun
  refine ⟨jEdges, hiter, (foldlM_ok_inv (J := fun pre s => FirstLive count s ∧
    ∀ field ∈ pre, ∃ k, m.lookup field.1 = some k ∧ (t.nodeId, k) ∈ s.edges) ⟨hlive, by simp⟩ ?_ hedges).2⟩
  rintro pre x s s' - ⟨hs, hpre⟩ hstep
  refine ⟨(firstLive_keptByRead count).readEdge hs (fun _ _ _ => trivial) hstep, fun field hfield => ?_⟩
  rcases List.mem_append.mp hfield with hfield | hfield
  · obtain ⟨k, hk, he⟩ := hpre field hfield
    exact ⟨k, hk, (edge_keptByRead (t.nodeId, k)).readEdge he (fun _ _ _ => trivial) hstep⟩
  · rw [List.mem_singleton.mp hfield]
    exact readEdge_mem hs hm ht hstep

/-- Every callee in the file is one in the graph. -/
theorem readData_mem (hlive : FirstLive count cg) (hm : ∀ s k, m.lookup s = some k → k < count) {temp : List TempNodeData}
    (ht : ∀ t ∈ temp, t.nodeId < count) (hrun : temp.foldlM (readNodeData m) cg = .ok cg') :
    ∀ t ∈ temp, ∃ jEdges, t.jEdges.iterator = .ok jEdges ∧
      ∀ field ∈ jEdges, ∃ k, m.lookup field.1 = some k ∧ (t.nodeId, k) ∈ cg'.edges := by
  refine (foldlM_ok_inv (J := fun pre s => FirstLive count s ∧ ∀ t ∈ pre, ∃ jEdges, t.jEdges.iterator = .ok jEdges ∧
    ∀ field ∈ jEdges, ∃ k, m.lookup field.1 = some k ∧ (t.nodeId, k) ∈ s.edges) ⟨hlive, by simp⟩ ?_ hrun).2
  rintro pre t s s' hpre' ⟨hs, hpre⟩ hstep
  refine ⟨(firstLive_keptByRead count).readNodeData hs (fun _ _ => edgesCreate_true _) hstep, fun t' ht' => ?_⟩
  rcases List.mem_append.mp ht' with ht' | ht'
  · obtain ⟨jEdges, hiter, hedges⟩ := hpre t' ht'
    refine ⟨jEdges, hiter, fun field hfield => ?_⟩
    obtain ⟨k, hk, he⟩ := hedges field hfield
    exact ⟨k, hk, (edge_keptByRead (t'.nodeId, k)).readNodeData he (fun _ _ => edgesCreate_true _) hstep⟩
  · rw [List.mem_singleton.mp ht']
    exact readNodeData_mem hs hm (ht t (hpre'.subset (List.mem_append_right _ (List.mem_singleton_self t)))) hstep

end

/-! ## The whole file -/

/-- The fields of `nodes`. -/
def nodesOf (j : Json) : List (String × Json) :=
  match (do (← (← j.subscriptMut "_CG").subscriptMut "nodes").iterator : Except Exn (List (String × Json))) with
  | .ok fields => fields
  | .error _ => []

/-- The fields of the `callees` of a node. -/
def calleesOf (jNode : Json) : List (String × Json) :=
  match (do (← jNode.subscriptMut "callees").iterator : Except Exn (List (String × Json))) with
  | .ok fields => fields
  | .error _ => []

/-- The place of a node in the file. -/
def placeOf (j : Json) (s : String) : ℕ := ((nodesOf j).map Prod.fst).idxOf s

/-- The node `caller` of the file has an edge to `callee`. -/
def EdgeListed (j : Json) (caller callee : String) : Prop :=
  ∃ jNode jEdge, (caller, jNode) ∈ nodesOf j ∧ (callee, jEdge) ∈ calleesOf jNode

/-- The edge lists metadata under `key`. -/
def EdgeKeyListed (j : Json) (caller callee key : String) : Prop :=
  ∃ jNode jEdge value, (caller, jNode) ∈ nodesOf j ∧ (callee, jEdge) ∈ calleesOf jNode ∧ (key, value) ∈ jEdge.items

/-- Some key that is listed on an edge is registered. -/
def CreatesEdgeMeta (j : Json) : Prop :=
  ∃ caller callee key, EdgeKeyListed j caller callee key ∧ MetaData.isRegistered key = true

instance (j : Json) : Decidable (CreatesEdgeMeta j) :=
  decidable_of_iff (∃ node ∈ nodesOf j, ∃ edge ∈ calleesOf node.2, ∃ x ∈ edge.2.items, MetaData.isRegistered x.1 = true)
    ⟨fun ⟨node, hnode, edge, hedge, x, hx, hreg⟩ => ⟨node.1, edge.1, x.1, ⟨node.2, edge.2, x.2, hnode, hedge, hx⟩, hreg⟩,
    fun ⟨caller, callee, key, ⟨jNode, jEdge, value, hnode, hedge, hx⟩, hreg⟩ =>
      ⟨(caller, jNode), hnode, (callee, jEdge), hedge, (key, value), hx, hreg⟩⟩

/-- What holds of a graph that was read. -/
structure FileRead (j : Json) (r : Callgraph) : Prop where
  wf : r.Wf
  live : FirstLive (nodesOf j).length r
  edge : ∀ caller callee, EdgeListed j caller callee → (placeOf j caller, placeOf j callee) ∈ r.edges
  keys : OnlyBaseKey (CreatesEdgeMeta j) r

theorem read_fileRead {j : Json} {r : Callgraph} (h : read j = .ok r) : FileRead j r := by
  obtain ⟨_, -, h⟩ := bind_eq_ok.mp h
  obtain ⟨jsonCG, hcg, h⟩ := bind_eq_ok.mp h
  split at h
  · cases h
  obtain ⟨jNodes, hnodes, h⟩ := bind_eq_ok.mp h
  split at h
  · cases h
  obtain ⟨nodes, hiter, h⟩ := bind_eq_ok.mp h
  obtain ⟨st, hst, h⟩ := bind_eq_ok.mp h
  obtain ⟨cg, hdata, h⟩ := bind_eq_ok.mp h
  obtain ⟨jGlobalMeta, -, h⟩ := bind_eq_ok.mp h
  obtain ⟨fields, -, h⟩ := bind_eq_ok.mp h
  cases h
  have hplaced := readNodes_placed hst
  have hnodesOf : nodesOf j = nodes := by
    rw [nodesOf, hcg, ok_bind, hnodes, ok_bind, hiter]
  have hcallees : ∀ {e t jEdges}, Keeps nodes e t → t.jEdges.iterator = .ok jEdges → calleesOf e.2 = jEdges := by
    intro e t jEdges hk hj
    rw [calleesOf, hk.2, ok_bind, hj]
  have hplace : ∀ {s k}, (nodes.map Prod.fst)[k]? = some s → placeOf j s = k := by
    intro s k hk
    rw [placeOf, hnodesOf]
    have hmem := List.mem_of_getElem? hk
    have hfirst : (nodes.map Prod.fst)[(nodes.map Prod.fst).idxOf s]? = some s := by
      rw [List.getElem?_eq_getElem (List.idxOf_lt_length_of_mem hmem), List.getElem_idxOf]
    rw [← hplaced.lookup] at hk hfirst
    rw [hk] at hfirst
    exact (Option.some.inj hfirst).symm
  have hcreates : ∀ t ∈ st.tempNodeData, ∀ jEdges, t.jEdges.iterator = .ok jEdges →
      EdgesCreate (CreatesEdgeMeta j) jEdges := by
    intro t ht jEdges hj field hfield x hx hreg
    obtain ⟨e, he, hk⟩ := hplaced.temp t ht
    exact ⟨e.1, field.1, x.1, ⟨e.2, field.2, x.2, by rw [hnodesOf]; exact he, by rw [hcallees hk hj]; exact hfield, hx⟩, hreg⟩
  have hlive := (firstLive_keptByRead nodes.length).readData hplaced.live (fun _ _ _ _ => edgesCreate_true _) hdata
  have hlt : ∀ s k, st.strToNode.lookup s = some k → k < nodes.length := by
    intro s k hk
    have hlt := (List.getElem?_eq_some_iff.mp ((hplaced.lookup s k).mp hk)).1
    rwa [List.length_map] at hlt
  exact {
    wf := (Wf.keptByRead.readData hplaced.wf (fun _ _ _ _ => edgesCreate_true _) hdata).withMeta fields
    live := by
      rw [hnodesOf]
      exact hlive
    edge := by
      rintro caller callee ⟨jNode, jEdge, hcaller, hcallee⟩
      rw [hnodesOf] at hcaller
      obtain ⟨t, ht, hk⟩ := hplaced.kept _ hcaller
      have hids : ∀ t ∈ st.tempNodeData, t.nodeId < nodes.length := by
        intro t ht
        obtain ⟨e, -, hk⟩ := hplaced.temp t ht
        exact hlt e.1 _ ((hplaced.lookup _ _).mpr hk.1)
      obtain ⟨jEdges, hj, hall⟩ := readData_mem hplaced.live hlt hids hdata t ht
      rw [hcallees hk hj] at hcallee
      obtain ⟨k, hk', he⟩ := hall _ hcallee
      rw [hplace hk.1, hplace ((hplaced.lookup _ _).mp hk')]
      exact he
    keys := by
      have hstart : OnlyBaseKey (CreatesEdgeMeta j) st.cg := by
        intro ids key hkey
        rw [edgeMeta, hplaced.edges] at hkey
        exact absurd hkey (AList.notMem_empty key)
      have hkeys := (onlyBaseKey_keptByRead (CreatesEdgeMeta j)).readData hstart hcreates hdata
      exact hkeys }

end MetaCG
