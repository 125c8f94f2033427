import MetaCG.Graph.Invariant

/-! Edge insertion, edge removal and node erasure keep the representation invariant.

On a well-formed graph none of these operations can fault: the list searched by `std::find` always
holds the entry, and `at` always finds its key. The two edge loops of `erase` are one lemma,
`dropNeighbour_loop`, used once for the callees and once for the callers. -/
namespace MetaCG
open Foundations
set_option autoImplicit false
set_option maxHeartbeats 250000
set_option maxRecDepth 120000

namespace Callgraph

/-! ## Adding an edge -/

/-- What `addEdgeInternal` does to a graph without the edge. -/
def withEdge (g : Callgraph) (u v : ℕ) : Callgraph :=
  { g with
    calleeList := g.calleeList.insert u (g.callees u ++ [v])
    callerList := g.callerList.insert v (g.callers v ++ [u])
    edges := g.edges.insert (u, v) ∅ }

theorem addEdgeInternal_of_notMem {g : Callgraph} {u v : ℕ} (h : (u, v) ∉ g.edges) :
    g.addEdgeInternal u v = (true, g.withEdge u v) := by
  rw [addEdgeInternal, if_neg h]
  rfl

theorem addEdgeInternal_of_mem {g : Callgraph} {u v : ℕ} (h : (u, v) ∈ g.edges) :
    g.addEdgeInternal u v = (false, g) := by
  rw [addEdgeInternal, if_pos h]

theorem callees_withEdge (g : Callgraph) (u v w : ℕ) :
    (g.withEdge u v).callees w = if w = u then g.callees u ++ [v] else g.callees w :=
  UMap.getD_insert _ _ _ _ _

theorem callers_withEdge (g : Callgraph) (u v w : ℕ) :
    (g.withEdge u v).callers w = if w = v then g.callers v ++ [u] else g.callers w :=
  UMap.getD_insert _ _ _ _ _

theorem mem_edges_withEdge (g : Callgraph) (u v : ℕ) (e : ℕ × ℕ) :
    e ∈ (g.withEdge u v).edges ↔ e = (u, v) ∨ e ∈ g.edges := AList.mem_insert _

theorem Wf.withEdge {g : Callgraph} (h : g.Wf) {u v : ℕ} (he : (u, v) ∉ g.edges)
    (hu : g.hasNode u = true) (hv : g.hasNode v = true) : (g.withEdge u v).Wf where
  callees_nodup := by
    intro w
    rw [callees_withEdge]
    split_ifs with hw
    · refine List.nodup_append.mpr ⟨h.callees_nodup u, List.nodup_singleton v, ?_⟩
      intro a ha b hb hab
      rw [hab, List.mem_singleton.mp hb] at ha
      exact he ((h.mem_callees u v).mp ha)
    · exact h.callees_nodup w
  callers_nodup := by
    intro w
    rw [callers_withEdge]
    split_ifs with hw
    · refine List.nodup_append.mpr ⟨h.callers_nodup v, List.nodup_singleton u, ?_⟩
      intro a ha b hb hab
      rw [hab, List.mem_singleton.mp hb] at ha
      exact he ((h.mem_callers u v).mp ha)
    · exact h.callers_nodup w
  mem_callees := by
    intro a b
    rw [callees_withEdge, mem_edges_withEdge]
    split_ifs with ha
    · subst ha
      rw [List.mem_append, List.mem_singleton, h.mem_callees, or_comm]
      simp
    · rw [h.mem_callees]
      simp [ha]
  mem_callers := by
    intro a b
    rw [callers_withEdge, mem_edges_withEdge]
    split_ifs with hb
    · subst hb
      rw [List.mem_append, List.mem_singleton, h.mem_callers, or_comm]
      simp
    · rw [h.mem_callers]
      simp [hb]
  edge_live := by
    intro a b hab
    rcases (mem_edges_withEdge g u v _).mp hab with heq | hmem
    · cases heq
      exact ⟨hu, hv⟩
    · exact h.edge_live a b hmem
  node_id := h.node_id
  node_name := h.node_name
  names := h.names
  erased := h.erased
  main_live := h.main_live

theorem Wf.addEdgeInternal {g : Callgraph} (h : g.Wf) {u v : ℕ}
    (hu : g.hasNode u = true) (hv : g.hasNode v = true) : (g.addEdgeInternal u v).2.Wf := by
  by_cases he : (u, v) ∈ g.edges
  · rw [addEdgeInternal_of_mem he]
    exact h
  · rw [addEdgeInternal_of_notMem he]
    exact h.withEdge he hu hv

theorem addEdge_of_live {g : Callgraph} {u v : ℕ} (hu : g.hasNode u = true) (hv : g.hasNode v = true) :
    g.addEdge u v = .ok (g.addEdgeInternal u v) := by
  obtain ⟨n, hn⟩ := (g.hasNode_iff u).mp hu
  obtain ⟨m, hm⟩ := (g.hasNode_iff v).mp hv
  rw [addEdge, getNode_of_lt (slot_lt hn), hn, getNode_of_lt (slot_lt hm), hm]
  rfl

/-- A successful `addEdge` either changes nothing or adds an edge between live nodes. -/
theorem addEdge_cases {g g' : Callgraph} {u v : ℕ} {b : Bool} (h : g.addEdge u v = .ok (b, g')) :
    (b = false ∧ g' = g) ∨
    (g.hasNode u = true ∧ g.hasNode v = true ∧ (b, g') = g.addEdgeInternal u v) := by
  unfold addEdge at h
  cases hu : g.getNode u with
  | error e => rw [hu] at h; cases h
  | ok p =>
    cases p with
    | none => rw [hu] at h; cases h; exact .inl ⟨rfl, rfl⟩
    | some n =>
      cases hv : g.getNode v with
      | error e => rw [hu, hv] at h; cases h
      | ok q =>
        cases q with
        | none => rw [hu, hv] at h; cases h; exact .inl ⟨rfl, rfl⟩
        | some m =>
          rw [hu, hv] at h
          have h' : g.addEdgeInternal u v = (b, g') := Except.ok.inj h
          exact .inr ⟨hasNode_of_slot (getNode_eq_ok hu).symm, hasNode_of_slot (getNode_eq_ok hv).symm, h'.symm⟩

theorem Wf.addEdge {g g' : Callgraph} (h : g.Wf) {u v : ℕ} {b : Bool}
    (hr : g.addEdge u v = .ok (b, g')) : g'.Wf := by
  rcases addEdge_cases hr with ⟨-, rfl⟩ | ⟨hu, hv, he⟩
  · exact h
  · have h2 : g' = (g.addEdgeInternal u v).2 := congrArg Prod.snd he
    rw [h2]
    exact h.addEdgeInternal hu hv

/-! ## Removing an edge -/

theorem eraseFound_of_mem {id : ℕ} {l : List ℕ} (h : id ∈ l) : eraseFound id l = .ok (l.erase id) := by
  rw [eraseFound, if_pos h]

/-- What `removeEdge` does to a well-formed graph with the edge. -/
def withoutEdge (g : Callgraph) (u v : ℕ) : Callgraph :=
  { g with
    edges := g.edges.erase (u, v)
    calleeList := g.calleeList.insert u ((g.callees u).erase v)
    callerList := g.callerList.insert v ((g.callers v).erase u) }

theorem Wf.removeEdge_eq {g : Callgraph} (h : g.Wf) (u v : ℕ) :
    g.removeEdge u v =
      .ok (if (u, v) ∈ g.edges then (true, g.withoutEdge u v) else (false, g)) := by
  unfold removeEdge
  split_ifs with he
  · rw [eraseFound_of_mem ((h.mem_callees u v).mpr he), eraseFound_of_mem ((h.mem_callers u v).mpr he)]
    rfl
  · rfl

theorem Wf.withoutEdge {g : Callgraph} (h : g.Wf) (u v : ℕ) : (g.withoutEdge u v).Wf where
  callees_nodup := by
    intro w
    rw [callees, Callgraph.withoutEdge, UMap.getD_insert]
    split_ifs with hw
    · exact (h.callees_nodup u).erase v
    · exact h.callees_nodup w
  callers_nodup := by
    intro w
    rw [callers, Callgraph.withoutEdge, UMap.getD_insert]
    split_ifs with hw
    · exact (h.callers_nodup v).erase u
    · exact h.callers_nodup w
  mem_callees := by
    intro a b
    rw [callees, Callgraph.withoutEdge, UMap.getD_insert, AList.mem_erase, ← h.mem_callees a b]
    split_ifs with ha
    · subst ha
      rw [(h.callees_nodup a).mem_erase_iff]
      simp
    · change b ∈ g.callees a ↔ _
      simp [ha]
  mem_callers := by
    intro a b
    rw [callers, Callgraph.withoutEdge, UMap.getD_insert, AList.mem_erase, ← h.mem_callers a b]
    split_ifs with hb
    · subst hb
      rw [(h.callers_nodup b).mem_erase_iff]
      simp
    · change a ∈ g.callers b ↔ _
      simp [hb]
  edge_live := fun a b hab => h.edge_live a b (AList.mem_erase.mp hab).2
  node_id := h.node_id
  node_name := h.node_name
  names := h.names
  erased := h.erased
  main_live := h.main_live

theorem Wf.removeEdge {g : Callgraph} (h : g.Wf) (u v : ℕ) :
    ∃ b g', g.removeEdge u v = .ok (b, g') ∧ g'.Wf := by
  by_cases he : (u, v) ∈ g.edges
  · exact ⟨true, g.withoutEdge u v, by rw [h.removeEdge_eq, if_pos he], h.withoutEdge u v⟩
  · exact ⟨false, g, by rw [h.removeEdge_eq, if_neg he], h⟩

/-! ## Erasing a node -/

theorem lookup_of_getD_ne_nil {m : NeighbourLists} {k : ℕ} (h : UMap.getD m k [] ≠ []) :
    m.lookup k = some (UMap.getD m k []) := by
  cases hk : m.lookup k with
  | none => exact absurd (by rw [UMap.getD, hk]; rfl) h
  | some l => rw [UMap.getD, hk]; rfl

/-- Both edge loops of `erase`: every edge of a listed neighbour goes, and so does `id` in the
neighbour's list. -/
theorem dropNeighbour_loop (id : ℕ) (edge : ℕ → ℕ × ℕ) (ns : List ℕ) (hns : ns.Nodup)
    (E : EdgeMap) (L : NeighbourLists) (hmem : ∀ n ∈ ns, id ∈ UMap.getD L n []) :
    ∃ E' L', ns.foldlM (dropNeighbour id edge) (E, L) = .ok (E', L') ∧
      (∀ e, e ∈ E' ↔ e ∈ E ∧ ∀ n ∈ ns, e ≠ edge n) ∧
      ∀ k, UMap.getD L' k [] = if k ∈ ns then (UMap.getD L k []).erase id else UMap.getD L k [] := by
  induction ns generalizing E L with
  | nil => exact ⟨E, L, rfl, by simp, by simp⟩
  | cons n ns ih =>
    obtain ⟨hn, hns'⟩ := List.nodup_cons.mp hns
    have hid : id ∈ UMap.getD L n [] := hmem n (List.mem_cons_self ..)
    have hstep : dropNeighbour id edge (E, L) n =
        .ok (E.erase (edge n), L.insert n ((UMap.getD L n []).erase id)) := by
      simp only [dropNeighbour, lookup_of_getD_ne_nil (List.ne_nil_of_mem hid), eraseFound_of_mem hid]
      rfl
    have hL : ∀ k, UMap.getD (L.insert n ((UMap.getD L n []).erase id)) k [] =
        if k = n then (UMap.getD L n []).erase id else UMap.getD L k [] := fun k =>
      UMap.getD_insert _ _ _ _ _
    obtain ⟨E', L', hrun, hE', hL'⟩ := ih hns' (E.erase (edge n)) (L.insert n ((UMap.getD L n []).erase id))
      (fun m hm => by
        have hmn : m ≠ n := fun he => hn (he ▸ hm)
        rw [hL, if_neg hmn]
        exact hmem m (List.mem_cons_of_mem n hm))
    refine ⟨E', L', ?_, ?_, ?_⟩
    · rw [List.foldlM_cons, hstep]
      exact hrun
    · intro e
      rw [hE', AList.mem_erase]
      simp only [List.forall_mem_cons]
      tauto
    · intro k
      rw [hL', hL]
      by_cases hk : k = n
      · subst hk
        simp [hn]
      · simp [hk]

/-- The result of the two edge loops: no edge touches `id` any more. -/
theorem Wf.eraseEdges_spec {g : Callgraph} (h : g.Wf) (id : ℕ) :
    ∃ E R L, g.eraseEdges id = .ok { g with edges := E, callerList := R, calleeList := L } ∧
      (∀ e, e ∈ E ↔ e ∈ g.edges ∧ e.1 ≠ id ∧ e.2 ≠ id) ∧
      (∀ v, UMap.getD R v [] = if v = id then [] else (g.callers v).erase id) ∧
      ∀ u, UMap.getD L u [] = if u = id then [] else (g.callees u).erase id := by
  obtain ⟨E₁, R₁, hrun₁, hE₁, hR₁⟩ := dropNeighbour_loop id (fun c => (id, c)) (g.callees id)
    (h.callees_nodup id) g.edges g.callerList
    (fun n hn => (h.mem_callers id n).mpr ((h.mem_callees id n).mp hn))
  -- `id` occurs in the caller list of a callee only, so the first loop erases it everywhere
  have hR₁' : ∀ v, UMap.getD R₁ v [] = (g.callers v).erase id := by
    intro v
    rw [hR₁]
    split_ifs with hv
    · rfl
    · have hid : id ∉ g.callers v := fun hc => hv ((h.mem_callees id v).mpr ((h.mem_callers id v).mp hc))
      exact (List.erase_of_not_mem hid).symm
  have hL₁ : ∀ u, UMap.getD (g.calleeList.erase id) u [] = if u = id then [] else g.callees u := fun u =>
    UMap.getD_erase _ _ _ _
  have hcaller : ∀ n, n ∈ (g.callers id).erase id → n ≠ id ∧ (n, id) ∈ g.edges := by
    intro n hn
    rw [(h.callers_nodup id).mem_erase_iff] at hn
    exact ⟨hn.1, (h.mem_callers n id).mp hn.2⟩
  obtain ⟨E₂, L₂, hrun₂, hE₂, hL₂⟩ := dropNeighbour_loop id (fun c => (c, id)) (UMap.getD R₁ id [])
    (by rw [hR₁']; exact (h.callers_nodup id).erase id) E₁ (g.calleeList.erase id)
    (fun n hn => by
      rw [hR₁'] at hn
      rw [hL₁, if_neg (hcaller n hn).1]
      exact (h.mem_callees n id).mpr (hcaller n hn).2)
  refine ⟨E₂, R₁.erase id, L₂, ?_, ?_, ?_, ?_⟩
  · rw [eraseEdges, hrun₁]
    change (do
      let p ← (UMap.getD R₁ id []).foldlM (dropNeighbour id fun c => (c, id)) (E₁, g.calleeList.erase id)
      return { g with edges := p.1, calleeList := p.2, callerList := R₁.erase id }) = _
    rw [hrun₂]
    rfl
  · rintro ⟨a, b⟩
    rw [hE₂, hE₁, hR₁']
    constructor
    · rintro ⟨⟨hg, h1⟩, h2⟩
      have ha : a ≠ id := fun ha => h1 b ((h.mem_callees id b).mpr (ha ▸ hg)) (by rw [ha])
      refine ⟨hg, ha, fun hb => ?_⟩
      have hmem : a ∈ (g.callers id).erase id := by
        rw [(h.callers_nodup id).mem_erase_iff]
        have hab : (a, id) ∈ g.edges := by
          have hb' : b = id := hb
          rw [← hb']
          exact hg
        exact ⟨ha, (h.mem_callers a id).mpr hab⟩
      exact h2 a hmem (by have hb' : b = id := hb; rw [hb'])
    · rintro ⟨hg, ha, hb⟩
      refine ⟨⟨hg, fun n _ he => ha (congrArg Prod.fst he)⟩, fun n _ he => hb (congrArg Prod.snd he)⟩
  · intro v
    rw [UMap.getD_erase, hR₁']
  · intro u
    rw [hL₂, hL₁, hR₁']
    by_cases hu : u = id
    · subst hu
      simp
    · rw [if_neg hu, if_neg hu]
      split_ifs with hmem
      · rfl
      · have hid : id ∉ g.callees u := by
          intro hc
          apply hmem
          rw [(h.callers_nodup id).mem_erase_iff]
          exact ⟨hu, (h.mem_callers u id).mpr ((h.mem_callees u id).mp hc)⟩
        exact (List.erase_of_not_mem hid).symm

theorem slot_setNone (g : Callgraph) (id i : ℕ) :
    ((g.nodes.set id none)[i]?).join = if i = id then none else g.slot i := by
  rw [List.getElem?_set, slot]
  by_cases hi : i = id
  · subst hi
    by_cases hlt : i < g.nodes.length
    · simp [hlt]
    · simp [hlt]
  · simp [hi, Ne.symm hi]

theorem countP_isNone_set (l : List (Option CgNode)) (id : ℕ) (n : CgNode) (h : l[id]? = some (some n)) :
    (l.set id none).countP Option.isNone = l.countP Option.isNone + 1 := by
  induction l generalizing id with
  | nil => simp at h
  | cons p l ih =>
    cases id with
    | zero =>
      simp only [List.getElem?_cons_zero, Option.some.injEq] at h
      subst h
      simp
    | succ id =>
      rw [List.getElem?_cons_succ] at h
      simp only [List.set_cons_succ, List.countP_cons, ih id h]
      omega

/-- What is left of a well-formed graph after its node `id` named `name` is erased. -/
structure Erased (g g' : Callgraph) (id : ℕ) : Prop where
  wf : g'.Wf
  slots : ∀ i, g'.slot i = if i = id then none else g.slot i
  edges : ∀ e, e ∈ g'.edges ↔ e ∈ g.edges ∧ e.1 ≠ id ∧ e.2 ≠ id

/-- `eraseMain` touches the main node and the metadata of the graph only. -/
theorem eraseMain_frame (g : Callgraph) (id : ℕ) :
    ∃ metaFields, g.eraseMain id =
      { g with mainNode := if g.mainNode = some id then none else g.mainNode, metaFields := metaFields } := by
  unfold eraseMain
  split_ifs <;> exact ⟨_, rfl⟩

/-- The lists of names without the node `id`. -/
theorem Wf.filter_named_ne {g : Callgraph} (h : g.Wf) {id : ℕ} {n : CgNode} (hn : g.slot id = some n) (name : String) :
    (g.getNodesNamed name).filter (fun i => decide (i ≠ id)) =
      if name = n.functionName then (g.getNodesNamed n.functionName).erase id else g.getNodesNamed name := by
  have hnd : (g.getNodesNamed name).Nodup := by
    rw [h.names]
    exact List.nodup_range.filter _
  split_ifs with hname
  · subst hname
    rw [hnd.erase_eq_filter]
    exact List.filter_congr fun i _ => by by_cases hi : i = id <;> simp [hi]
  · rw [List.filter_eq_self]
    intro i hi
    obtain ⟨m, hm, hme⟩ := (h.mem_named name i).mp hi
    have hne : i ≠ id := by
      intro he
      rw [he, hn] at hm
      cases hm
      exact hname hme.symm
    simp [hne]

theorem Wf.erase_live {g : Callgraph} (h : g.Wf) {id : ℕ} {n : CgNode} (hn : g.slot id = some n) :
    ∃ g', g.erase id = .ok (true, g') ∧ Erased g g' id := by
  obtain ⟨E, R, L, hrun, hE, hR, hL⟩ := h.eraseEdges_spec id
  have hfound : id ∈ g.getNodesNamed n.functionName := (h.mem_named _ _).mpr ⟨n, hn, rfl⟩
  have hgn : g.nodes[id]? = some (some n) := (slot_eq_some_iff g id n).mp hn
  obtain ⟨metaFields, hmain⟩ := eraseMain_frame { g with edges := E, callerList := R, calleeList := L } id
  let g' : Callgraph :=
    { g with
      nodes := g.nodes.set id none
      nameIdMap := g.nameIdMap.insert n.functionName ((g.getNodesNamed n.functionName).erase id)
      edges := E
      callerList := R
      calleeList := L
      mainNode := if g.mainNode = some id then none else g.mainNode
      numErased := g.numErased + 1
      metaFields := metaFields }
  have hslot : ∀ i, g'.slot i = if i = id then none else g.slot i := fun i => slot_setNone g id i
  have hlive : ∀ i, i ≠ id → g'.hasNode i = g.hasNode i := by
    intro i hi
    rw [hasNode, hslot, if_neg hi, hasNode]
  have hnamed : ∀ name i, g'.isNamed name i = (g.isNamed name i && decide (i ≠ id)) := by
    intro name i
    rw [isNamed, hslot]
    by_cases hi : i = id
    · simp [hi]
    · simp [hi, isNamed]
  refine ⟨g', ?_, ⟨?_, hslot, hE⟩⟩
  · simp only [Callgraph.erase, hn, hrun]
    change (do
      let g := eraseMain { g with edges := E, callerList := R, calleeList := L } id
      let ids ← eraseFound id (g.getNodesNamed n.functionName)
      return (true, { g with
        nameIdMap := g.nameIdMap.insert n.functionName ids
        nodes := g.nodes.set id none
        numErased := g.numErased + 1 })) = _
    rw [hmain]
    change (do
      let ids ← eraseFound id (g.getNodesNamed n.functionName)
      return (true, { g' with nameIdMap := g.nameIdMap.insert n.functionName ids })) = _
    rw [eraseFound_of_mem hfound]
    rfl
  · exact {
      callees_nodup := by
        intro u
        rw [callees, hL]
        split_ifs
        · exact List.nodup_nil
        · exact (h.callees_nodup u).erase id
      callers_nodup := by
        intro v
        rw [callers, hR]
        split_ifs
        · exact List.nodup_nil
        · exact (h.callers_nodup v).erase id
      mem_callees := by
        intro u v
        rw [callees, hL, hE]
        split_ifs with hu
        · simp [hu]
        · rw [(h.callees_nodup u).mem_erase_iff, h.mem_callees]
          tauto
      mem_callers := by
        intro u v
        rw [callers, hR, hE]
        split_ifs with hv
        · simp [hv]
        · rw [(h.callers_nodup v).mem_erase_iff, h.mem_callers]
          tauto
      edge_live := by
        intro u v he
        rw [hE] at he
        rw [hlive u he.2.1, hlive v he.2.2]
        exact h.edge_live u v he.1
      node_id := by
        intro i m hm
        rw [hslot] at hm
        split_ifs at hm
        exact h.node_id i m hm
      node_name := by
        intro i m hm
        rw [hslot] at hm
        split_ifs at hm
        exact h.node_name i m hm
      names := by
        intro name
        have hlen : g'.nodes.length = g.nodes.length := List.length_set ..
        have hget : g'.getNodesNamed name =
            if name = n.functionName then (g.getNodesNamed n.functionName).erase id
            else g.getNodesNamed name := UMap.getD_insert _ _ _ _ _
        rw [hget, ← h.filter_named_ne hn, hlen, h.names, List.filter_filter]
        exact List.filter_congr fun i _ => by rw [hnamed, Bool.and_comm]
      erased := by
        change g.numErased + 1 = (g.nodes.set id none).countP Option.isNone
        rw [countP_isNone_set g.nodes id n hgn, h.erased]
      main_live := by
        intro i hi
        change (if g.mainNode = some id then none else g.mainNode) = some i at hi
        split_ifs at hi with hm
        have hne : i ≠ id := fun he => hm (he ▸ hi)
        rw [hlive i hne]
        exact h.main_live i hi }

theorem erase_dead {g : Callgraph} {id : ℕ} (h : g.slot id = none) : g.erase id = .ok (false, g) := by
  simp only [Callgraph.erase, h]

theorem Wf.erase {g : Callgraph} (h : g.Wf) (id : ℕ) :
    ∃ b g', g.erase id = .ok (b, g') ∧ g'.Wf := by
  cases hs : g.slot id with
  | none => exact ⟨false, g, erase_dead hs, h⟩
  | some n =>
    obtain ⟨g', hrun, he⟩ := h.erase_live hs
    exact ⟨true, g', hrun, he.wf⟩

/-! ## Clearing and the cached main node -/

theorem Wf.clear (g : Callgraph) : g.clear.Wf where
  callees_nodup := fun _ => List.nodup_nil
  callers_nodup := fun _ => List.nodup_nil
  mem_callees := fun _ _ => by simp [Callgraph.clear, callees]
  mem_callers := fun _ _ => by simp [Callgraph.clear, callers]
  edge_live := fun _ _ h => absurd h (AList.notMem_empty _)
  node_id := fun _ _ h => by simp [Callgraph.clear, slot] at h
  node_name := fun _ _ h => by simp [Callgraph.clear, slot] at h
  names := fun _ => rfl
  erased := rfl
  main_live := fun _ h => by simp [Callgraph.clear] at h

theorem Wf.withMain {g : Callgraph} (h : g.Wf) {main : Option ℕ}
    (hm : ∀ i, main = some i → g.hasNode i = true) : ({ g with mainNode := main } : Callgraph).Wf :=
  h.of_same_names rfl (fun _ => rfl) rfl (fun _ => Iff.rfl) rfl rfl h.erased hm

end Callgraph
end MetaCG
