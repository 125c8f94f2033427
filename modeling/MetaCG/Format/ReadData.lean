import MetaCG.Format.ReadNodes

/-! Reading a written file: edges, metadata and the whole file.

The graph has no edge metadata, so the metadata of an edge is written as an empty object. -/
namespace MetaCG
open Foundations Callgraph
set_option autoImplicit false
set_option maxHeartbeats 250000
set_option maxRecDepth 120000

/-- The metadata that a round trip carries over: all but the empty containers, with ids renamed. -/
def carried (f : ℕ → ℕ) (fields : NamedMetadata) (k : String) : Option MetaData :=
  ((fields.lookup k).filter fun md => !md.emptyContainer).map (MetaData.rename f)

section
variable {g : Callgraph} {str : ℕ → String} {f : ℕ → ℕ} {m : StrToNode}

/-! ## Metadata -/

theorem mem_metaJson (fields : NamedMetadata) (k : String) (j : Json) :
    (k, j) ∈ metaJson str fields ↔
      ∃ md, fields.lookup k = some md ∧ md.emptyContainer = false ∧ j = md.encode str := by
  have hnd : ((((UMap.toPairs fields).filter fun e => !e.2.emptyContainer).map
      fun e => (e.1, e.2.encode str)).map Prod.fst).Nodup := by
    rw [List.map_map]
    exact (UMap.toPairs_keys_nodup fields).sublist (List.filter_sublist.map _)
  rw [metaJson, Ordered.mem_ofList hnd, List.mem_map]
  constructor
  · rintro ⟨e, he, heq⟩
    obtain ⟨hmem, hne⟩ := List.mem_filter.mp he
    cases heq
    exact ⟨e.2, (UMap.mem_toPairs e.1 e.2 fields).mp hmem, by simpa using hne, rfl⟩
  · rintro ⟨md, hl, hne, rfl⟩
    exact ⟨(k, md), List.mem_filter.mpr ⟨(UMap.mem_toPairs k md fields).mpr hl, by simp [hne]⟩, rfl⟩

theorem metaJson_sorted (fields : NamedMetadata) : Ordered.Sorted (metaJson str fields) := Ordered.sorted_ofList _

theorem find_metaJson (fields : NamedMetadata) (k : String) :
    Ordered.find k (metaJson str fields) =
      ((fields.lookup k).filter fun md => !md.emptyContainer).map (MetaData.encode str) := by
  refine Option.ext fun j => ?_
  rw [← Ordered.mem_iff_find (metaJson_sorted fields), mem_metaJson, Option.map_eq_some_iff]
  constructor
  · rintro ⟨md, hl, hne, rfl⟩
    exact ⟨md, by rw [hl, Option.filter_some, if_pos (by simp [hne])], rfl⟩
  · rintro ⟨md, hf, rfl⟩
    obtain ⟨hl, hne⟩ := Option.filter_eq_some_iff.mp hf
    exact ⟨md, hl, by simpa using hne, rfl⟩

theorem carried_eq_none {fields : NamedMetadata} {k : String} (h : k ∉ (metaJson str fields).map Prod.fst) :
    carried f fields k = none := by
  rw [carried, Option.map_eq_none_iff, Option.filter_eq_none_iff]
  intro md hl hne
  exact h (List.mem_map.mpr ⟨(k, md.encode str), (mem_metaJson fields k _).mpr ⟨md, hl, by simpa using hne, rfl⟩, rfl⟩)

/-- The strings of a file lead to the nodes that were read. -/
structure Resolves (g : Callgraph) (str : ℕ → String) (f : ℕ → ℕ) (m : StrToNode) : Prop where
  lookup : ∀ i, g.hasNode i = true → m.lookup (str i) = some (f i)
  empty : m.lookup "" = none

theorem readMeta_loop (hm : Resolves g str f m) {fields : NamedMetadata}
    (hkey : ∀ e ∈ UMap.toPairs fields, e.2.getKey = e.1)
    (hrefs : ∀ e ∈ UMap.toPairs fields, ∀ i ∈ e.2.refs, g.hasNode i = true) :
    ∃ fields', (metaJson str fields).foldlM (readMeta m) ∅ = .ok fields' ∧
      ∀ k, fields'.lookup k = carried f fields k := by
  obtain ⟨fields', hrun, hlook⟩ := foldlM_total (f := readMeta m) (l := metaJson str fields) (s := ∅)
    (J := fun pre fs => ∀ k, fs.lookup k = if k ∈ pre.map Prod.fst then carried f fields k else none)
    (fun k => by simp) (by
      rintro pre ⟨key, j⟩ fs hpre hfs
      obtain ⟨md, hl, hne, rfl⟩ := (mem_metaJson fields key j).mp
        (hpre.subset (List.mem_append_right _ (List.mem_singleton_self _)))
      have hmem := (UMap.mem_toPairs key md fields).mpr hl
      have hk : md.getKey = key := hkey _ hmem
      have hcreate : MetaData.create key (md.encode str) m = .ok (some (md.rename f)) := by
        rw [← hk]
        exact MetaData.create_encode (fun i hi => hm.lookup i (hrefs _ hmem i hi)) hm.empty
      refine ⟨addMetaData fs (md.rename f), ?_, fun k => ?_⟩
      · simp only [readMeta, hcreate, ok_bind]
        rfl
      · rw [addMetaData, UMap.lookup_insert_ite, MetaData.getKey_rename, hk, hfs]
        simp only [List.map_append, List.map_singleton, List.mem_append, List.mem_singleton]
        by_cases hkk : k = key
        · subst hkk
          rw [if_pos rfl, if_pos (.inr rfl), carried, hl, Option.filter_some, if_pos (by simp [hne])]
          rfl
        · rw [if_neg hkk]
          simp only [hkk, or_false])
  refine ⟨fields', hrun, fun k => ?_⟩
  rw [hlook]
  split_ifs with hk
  · rfl
  · exact (carried_eq_none hk).symm

/-! ## Edges -/

/-- No edge has metadata. -/
def PlainEdges (g : Callgraph) : Prop := ∀ e, g.edgeMeta e = ∅

theorem calleesJson_nodup (h : g.Wf) (hs : g.StrInj str) (u : ℕ) :
    (((g.edges.keys.filter fun e => decide (e.1 = u)).map fun e =>
      (str e.2, Json.obj (edgeMetaJson str (g.edgeMeta e)))).map Prod.fst).Nodup := by
  rw [List.map_map]
  refine (g.edges.keys_nodup.filter _).map_on fun a ha b hb he => ?_
  obtain ⟨ha, hau⟩ := List.mem_filter.mp ha
  obtain ⟨hb, hbu⟩ := List.mem_filter.mp hb
  have hfst : a.1 = b.1 := (of_decide_eq_true hau).trans (of_decide_eq_true hbu).symm
  exact Prod.ext hfst (hs.inj h (h.edge_live a.1 a.2 (AList.mem_keys.mpr ha)).2
    (h.edge_live b.1 b.2 (AList.mem_keys.mpr hb)).2 he)

theorem mem_calleesJson (h : g.Wf) (hs : g.StrInj str) (u : ℕ) (s : String) (j : Json) :
    (s, j) ∈ g.calleesJson str g.edges.keys u ↔
      ∃ v, (u, v) ∈ g.edges ∧ s = str v ∧ j = .obj (edgeMetaJson str (g.edgeMeta (u, v))) := by
  rw [calleesJson, Ordered.mem_ofList (calleesJson_nodup h hs u), List.mem_map]
  constructor
  · rintro ⟨e, he, heq⟩
    obtain ⟨hmem, hu⟩ := List.mem_filter.mp he
    have hu : e.1 = u := of_decide_eq_true hu
    subst hu
    cases heq
    exact ⟨e.2, AList.mem_keys.mpr hmem, rfl, rfl⟩
  · rintro ⟨v, hv, rfl, rfl⟩
    exact ⟨(u, v), List.mem_filter.mpr ⟨AList.mem_keys.mp hv, by simp⟩, rfl⟩

theorem mem_calleesJson_plain (h : g.Wf) (hs : g.StrInj str) (hp : PlainEdges g) (u : ℕ) (s : String) (j : Json) :
    (s, j) ∈ g.calleesJson str g.edges.keys u ↔ ∃ v, (u, v) ∈ g.edges ∧ s = str v ∧ j = .obj [] := by
  rw [mem_calleesJson h hs]
  refine exists_congr fun v => ?_
  rw [hp (u, v)]
  rfl

/-- The edges from `a` to `targets` are new, and nothing else. -/
structure EdgesAdded (cg : Callgraph) (a : ℕ) (targets : ℕ → Prop) (cg' : Callgraph) : Prop where
  wf : cg'.Wf
  nodes : cg'.nodes = cg.nodes
  globals : cg'.metaFields = cg.metaFields
  plain : PlainEdges cg'
  edges : ∀ x y, (x, y) ∈ cg'.edges ↔ (x, y) ∈ cg.edges ∨ x = a ∧ targets y

theorem EdgesAdded.congr {cg cg' : Callgraph} {a : ℕ} {targets targets' : ℕ → Prop} (h : EdgesAdded cg a targets cg')
    (ht : ∀ y, targets y ↔ targets' y) : EdgesAdded cg a targets' cg' :=
  ⟨h.wf, h.nodes, h.globals, h.plain, fun x y => by rw [h.edges, ht]⟩

theorem EdgesAdded.addEdge {cg cg' : Callgraph} {a b : ℕ} {targets : ℕ → Prop} (h : EdgesAdded cg a targets cg')
    (ha : cg.hasNode a = true) (hb : cg.hasNode b = true) :
    EdgesAdded cg a (fun y => targets y ∨ y = b) (cg'.addEdgeInternal a b).2 := by
  have hnode : ∀ i, cg'.hasNode i = cg.hasNode i := fun i => by rw [hasNode, hasNode, slot, slot, h.nodes]
  have hedges : ∀ x y, (x, y) = (a, b) ∨ (x, y) ∈ cg'.edges ↔ (x, y) ∈ cg.edges ∨ x = a ∧ (targets y ∨ y = b) := by
    intro x y
    rw [h.edges, Prod.mk.injEq]
    tauto
  by_cases he : (a, b) ∈ cg'.edges
  · rw [addEdgeInternal_of_mem he]
    refine ⟨h.wf, h.nodes, h.globals, h.plain, fun x y => ?_⟩
    rw [← hedges]
    exact ⟨.inr, fun hxy => hxy.elim (fun heq => heq ▸ he) id⟩
  · rw [addEdgeInternal_of_notMem he]
    refine ⟨h.wf.withEdge he (by rw [hnode]; exact ha) (by rw [hnode]; exact hb), h.nodes, h.globals,
      fun e => (edgeMeta_withEdge he e).trans (h.plain e), fun x y => ?_⟩
    rw [← hedges]
    exact mem_edges_withEdge cg' a b (x, y)

theorem readEdge_plain {cg cg' : Callgraph} {a : ℕ} {targets : ℕ → Prop} (h : EdgesAdded cg a targets cg')
    (ha : cg.hasNode a = true) {s : String} {b : ℕ} (hl : m.lookup s = some b) (hb : cg.hasNode b = true) :
    ∃ cg'', readEdge m a cg' (s, .obj []) = .ok cg'' ∧ EdgesAdded cg a (fun y => targets y ∨ y = b) cg'' := by
  have hnode : ∀ i, cg'.hasNode i = cg.hasNode i := fun i => by rw [hasNode, hasNode, slot, slot, h.nodes]
  refine ⟨_, ?_, h.addEdge ha hb⟩
  simp only [readEdge, hl]
  rw [addEdge_of_live (by rw [hnode]; exact ha) (by rw [hnode]; exact hb)]
  rfl

/-- The loop over the callees of `u`. -/
theorem readEdges_loop (h : g.Wf) (hs : g.StrInj str) (hp : PlainEdges g) (hm : Resolves g str f m) {cg : Callgraph}
    (hwf : cg.Wf) (hplain : PlainEdges cg) (hlive : ∀ i, g.hasNode i = true → cg.hasNode (f i) = true) {u : ℕ}
    (hu : g.hasNode u = true) :
    ∃ cg', (g.calleesJson str g.edges.keys u).foldlM (readEdge m (f u)) cg = .ok cg' ∧
      EdgesAdded cg (f u) (fun y => ∃ v, (u, v) ∈ g.edges ∧ y = f v) cg' := by
  obtain ⟨cg', hrun, hadd⟩ := foldlM_total (f := readEdge m (f u)) (l := g.calleesJson str g.edges.keys u) (s := cg)
    (J := fun pre cg' => EdgesAdded cg (f u) (fun y => ∃ s ∈ pre.map Prod.fst, m.lookup s = some y) cg')
    ⟨hwf, rfl, rfl, hplain, by simp⟩ (by
      rintro pre ⟨s, j⟩ cg' hpre hadd
      obtain ⟨v, hv, rfl, rfl⟩ := (mem_calleesJson_plain h hs hp u s j).mp
        (hpre.subset (List.mem_append_right _ (List.mem_singleton_self _)))
      have hvl := (h.edge_live u v hv).2
      obtain ⟨cg'', hread, hadd'⟩ := readEdge_plain hadd (hlive u hu) (hm.lookup v hvl) (hlive v hvl)
      refine ⟨cg'', hread, hadd'.congr fun y => ?_⟩
      simp only [List.map_append, List.map_singleton, List.mem_append, List.mem_singleton, or_and_right, exists_or,
        exists_eq_left, hm.lookup v hvl, Option.some.injEq, eq_comm])
  refine ⟨cg', hrun, hadd.congr fun y => ?_⟩
  constructor
  · rintro ⟨s, hs', hy⟩
    obtain ⟨⟨s, j⟩, hmem, rfl⟩ := List.mem_map.mp hs'
    obtain ⟨v, hv, rfl, -⟩ := (mem_calleesJson_plain h hs hp u s j).mp hmem
    rw [hm.lookup v (h.edge_live u v hv).2] at hy
    exact ⟨v, hv, (Option.some.inj hy).symm⟩
  · rintro ⟨v, hv, rfl⟩
    exact ⟨str v, List.mem_map.mpr ⟨_, (mem_calleesJson_plain h hs hp u _ _).mpr ⟨v, hv, rfl, rfl⟩, rfl⟩,
      hm.lookup v (h.edge_live u v hv).2⟩

/-! ## All nodes -/

theorem zipIdx_map_eq {α β : Type} [DecidableEq α] {l : List α} (hn : l.Nodup) (F : α → ℕ → β) :
    l.zipIdx.map (fun e => F e.1 e.2) = l.map fun a => F a (l.idxOf a) := by
  refine List.ext_getElem (by simp) fun k hk hk' => ?_
  simp only [List.getElem_map, List.getElem_zipIdx, Nat.zero_add]
  rw [hn.idxOf_getElem]

/-- What the loop has made of the nodes once those in `pre` have their edges and metadata. -/
structure DataRead (g : Callgraph) (str : ℕ → String) (pre : List ℕ) (cg : Callgraph) : Prop where
  wf : cg.Wf
  length : cg.nodes.length = (g.fileOrder str).length
  node : ∀ i n, g.slot i = some n → ∃ fields,
    cg.slot (g.readId str i) = some ⟨g.readId str i, n.functionName, n.origin, n.hasBody, fields⟩ ∧
      (i ∉ pre → fields = ∅) ∧ (i ∈ pre → ∀ k, fields.lookup k = carried (g.readId str) n.metaFields k)
  edges : ∀ x y, (x, y) ∈ cg.edges ↔ ∃ u v, u ∈ pre ∧ (u, v) ∈ g.edges ∧ x = g.readId str u ∧ y = g.readId str v
  plain : PlainEdges cg
  globals : cg.metaFields = ∅

theorem readId_getElem? (h : g.Wf) (hs : g.StrInj str) {i : ℕ} (hi : g.hasNode i = true) :
    (g.fileOrder str)[g.readId str i]? = some i := by
  have hmem := (h.mem_fileOrder hs i).mpr hi
  rw [readId, List.getElem?_eq_getElem (List.idxOf_lt_length_of_mem hmem), List.getElem_idxOf]

theorem readId_inj (h : g.Wf) (hs : g.StrInj str) {i k : ℕ} (hi : g.hasNode i = true)
    (he : g.readId str i = g.readId str k) : i = k :=
  (List.idxOf_inj ((h.mem_fileOrder hs i).mpr hi)).mp he

theorem NodesRead.resolves (h : g.Wf) (hs : g.StrInj str) (hne : ∀ i, g.hasNode i = true → str i ≠ "") {st : ReadState}
    (hr : NodesRead g str (g.fileOrder str) st) : Resolves g str (g.readId str) st.strToNode where
  lookup := fun i hi => (hr.lookup _ _).mpr ⟨i, readId_getElem? h hs hi, rfl⟩
  empty := by
    by_contra hsome
    obtain ⟨k, hk⟩ := Option.ne_none_iff_exists'.mp hsome
    obtain ⟨i, hi, he⟩ := (hr.lookup _ _).mp hk
    exact hne i ((h.mem_fileOrder hs i).mp (List.mem_of_getElem? hi)) he

theorem NodesRead.dataRead (h : g.Wf) (hs : g.StrInj str) {st : ReadState} (hr : NodesRead g str (g.fileOrder str) st) :
    DataRead g str [] st.cg where
  wf := hr.wf
  length := hr.length
  node := fun i n hn => ⟨∅, hr.node _ i n (readId_getElem? h hs (hasNode_of_slot hn)) hn, fun _ => rfl,
    fun hi => absurd hi List.not_mem_nil⟩
  edges := fun x y => by
    rw [hr.edges]
    simp
  plain := fun e => by
    rw [edgeMeta, hr.edges]
    rfl
  globals := hr.globals

theorem DataRead.hasNode {pre : List ℕ} {cg : Callgraph} (hd : DataRead g str pre cg) {i : ℕ} (hi : g.hasNode i = true) :
    cg.hasNode (g.readId str i) = true := by
  obtain ⟨n, hn⟩ := (g.hasNode_iff i).mp hi
  obtain ⟨fields, hslot, -⟩ := hd.node i n hn
  exact hasNode_of_slot hslot

theorem DataRead.next (h : g.Wf) (hs : g.StrInj str) (hp : PlainEdges g) (hkey : g.MetaKeyed) (hrefs : g.RefsLive)
    {m : StrToNode} (hm : Resolves g str (g.readId str) m) {pre : List ℕ} {cg : Callgraph} (hd : DataRead g str pre cg)
    {i : ℕ} (hi : g.hasNode i = true) (hnew : i ∉ pre) :
    ∃ cg', readNodeData m cg ⟨g.readId str i, .obj (g.calleesJson str g.edges.keys i), .obj (g.nodeMetaJson str i)⟩ =
      .ok cg' ∧ DataRead g str (pre ++ [i]) cg' := by
  obtain ⟨n, hn⟩ := (g.hasNode_iff i).mp hi
  have hlive : n ∈ g.liveNodes := (g.mem_liveNodes n).mpr ⟨i, hn⟩
  obtain ⟨cg₁, hedges, hadd⟩ := readEdges_loop h hs hp hm hd.wf hd.plain (fun k hk => hd.hasNode hk) hi
  obtain ⟨fields₀, hslot, hempty, -⟩ := hd.node i n hn
  have hfields : fields₀ = ∅ := hempty hnew
  obtain ⟨fields, hmeta, hcarried⟩ := readMeta_loop hm (hkey.node n hlive) (hrefs.node n hlive)
  have hslot₁ : ∀ k, cg₁.slot k = cg.slot k := fun k => by rw [slot, slot, hadd.nodes]
  have hget : cg.getNode (g.readId str i) = .ok (cg.slot (g.readId str i)) := getNode_of_lt (slot_lt hslot)
  have hget₁ : cg₁.getNode (g.readId str i) = .ok (cg.slot (g.readId str i)) := by
    rw [← hslot₁]
    exact getNode_of_lt (slot_lt ((hslot₁ _).trans hslot))
  have hjson : g.nodeMetaJson str i = metaJson str n.metaFields := by rw [nodeMetaJson, hn]
  refine ⟨cg₁.updateNode (g.readId str i) fun n => { n with metaFields := fields }, ?_, ?_⟩
  · simp only [readNodeData, hget, hslot, ok_bind, Json.iterator, hedges, hget₁, hfields, hjson, hmeta]
    rfl
  · exact {
      wf := hadd.wf.updateNode _ _ fun _ _ => ⟨rfl, rfl⟩
      length := by
        rw [updateNode, List.length_modify, hadd.nodes]
        exact hd.length
      node := by
        intro k n' hn'
        rw [slot_updateNode, hslot₁]
        by_cases hki : k = i
        · subst hki
          rw [hn] at hn'
          cases hn'
          rw [if_pos rfl, hslot]
          exact ⟨fields, rfl, fun hk => absurd (List.mem_append_right _ (List.mem_singleton_self k)) hk,
            fun _ => hcarried⟩
        · have hne : g.readId str k ≠ g.readId str i := fun he => hki (readId_inj h hs (hasNode_of_slot hn') he)
          obtain ⟨fields', hslot', hout, hin⟩ := hd.node k n' hn'
          have hmem : k ∈ pre ++ [i] ↔ k ∈ pre := by simp [hki]
          rw [if_neg hne, hmem]
          exact ⟨fields', hslot', hout, hin⟩
      edges := by
        intro x y
        have hmem : (x, y) ∈ (cg₁.updateNode (g.readId str i) fun n => { n with metaFields := fields }).edges ↔
            (x, y) ∈ cg₁.edges := Iff.rfl
        rw [hmem, hadd.edges, hd.edges]
        constructor
        · rintro (⟨u, v, hu, he, hx, hy⟩ | ⟨hx, v, he, hy⟩)
          · exact ⟨u, v, List.mem_append_left _ hu, he, hx, hy⟩
          · exact ⟨i, v, List.mem_append_right _ (List.mem_singleton_self i), he, hx, hy⟩
        · rintro ⟨u, v, hu, he, hx, hy⟩
          rcases List.mem_append.mp hu with hu | hu
          · exact .inl ⟨u, v, hu, he, hx, hy⟩
          · rw [List.mem_singleton.mp hu] at he hx
            exact .inr ⟨hx, v, he, hy⟩
      plain := hadd.plain
      globals := hadd.globals.trans hd.globals }

/-- The graph that is read from the document of `g`. -/
structure ReadBack (g : Callgraph) (str : ℕ → String) (r : Callgraph) : Prop where
  data : DataRead g str (g.fileOrder str) { r with metaFields := ∅ }
  globals : ∀ k, r.metaFields.lookup k = carried (g.readId str) g.metaFields k

theorem read_document (h : g.Wf) (hs : g.StrInj str) (hne : ∀ i, g.hasNode i = true → str i ≠ "") (hp : PlainEdges g)
    (hkey : g.MetaKeyed) (hrefs : g.RefsLive) (info : MCGGeneratorVersionInfo) :
    ∃ r, read (g.document (.four info) str) = .ok r ∧ ReadBack g str r := by
  obtain ⟨st, hnodes, hst⟩ := readNodes_ok h hs
  have hm := hst.resolves h hs hne
  have htemp : st.tempNodeData = (g.fileOrder str).map fun i =>
      ⟨g.readId str i, .obj (g.calleesJson str g.edges.keys i), .obj (g.nodeMetaJson str i)⟩ := by
    rw [hst.temp]
    exact zipIdx_map_eq hs.fileOrder_nodup fun i k => TempNodeData.mk k (.obj (g.calleesJson str g.edges.keys i))
      (.obj (g.nodeMetaJson str i))
  obtain ⟨cg, hdata, hd⟩ : ∃ cg, st.tempNodeData.foldlM (readNodeData st.strToNode) st.cg = .ok cg ∧
      DataRead g str (g.fileOrder str) cg := by
    rw [htemp, List.foldlM_map]
    refine foldlM_total (J := DataRead g str) (hst.dataRead h hs) fun pre i cg hpre hd => ?_
    have hnd := hs.fileOrder_nodup.sublist hpre.sublist
    rw [List.nodup_append] at hnd
    exact hd.next h hs hp hkey hrefs hm
      ((h.mem_fileOrder hs i).mp (hpre.subset (List.mem_append_right _ (List.mem_singleton_self i))))
      (fun hi => hnd.2.2 i hi i (List.mem_singleton_self i) rfl)
  obtain ⟨fields, hmeta, hcarried⟩ := readMeta_loop hm hkey.global hrefs.global
  obtain ⟨hcg, hheader⟩ := document_subscriptMut info (g := g) str
  have hsame : { cg with metaFields := ∅ } = cg := by rw [← hd.globals]
  have hsub : ∀ a b : Json, (Json.obj (Ordered.insert "meta" a [("nodes", b)])).subscriptMut "nodes" = .ok b ∧
      (Json.obj (Ordered.insert "meta" a [("nodes", b)])).subscriptMut "meta" = .ok a := by
    intro a b
    simp [Json.subscriptMut, Ordered.find_insert, Ordered.find]
  refine ⟨{ cg with metaFields := fields }, ?_, ?_, hcarried⟩
  · simp only [read, hheader, hcg, ok_bind, Json.is_null_obj, Bool.false_eq_true, if_false, (hsub _ _).1, (hsub _ _).2,
      Json.iterator, hnodes, hdata, Json.items, hd.globals, hmeta]
    rfl
  · show DataRead g str (g.fileOrder str) { cg with metaFields := ∅ }
    rw [hsame]
    exact hd

end
end MetaCG
