import MetaCG.Format.MetaDataCodec
import MetaCG.Format.IdStrings

/-! What the writer of version 4 writes.

The writer builds the file by assignments in the order of several hash maps. `document` says what the
file is in the end, without an order; `write_eq` is the proof, loop by loop. -/
namespace MetaCG
open Foundations
set_option autoImplicit false
set_option maxHeartbeats 250000
set_option maxRecDepth 120000

namespace Callgraph

/-! ## The parts of a file -/

/-- The written metadata of a node or of the graph: all but the empty containers. -/
def metaJson (str : ℕ → String) (fields : NamedMetadata) : List (String × Json) :=
  Ordered.ofList (((UMap.toPairs fields).filter fun e => !e.2.emptyContainer).map fun e => (e.1, e.2.encode str))

/-- The written metadata of an edge. -/
def edgeMetaJson (str : ℕ → String) (fields : NamedMetadata) : List (String × Json) :=
  Ordered.ofList ((UMap.toPairs fields).map fun e => (e.1, e.2.encode str))

/-- The `callees` of a node when `edges` are those written so far. -/
def calleesJson (g : Callgraph) (str : ℕ → String) (edges : List (ℕ × ℕ)) (u : ℕ) : List (String × Json) :=
  Ordered.ofList ((edges.filter fun e => decide (e.1 = u)).map fun e =>
    (str e.2, .obj (edgeMetaJson str (g.edgeMeta e))))

def originJson (origin : Option String) : Json :=
  match origin with
  | some origin => .str origin
  | none => .null

def nodeFields (str : ℕ → String) (n : CgNode) (callees : List (String × Json)) : List (String × Json) := [
  ("functionName", .str n.functionName),
  ("origin", originJson n.origin),
  ("hasBody", .bool n.hasBody),
  ("callees", .obj callees),
  ("meta", .obj (metaJson str n.metaFields))]

def nodeJson (g : Callgraph) (str : ℕ → String) (edges : List (ℕ × ℕ)) (i : ℕ) : Json :=
  match g.slot i with
  | some n => .ofFields (nodeFields str n (g.calleesJson str edges i))
  | none => .null

/-- The ids of the nodes. -/
def liveIds (g : Callgraph) : List ℕ := g.liveNodes.map CgNode.id

def nodesJson (g : Callgraph) (str : ℕ → String) (edges : List (ℕ × ℕ)) : List (String × Json) :=
  Ordered.ofList (g.liveIds.map fun i => (str i, g.nodeJson str edges i))

def document (fileInfo : MCGFileInfo) (g : Callgraph) (str : ℕ → String) : Json :=
  .obj (Ordered.insert "_CG" (.obj (Ordered.insert "meta" (.obj (metaJson str g.metaFields))
    [("nodes", .obj (g.nodesJson str g.edges.keys))]))
    (match attachMCGFormatHeader fileInfo with
      | .obj fields => fields
      | _ => []))

/-! ## Metadata -/

section
variable {g : Callgraph} {nodeToStr : ℕ → Except Exn String} {str : ℕ → String}

/-- A loop of assignments to an object. -/
theorem foldlM_assign {α : Type} {f : Json → α → Except Exn Json} {h : List (String × Json) → α → List (String × Json)}
    {l : List α} (hf : ∀ m, ∀ a ∈ l, f (.obj m) a = .ok (.obj (h m a))) (m : List (String × Json)) :
    l.foldlM f (.obj m) = .ok (.obj (l.foldl h m)) := by
  induction l generalizing m with
  | nil => rfl
  | cons a l ih =>
    rw [List.foldlM_cons, hf m a (List.mem_cons_self ..)]
    exact ih (fun m b hb => hf m b (List.mem_cons_of_mem a hb)) (h m a)

theorem writeMeta_eq (fields : NamedMetadata)
    (h : ∀ e ∈ UMap.toPairs fields, ∀ i ∈ e.2.refs, nodeToStr i = .ok (str i)) :
    writeMeta nodeToStr fields = .ok (.obj (metaJson str fields)) := by
  rw [writeMeta, foldlM_assign (h := fun m e => if e.2.emptyContainer then m else Ordered.insert e.1 (e.2.encode str) m)]
  · congr 2
    rw [metaJson, Ordered.ofList, List.foldl_map, List.foldl_filter]
    congr 1
    funext m e
    cases e.2.emptyContainer <;> rfl
  · intro m e he
    simp only [MetaData.toJson_eq (h e he), ok_bind, MetaData.encode_empty, MetaData.encode_is_null]
    cases e.2.emptyContainer <;> rfl

theorem writeEdgeMeta_eq (fields : NamedMetadata)
    (h : ∀ e ∈ UMap.toPairs fields, ∀ i ∈ e.2.refs, nodeToStr i = .ok (str i)) :
    writeEdgeMeta nodeToStr fields = .ok (.obj (edgeMetaJson str fields)) := by
  rw [writeEdgeMeta, foldlM_assign (h := fun m e => Ordered.insert e.1 (e.2.encode str) m)]
  · rw [edgeMetaJson, Ordered.ofList, List.foldl_map]
  · intro m e he
    simp only [MetaData.toJson_eq (h e he), ok_bind]
    rfl

/-! ## Nodes -/

theorem Wf.mem_liveIds (h : g.Wf) (i : ℕ) : i ∈ g.liveIds ↔ g.hasNode i = true := by
  rw [liveIds, List.mem_map, hasNode_iff]
  constructor
  · rintro ⟨n, hn, rfl⟩
    exact ⟨n, h.slot_of_mem hn⟩
  · rintro ⟨n, hn⟩
    exact ⟨n, (g.mem_liveNodes n).mpr ⟨i, hn⟩, h.node_id i n hn⟩

/-- The strings tell the nodes apart. -/
def StrInj (g : Callgraph) (str : ℕ → String) : Prop := (g.liveIds.map str).Nodup

theorem Wf.strInj (h : g.Wf) {b : Bool} (hb : b = true → g.PlainNames) : g.StrInj (g.idStr b) := by
  have hnd : g.liveIds.Nodup := h.liveNodes_id_sorted.imp ne_of_lt
  refine hnd.map_on fun i hi k hk he => ?_
  exact h.idStr_injective hb ((h.mem_liveIds i).mp hi) ((h.mem_liveIds k).mp hk) he

theorem StrInj.inj (h : g.Wf) (hs : g.StrInj str) {i k : ℕ} (hi : g.hasNode i = true) (hk : g.hasNode k = true)
    (he : str i = str k) : i = k :=
  List.inj_on_of_nodup_map hs ((h.mem_liveIds i).mpr hi) ((h.mem_liveIds k).mpr hk) he

/-- The strings that the writer uses for the nodes that it asks for. -/
structure Named (g : Callgraph) (nodeToStr : ℕ → Except Exn String) (str : ℕ → String) : Prop where
  eq : ∀ i, g.hasNode i = true → nodeToStr i = .ok (str i)
  inj : g.StrInj str

theorem writeNode_eq (h : g.Wf) (hr : g.RefsLive) (hs : g.Named nodeToStr str) {n : CgNode} (hn : n ∈ g.liveNodes)
    (m : List (String × Json)) :
    writeNode nodeToStr (.obj m) (some n) = .ok (.obj (Ordered.insert (str n.id) (g.nodeJson str [] n.id) m)) := by
  have hmeta := writeMeta_eq n.metaFields fun e he i hi => hs.eq i (hr.node n hn e he i hi)
  have hid := hs.eq n.id (hasNode_of_slot (h.slot_of_mem hn))
  rw [writeNode, hmeta, ok_bind, hid, nodeJson, h.slot_of_mem hn]
  rfl

theorem writeNodes_eq (h : g.Wf) (hr : g.RefsLive) (hs : g.Named nodeToStr str) :
    g.nodes.foldlM (writeNode nodeToStr) (.obj []) = .ok (.obj (g.nodesJson str [])) := by
  have hskip : ∀ (l : List (Option CgNode)) (j : Json),
      l.foldlM (writeNode nodeToStr) j = l.reduceOption.foldlM (fun j n => writeNode nodeToStr j (some n)) j := by
    intro l
    induction l with
    | nil => exact fun j => rfl
    | cons p l ih =>
      intro j
      cases p with
      | none =>
        rw [List.foldlM_cons, List.reduceOption_cons_of_none, ← ih]
        rfl
      | some n =>
        rw [List.foldlM_cons, List.reduceOption_cons_of_some, List.foldlM_cons]
        exact congrArg _ (funext fun j' => ih j')
  rw [hskip]
  change g.liveNodes.foldlM _ _ = _
  rw [foldlM_assign (fun m n hn => writeNode_eq h hr hs hn m), nodesJson, liveIds, Ordered.ofList, List.map_map,
    List.foldl_map]
  rfl

/-! ## Edges -/

theorem nodeFields_nodup (n : CgNode) (callees : List (String × Json)) :
    ((nodeFields str n callees).map Prod.fst).Nodup := by
  simp [nodeFields]

theorem nodeJson_subscriptMut {edges : List (ℕ × ℕ)} {i : ℕ} {n : CgNode} (hn : g.slot i = some n) {k : String} {v : Json}
    (hf : Ordered.find k (nodeFields str n (g.calleesJson str edges i)) = some v) :
    (g.nodeJson str edges i).subscriptMut k = .ok v := by
  rw [← Ordered.find_ofList (nodeFields_nodup n _)] at hf
  simp only [nodeJson, hn, Json.ofFields, Json.subscriptMut, hf, Option.getD_some]

theorem nodeFields_assign (n : CgNode) (callees callees' : List (String × Json)) :
    (Json.ofFields (nodeFields str n callees)).assign "callees" (.obj callees') =
      .ok (.ofFields (nodeFields str n callees')) := by
  rw [Json.ofFields, Json.assign, Json.ofFields]
  congr 2
  refine Ordered.ext_find (Ordered.sorted_insert _ _ (Ordered.sorted_ofList _)) (Ordered.sorted_ofList _) fun k => ?_
  rw [Ordered.find_insert, Ordered.find_ofList (nodeFields_nodup n _), Ordered.find_ofList (nodeFields_nodup n _)]
  by_cases hk : k = "callees"
  · subst hk
    simp [nodeFields, Ordered.find]
  · simp [nodeFields, Ordered.find, hk]

theorem calleesJson_concat (edges : List (ℕ × ℕ)) (u v i : ℕ) :
    g.calleesJson str (edges ++ [(u, v)]) i =
      if i = u then Ordered.insert (str v) (.obj (edgeMetaJson str (g.edgeMeta (u, v)))) (g.calleesJson str edges i)
      else g.calleesJson str edges i := by
  rw [calleesJson, calleesJson, List.filter_append, List.map_append]
  split_ifs with hi
  · rw [List.filter_cons_of_pos (by simp [hi]), List.filter_nil, List.map_singleton, Ordered.ofList_concat]
  · rw [List.filter_cons_of_neg (by simpa using fun he => hi he.symm), List.filter_nil, List.map_nil, List.append_nil]

theorem nodesJson_concat (h : g.Wf) (hs : g.StrInj str) (edges : List (ℕ × ℕ)) {u v : ℕ} {n : CgNode}
    (hn : g.slot u = some n) :
    g.nodesJson str (edges ++ [(u, v)]) =
      Ordered.insert (str u) (.ofFields (nodeFields str n (Ordered.insert (str v)
        (.obj (edgeMetaJson str (g.edgeMeta (u, v)))) (g.calleesJson str edges u)))) (g.nodesJson str edges) := by
  rw [nodesJson, nodesJson, Ordered.insert_ofList_map hs ((h.mem_liveIds u).mpr (hasNode_of_slot hn))]
  congr 1
  refine List.map_congr_left fun i _ => ?_
  by_cases hi : i = u
  · subst hi
    rw [Function.update_self, nodeJson, hn]
    simp only
    rw [calleesJson_concat, if_pos rfl]
  · rw [Function.update_of_ne hi, nodeJson, nodeJson]
    cases g.slot i with
    | none => rfl
    | some m => simp only [calleesJson_concat, if_neg hi]

theorem writeEdge_eq (h : g.Wf) (hr : g.RefsLive) (hs : g.Named nodeToStr str) (edges : List (ℕ × ℕ)) {e : ℕ × ℕ}
    (he : e ∈ g.edges) :
    g.writeEdge nodeToStr (.obj (g.nodesJson str edges)) e = .ok (.obj (g.nodesJson str (edges ++ [e]))) := by
  obtain ⟨u, v⟩ := e
  obtain ⟨hu, hv⟩ := h.edge_live u v he
  obtain ⟨n, hn⟩ := (g.hasNode_iff u).mp hu
  obtain ⟨m, hm⟩ := (g.hasNode_iff v).mp hv
  obtain ⟨fields, hfields⟩ := (UMap.mem_iff_lookup _ _).mp he
  have hmeta : g.edgeMeta (u, v) = fields := by
    rw [edgeMeta, UMap.getD, hfields]
    rfl
  have hwrite := writeEdgeMeta_eq fields fun e he i hi =>
    hs.eq i (hr.edge ((u, v), fields) ((UMap.mem_toPairs _ _ _).mpr hfields) e he i hi)
  have hfind : (Json.obj (g.nodesJson str edges)).subscriptMut (str u) = .ok (g.nodeJson str edges u) := by
    have hkeys : ((g.liveIds.map fun i => (str i, g.nodeJson str edges i)).map Prod.fst).Nodup := by
      rw [List.map_map]
      exact hs.inj
    rw [Json.subscriptMut, nodesJson, Ordered.find_ofList hkeys,
      Ordered.find_map_self hs.inj ((h.mem_liveIds u).mpr hu)]
    rfl
  have hcallees : (g.nodeJson str edges u).subscriptMut "callees" = .ok (.obj (g.calleesJson str edges u)) :=
    nodeJson_subscriptMut hn (by simp [nodeFields, Ordered.find])
  have hall : g.getAllEdgeMetaData (n.id, m.id) = .ok fields := by
    rw [getAllEdgeMetaData, h.node_id u n hn, h.node_id v m hm, hfields]
  have hjson : g.nodeJson str edges u = .ofFields (nodeFields str n (g.calleesJson str edges u)) := by
    rw [nodeJson, hn]
  rw [writeEdge, getNode_of_lt (slot_lt hn), getNode_of_lt (slot_lt hm), hn, hm]
  simp only [ok_bind, hall]
  rw [h.node_id u n hn, h.node_id v m hm, hs.eq u hu, hs.eq v hv, ok_bind, ok_bind, hwrite, ok_bind, hfind, ok_bind,
    hcallees, ok_bind, Json.assign, ok_bind, hjson, nodeFields_assign, ok_bind, nodesJson_concat h hs.inj edges hn, hmeta]
  rfl

theorem writeEdges_eq (h : g.Wf) (hr : g.RefsLive) (hs : g.Named nodeToStr str) :
    g.edges.keys.foldlM (g.writeEdge nodeToStr) (.obj (g.nodesJson str [])) =
      .ok (.obj (g.nodesJson str g.edges.keys)) := by
  obtain ⟨j, hrun, rfl⟩ := foldlM_total (f := g.writeEdge nodeToStr) (J := fun edges j => j = .obj (g.nodesJson str edges))
    (l := g.edges.keys) rfl (fun pre e t hpre ht => by
      have he : e ∈ g.edges := AList.mem_keys.mpr (hpre.subset (List.mem_append_right _ (List.mem_singleton_self e)))
      rw [ht]
      exact ⟨_, writeEdge_eq h hr hs pre he, rfl⟩)
  exact hrun

/-- The writer writes the document of the graph. -/
theorem write_eq_of_named (h : g.Wf) (hr : g.RefsLive) {b : Bool} (hs : g.Named (g.getStrFromNode b) str)
    (fileInfo : MCGFileInfo) : g.write fileInfo b = .ok (document fileInfo g str) := by
  have hmeta := writeMeta_eq g.metaFields fun e he i hi => hs.eq i (hr.global e he i hi)
  rw [write, writeNodes_eq h hr hs, ok_bind, writeEdges_eq h hr hs, ok_bind, Json.assign, ok_bind, hmeta]
  rfl

theorem write_eq_of_strInj (h : g.Wf) (hr : g.RefsLive) {b : Bool} (hinj : g.StrInj (g.idStr b)) (fileInfo : MCGFileInfo) :
    g.write fileInfo b = .ok (document fileInfo g (g.idStr b)) :=
  write_eq_of_named h hr ⟨fun _ hi => getStrFromNode_eq hi b, hinj⟩ fileInfo

theorem write_eq (h : g.Wf) (hr : g.RefsLive) {b : Bool} (hb : b = true → g.PlainNames) (fileInfo : MCGFileInfo) :
    g.write fileInfo b = .ok (document fileInfo g (g.idStr b)) := write_eq_of_strInj h hr (h.strInj hb) fileInfo

/-! ## Writing succeeds whatever the strings -/

/-- An object whose values are objects, with an object of callees where there is one. -/
def NodeObjects (j : Json) : Prop :=
  ∃ m, j = .obj m ∧ ∀ k v, Ordered.find k m = some v →
    ∃ f, v = .obj f ∧ ∀ c, Ordered.find "callees" f = some c → ∃ fc, c = .obj fc

theorem NodeObjects.assign {j : Json} (h : NodeObjects j) (k : String) {f : List (String × Json)}
    (hf : ∀ c, Ordered.find "callees" f = some c → ∃ fc, c = .obj fc) :
    ∃ j', j.assign k (.obj f) = .ok j' ∧ NodeObjects j' := by
  obtain ⟨m, rfl, hm⟩ := h
  refine ⟨_, rfl, _, rfl, fun k' v hv => ?_⟩
  rw [Ordered.find_insert] at hv
  split_ifs at hv
  · cases hv
    exact ⟨f, rfl, hf⟩
  · exact hm k' v hv

/-- Storing a callee under a node keeps the shape, also when the node is not there yet. -/
theorem NodeObjects.addCallee {j : Json} (h : NodeObjects j) (callerStr calleeStr : String) (md : Json) :
    ∃ j', (do
      let jNode ← j.subscriptMut callerStr
      let jCallees ← jNode.subscriptMut "callees"
      let jCallees ← jCallees.assign calleeStr md
      let jNode ← jNode.assign "callees" jCallees
      j.assign callerStr jNode) = .ok j' ∧ NodeObjects j' := by
  obtain ⟨m, rfl, hm⟩ := h
  have hm' : NodeObjects (.obj m) := ⟨m, rfl, hm⟩
  have hcallees : ∀ (f : List (String × Json)) (fc : List (String × Json)) (c : Json),
      Ordered.find "callees" (Ordered.insert "callees" (.obj fc) f) = some c → ∃ fc, c = .obj fc := by
    intro f fc c hc
    rw [Ordered.find_insert, if_pos rfl] at hc
    cases hc
    exact ⟨fc, rfl⟩
  simp only [Json.subscriptMut, ok_bind]
  cases hn : Ordered.find callerStr m with
  | none =>
    refine hm'.assign callerStr fun c hc => ?_
    simp only [Ordered.find, if_true, Option.some.injEq] at hc
    exact ⟨_, hc.symm⟩
  | some v =>
    obtain ⟨f, rfl, hf⟩ := hm callerStr v hn
    simp only [Option.getD_some, ok_bind]
    cases hc : Ordered.find "callees" f with
    | none => exact hm'.assign callerStr (hcallees f _)
    | some c =>
      obtain ⟨fc, rfl⟩ := hf c hc
      exact hm'.assign callerStr (hcallees f _)

theorem Wf.write_ok (h : g.Wf) (hr : g.RefsLive) (fileInfo : MCGFileInfo) (b : Bool) :
    ∃ j, g.write fileInfo b = .ok j := by
  have hstr : ∀ i, g.hasNode i = true → g.getStrFromNode b i = .ok (g.idStr b i) := fun i hi => getStrFromNode_eq hi b
  have hmeta := writeMeta_eq g.metaFields fun e he i hi => hstr i (hr.global e he i hi)
  obtain ⟨jNodes, hnodes, hobj⟩ := foldlM_total (f := writeNode (g.getStrFromNode b)) (J := fun _ j => NodeObjects j)
    (l := g.nodes) (s := .obj []) ⟨[], rfl, fun k v hv => by cases hv⟩ (fun pre p t hpre ht => by
      cases p with
      | none => exact ⟨t, rfl, ht⟩
      | some n =>
        have hn : n ∈ g.liveNodes :=
          List.reduceOption_mem_iff.mpr (hpre.subset (List.mem_append_right _ (List.mem_singleton_self _)))
        have hfields := writeMeta_eq n.metaFields fun e he i hi => hstr i (hr.node n hn e he i hi)
        rw [writeNode, hfields, ok_bind, hstr n.id (hasNode_of_slot (h.slot_of_mem hn)), ok_bind]
        refine ht.assign _ fun c hc => ?_
        rw [Ordered.find_ofList (by simp)] at hc
        simp only [Ordered.find] at hc
        cases hc
        exact ⟨[], rfl⟩)
  obtain ⟨jEdges, hedges, -⟩ := foldlM_total (f := g.writeEdge (g.getStrFromNode b)) (J := fun _ j => NodeObjects j)
    (l := g.edges.keys) hobj (fun pre e t hpre ht => by
      obtain ⟨u, v⟩ := e
      have he : (u, v) ∈ g.edges := AList.mem_keys.mpr (hpre.subset (List.mem_append_right _ (List.mem_singleton_self _)))
      obtain ⟨hu, hv⟩ := h.edge_live u v he
      obtain ⟨n, hn⟩ := (g.hasNode_iff u).mp hu
      obtain ⟨m, hm⟩ := (g.hasNode_iff v).mp hv
      obtain ⟨fields, hfields⟩ := (UMap.mem_iff_lookup _ _).mp he
      have hwrite := writeEdgeMeta_eq fields fun e he i hi =>
        hstr i (hr.edge ((u, v), fields) ((UMap.mem_toPairs _ _ _).mpr hfields) e he i hi)
      have hall : g.getAllEdgeMetaData (n.id, m.id) = .ok fields := by
        rw [getAllEdgeMetaData, h.node_id u n hn, h.node_id v m hm, hfields]
      rw [writeEdge, getNode_of_lt (slot_lt hn), getNode_of_lt (slot_lt hm), hn, hm]
      simp only [ok_bind, hall]
      rw [h.node_id u n hn, h.node_id v m hm, hstr u hu, hstr v hv, ok_bind, ok_bind, hwrite, ok_bind]
      exact ht.addCallee _ _ _)
  rw [write, hnodes, ok_bind, hedges, ok_bind, Json.assign, ok_bind, hmeta]
  exact ⟨_, rfl⟩

/-! ## A graph that can be written has no dangling references -/

theorem refs_of_writeMeta {fields : NamedMetadata} {j : Json} (h : writeMeta nodeToStr fields = .ok j) :
    ∀ e ∈ UMap.toPairs fields, ∀ i ∈ e.2.refs, ∃ s, nodeToStr i = .ok s := by
  intro e he
  obtain ⟨t, t', hround⟩ := foldlM_ok_mem h e he
  obtain ⟨jMetaEntry, hjson, -⟩ := bind_eq_ok.mp hround
  exact MetaData.refs_of_toJson hjson

theorem refs_of_writeEdgeMeta {fields : NamedMetadata} {j : Json} (h : writeEdgeMeta nodeToStr fields = .ok j) :
    ∀ e ∈ UMap.toPairs fields, ∀ i ∈ e.2.refs, ∃ s, nodeToStr i = .ok s := by
  intro e he
  obtain ⟨t, t', hround⟩ := foldlM_ok_mem h e he
  obtain ⟨val, hjson, -⟩ := bind_eq_ok.mp hround
  exact MetaData.refs_of_toJson hjson

theorem writeEdgeMeta_of_writeEdge (h : g.Wf) {j j' : Json} {e : ℕ × ℕ} {fields : NamedMetadata}
    (hl : g.edges.lookup e = some fields) (hw : g.writeEdge nodeToStr j e = .ok j') :
    ∃ jEdgeMD, writeEdgeMeta nodeToStr fields = .ok jEdgeMD := by
  obtain ⟨u, v⟩ := e
  obtain ⟨hu, hv⟩ := h.edge_live u v (UMap.mem_of_lookup hl)
  obtain ⟨n, hn⟩ := (g.hasNode_iff u).mp hu
  obtain ⟨m, hm⟩ := (g.hasNode_iff v).mp hv
  have hall : g.getAllEdgeMetaData (n.id, m.id) = .ok fields := by
    rw [getAllEdgeMetaData, h.node_id u n hn, h.node_id v m hm, hl]
  rw [writeEdge, getNode_of_lt (slot_lt hn), getNode_of_lt (slot_lt hm), hn, hm] at hw
  simp only [ok_bind, hall] at hw
  obtain ⟨_, -, hw⟩ := bind_eq_ok.mp hw
  obtain ⟨_, -, hw⟩ := bind_eq_ok.mp hw
  obtain ⟨jEdgeMD, hmeta, -⟩ := bind_eq_ok.mp hw
  exact ⟨jEdgeMD, hmeta⟩

theorem Wf.refsLive_of_write (h : g.Wf) {b : Bool} {fileInfo : MCGFileInfo} {j : Json}
    (hw : g.write fileInfo b = .ok j) : g.RefsLive := by
  obtain ⟨jNodes, hnodes, hw⟩ := bind_eq_ok.mp hw
  obtain ⟨jEdges, hedges, hw⟩ := bind_eq_ok.mp hw
  obtain ⟨jCG, -, hw⟩ := bind_eq_ok.mp hw
  obtain ⟨jMeta, hmeta, -⟩ := bind_eq_ok.mp hw
  have hlive : ∀ {i}, (∃ s, g.getStrFromNode b i = .ok s) → g.hasNode i = true := fun ⟨_, hs⟩ =>
    hasNode_of_getStrFromNode hs
  refine ⟨fun n hn e he i hi => ?_, fun p hp e he i hi => ?_, fun e he i hi => hlive (refs_of_writeMeta hmeta e he i hi)⟩
  · obtain ⟨t, t', hround⟩ := foldlM_ok_mem hnodes (some n) (List.reduceOption_mem_iff.mp hn)
    obtain ⟨jMeta, hmeta, -⟩ := bind_eq_ok.mp hround
    exact hlive (refs_of_writeMeta hmeta e he i hi)
  · have hl : g.edges.lookup p.1 = some p.2 := (UMap.mem_toPairs p.1 p.2 g.edges).mp hp
    obtain ⟨t, t', hround⟩ := foldlM_ok_mem hedges p.1 (AList.mem_keys.mp (UMap.mem_of_lookup hl))
    obtain ⟨jEdgeMD, hmeta⟩ := writeEdgeMeta_of_writeEdge h hl hround
    exact hlive (refs_of_writeEdgeMeta hmeta e he i hi)

end
end Callgraph
end MetaCG
