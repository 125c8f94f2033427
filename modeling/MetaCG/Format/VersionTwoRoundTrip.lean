import MetaCG.Format.VersionTwoConsistent
import MetaCG.Format.VersionTwoUpgrade

/-! Writing a graph in version 2 and reading it back.

Version 2 keeps what `lossy` keeps: no edge metadata, no metadata of the graph and no empty origins. An
upgraded file reads like the file of version 4 of the lossy graph, except for file properties that the
writer made up. -/
namespace MetaCG.VersionTwo
open Foundations Callgraph
set_option autoImplicit false
set_option maxHeartbeats 250000
set_option maxRecDepth 120000

/-! ## What version 2 keeps -/

/-- What version 2 can say about a graph. -/
def lossy (g : Callgraph) : Callgraph := { g with
  nodes := g.nodes.map (Option.map fun n => { n with origin := originOf n })
  edges := UMap.mapValues (fun _ => ∅) g.edges
  metaFields := ∅ }

section
variable {g : Callgraph} {str : ℕ → String}

theorem slot_lossy (g : Callgraph) (i : ℕ) : (lossy g).slot i = (g.slot i).map fun n => { n with origin := originOf n } := by
  rw [slot, slot, lossy, List.getElem?_map]
  cases g.nodes[i]? with
  | none => rfl
  | some p => rfl

theorem hasNode_lossy (g : Callgraph) (i : ℕ) : (lossy g).hasNode i = g.hasNode i := by
  rw [hasNode, hasNode, slot_lossy, Option.isSome_map]

theorem mem_edges_lossy (g : Callgraph) (e : ℕ × ℕ) : e ∈ (lossy g).edges ↔ e ∈ g.edges := UMap.mem_mapValues _ _ _

theorem liveNodes_lossy (g : Callgraph) :
    (lossy g).liveNodes = g.liveNodes.map fun n => { n with origin := originOf n } := List.reduceOption_map

theorem liveIds_lossy (g : Callgraph) : (lossy g).liveIds = g.liveIds := by
  rw [liveIds, liveNodes_lossy, List.map_map, liveIds]
  rfl

theorem fileOrder_lossy (g : Callgraph) (str : ℕ → String) : (lossy g).fileOrder str = g.fileOrder str := by
  rw [fileOrder, fileOrder, liveIds_lossy]

theorem lossy_plain (g : Callgraph) : PlainEdges (lossy g) := by
  refine (plainEdges_iff _).mpr fun e he => ?_
  obtain ⟨x, -, rfl⟩ := List.mem_map.mp (UMap.mem_of_mem_ofPairs he)
  rfl

theorem lossy_wf (h : g.Wf) : (lossy g).Wf := by
  refine h.of_same_names (List.length_map _) (fun i => ?_) rfl (mem_edges_lossy g) rfl rfl ?_ fun i hi => h.main_live i hi
  · rw [slot_lossy, Option.map_map]
    rfl
  · rw [show (lossy g).numErased = g.numErased from rfl, h.erased, lossy, List.countP_map]
    congr 1
    funext p
    cases p <;> rfl

theorem lossy_metaKeyed (hkey : g.MetaKeyed) : (lossy g).MetaKeyed where
  node := by
    intro n hn
    rw [liveNodes_lossy] at hn
    obtain ⟨m, hm, rfl⟩ := List.mem_map.mp hn
    exact hkey.node m hm
  global := fun e he => absurd he List.not_mem_nil

theorem lossy_refsLive (hr : g.RefsLive) : (lossy g).RefsLive where
  node := by
    intro n hn e he i hi
    rw [liveNodes_lossy] at hn
    obtain ⟨m, hm, rfl⟩ := List.mem_map.mp hn
    rw [hasNode_lossy]
    exact hr.node m hm e he i hi
  edge := by
    intro p hp e he
    rw [(plainEdges_iff _).mp (lossy_plain g) p hp] at he
    exact absurd he List.not_mem_nil
  global := fun e he => absurd he List.not_mem_nil

theorem lossy_strInj (hs : g.StrInj str) : (lossy g).StrInj str := by
  rw [StrInj, liveIds_lossy]
  exact hs

theorem calleesJson_lossy (h : g.Wf) (hs : g.StrInj str) (u : ℕ) :
    (lossy g).calleesJson str (lossy g).edges.keys u = (calleeNames g str u).map fun s => (s, .obj []) := by
  have hsorted : Ordered.Sorted ((calleeNames g str u).map fun s => (s, Json.obj [])) := by
    rw [Ordered.Sorted, List.pairwise_map]
    exact calleeNames_sorted g str u
  refine Ordered.ext_mem (Ordered.sorted_ofList _) hsorted fun e => ?_
  rw [show e = (e.1, e.2) from rfl, mem_calleesJson_plain (lossy_wf h) (lossy_strInj hs) (lossy_plain g), List.mem_map]
  simp only [mem_edges_lossy]
  constructor
  · rintro ⟨v, hv, h1, h2⟩
    exact ⟨e.1, (mem_calleeNames u e.1).mpr ⟨v, hv, h1⟩, by rw [h2]⟩
  · rintro ⟨s, hs, he⟩
    obtain ⟨v, hv, rfl⟩ := (mem_calleeNames u s).mp hs
    exact ⟨v, hv, (congrArg Prod.fst he).symm, (congrArg Prod.snd he).symm⟩

end

/-! ## Files that read alike -/

/-- Metadata entries with the same keys that create the same objects. -/
def MetaAlike (m m' : List (String × Json)) : Prop :=
  List.Forall₂ (fun e e' => e'.1 = e.1 ∧ ∀ t, MetaData.create e.1 e.2 t = MetaData.create e.1 e'.2 t) m m'

/-- Data of a node that is read to the same effect. -/
def DataAlike (t t' : TempNodeData) : Prop := ∀ m cg, readNodeData m cg t = readNodeData m cg t'

structure StatesAlike (st st' : ReadState) : Prop where
  cg : st'.cg = st.cg
  strToNode : st'.strToNode = st.strToNode
  temp : List.Forall₂ DataAlike st.tempNodeData st'.tempNodeData

/-- The entry of a function in a file of version 4 and in an upgraded one. -/
def EntryAlike (e e' : String × Json) : Prop :=
  ∃ (names : List String) (f hb o : Json) (m m' : List (String × Json)), MetaAlike m m' ∧ e'.1 = e.1 ∧
    e.2 = fileNode (.obj (names.map fun s => (s, .obj []))) f hb (.obj m) o ∧
    e'.2 = fileNode (.obj (names.map fun s => (s, .null))) f hb (orNull m') o

theorem orNull_iterator (fields : List (String × Json)) : (orNull fields).iterator = .ok fields := by
  cases fields <;> rfl

theorem dataAlike (id : ℕ) (names : List String) {m m' : List (String × Json)} (hm : MetaAlike m m') :
    DataAlike ⟨id, .obj (names.map fun s => (s, .obj [])), .obj m⟩ ⟨id, .obj (names.map fun s => (s, .null)), orNull m'⟩ := by
  intro strToNode cg
  have hedges : ∀ cg, (names.map fun s => (s, Json.obj [])).foldlM (readEdge strToNode id) cg =
      (names.map fun s => (s, Json.null)).foldlM (readEdge strToNode id) cg := by
    intro cg
    rw [List.foldlM_map, List.foldlM_map]
    rfl
  have hmeta : ∀ fields, m.foldlM (readMeta strToNode) fields = m'.foldlM (readMeta strToNode) fields := by
    refine foldlM_forall₂ (fun fields e e' he => ?_) hm
    rw [readMeta, readMeta, he.1, he.2]
  have hiterator : ∀ fields, (Json.obj fields).iterator = .ok fields := fun _ => rfl
  simp only [readNodeData, orNull_iterator, hiterator, ok_bind, hedges, hmeta]

section
variable (callees f hb jMeta o : Json)

theorem fileNode_at :
    (fileNode callees f hb jMeta o).at_ "functionName" = .ok f ∧ (fileNode callees f hb jMeta o).at_ "hasBody" = .ok hb ∧
      (fileNode callees f hb jMeta o).at_ "meta" = .ok jMeta ∧ (fileNode callees f hb jMeta o).at_ "origin" = .ok o := by
  simp (disch := decide) only [fileNode, Json.at_, Ordered.find_same, Ordered.find_other, and_self]

theorem fileNode_contains :
    (fileNode callees f hb jMeta o).contains "functionName" = true ∧ (fileNode callees f hb jMeta o).contains "hasBody" = true ∧
      (fileNode callees f hb jMeta o).contains "meta" = true ∧ (fileNode callees f hb jMeta o).contains "origin" = true := by
  simp (disch := decide) only [fileNode, Json.contains, Ordered.find_same, Ordered.find_other, Option.isSome_some, and_self]

theorem fileNode_subscriptMut :
    (fileNode callees f hb jMeta o).subscriptMut "callees" = .ok callees ∧
      (fileNode callees f hb jMeta o).subscriptMut "meta" = .ok jMeta := by
  simp (disch := decide) only [fileNode, Json.subscriptMut, Ordered.find_same, Ordered.find_other, Option.getD_some, and_self]

end

/-- Creating a node does not look at its callees or into its metadata. -/
theorem createNodeFromJson_fileNode (cg : Callgraph) (s : String) (callees callees' f hb o : Json)
    (fields fields' : List (String × Json)) (strToNode : StrToNode) :
    createNodeFromJson cg s (fileNode callees f hb (.obj fields) o) strToNode =
      createNodeFromJson cg s (fileNode callees' f hb (orNull fields') o) strToNode := by
  obtain ⟨h1, h2, h3, h4⟩ := fileNode_at callees f hb (.obj fields) o
  obtain ⟨h1', h2', h3', h4'⟩ := fileNode_at callees' f hb (orNull fields') o
  obtain ⟨c1, c2, c3, c4⟩ := fileNode_contains callees f hb (.obj fields) o
  obtain ⟨c1', c2', c3', c4'⟩ := fileNode_contains callees' f hb (orNull fields') o
  have hmeta : (!(orNull fields').is_null && !(orNull fields').is_object) = false := by
    cases fields' <;> rfl
  have hnull : ∀ a b c d e, (fileNode a b c d e).is_null = false := fun _ _ _ _ _ => rfl
  have hobj : (Json.obj fields).is_object = true := rfl
  simp only [createNodeFromJson, readOrigin, hnull, c1, c2, c3, c4, c1', c2', c3', c4', h1, h2, h3, h4, h1', h2', h3', h4', hmeta,
    Json.is_null_obj, hobj, Bool.not_true, Bool.and_false, Bool.false_eq_true, if_false, ok_bind]

theorem readNode_alike {st st' st₁ : ReadState} {e e' : String × Json} (hst : StatesAlike st st') (he : EntryAlike e e')
    (h : readNode st e = .ok st₁) : ∃ st₁', readNode st' e' = .ok st₁' ∧ StatesAlike st₁ st₁' := by
  obtain ⟨s, j⟩ := e
  obtain ⟨s', j'⟩ := e'
  obtain ⟨names, f, hb, o, m, m', hm, hs, rfl, rfl⟩ := he
  obtain rfl : s' = s := hs
  obtain ⟨h1, h2⟩ := fileNode_subscriptMut (.obj (names.map fun s => (s, .obj []))) f hb (.obj m) o
  obtain ⟨h1', h2'⟩ := fileNode_subscriptMut (.obj (names.map fun s => (s, .null))) f hb (orNull m') o
  have hcreate := createNodeFromJson_fileNode st.cg s' (.obj (names.map fun s => (s, .obj [])))
    (.obj (names.map fun s => (s, .null))) f hb o m m' st.strToNode
  simp only [readNode, h1', h2', hst.cg, hst.strToNode, ← hcreate]
  simp only [readNode, h1, h2] at h
  cases hnode : createNodeFromJson st.cg s' (fileNode (.obj (names.map fun s => (s, .obj []))) f hb (.obj m) o) st.strToNode with
  | error e => rw [hnode] at h; cases h
  | ok r =>
    rw [hnode] at h
    cases r with
    | none => cases h
    | some r =>
      obtain ⟨cg, id, strToNode⟩ := r
      cases h
      exact ⟨_, rfl, rfl, rfl, List.rel_append hst.temp (.cons (dataAlike id names hm) .nil)⟩

section
variable {g : Callgraph} {str : ℕ → String}

/-! ## Reading an upgraded file -/

/-- Every function with an origin has file properties to put it in. -/
def OriginsKept (g : Callgraph) : Prop := ∀ n ∈ g.liveNodes, n.origin ≠ none → "fileProperties" ∈ n.metaFields

theorem filePropertiesOf_of_mem {n : CgNode} (hkey : ∀ e ∈ UMap.toPairs n.metaFields, e.2.getKey = e.1)
    (h : "fileProperties" ∈ n.metaFields) : ∃ b, filePropertiesOf n = some b := by
  obtain ⟨md, hl⟩ := (UMap.mem_iff_lookup _ _).mp h
  have hk := getKey_of_lookup hkey hl
  rw [filePropertiesOf, hl]
  cases md with
  | fileProperties b => exact ⟨b, rfl⟩
  | _ => simp [MetaData.getKey] at hk

theorem create_fileProperties (n : CgNode) (b : Bool) (t : StrToNode) :
    MetaData.create "fileProperties" (.obj [("systemInclude", .bool b)]) t =
      MetaData.create "fileProperties" (upgradedProps n (some b)) t := by
  have hsub : ∀ j : Json, j.is_null = false → j.subscript "systemInclude" = .ok (.bool b) →
      MetaData.create "fileProperties" j t = .ok (some (.fileProperties b)) := by
    intro j hnull hj
    simp only [MetaData.create, MetaData.orDefault, hnull, Bool.false_eq_true, if_false, hj, ok_bind, Json.getBool]
    rfl
  have hplain : (Json.obj [("systemInclude", .bool b)]).subscript "systemInclude" = .ok (.bool b) := by
    rw [Json.subscript, Ordered.find_same]
  have hprops : (upgradedProps n (some b)).subscript "systemInclude" = .ok (.bool b) := by
    unfold upgradedProps
    simp only
    split_ifs
    · rw [Json.subscript, Ordered.find_other (by decide), Ordered.find_same]
    · exact hplain
  have hnull : (upgradedProps n (some b)).is_null = false := by
    unfold upgradedProps
    simp only
    split_ifs <;> rfl
  rw [hsub _ rfl hplain, hsub _ hnull hprops]

theorem metaAlike {n : CgNode} (hkey : ∀ e ∈ UMap.toPairs n.metaFields, e.2.getKey = e.1)
    (hprops : n.origin ≠ none → "fileProperties" ∈ n.metaFields) :
    MetaAlike (metaJson str n.metaFields) (upgradedMeta str n) := by
  have hrefl : MetaAlike (metaJson str n.metaFields) (metaJson str n.metaFields) :=
    List.forall₂_same.mpr fun e _ => ⟨rfl, fun _ => rfl⟩
  unfold upgradedMeta
  split_ifs with hnone
  · exact hrefl
  · obtain ⟨b, hb⟩ : ∃ b, filePropertiesOf n = some b := by
      cases hf : filePropertiesOf n with
      | some b => exact ⟨b, rfl⟩
      | none =>
        obtain ⟨b, hb⟩ := filePropertiesOf_of_mem hkey (hprops fun ho => hnone ⟨hf, ho⟩)
        rw [hf] at hb
        cases hb
    have hfind := find_fileProperties str hkey
    rw [hb] at hfind ⊢
    exact Ordered.forall₂_insert (R := fun k v v' => ∀ t, MetaData.create k v t = MetaData.create k v' t) (fun _ _ _ => rfl)
      (metaJson_sorted _) hfind (create_fileProperties n b)

theorem nodesAlike (h : g.Wf) (hs : g.StrInj str) (hkey : g.MetaKeyed) (hkept : OriginsKept g) :
    List.Forall₂ EntryAlike ((lossy g).nodesJson str (lossy g).edges.keys) (upgradedNodes g str) := by
  rw [nodesJson_eq (lossy_strInj hs), fileOrder_lossy, upgradedNodes, List.forall₂_map_left_iff, List.forall₂_map_right_iff,
    List.forall₂_same]
  intro i hi
  obtain ⟨n, hn⟩ := (g.hasNode_iff i).mp ((h.mem_fileOrder hs i).mp hi)
  have hlive := (g.mem_liveNodes n).mpr ⟨i, hn⟩
  have hslot : (lossy g).slot i = some { n with origin := originOf n } := by rw [slot_lossy, hn]; rfl
  refine ⟨calleeNames g str i, .str n.functionName, .bool n.hasBody, originJson (originOf n), metaJson str n.metaFields,
    upgradedMeta str n, metaAlike (hkey.node n hlive) (hkept n hlive), rfl, ?_, ?_⟩
  · rw [nodeJson, hslot]
    simp only
    rw [nodeObject_eq, calleesJson_lossy h hs]
    rfl
  · rw [hn]
    rfl

/-- A file with nodes and no metadata of its own. -/
theorem read_parts {j : Json} {fields nodes : List (String × Json)} (hheader : readHeader j = .ok ())
    (hcg : j.subscriptMut "_CG" = .ok (.obj fields)) (hnodes : Ordered.find "nodes" fields = some (.obj nodes))
    (hmeta : Ordered.find "meta" fields = some (.obj [])) :
    MetaCG.read j = nodes.foldlM readNode ⟨Callgraph.empty, ∅, []⟩ >>= fun st =>
      st.tempNodeData.foldlM (readNodeData st.strToNode) st.cg := by
  have hiterator : (Json.obj nodes).iterator = .ok nodes := rfl
  have hn : (Json.obj fields).subscriptMut "nodes" = .ok (.obj nodes) := by rw [Json.subscriptMut, hnodes]; rfl
  have hm : (Json.obj fields).subscriptMut "meta" = .ok (.obj []) := by rw [Json.subscriptMut, hmeta]; rfl
  simp only [MetaCG.read, hheader, hcg, hn, hm, hiterator, ok_bind, Json.is_null_obj, Bool.false_eq_true, if_false]
  cases nodes.foldlM readNode ⟨Callgraph.empty, ∅, []⟩ with
  | error e => rfl
  | ok st =>
    simp only [ok_bind]
    cases st.tempNodeData.foldlM (readNodeData st.strToNode) st.cg with
    | error e => rfl
    | ok cg => rfl

end
end MetaCG.VersionTwo
