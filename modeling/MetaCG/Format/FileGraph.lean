import MetaCG.Format.ReadFile
import MetaCG.Merge.Sequence

/-! The graph that the reader of version 4 returns is the graph of its file, whatever the file.

Every field of `nodes` describes the node in the slot of its place, every listed callee is an edge and
there is no other edge, and metadata refers to nodes of the graph. -/
namespace MetaCG
open Foundations Callgraph
set_option autoImplicit false
set_option maxHeartbeats 250000
set_option maxRecDepth 120000

/-! ## What a file says -/

/-- The fields of the `meta` of a node. -/
def metaOf (jNode : Json) : List (String × Json) :=
  match (do (← jNode.subscriptMut "meta").iterator : Except Exn (List (String × Json))) with
  | .ok fields => fields
  | .error _ => []

/-- The fields of the `meta` of the graph. -/
def globalMetaOf (j : Json) : List (String × Json) :=
  match (do (← j.subscriptMut "_CG").subscriptMut "meta" : Except Exn Json) with
  | .ok jMeta => jMeta.items
  | .error _ => []

/-- The strings of the nodes, in the order of the file. -/
def keysOf (j : Json) : List String := (nodesOf j).map Prod.fst

/-- The attributes of `n` are those of the node `jNode` of a file. -/
structure Describes (jNode : Json) (n : CgNode) : Prop where
  functionName : jNode.at_ "functionName" = .ok (.str n.functionName)
  origin : readOrigin jNode = .ok n.origin
  hasBody : jNode.at_ "hasBody" = .ok (.bool n.hasBody)

/-- The metadata `fields` is what the factory makes of `items`. -/
structure MetaRead (m : StrToNode) (items : List (String × Json)) (fields : NamedMetadata) : Prop where
  sound : ∀ key md, fields.lookup key = some md →
    ∃ value, (key, value) ∈ items ∧ MetaData.create key value m = .ok (some md)
  complete : ∀ e ∈ items, MetaData.isRegistered e.1 = true → e.1 ∈ fields

/-- The node in place `u` of the file lists the one in place `v` as a callee. -/
def CallsIn (j : Json) (u v : ℕ) : Prop :=
  ∃ e, (nodesOf j)[u]? = some e ∧ ∃ f ∈ calleesOf e.2, (keysOf j)[v]? = some f.1

/-- The name of the function in place `k` of the file. -/
def nameAt (j : Json) (k : ℕ) : Option String :=
  (nodesOf j)[k]?.bind fun e => (e.2.at_ "functionName" >>= Json.getStr).toOption

/-! ## Metadata -/

theorem getStr_ok {j : Json} {s : String} (h : j.getStr = .ok s) : j = .str s := by
  cases j <;> cases h
  rfl

theorem getBool_ok {j : Json} {b : Bool} (h : j.getBool = .ok b) : j = .bool b := by
  cases j <;> cases h
  rfl

theorem mapM_nodeFromStr_ok {m : StrToNode} {strs : List String} {ids : List ℕ}
    (h : strs.mapM (MetaData.nodeFromStr m) = .ok ids) : ∀ i ∈ ids, ∃ s, m.lookup s = some i := by
  induction strs generalizing ids with
  | nil =>
    cases h
    exact fun i hi => absurd hi List.not_mem_nil
  | cons s strs ih =>
    rw [List.mapM_cons] at h
    obtain ⟨i, hi, h⟩ := bind_eq_ok.mp h
    obtain ⟨rest, hrest, h⟩ := bind_eq_ok.mp h
    cases h
    intro k hk
    rcases List.mem_cons.mp hk with rfl | hk
    · unfold MetaData.nodeFromStr at hi
      cases hl : m.lookup s with
      | none =>
        rw [hl] at hi
        cases hi
      | some id =>
        rw [hl] at hi
        cases hi
        exact ⟨s, hl⟩
    · exact ih hrest k hk

/-- The ids in created metadata are those of strings of the file. -/
theorem MetaData.create_refs {key : String} {j : Json} {m : StrToNode} {md : MetaData}
    (h : MetaData.create key j m = .ok (some md)) : ∀ i ∈ md.refs, ∃ s, m.lookup s = some i := by
  unfold MetaData.create at h
  split at h
  case h_1 =>
    obtain ⟨o, ho, h⟩ := bind_eq_ok.mp h
    cases h
    obtain ⟨jo, -, ho⟩ := bind_eq_ok.mp ho
    obtain ⟨so, -, ho⟩ := bind_eq_ok.mp ho
    obtain ⟨overrides, hover, ho⟩ := bind_eq_ok.mp ho
    obtain ⟨jb, -, ho⟩ := bind_eq_ok.mp ho
    obtain ⟨sb, -, ho⟩ := bind_eq_ok.mp ho
    obtain ⟨overriddenBy, hby, ho⟩ := bind_eq_ok.mp ho
    cases ho
    intro i hi
    rcases List.mem_append.mp hi with hi | hi
    · exact mapM_nodeFromStr_ok hover i hi
    · exact mapM_nodeFromStr_ok hby i hi
  case h_2 =>
    obtain ⟨s, -, h⟩ := bind_eq_ok.mp h
    cases h
    intro i hi
    exact ⟨s, Option.mem_toList.mp hi⟩
  case h_14 => cases h
  all_goals
    obtain ⟨a, -, h⟩ := bind_eq_ok.mp h
    cases h
    exact fun i hi => absurd hi List.not_mem_nil

theorem readMeta_ok {m : StrToNode} {items : List (String × Json)} {fields : NamedMetadata}
    (h : items.foldlM (readMeta m) ∅ = .ok fields) : MetaRead m items fields := by
  refine foldlM_ok_inv (J := fun pre fs => MetaRead m pre fs) ⟨fun key md hl => ?_, by simp⟩ ?_ h
  · cases hl
  rintro pre ⟨key, value⟩ fs fs' - hpre hstep
  obtain ⟨md, hcreate, hstep⟩ := bind_eq_ok.mp hstep
  have hspec := MetaData.create_spec hcreate
  have hmono : ∀ e ∈ pre, e ∈ pre ++ [(key, value)] := fun e he => List.mem_append_left _ he
  cases md with
  | none =>
    cases hstep
    refine ⟨fun k md hl => ?_, fun e he hreg => ?_⟩
    · obtain ⟨v, hv, hc⟩ := hpre.sound k md hl
      exact ⟨v, hmono _ hv, hc⟩
    · rcases List.mem_append.mp he with he | he
      · exact hpre.complete e he hreg
      · rw [List.mem_singleton.mp he] at hreg
        exact absurd (hspec.2.mpr hreg) (by decide)
  | some md =>
    cases hstep
    have hkey : md.getKey = key := hspec.1 md rfl
    refine ⟨fun k md' hl => ?_, fun e he hreg => ?_⟩
    · rw [addMetaData, UMap.lookup_insert_ite, hkey] at hl
      split_ifs at hl with hk
      · cases hl
        exact ⟨value, by rw [hk]; exact List.mem_append_right _ (List.mem_singleton_self _), by rw [hk]; exact hcreate⟩
      · obtain ⟨v, hv, hc⟩ := hpre.sound k md' hl
        exact ⟨v, hmono _ hv, hc⟩
    · rw [addMetaData, hkey]
      refine (AList.mem_insert _).mpr ?_
      rcases List.mem_append.mp he with he | he
      · exact .inr (hpre.complete e he hreg)
      · rw [List.mem_singleton.mp he]
        exact .inl rfl

theorem MetaRead.keyed {m : StrToNode} {items : List (String × Json)} {fields : NamedMetadata} (h : MetaRead m items fields) :
    ∀ e ∈ UMap.toPairs fields, e.2.getKey = e.1 := by
  intro e he
  obtain ⟨value, -, hcreate⟩ := h.sound e.1 e.2 ((UMap.mem_toPairs e.1 e.2 fields).mp he)
  exact (MetaData.create_spec hcreate).1 e.2 rfl

theorem MetaRead.refs {m : StrToNode} {items : List (String × Json)} {fields : NamedMetadata} (h : MetaRead m items fields) :
    ∀ e ∈ UMap.toPairs fields, ∀ i ∈ e.2.refs, ∃ s, m.lookup s = some i := by
  intro e he
  obtain ⟨value, -, hcreate⟩ := h.sound e.1 e.2 ((UMap.mem_toPairs e.1 e.2 fields).mp he)
  exact MetaData.create_refs hcreate

/-! ## The loop over the nodes -/

theorem createNodeFromJson_describes {cg cg' : Callgraph} {s : String} {j : Json} {m m' : StrToNode} {id : ℕ}
    (h : createNodeFromJson cg s j m = .ok (some (cg', id, m'))) :
    ∃ n : CgNode, Describes j n ∧ cg' = cg.addRead n ∧ id = cg.nodes.length := by
  unfold createNodeFromJson at h
  split at h
  · cases h
  split at h
  · cases h
  obtain ⟨origin, horigin, h⟩ := bind_eq_ok.mp h
  split at h
  · cases h
  obtain ⟨jName, hjName, h⟩ := bind_eq_ok.mp h
  obtain ⟨functionName, hname, h⟩ := bind_eq_ok.mp h
  obtain ⟨⟨cg₁, id₁⟩, hinsert, h⟩ := bind_eq_ok.mp h
  simp only at h
  split at h
  · cases h
  obtain ⟨jBody, hjBody, h⟩ := bind_eq_ok.mp h
  obtain ⟨hasBody, hbody, h⟩ := bind_eq_ok.mp h
  split at h
  · cases h
  obtain ⟨jMeta, -, h⟩ := bind_eq_ok.mp h
  split at h
  · cases h
  obtain ⟨-, rfl, rfl⟩ := insert_cases hinsert
  cases hr : registerNode m s cg.nodes.length with
  | none =>
    simp only [hr] at h
    cases h
  | some m₁ =>
    simp only [hr] at h
    cases h
    refine ⟨⟨0, functionName, origin, hasBody, ∅⟩, ⟨?_, horigin, ?_⟩, rfl, rfl⟩
    · rw [hjName, getStr_ok hname]
    · rw [hjBody, getBool_ok hbody]

/-- The temporary entry `t` belongs to the node `jNode` of the file. -/
structure Belongs (jNode : Json) (t : TempNodeData) : Prop where
  callees : jNode.subscriptMut "callees" = .ok t.jEdges
  meta_ : jNode.subscriptMut "meta" = .ok t.jMeta

/-- The nodes that the fields `pre` describe, without their edges and metadata. -/
structure NodesDescribed (pre : List (String × Json)) (st : ReadState) : Prop where
  length : st.cg.nodes.length = pre.length
  globals : st.cg.metaFields = ∅
  node : ∀ k e, pre[k]? = some e → ∃ n, st.cg.slot k = some n ∧ Describes e.2 n ∧ n.metaFields = ∅
  temps : st.tempNodeData.length = pre.length
  temp : ∀ k t, st.tempNodeData[k]? = some t → t.nodeId = k ∧ ∃ e, pre[k]? = some e ∧ Belongs e.2 t

theorem NodesDescribed.start : NodesDescribed [] ⟨Callgraph.empty, ∅, []⟩ where
  length := rfl
  globals := rfl
  node := fun k e he => by simp at he
  temps := rfl
  temp := fun k t ht => by simp at ht

theorem NodesDescribed.next {pre : List (String × Json)} {st st' : ReadState} (h : NodesDescribed pre st)
    {e : String × Json} (hread : readNode st e = .ok st') : NodesDescribed (pre ++ [e]) st' := by
  obtain ⟨created, hcreate, hread⟩ := bind_eq_ok.mp hread
  cases created with
  | none => cases hread
  | some created =>
    obtain ⟨cg, id, strToNode⟩ := created
    obtain ⟨jEdges, hcallees, hread⟩ := bind_eq_ok.mp hread
    obtain ⟨jMeta, hmeta, hread⟩ := bind_eq_ok.mp hread
    cases hread
    obtain ⟨n, hn, rfl, rfl⟩ := createNodeFromJson_describes hcreate
    exact {
      length := by
        simp only [addRead, Callgraph.updateNode, insertNode, List.length_modify, List.length_append,
          List.length_singleton, h.length]
      globals := h.globals
      node := by
        intro k e' he'
        rw [getElem?_concat_iff] at he'
        rw [slot_addRead]
        rcases he' with he' | ⟨hk, rfl⟩
        · have hlt := (List.getElem?_eq_some_iff.mp he').1
          rw [if_neg (by rw [h.length]; omega)]
          exact h.node k e' he'
        · rw [if_pos (hk.trans h.length.symm)]
          exact ⟨_, rfl, ⟨hn.functionName, hn.origin, hn.hasBody⟩, rfl⟩
      temps := by rw [List.length_append, List.length_append, h.temps, List.length_singleton, List.length_singleton]
      temp := by
        intro k t ht
        rw [getElem?_concat_iff] at ht
        rcases ht with ht | ⟨hk, rfl⟩
        · obtain ⟨hid, e', he', hb⟩ := h.temp k t ht
          exact ⟨hid, e', (getElem?_concat_iff _ _ _ _).mpr (.inl he'), hb⟩
        · rw [h.temps] at hk
          exact ⟨h.length.trans hk.symm, e, (getElem?_concat_iff _ _ _ _).mpr (.inr ⟨hk, rfl⟩), ⟨hcallees, hmeta⟩⟩ }

theorem readNodes_described {nodes : List (String × Json)} {st : ReadState}
    (h : nodes.foldlM readNode ⟨Callgraph.empty, ∅, []⟩ = .ok st) : NodesDescribed nodes st :=
  foldlM_ok_inv (J := NodesDescribed) NodesDescribed.start (fun _ _ _ _ _ ht hstep => ht.next hstep) h

/-! ## The loop over the edges and the metadata -/

/-- The ids in the metadata of the edges are those of strings of the file. -/
def EdgeRefs (m : StrToNode) (g : Callgraph) : Prop :=
  ∀ ids key md, (g.edgeMeta ids).lookup key = some md → ∀ i ∈ md.refs, ∃ s, m.lookup s = some i

/-- From `cg` to `cg'` the edges in `new` are added, with metadata from the file, and nothing else. -/
structure AddsEdges (m : StrToNode) (new : ℕ × ℕ → Prop) (cg cg' : Callgraph) : Prop where
  nodes : cg'.nodes = cg.nodes
  globals : cg'.metaFields = cg.metaFields
  edges : ∀ e, e ∈ cg'.edges ↔ e ∈ cg.edges ∨ new e
  refs : EdgeRefs m cg → EdgeRefs m cg'

section
variable {m : StrToNode} {cg cg' : Callgraph}

theorem AddsEdges.none : AddsEdges m (fun _ => False) cg cg := ⟨rfl, rfl, fun _ => by simp, id⟩

theorem AddsEdges.trans {new new' : ℕ × ℕ → Prop} {cg'' : Callgraph} (h : AddsEdges m new cg cg')
    (h' : AddsEdges m new' cg' cg'') : AddsEdges m (fun e => new e ∨ new' e) cg cg'' where
  nodes := h'.nodes.trans h.nodes
  globals := h'.globals.trans h.globals
  edges := fun e => by rw [h'.edges, h.edges, or_assoc]
  refs := h'.refs ∘ h.refs

theorem AddsEdges.congr {new new' : ℕ × ℕ → Prop} (h : AddsEdges m new cg cg') (hnew : ∀ e, new e ↔ new' e) :
    AddsEdges m new' cg cg' := ⟨h.nodes, h.globals, fun e => by rw [h.edges, hnew], h.refs⟩

theorem readEdgeMeta_adds {ids : ℕ × ℕ} {x : String × Json} (h : readEdgeMeta m ids cg x = .ok cg') :
    AddsEdges m (fun _ => False) cg cg' := by
  obtain ⟨md, hcreate, h⟩ := bind_eq_ok.mp h
  cases md with
  | none =>
    cases h
    exact .none
  | some md =>
    cases h
    have hframe := addEdgeMetaData_frame cg MetaData.baseKey ids md
    refine ⟨by rw [hframe], by rw [hframe], fun e => by rw [mem_edges_addEdgeMetaData, or_false], ?_⟩
    intro hrefs ids' key md' hl
    by_cases hmem : ids ∈ cg.edges
    · rw [(addEdgeMetaData_set hmem MetaData.baseKey md).edgeMeta] at hl
      split_ifs at hl with hids
      · rw [UMap.lookup_insert_ite] at hl
        split_ifs at hl with hkey
        · cases hl
          exact MetaData.create_refs hcreate
        · exact hrefs ids key md' hl
      · exact hrefs ids' key md' hl
    · have hsame : (cg.addEdgeMetaData MetaData.baseKey ids md).2 = cg := by
        rw [Callgraph.addEdgeMetaData, AList.lookup_eq_none.mpr hmem]
      rw [hsame] at hl
      exact hrefs ids' key md' hl

theorem addEdge_adds {u v : ℕ} {b : Bool} (hu : cg.hasNode u = true) (hv : cg.hasNode v = true)
    (h : cg.addEdge u v = .ok (b, cg')) : AddsEdges m (fun e => e = (u, v)) cg cg' := by
  rw [addEdge_of_live hu hv] at h
  by_cases hmem : (u, v) ∈ cg.edges
  · rw [addEdgeInternal_of_mem hmem] at h
    cases h
    exact ⟨rfl, rfl, fun e => ⟨.inl, fun he => he.elim id fun heq => heq ▸ hmem⟩, id⟩
  · rw [addEdgeInternal_of_notMem hmem] at h
    cases h
    refine ⟨rfl, rfl, fun e => by rw [mem_edges_withEdge, or_comm], fun hrefs ids key md hl => ?_⟩
    rw [edgeMeta_withEdge hmem] at hl
    exact hrefs ids key md hl

/-- The callee of a listed edge is a node of the file. -/
theorem readEdge_adds (hlive : ∀ s k, m.lookup s = some k → cg.hasNode k = true) {a : ℕ} (ha : cg.hasNode a = true)
    {field : String × Json} (h : readEdge m a cg field = .ok cg') :
    ∃ k, m.lookup field.1 = some k ∧ AddsEdges m (fun e => e = (a, k)) cg cg' := by
  unfold readEdge at h
  cases hl : m.lookup field.1 with
  | none =>
    rw [hl] at h
    cases h
  | some k =>
    simp only [hl] at h
    obtain ⟨⟨b, cg₁⟩, hadd, h⟩ := bind_eq_ok.mp h
    have h₁ : AddsEdges m (fun e => e = (a, k)) cg cg₁ := addEdge_adds ha (hlive _ k hl) hadd
    refine ⟨k, rfl, ?_⟩
    simp only at h
    split at h
    · cases h
      exact h₁
    · have h₂ : AddsEdges m (fun _ => False) cg₁ cg' :=
        foldlM_ok_inv (J := fun _ t => AddsEdges m (fun _ => False) cg₁ t) .none
          (fun _ _ _ _ _ ht hstep => (ht.trans (readEdgeMeta_adds hstep)).congr (by simp)) h
      exact (h₁.trans h₂).congr (by simp)

theorem AddsEdges.hasNode {new : ℕ × ℕ → Prop} (h : AddsEdges m new cg cg') (i : ℕ) : cg'.hasNode i = cg.hasNode i := by
  rw [Callgraph.hasNode, Callgraph.hasNode, slot, slot, h.nodes]

theorem readEdges_add (hlive : ∀ s k, m.lookup s = some k → cg.hasNode k = true) {a : ℕ} (ha : cg.hasNode a = true)
    {jEdges : List (String × Json)} (h : jEdges.foldlM (readEdge m a) cg = .ok cg') :
    (∀ f ∈ jEdges, ∃ k, m.lookup f.1 = some k) ∧
      AddsEdges m (fun e => e.1 = a ∧ ∃ f ∈ jEdges, m.lookup f.1 = some e.2) cg cg' := by
  refine foldlM_ok_inv (J := fun pre t => (∀ f ∈ pre, ∃ k, m.lookup f.1 = some k) ∧
    AddsEdges m (fun e => e.1 = a ∧ ∃ f ∈ pre, m.lookup f.1 = some e.2) cg t)
    ⟨by simp, AddsEdges.none.congr (by simp)⟩ ?_ h
  rintro pre f t t' - ⟨hknown, ht⟩ hstep
  obtain ⟨k, hk, hadd⟩ := readEdge_adds (fun s i hi => (ht.hasNode i).trans (hlive s i hi)) ((ht.hasNode a).trans ha) hstep
  refine ⟨fun f' hf' => ?_, (ht.trans hadd).congr fun e => ?_⟩
  · rcases List.mem_append.mp hf' with hf' | hf'
    · exact hknown f' hf'
    · rw [List.mem_singleton.mp hf']
      exact ⟨k, hk⟩
  · simp only [List.mem_append, List.mem_singleton, or_and_right, exists_or, exists_eq_left, hk, Option.some.injEq,
      and_or_left, Prod.ext_iff (x := e)]
    rw [eq_comm (a := k)]

/-- One node: its edges and its metadata. -/
theorem readNodeData_adds (hlive : ∀ s k, m.lookup s = some k → cg.hasNode k = true) {e : String × Json} {t : TempNodeData}
    (hb : Belongs e.2 t) {n : CgNode} (hn : cg.slot t.nodeId = some n) (hempty : n.metaFields = ∅)
    (h : readNodeData m cg t = .ok cg') :
    (∀ f ∈ calleesOf e.2, ∃ k, m.lookup f.1 = some k) ∧ ∃ cg₁ fields, MetaRead m (metaOf e.2) fields ∧
      AddsEdges m (fun p => p.1 = t.nodeId ∧ ∃ f ∈ calleesOf e.2, m.lookup f.1 = some p.2) cg cg₁ ∧
      cg' = cg₁.updateNode t.nodeId fun n => { n with metaFields := fields } := by
  obtain ⟨p, -, h⟩ := bind_eq_ok.mp h
  cases p with
  | none => cases h
  | some _ =>
    obtain ⟨jEdges, hiter, h⟩ := bind_eq_ok.mp h
    obtain ⟨cg₁, hedges, h⟩ := bind_eq_ok.mp h
    obtain ⟨p, hget, h⟩ := bind_eq_ok.mp h
    have hcallees : calleesOf e.2 = jEdges := by rw [calleesOf, hb.callees, ok_bind, hiter]
    obtain ⟨hknown, hadd⟩ := readEdges_add hlive (hasNode_of_slot hn) hedges
    rw [← hcallees] at hknown hadd
    have hslot : cg₁.slot t.nodeId = some n := by rw [slot, hadd.nodes, ← hn, slot]
    have hp := getNode_eq_ok hget
    rw [hslot] at hp
    subst hp
    obtain ⟨items, hitems, h⟩ := bind_eq_ok.mp h
    obtain ⟨fields, hfields, h⟩ := bind_eq_ok.mp h
    cases h
    rw [hempty] at hfields
    have hmeta : metaOf e.2 = items := by rw [metaOf, hb.meta_, ok_bind, hitems]
    exact ⟨hknown, cg₁, fields, hmeta ▸ readMeta_ok hfields, hadd, rfl⟩

end

/-- The graph after the second loop has done the fields before `done`. -/
structure FieldsRead (nodes : List (String × Json)) (m : StrToNode) (done : ℕ) (cg : Callgraph) : Prop where
  length : cg.nodes.length = nodes.length
  globals : cg.metaFields = ∅
  node : ∀ k e, nodes[k]? = some e → ∃ n, cg.slot k = some n ∧ Describes e.2 n ∧
    if k < done then MetaRead m (metaOf e.2) n.metaFields else n.metaFields = ∅
  known : ∀ k e, k < done → nodes[k]? = some e → ∀ f ∈ calleesOf e.2, ∃ v, m.lookup f.1 = some v
  edges : ∀ u v, (u, v) ∈ cg.edges ↔ u < done ∧ ∃ e, nodes[u]? = some e ∧ ∃ f ∈ calleesOf e.2, m.lookup f.1 = some v
  refs : EdgeRefs m cg

section
variable {nodes : List (String × Json)} {m : StrToNode} {done : ℕ} {cg cg' : Callgraph}

theorem FieldsRead.hasNode (h : FieldsRead nodes m done cg) {k : ℕ} (hk : k < nodes.length) : cg.hasNode k = true := by
  obtain ⟨n, hn, -⟩ := h.node k nodes[k] (List.getElem?_eq_getElem hk)
  exact hasNode_of_slot hn

theorem FieldsRead.next (h : FieldsRead nodes m done cg) (hm : ∀ s k, m.lookup s = some k → k < nodes.length)
    {t : TempNodeData} (hid : t.nodeId = done) {e : String × Json} (he : nodes[done]? = some e) (hb : Belongs e.2 t)
    (hrun : readNodeData m cg t = .ok cg') : FieldsRead nodes m (done + 1) cg' := by
  obtain ⟨n, hn, hdesc, hempty⟩ := h.node done e he
  rw [if_neg (lt_irrefl done)] at hempty
  obtain ⟨hknown, cg₁, fields, hmeta, hadd, rfl⟩ := readNodeData_adds (fun s k hl => h.hasNode (hm s k hl)) hb
    (by rw [hid]; exact hn) hempty hrun
  rw [hid] at hadd ⊢
  exact {
    length := by rw [Callgraph.updateNode, List.length_modify, hadd.nodes, h.length]
    globals := hadd.globals.trans h.globals
    node := by
      intro k e' he'
      obtain ⟨n', hn', hdesc', hm'⟩ := h.node k e' he'
      have hslot : cg₁.slot k = some n' := by rw [slot, hadd.nodes, ← hn', slot]
      rw [slot_updateNode, hslot]
      by_cases hk : k = done
      · subst hk
        rw [he] at he'
        cases he'
        rw [if_pos rfl]
        simp only [Nat.lt_succ_self, if_true]
        exact ⟨_, rfl, ⟨hdesc'.functionName, hdesc'.origin, hdesc'.hasBody⟩, hmeta⟩
      · have hiff : k < done + 1 ↔ k < done := by omega
        rw [if_neg hk]
        simp only [hiff]
        exact ⟨n', rfl, hdesc', hm'⟩
    known := by
      intro k e' hk he'
      rcases Nat.lt_succ_iff_lt_or_eq.mp hk with hk | rfl
      · exact h.known k e' hk he'
      · rw [he] at he'
        cases he'
        exact hknown
    edges := by
      intro u v
      have hedges : (u, v) ∈ cg₁.edges ↔ _ := hadd.edges (u, v)
      change (u, v) ∈ cg₁.edges ↔ _
      rw [hedges, h.edges]
      constructor
      · rintro (⟨hu, hex⟩ | ⟨rfl, hex⟩)
        · exact ⟨by omega, hex⟩
        · exact ⟨Nat.lt_succ_self _, e, he, hex⟩
      · rintro ⟨hu, e', he', hex⟩
        rcases Nat.lt_succ_iff_lt_or_eq.mp hu with hu | rfl
        · exact .inl ⟨hu, e', he', hex⟩
        · rw [he] at he'
          cases he'
          exact .inr ⟨rfl, hex⟩
    refs := hadd.refs h.refs }

/-- The loop does the nodes in the order of the file. -/
theorem readData_read {temp : List TempNodeData} (h : FieldsRead nodes m 0 cg)
    (hm : ∀ s k, m.lookup s = some k → k < nodes.length)
    (htemp : ∀ k t, temp[k]? = some t → t.nodeId = k ∧ ∃ e, nodes[k]? = some e ∧ Belongs e.2 t)
    (hrun : temp.foldlM (readNodeData m) cg = .ok cg') : FieldsRead nodes m temp.length cg' := by
  refine foldlM_ok_inv (J := fun pre s => FieldsRead nodes m pre.length s) h ?_ hrun
  intro pre t s s' hpre hs hstep
  have hget : temp[pre.length]? = some t := by
    obtain ⟨post, rfl⟩ := hpre
    simp
  obtain ⟨hid, e, he, hb⟩ := htemp pre.length t hget
  rw [List.length_append, List.length_singleton]
  exact hs.next hm hid he hb hstep

end

/-! ## The whole file -/

/-- `r` is the graph that the file `j` describes; `m` has the places of the strings in the file. -/
structure FileGraph (j : Json) (m : StrToNode) (r : Callgraph) : Prop where
  wf : r.Wf
  places : ∀ s k, m.lookup s = some k ↔ (keysOf j)[k]? = some s
  length : r.nodes.length = (nodesOf j).length
  node : ∀ k e, (nodesOf j)[k]? = some e →
    ∃ n, r.slot k = some n ∧ Describes e.2 n ∧ MetaRead m (metaOf e.2) n.metaFields
  known : ∀ e ∈ nodesOf j, ∀ f ∈ calleesOf e.2, f.1 ∈ keysOf j
  edges : ∀ u v, (u, v) ∈ r.edges ↔ CallsIn j u v
  globals : MetaRead m (globalMetaOf j) r.metaFields
  edgeRefs : EdgeRefs m r

theorem read_fileGraph {j : Json} {r : Callgraph} (h : read j = .ok r) : ∃ m, FileGraph j m r := by
  have hwf := (read_fileRead h).wf
  obtain ⟨_, -, h⟩ := bind_eq_ok.mp h
  obtain ⟨jsonCG, hcg, h⟩ := bind_eq_ok.mp h
  split at h
  · cases h
  obtain ⟨jNodes, hnodes, h⟩ := bind_eq_ok.mp h
  split at h
  · cases h
  obtain ⟨nodes, hiter, h⟩ := bind_eq_ok.mp h
  obtain ⟨st, hst, h⟩ := bind_eq_ok.mp h
  obtain ⟨cg, hdata, h⟩ := bind_eq_ok.mp h
  obtain ⟨jGlobalMeta, hglobal, h⟩ := bind_eq_ok.mp h
  obtain ⟨fields, hfields, h⟩ := bind_eq_ok.mp h
  cases h
  have hplaced := readNodes_placed hst
  have hdesc := readNodes_described hst
  have hnodesOf : nodesOf j = nodes := by rw [nodesOf, hcg, ok_bind, hnodes, ok_bind, hiter]
  have hglobalOf : globalMetaOf j = jGlobalMeta.items := by rw [globalMetaOf, hcg, ok_bind, hglobal]
  have hlt : ∀ s k, st.strToNode.lookup s = some k → k < nodes.length := by
    intro s k hk
    have hlt := (List.getElem?_eq_some_iff.mp ((hplaced.lookup s k).mp hk)).1
    rwa [List.length_map] at hlt
  have hstart : FieldsRead nodes st.strToNode 0 st.cg := {
    length := hdesc.length
    globals := hdesc.globals
    node := by
      intro k e he
      simpa using hdesc.node k e he
    known := fun k e hk => absurd hk (Nat.not_lt_zero k)
    edges := by
      intro u v
      rw [hplaced.edges]
      exact ⟨fun he => absurd he (AList.notMem_empty _), fun he => absurd he.1 (Nat.not_lt_zero u)⟩
    refs := by
      intro ids key md hl
      rw [edgeMeta, hplaced.edges] at hl
      cases hl }
  have hread := readData_read hstart hlt hdesc.temp hdata
  rw [hdesc.temps] at hread
  rw [hread.globals] at hfields
  have hkeys : keysOf j = nodes.map Prod.fst := by rw [keysOf, hnodesOf]
  refine ⟨st.strToNode, {
    wf := hwf
    places := fun s k => by rw [hkeys, hplaced.lookup]
    length := by
      rw [hnodesOf]
      exact hread.length
    node := by
      intro k e he
      rw [hnodesOf] at he
      obtain ⟨n, hn, hd, hm⟩ := hread.node k e he
      rw [if_pos (List.getElem?_eq_some_iff.mp he).1] at hm
      exact ⟨n, hn, hd, hm⟩
    known := by
      intro e he f hf
      rw [hnodesOf] at he
      obtain ⟨k, hk⟩ := List.mem_iff_getElem?.mp he
      obtain ⟨v, hv⟩ := hread.known k e (List.getElem?_eq_some_iff.mp hk).1 hk f hf
      rw [hkeys]
      exact List.mem_of_getElem? ((hplaced.lookup _ _).mp hv)
    edges := by
      intro u v
      have hedges := hread.edges u v
      simp only [hplaced.lookup] at hedges
      rw [CallsIn, hnodesOf, hkeys]
      refine hedges.trans ⟨fun hex => hex.2, fun hex => ⟨?_, hex⟩⟩
      obtain ⟨e, he, -⟩ := hex
      exact (List.getElem?_eq_some_iff.mp he).1
    globals := hglobalOf ▸ readMeta_ok hfields
    edgeRefs := hread.refs }⟩

namespace FileGraph
variable {j : Json} {m : StrToNode} {r : Callgraph}

/-- No two nodes of the file have the same string. -/
theorem distinct (h : FileGraph j m r) : (keysOf j).Nodup := by
  rw [List.nodup_iff_getElem?_ne_getElem?]
  intro i k hik hk heq
  have hi : (keysOf j)[i]? = some (keysOf j)[k] := heq.trans (List.getElem?_eq_getElem hk)
  have h₁ := (h.places _ _).mpr hi
  rw [(h.places _ _).mpr (List.getElem?_eq_getElem hk)] at h₁
  exact absurd (Option.some.inj h₁) (by omega)

theorem hasNode_iff (h : FileGraph j m r) (k : ℕ) : r.hasNode k = true ↔ k < (nodesOf j).length := by
  constructor
  · intro hk
    rw [← h.length]
    exact hasNode_lt hk
  · intro hk
    obtain ⟨n, hn, -⟩ := h.node k _ (List.getElem?_eq_getElem hk)
    exact hasNode_of_slot hn

theorem noErased (h : FileGraph j m r) : r.NoErased := by
  intro p hp hnone
  obtain ⟨k, hk⟩ := List.mem_iff_getElem?.mp hp
  have hlt := (List.getElem?_eq_some_iff.mp hk).1
  obtain ⟨n, hn⟩ := (r.hasNode_iff k).mp ((h.hasNode_iff k).mpr (h.length ▸ hlt))
  rw [slot, hk, hnone] at hn
  cases hn

/-- Every node of the graph is described in the file. -/
theorem of_slot (h : FileGraph j m r) {k : ℕ} {n : CgNode} (hn : r.slot k = some n) :
    ∃ e, (nodesOf j)[k]? = some e ∧ Describes e.2 n ∧ MetaRead m (metaOf e.2) n.metaFields := by
  have hk := (h.hasNode_iff k).mp (hasNode_of_slot hn)
  obtain ⟨n', hn', hd, hm⟩ := h.node k _ (List.getElem?_eq_getElem hk)
  rw [hn] at hn'
  cases hn'
  exact ⟨_, List.getElem?_eq_getElem hk, hd, hm⟩

theorem nameOf (h : FileGraph j m r) (k : ℕ) : r.nameOf k = nameAt j k := by
  rw [nameAt, Callgraph.nameOf]
  cases he : (nodesOf j)[k]? with
  | none =>
    rw [slot_of_ge (h.length ▸ List.getElem?_eq_none_iff.mp he)]
    rfl
  | some e =>
    obtain ⟨n, hn, hd, -⟩ := h.node k e he
    rw [hn, Option.bind_some, hd.functionName]
    rfl

theorem hasNode_of_lookup (h : FileGraph j m r) {s : String} {k : ℕ} (hs : m.lookup s = some k) : r.hasNode k = true := by
  have hlt := (List.getElem?_eq_some_iff.mp ((h.places s k).mp hs)).1
  rw [keysOf, List.length_map] at hlt
  exact (h.hasNode_iff k).mpr hlt

theorem metaKeyed (h : FileGraph j m r) : r.MetaKeyed where
  node := by
    intro n hn
    obtain ⟨k, hk⟩ := (r.mem_liveNodes n).mp hn
    obtain ⟨e, -, -, hm⟩ := h.of_slot hk
    exact hm.keyed
  global := h.globals.keyed

theorem refsLive (h : FileGraph j m r) : r.RefsLive where
  node := by
    intro n hn e he i hi
    obtain ⟨k, hk⟩ := (r.mem_liveNodes n).mp hn
    obtain ⟨_, -, -, hm⟩ := h.of_slot hk
    obtain ⟨s, hs⟩ := hm.refs e he i hi
    exact h.hasNode_of_lookup hs
  edge := by
    intro p hp e he i hi
    have hmeta : r.edgeMeta p.1 = p.2 := by
      rw [edgeMeta, UMap.getD, (UMap.mem_toPairs p.1 p.2 r.edges).mp hp]
      rfl
    obtain ⟨s, hs⟩ := h.edgeRefs p.1 e.1 e.2 (hmeta ▸ (UMap.mem_toPairs e.1 e.2 p.2).mp he) i hi
    exact h.hasNode_of_lookup hs
  global := by
    intro e he i hi
    obtain ⟨s, hs⟩ := h.globals.refs e he i hi
    exact h.hasNode_of_lookup hs

/-- The graph of a file can be merged from. -/
theorem source (h : FileGraph j m r) : r.Source := ⟨h.wf, h.noErased, h.metaKeyed, h.refsLive⟩

theorem target (h : FileGraph j m r) : r.Target := ⟨h.wf, h.metaKeyed⟩

end FileGraph

end MetaCG
