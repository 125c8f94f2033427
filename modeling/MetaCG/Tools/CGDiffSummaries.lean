import MetaCG.Format.MetaDataCodec
import MetaCG.Format.DotGenerator
import MetaCG.Merge.Result
import MetaCG.Tools.CGDiff

/-! What the summaries of `cgdiff` say about the nodes of a graph.

A graph is summarised iff it has no erased nodes and the metadata that is read refers to live nodes.
The summary under a name is that of the first node of this name; its sets of strings are the printed
pairs of the metadata that is not ignored. -/
namespace MetaCG.CGDiff
open Foundations Callgraph
set_option autoImplicit false
set_option maxHeartbeats 250000
set_option maxRecDepth 120000

/-! ## Names and values -/

/-- The function name of a live node. -/
def nameIn (g : Callgraph) (i : ℕ) : String := (g.nameOf i).getD ""

theorem nameIn_eq {g : Callgraph} {i : ℕ} {n : CgNode} (h : g.slot i = some n) : nameIn g i = n.functionName := by
  rw [nameIn, nameOf, h]
  rfl

theorem getStrFromNode_eq_ok {g : Callgraph} {i : ℕ} {s : String} :
    getStrFromNode g i = .ok s ↔ g.hasNode i = true ∧ s = nameIn g i := by
  constructor
  · intro h
    unfold getStrFromNode at h
    split_ifs at h
    cases hp : g.nodes[i]? with
    | none => rw [hp] at h; cases h
    | some p =>
      cases p with
      | none => rw [hp] at h; cases h
      | some n =>
        rw [hp] at h
        cases h
        have hn : g.slot i = some n := (slot_eq_some_iff g i n).mpr hp
        exact ⟨hasNode_of_slot hn, (nameIn_eq hn).symm⟩
  · rintro ⟨hi, rfl⟩
    obtain ⟨n, hn⟩ := (g.hasNode_iff i).mp hi
    have hlt := slot_lt hn
    rw [getStrFromNode, if_neg (by omega), (slot_eq_some_iff g i n).mp hn, nameIn_eq hn]

/-- The ids of an object are those of live nodes. -/
def RefsIn (g : Callgraph) (md : MetaData) : Prop := ∀ i ∈ md.refs, g.hasNode i = true

theorem toJson_eq_ok {g : Callgraph} {md : MetaData} {j : Json} :
    md.toJson (getStrFromNode g) = .ok j ↔ RefsIn g md ∧ j = md.encode (nameIn g) := by
  constructor
  · intro h
    have hrefs : RefsIn g md := by
      intro i hi
      obtain ⟨s, hs⟩ := MetaData.refs_of_toJson h i hi
      exact (getStrFromNode_eq_ok.mp hs).1
    have heq := MetaData.toJson_eq fun i hi => getStrFromNode_eq_ok.mpr ⟨hrefs i hi, rfl⟩
    rw [heq] at h
    exact ⟨hrefs, (Except.ok.inj h).symm⟩
  · rintro ⟨hrefs, rfl⟩
    exact MetaData.toJson_eq fun i hi => getStrFromNode_eq_ok.mpr ⟨hrefs i hi, rfl⟩

/-! ## Sets of strings -/

def StringSet.elems (s : StringSet) : Set String := {t | t ∈ s}

theorem StringSet.same_iff (a b : StringSet) : a.same b = true ↔ a.elems = b.elems := by
  unfold StringSet.same StringSet.elems
  rw [Bool.and_eq_true, List.all_eq_true, List.all_eq_true, Set.ext_iff]
  simp only [List.contains_iff_mem, Set.mem_ofPred_eq]
  exact ⟨fun h t => ⟨h.1 t, h.2 t⟩, fun h => ⟨fun t => (h t).mp, fun t => (h t).mpr⟩⟩

theorem sameEdgeMetadata_iff (a b : UMap String StringSet) :
    sameEdgeMetadata a b = true ↔ ∀ c, (a.lookup c).map StringSet.elems = (b.lookup c).map StringSet.elems := by
  unfold sameEdgeMetadata
  rw [Bool.and_eq_true, decide_eq_true_iff, List.all_eq_true]
  constructor
  · rintro ⟨hlen, hall⟩
    have hfound : ∀ c sa, a.lookup c = some sa → ∃ sb, b.lookup c = some sb ∧ sa.elems = sb.elems := by
      intro c sa hsa
      have h := hall (c, sa) ((UMap.mem_toPairs c sa a).mpr hsa)
      cases hsb : b.lookup c with
      | none => rw [hsb] at h; cases h
      | some sb =>
        rw [hsb] at h
        exact ⟨sb, rfl, (StringSet.same_iff sa sb).mp h⟩
    have hkeys : a.keys ⊆ b.keys := by
      intro c hc
      obtain ⟨sa, hsa⟩ := (UMap.mem_iff_lookup c a).mp hc
      obtain ⟨sb, hsb, -⟩ := hfound c sa hsa
      exact UMap.mem_of_lookup hsb
    have hperm : a.keys.Perm b.keys := (List.subperm_of_subset a.keys_nodup hkeys).perm_of_length_le (by omega)
    intro c
    cases hsa : a.lookup c with
    | none =>
      have hc : c ∉ b := fun hc => AList.lookup_eq_none.mp hsa (hperm.mem_iff.mpr hc)
      rw [AList.lookup_eq_none.mpr hc]
    | some sa =>
      obtain ⟨sb, hsb, hsame⟩ := hfound c sa hsa
      rw [hsb, Option.map_some, Option.map_some, hsame]
  · intro h
    have hmem : ∀ c, c ∈ a.keys ↔ c ∈ b.keys := by
      intro c
      have hc := congrArg Option.isSome (h c)
      rw [Option.isSome_map, Option.isSome_map] at hc
      rw [← AList.mem_keys, ← AList.mem_keys, ← AList.lookup_isSome, ← AList.lookup_isSome, hc]
    refine ⟨((List.perm_ext_iff_of_nodup a.keys_nodup b.keys_nodup).mpr hmem).length_eq, fun e he => ?_⟩
    have hc := h e.1
    rw [(UMap.mem_toPairs e.1 e.2 a).mp he, Option.map_some] at hc
    obtain ⟨sb, hsb, hsame⟩ := Option.map_eq_some_iff.mp hc.symm
    rw [hsb]
    exact (StringSet.same_iff e.2 sb).mpr hsame.symm

section
variable {g : Callgraph}
variable (dump : Json → String) (sortJson : List Json → List Json) (ignoredMdKeys : List String) (order : Dot.HashOrder)
  (mode : ComparisonMode)

/-! ## What is seen of metadata -/

/-- The pairs of key and value of a container, without the ignored keys. -/
def seen (arrange : Json → Json) (g : Callgraph) (fields : NamedMetadata) : Set (String × Json) :=
  {e | e.1 ∉ ignoredMdKeys ∧ ∃ md, fields.lookup e.1 = some md ∧ e.2 = arrange (md.encode (nameIn g))}

def text (e : String × Json) : String := e.1 ++ ":" ++ dump e.2

def texts (arrange : Json → Json) (g : Callgraph) (fields : NamedMetadata) : Set String :=
  text dump '' seen ignoredMdKeys arrange g fields

theorem mem_addMetadata (set : StringSet) (key value t : String) :
    t ∈ addMetadata ignoredMdKeys set key value ↔ t ∈ set ∨ key ∉ ignoredMdKeys ∧ t = key ++ ":" ++ value := by
  unfold addMetadata
  split_ifs with hk
  · exact ⟨.inl, fun h => h.resolve_right fun h => h.1 hk⟩
  · rw [List.mem_insert_iff, or_comm, and_iff_right hk]

/-- The loops over a metadata container. -/
def collectMetadata (arrange : Json → Json) (g : Callgraph) (fields : NamedMetadata) : Except Exn StringSet :=
  (UMap.toPairs fields).foldlM (fun set metadata => do
    let json ← metadata.2.toJson (getStrFromNode g)
    return addMetadata ignoredMdKeys set metadata.1 (dump (arrange json))) []

theorem collectMetadata_eq_ok {arrange : Json → Json} {g : Callgraph} {fields : NamedMetadata} {set : StringSet}
    (h : collectMetadata dump ignoredMdKeys arrange g fields = .ok set) :
    set.elems = texts dump ignoredMdKeys arrange g fields := by
  have hmem : ∀ t, t ∈ set ↔ ∃ e ∈ UMap.toPairs fields,
      e.1 ∉ ignoredMdKeys ∧ t = e.1 ++ ":" ++ dump (arrange (e.2.encode (nameIn g))) := by
    refine foldlM_ok_inv (J := fun pre (s : StringSet) => ∀ t, t ∈ s ↔ ∃ e ∈ pre,
      e.1 ∉ ignoredMdKeys ∧ t = e.1 ++ ":" ++ dump (arrange (e.2.encode (nameIn g)))) (by simp) ?_ h
    intro pre e s s' _ hpre hstep t
    obtain ⟨j, hj, hs⟩ := bind_eq_ok.mp hstep
    obtain ⟨-, rfl⟩ := toJson_eq_ok.mp hj
    rw [← Except.ok.inj hs, mem_addMetadata, hpre]
    simp only [List.mem_append, List.mem_singleton, or_and_right, exists_or, exists_eq_left]
  ext t
  change t ∈ set ↔ _
  rw [hmem]
  constructor
  · rintro ⟨e, he, hk, rfl⟩
    exact ⟨(e.1, _), ⟨hk, e.2, (UMap.mem_toPairs e.1 e.2 fields).mp he, rfl⟩, rfl⟩
  · rintro ⟨⟨k, j⟩, ⟨hk, md, hmd, rfl⟩, rfl⟩
    exact ⟨(k, md), (UMap.mem_toPairs k md fields).mpr hmd, hk, rfl⟩

theorem collectMetadata_isOk (arrange : Json → Json) (g : Callgraph) (fields : NamedMetadata) :
    (∃ set, collectMetadata dump ignoredMdKeys arrange g fields = .ok set) ↔
      ∀ e ∈ UMap.toPairs fields, RefsIn g e.2 := by
  constructor
  · rintro ⟨set, h⟩ e he
    obtain ⟨s, s', hstep⟩ := foldlM_ok_mem h e he
    obtain ⟨j, hj, -⟩ := bind_eq_ok.mp hstep
    exact (toJson_eq_ok.mp hj).1
  · intro h
    have hrun := foldlM_eq_foldl (f := fun set (metadata : String × MetaData) => do
      let json ← metadata.2.toJson (getStrFromNode g)
      return addMetadata ignoredMdKeys set metadata.1 (dump (arrange json)))
      (h := fun set e => addMetadata ignoredMdKeys set e.1 (dump (arrange (e.2.encode (nameIn g)))))
      (fun s e he => by rw [toJson_eq_ok.mpr ⟨h e he, rfl⟩]; rfl) []
    exact ⟨_, hrun⟩

/-! ## One node -/

/-- A callee of this name. -/
def CallsNamed (g : Callgraph) (u : ℕ) (c : String) : Prop := ∃ v, (u, v) ∈ g.edges ∧ g.nameOf v = some c

/-- The callee of this name whose edge is met first. -/
def firstCallee (g : Callgraph) (u : ℕ) (c : String) : Option ℕ :=
  (order.neighbours (g.callees u)).find? fun v => decide (g.nameOf v = some c)

theorem firstCallee_isSome (h : g.Wf) (u : ℕ) (c : String) :
    (firstCallee order g u c).isSome = true ↔ CallsNamed g u c := by
  rw [firstCallee, List.find?_isSome]
  simp only [Dot.mem_calleeNeighbours h, decide_eq_true_eq, CallsNamed]

/-- `s` is the summary of the node `n`. -/
structure Summarises (g : Callgraph) (n : CgNode) (s : NodeSummary) : Prop where
  name : s.name = n.functionName
  hasBody : s.hasBody = n.hasBody
  callees : ∀ c, c ∈ s.callees ↔ CallsNamed g n.id c
  metadata : mode.ignoreMetadata = false →
    s.metadata.elems = texts dump ignoredMdKeys (sortArrays sortJson) g n.metaFields
  edgeMetadata : mode.ignoreEdgeMetadata = false → ∀ c, (s.edgeMetadata.lookup c).map StringSet.elems =
    (firstCallee order g n.id c).map fun v => texts dump ignoredMdKeys id g (g.edgeMeta (n.id, v))

/-- The metadata that is read for the summary of a node refers to live nodes. -/
structure NodeReadable (g : Callgraph) (n : CgNode) : Prop where
  metadata : mode.ignoreMetadata = false → ∀ e ∈ UMap.toPairs n.metaFields, RefsIn g e.2
  edgeMetadata : mode.ignoreEdgeMetadata = false → ∀ v, (n.id, v) ∈ g.edges →
    ∀ e ∈ UMap.toPairs (g.edgeMeta (n.id, v)), RefsIn g e.2

theorem calleeNames_eq (g : Callgraph) {ids : List ℕ} (hlive : ∀ i ∈ ids, g.hasNode i = true) :
    (ids.map g.slot).mapM calleeName = .ok (ids.map (nameIn g)) := by
  induction ids with
  | nil => rfl
  | cons i ids ih =>
    obtain ⟨n, hn⟩ := (g.hasNode_iff i).mp (hlive i (List.mem_cons_self ..))
    rw [List.map_cons, List.mapM_cons, ih fun k hk => hlive k (List.mem_cons_of_mem i hk), List.map_cons, nameIn_eq hn, hn]
    rfl

theorem mem_calleeNames (h : g.Wf) (u : ℕ) (c : String) :
    c ∈ ((order.neighbours (g.callees u)).map (nameIn g)).dedup ↔ CallsNamed g u c := by
  rw [List.mem_dedup, List.mem_map]
  simp only [Dot.mem_calleeNeighbours h, CallsNamed]
  refine exists_congr fun v => and_congr_right fun hv => ?_
  obtain ⟨n, hn⟩ := (g.hasNode_iff v).mp (h.edge_live u v hv).2
  rw [nameIn_eq hn, nameOf, hn, Option.map_some, Option.some_inj]

/-- `emplace` and `insert`: an entry that is there stays. -/
theorem lookup_emplace {ν : Type} (m : UMap String ν) (k c : String) (x : ν) :
    (if k ∈ m then m else m.insert k x).lookup c = (m.lookup c).or (if c = k then some x else none) := by
  split_ifs with hk hc hc
  · subst hc
    obtain ⟨y, hy⟩ := (UMap.mem_iff_lookup c m).mp hk
    rw [hy, Option.some_or]
  · rw [Option.or_none]
  · subst hc
    rw [AList.lookup_insert, AList.lookup_eq_none.mpr hk, Option.none_or]
  · rw [AList.lookup_insert_ne hc, Option.or_none]

/-- The edge metadata of one callee. -/
theorem collectEdgeMetaData_eq (h : g.Wf) {u v : ℕ} (hv : (u, v) ∈ g.edges) (m : UMap String StringSet) :
    collectEdgeMetaData dump ignoredMdKeys g u m (g.slot v) = do
      let emd ← collectMetadata dump ignoredMdKeys id g (g.edgeMeta (u, v))
      return if nameIn g v ∈ m then m else m.insert (nameIn g v) emd := by
  obtain ⟨n, hn⟩ := (g.hasNode_iff v).mp (h.edge_live u v hv).2
  obtain ⟨fields, hfields⟩ := (UMap.mem_iff_lookup _ _).mp hv
  rw [hn, collectEdgeMetaData, h.node_id v n hn, getAllEdgeMetaData, hfields, ok_bind, edgeMeta, UMap.getD, hfields,
    nameIn_eq hn]
  rfl

theorem collectAllEdgeMetaData_eq_ok (h : g.Wf) {u : ℕ} {m : UMap String StringSet} (hmode : mode.ignoreEdgeMetadata = false)
    (hrun : collectAllEdgeMetaData dump ignoredMdKeys mode g u ((order.neighbours (g.callees u)).map g.slot) = .ok m) (c : String) :
    (m.lookup c).map StringSet.elems =
      (firstCallee order g u c).map fun v => texts dump ignoredMdKeys id g (g.edgeMeta (u, v)) := by
  rw [collectAllEdgeMetaData, hmode, if_neg (by simp), List.foldlM_map] at hrun
  refine foldlM_ok_inv (J := fun pre (m : UMap String StringSet) => ∀ c, (m.lookup c).map StringSet.elems =
    (pre.find? fun v => decide (g.nameOf v = some c)).map fun v => texts dump ignoredMdKeys id g (g.edgeMeta (u, v)))
    (fun c => rfl) ?_ hrun c
  intro pre v m m' hpre hm hstep c
  have hv : (u, v) ∈ g.edges := (Dot.mem_calleeNeighbours h order u v).mp (hpre.subset (by simp))
  obtain ⟨n, hn⟩ := (g.hasNode_iff v).mp (h.edge_live u v hv).2
  have hname : g.nameOf v = some (nameIn g v) := by rw [nameIn_eq hn, nameOf, hn]; rfl
  rw [collectEdgeMetaData_eq dump ignoredMdKeys h hv] at hstep
  obtain ⟨emd, hemd, hstep⟩ := bind_eq_ok.mp hstep
  have hnew := collectMetadata_eq_ok dump ignoredMdKeys hemd
  rw [← Except.ok.inj hstep, lookup_emplace, List.find?_append, Option.map_or, Option.map_or, hm]
  congr 1
  by_cases hc : c = nameIn g v
  · rw [if_pos hc, List.find?_cons_of_pos (by rw [hname, hc]; exact decide_eq_true rfl), Option.map_some, Option.map_some, hnew]
  · rw [if_neg hc, List.find?_cons_of_neg (by rw [hname]; simpa using Ne.symm hc)]
    rfl

theorem collectAllEdgeMetaData_isOk (h : g.Wf) (u : ℕ) :
    (∃ m, collectAllEdgeMetaData dump ignoredMdKeys mode g u ((order.neighbours (g.callees u)).map g.slot) = .ok m) ↔
      (mode.ignoreEdgeMetadata = false → ∀ v, (u, v) ∈ g.edges → ∀ e ∈ UMap.toPairs (g.edgeMeta (u, v)), RefsIn g e.2) := by
  unfold collectAllEdgeMetaData
  cases hmode : mode.ignoreEdgeMetadata with
  | true => simp
  | false =>
    rw [if_neg (by simp), List.foldlM_map, forall_prop_of_true (rfl : false = false)]
    constructor
    · rintro ⟨m, hrun⟩ v hv
      obtain ⟨s, s', hstep⟩ := foldlM_ok_mem hrun v ((Dot.mem_calleeNeighbours h order u v).mpr hv)
      rw [collectEdgeMetaData_eq dump ignoredMdKeys h hv] at hstep
      obtain ⟨emd, hemd, -⟩ := bind_eq_ok.mp hstep
      exact (collectMetadata_isOk dump ignoredMdKeys id g _).mp ⟨emd, hemd⟩
    · intro hrefs
      obtain ⟨m, hrun, -⟩ := foldlM_total (f := fun m v => collectEdgeMetaData dump ignoredMdKeys g u m (g.slot v))
        (J := fun _ _ => True) (l := order.neighbours (g.callees u)) (s := ∅) trivial (fun pre v m hpre _ => by
          have hv : (u, v) ∈ g.edges := (Dot.mem_calleeNeighbours h order u v).mp (hpre.subset (by simp))
          obtain ⟨emd, hemd⟩ := (collectMetadata_isOk dump ignoredMdKeys id g _).mpr (hrefs v hv)
          rw [collectEdgeMetaData_eq dump ignoredMdKeys h hv, hemd]
          exact ⟨_, rfl, trivial⟩)
      exact ⟨m, hrun⟩

theorem collectNodeMetaData_eq_ok {fields : NamedMetadata} {set : StringSet} (hmode : mode.ignoreMetadata = false)
    (h : collectNodeMetaData dump sortJson ignoredMdKeys mode g fields = .ok set) :
    set.elems = texts dump ignoredMdKeys (sortArrays sortJson) g fields := by
  rw [collectNodeMetaData, hmode, if_neg (by simp)] at h
  exact collectMetadata_eq_ok dump ignoredMdKeys h

theorem collectNodeMetaData_isOk (fields : NamedMetadata) :
    (∃ set, collectNodeMetaData dump sortJson ignoredMdKeys mode g fields = .ok set) ↔
      (mode.ignoreMetadata = false → ∀ e ∈ UMap.toPairs fields, RefsIn g e.2) := by
  unfold collectNodeMetaData
  cases hmode : mode.ignoreMetadata with
  | true => simp
  | false =>
    rw [if_neg (by simp), forall_prop_of_true (rfl : false = false)]
    exact collectMetadata_isOk dump ignoredMdKeys (sortArrays sortJson) g fields

/-- One round: the node is summarised iff it is readable, and an earlier node of its name keeps its place. -/
theorem collectNode_eq_ok (h : g.Wf) (n : CgNode) {nodes nodes' : UMap String NodeSummary}
    (hrun : collectNode dump sortJson ignoredMdKeys order mode g nodes (some n) = .ok nodes') :
    NodeReadable mode g n ∧ ∃ s, Summarises dump sortJson ignoredMdKeys order mode g n s ∧
      nodes' = if n.functionName ∈ nodes then nodes else nodes.insert n.functionName s := by
  have hlive : ∀ i ∈ order.neighbours (g.callees n.id), g.hasNode i = true := fun i hi =>
    (h.edge_live n.id i ((Dot.mem_calleeNeighbours h order n.id i).mp hi)).2
  rw [collectNode, Dot.getNeighbours_eq hlive, ok_bind, calleeNames_eq g hlive, ok_bind] at hrun
  obtain ⟨edgeMetaData, hedge, hrun⟩ := bind_eq_ok.mp hrun
  obtain ⟨nodeMetadata, hnode, hrun⟩ := bind_eq_ok.mp hrun
  refine ⟨⟨(collectNodeMetaData_isOk dump sortJson ignoredMdKeys mode _).mp ⟨_, hnode⟩,
    (collectAllEdgeMetaData_isOk dump ignoredMdKeys order mode h n.id).mp ⟨_, hedge⟩⟩, _, ?_, (Except.ok.inj hrun).symm⟩
  exact {
    name := rfl
    hasBody := rfl
    callees := fun c => mem_calleeNames order h n.id c
    metadata := fun hmode => collectNodeMetaData_eq_ok dump sortJson ignoredMdKeys mode hmode hnode
    edgeMetadata := fun hmode c => collectAllEdgeMetaData_eq_ok dump ignoredMdKeys order mode h hmode hedge c }

theorem collectNode_total (h : g.Wf) {n : CgNode} (hn : NodeReadable mode g n) (nodes : UMap String NodeSummary) :
    ∃ nodes', collectNode dump sortJson ignoredMdKeys order mode g nodes (some n) = .ok nodes' := by
  have hlive : ∀ i ∈ order.neighbours (g.callees n.id), g.hasNode i = true := fun i hi =>
    (h.edge_live n.id i ((Dot.mem_calleeNeighbours h order n.id i).mp hi)).2
  obtain ⟨edgeMetaData, hedge⟩ := (collectAllEdgeMetaData_isOk dump ignoredMdKeys order mode h n.id).mpr hn.edgeMetadata
  obtain ⟨nodeMetadata, hnode⟩ := (collectNodeMetaData_isOk dump sortJson ignoredMdKeys mode _).mpr hn.metadata
  rw [collectNode, Dot.getNeighbours_eq hlive, ok_bind, calleeNames_eq g hlive, ok_bind, hedge, ok_bind, hnode]
  exact ⟨_, rfl⟩

/-! ## All nodes -/

/-- Everything that is read for the summaries of a graph is there. -/
structure Readable (g : Callgraph) : Prop where
  noErased : g.NoErased
  node : ∀ n ∈ g.liveNodes, NodeReadable mode g n

theorem readable_of_refsLive (hn : g.NoErased) (hr : g.RefsLive) : Readable mode g where
  noErased := hn
  node := by
    intro n hmem
    refine ⟨fun _ => hr.node n hmem, fun _ v hv => ?_⟩
    obtain ⟨fields, hfields⟩ := (UMap.mem_iff_lookup _ _).mp hv
    rw [edgeMeta, UMap.getD, hfields]
    exact hr.edge (_, fields) ((UMap.mem_toPairs _ fields _).mpr hfields)

/-- The first node of a name. -/
def firstNode (g : Callgraph) (name : String) : Option CgNode := g.liveNodes.find? fun n => decide (n.functionName = name)

theorem firstNode_eq_some {name : String} {n : CgNode} (h : firstNode g name = some n) : n ∈ g.liveNodes ∧ n.functionName = name := by
  unfold firstNode at h
  exact ⟨List.mem_of_find?_eq_some h, by simpa using List.find?_some h⟩

/-- A name has the summary of its first node. -/
def Summarised (g : Callgraph) (nodes : UMap String NodeSummary) : Prop :=
  ∀ name, Option.Rel (Summarises dump sortJson ignoredMdKeys order mode g) (firstNode g name) (nodes.lookup name)

theorem Summarised.isSome {nodes : UMap String NodeSummary} (h : Summarised dump sortJson ignoredMdKeys order mode g nodes)
    (name : String) : (firstNode g name).isSome = (nodes.lookup name).isSome := by
  have hrel := h name
  generalize firstNode g name = f at hrel ⊢
  generalize nodes.lookup name = l at hrel ⊢
  cases hrel <;> rfl

theorem collectNodeSummaries_eq_ok (h : g.Wf) {nodes : UMap String NodeSummary}
    (hrun : collectNodeSummaries dump sortJson ignoredMdKeys order mode g = .ok nodes) :
    Readable mode g ∧ Summarised dump sortJson ignoredMdKeys order mode g nodes := by
  have hn : g.NoErased := by
    rintro p hp rfl
    obtain ⟨s, s', hstep⟩ := foldlM_ok_mem hrun none hp
    cases hstep
  rw [collectNodeSummaries, hn.nodes_eq, List.foldlM_map] at hrun
  refine ⟨⟨hn, fun n hmem => ?_⟩, ?_⟩
  · obtain ⟨s, s', hstep⟩ := foldlM_ok_mem hrun n hmem
    exact (collectNode_eq_ok dump sortJson ignoredMdKeys order mode h n hstep).1
  · refine foldlM_ok_inv (J := fun pre (nodes : UMap String NodeSummary) => ∀ name,
      Option.Rel (Summarises dump sortJson ignoredMdKeys order mode g)
        (pre.find? fun n => decide (n.functionName = name)) (nodes.lookup name)) (fun name => .none) ?_ hrun
    intro pre n nodes nodes' _ hpre hstep name
    obtain ⟨-, s, hs, rfl⟩ := collectNode_eq_ok dump sortJson ignoredMdKeys order mode h n hstep
    rw [lookup_emplace, List.find?_append]
    have hrel := hpre name
    cases hf : pre.find? fun n => decide (n.functionName = name) with
    | some m =>
      rw [hf] at hrel
      cases hl : nodes.lookup name with
      | none => rw [hl] at hrel; cases hrel
      | some sm => rw [hl] at hrel; exact hrel
    | none =>
      rw [hf] at hrel
      cases hl : nodes.lookup name with
      | some sm => rw [hl] at hrel; cases hrel
      | none =>
        rw [Option.none_or, Option.none_or]
        by_cases hname : name = n.functionName
        · rw [if_pos hname, List.find?_cons_of_pos (by rw [hname]; exact decide_eq_true rfl)]
          exact .some hs
        · rw [if_neg hname, List.find?_cons_of_neg (by simpa using Ne.symm hname)]
          exact .none

theorem collectNodeSummaries_total (h : g.Wf) (hg : Readable mode g) :
    ∃ nodes, collectNodeSummaries dump sortJson ignoredMdKeys order mode g = .ok nodes := by
  obtain ⟨nodes, hrun, -⟩ := foldlM_total
    (f := fun nodes n => collectNode dump sortJson ignoredMdKeys order mode g nodes (some n))
    (J := fun _ _ => True) (l := g.liveNodes) (s := ∅) trivial (fun pre n nodes hpre _ => by
      obtain ⟨nodes', hstep⟩ := collectNode_total dump sortJson ignoredMdKeys order mode h
        (hg.node n (hpre.subset (by simp))) nodes
      exact ⟨nodes', hstep, trivial⟩)
  refine ⟨nodes, ?_⟩
  rw [collectNodeSummaries, hg.noErased.nodes_eq, List.foldlM_map]
  exact hrun

end
end MetaCG.CGDiff
