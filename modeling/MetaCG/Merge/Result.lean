import MetaCG.Merge.EdgeClash
import MetaCG.Merge.MetaLoop

/-! What `merge` with the policy `MergeByName` returns, and when it returns.

The three loops after the node loop are put together: `Merged` collects what holds of a result, and
`merge_ok_iff` says that the only obstacle is edge metadata that clashes. Edges are compared by the
names of their ends, since every target edge of the loop joins the first nodes of two names. -/
namespace MetaCG
open Foundations
set_option autoImplicit false
set_option maxHeartbeats 250000
set_option maxRecDepth 120000

namespace Callgraph

/-! ## Edges by name -/

def nameOf (g : Callgraph) (i : ℕ) : Option String := (g.slot i).map CgNode.functionName

def hasName (g : Callgraph) (name : String) : Bool := (g.firstNamed name).isSome

/-- The edges between nodes of two names, in iteration order. -/
def edgesNamed (g : Callgraph) (caller callee : String) : List SourceEdge :=
  (UMap.toPairs g.edges).filter fun e =>
    decide (g.nameOf e.1.1 = some caller ∧ g.nameOf e.1.2 = some callee)

/-- The metadata of the edge between the first nodes of two names. -/
def metaNamed (g : Callgraph) (caller callee : String) : NamedMetadata :=
  match g.firstNamed caller, g.firstNamed callee with
  | some a, some b => g.edgeMeta (a, b)
  | _, _ => ∅

/-- The entries on the edges between two names. A source node has a merge action iff its name is
known to the target, or it is not the first source node of its name. -/
def entriesNamed (known : String → Bool) (g : Callgraph) (caller callee : String) : List (Bool × KindEntry) :=
  ((g.edgesNamed caller callee).flatMap entriesOf).map fun x =>
    (known caller || decide (g.firstNamed caller ≠ some x.1), kindOf x)

/-- The edge metadata of `S` can be merged into `T`. -/
def EdgeMetaMergeable (T S : Callgraph) : Prop :=
  ∀ caller callee, (kindsOf (T.metaNamed caller callee)).NoClash (S.entriesNamed T.hasName caller callee)

theorem hasName_iff {g : Callgraph} (h : g.Wf) (name : String) :
    g.hasName name = true ↔ ∃ n ∈ g.liveNodes, n.functionName = name := by
  rw [hasName, Option.isSome_iff_exists]
  constructor
  · rintro ⟨t, ht⟩
    obtain ⟨n, hn, hname⟩ := h.slot_firstNamed ht
    exact ⟨n, (g.mem_liveNodes n).mpr ⟨t, hn⟩, hname⟩
  · rintro ⟨n, hn, hname⟩
    have hmem := (h.mem_named name n.id).mpr ⟨n, h.slot_of_mem hn, hname⟩
    cases hf : g.firstNamed name with
    | none =>
      rw [(g.firstNamed_eq_none_iff name).mp hf] at hmem
      cases hmem
    | some t => exact ⟨t, rfl⟩

theorem nameOf_of_mem {g : Callgraph} (h : g.Wf) {n : CgNode} (hn : n ∈ g.liveNodes) :
    g.nameOf n.id = some n.functionName := by
  rw [nameOf, h.slot_of_mem hn]
  rfl

/-- The ends of an edge are live nodes. -/
theorem Wf.edge_nodes {g : Callgraph} (h : g.Wf) {e : SourceEdge} (he : e ∈ UMap.toPairs g.edges) :
    ∃ a ∈ g.liveNodes, ∃ b ∈ g.liveNodes, a.id = e.1.1 ∧ b.id = e.1.2 := by
  have hmem : e.1 ∈ g.edges := UMap.mem_of_lookup ((UMap.mem_toPairs e.1 e.2 g.edges).mp he)
  obtain ⟨hu, hv⟩ := h.edge_live e.1.1 e.1.2 hmem
  obtain ⟨a, ha⟩ := (g.hasNode_iff _).mp hu
  obtain ⟨b, hb⟩ := (g.hasNode_iff _).mp hv
  exact ⟨a, (g.mem_liveNodes a).mpr ⟨_, ha⟩, b, (g.mem_liveNodes b).mpr ⟨_, hb⟩, h.node_id _ _ ha,
    h.node_id _ _ hb⟩

/-- The first node of a name is the one that no earlier node shares it with. -/
theorem Wf.firstNamed_eq_iff {g : Callgraph} (h : g.Wf) {s : CgNode} (hs : s ∈ g.liveNodes) :
    g.firstNamed s.functionName = some s.id ↔
      ∀ n ∈ g.liveNodes, n.id < s.id → n.functionName ≠ s.functionName := by
  have hslot := h.slot_of_mem hs
  rw [firstNamed, h.names, List.head?_filter, List.find?_range_eq_some]
  constructor
  · rintro ⟨-, -, hbefore⟩ n hn hlt he
    have := hbefore n.id hlt
    rw [Bool.not_eq_true', ← Bool.not_eq_true, isNamed_iff] at this
    exact this ⟨n, h.slot_of_mem hn, he⟩
  · intro hno
    refine ⟨(isNamed_iff ..).mpr ⟨s, hslot, rfl⟩, List.mem_range.mpr (slot_lt hslot), fun j hj => ?_⟩
    rw [Bool.not_eq_true', ← Bool.not_eq_true, isNamed_iff]
    rintro ⟨n, hn, he⟩
    have hid := h.node_id j n hn
    exact hno n ((g.mem_liveNodes n).mpr ⟨j, hn⟩) (by omega) he

/-! ## The edge loop after the node loop -/

section AfterNodes
variable {T S g : Callgraph} {r : MergeRecorder}

theorem NodesMerged.first_cases (h : NodesMerged T S.liveNodes g r) {name : String} {a : ℕ}
    (ha : g.firstNamed name = some a) :
    T.firstNamed name = some a ∨ (T.firstNamed name = none ∧ T.nodes.length ≤ a) := by
  by_cases hT : T.getNodesNamed name = []
  · have hnew := h.new_names name hT
    split_ifs at hnew with hS
    · obtain ⟨i, hi, hl⟩ := hnew
      rw [firstNamed, hl] at ha
      cases ha
      exact .inr ⟨(T.firstNamed_eq_none_iff name).mpr hT, hi⟩
    · rw [firstNamed, hnew] at ha
      cases ha
  · left
    rw [firstNamed, ← h.kept_names name hT]
    exact ha

theorem NodesMerged.hasName (hT : T.Wf) (hS : S.Wf) (h : NodesMerged T S.liveNodes g r) (name : String) :
    g.hasName name = (T.hasName name || S.hasName name) := by
  rw [Bool.eq_iff_iff, Bool.or_eq_true]
  constructor
  · intro hg
    obtain ⟨a, ha⟩ := Option.isSome_iff_exists.mp hg
    rcases h.first_cases ha with hTa | ⟨hTn, -⟩
    · exact .inl (by rw [Callgraph.hasName, hTa]; rfl)
    · have hnew := h.new_names name ((T.firstNamed_eq_none_iff name).mp hTn)
      split_ifs at hnew with hex
      · exact .inr ((hasName_iff hS name).mpr hex)
      · rw [firstNamed, hnew] at ha
        cases ha
  · rintro (hTn | hSn)
    · obtain ⟨n, hn, hname⟩ := (hasName_iff hT name).mp hTn
      obtain ⟨i, hi⟩ := (T.mem_liveNodes n).mp hn
      obtain ⟨n', hn', he, -⟩ := h.old i n hi
      exact (hasName_iff h.wf name).mpr ⟨n', (g.mem_liveNodes n').mpr ⟨i, hn'⟩, he.trans hname⟩
    · obtain ⟨s, hs, hname⟩ := (hasName_iff hS name).mp hSn
      obtain ⟨t, ht⟩ := h.first_some hs
      rw [Callgraph.hasName, ← hname, ht]
      rfl

theorem NodesMerged.mapped_first (h : NodesMerged T S.liveNodes g r) {s : CgNode}
    (hs : s ∈ S.liveNodes) : ∃ t n, r.mapping.lookup s.id = some t ∧ g.firstNamed s.functionName = some t ∧
      g.slot t = some n ∧ n.functionName = s.functionName := by
  obtain ⟨t, ht⟩ := h.first_some hs
  obtain ⟨n, hn, hname⟩ := h.wf.slot_firstNamed ht
  exact ⟨t, n, by rw [h.mapped s hs, ht], ht, hn, hname⟩

theorem NodesMerged.mapped_iff (h : NodesMerged T S.liveNodes g r) {s : CgNode} (hs : s ∈ S.liveNodes)
    {name : String} {a : ℕ} (ha : g.firstNamed name = some a) :
    UMap.getD r.mapping s.id 0 = a ↔ s.functionName = name := by
  obtain ⟨t, ht⟩ := h.first_some hs
  have hget : UMap.getD r.mapping s.id 0 = t := by rw [UMap.getD, h.mapped s hs, ht]; rfl
  rw [hget]
  constructor
  · rintro rfl
    obtain ⟨n, hn, hname⟩ := h.wf.slot_firstNamed ht
    obtain ⟨n', hn', hname'⟩ := h.wf.slot_firstNamed ha
    rw [hn] at hn'
    cases hn'
    rw [← hname, hname']
  · rintro rfl
    rw [ht] at ha
    exact Option.some.inj ha

theorem NodesMerged.endsMapped (hS : S.Wf) (h : NodesMerged T S.liveNodes g r) :
    ∀ e ∈ UMap.toPairs S.edges, EndsMapped r g e := by
  intro e he
  obtain ⟨a, ha, b, hb, hida, hidb⟩ := hS.edge_nodes he
  obtain ⟨t, n, ht, -, hn, -⟩ := h.mapped_first ha
  obtain ⟨t', n', ht', -, hn', -⟩ := h.mapped_first hb
  exact ⟨t, t', by rw [← hida, ht], by rw [← hidb, ht'], hasNode_of_slot hn, hasNode_of_slot hn'⟩

/-- The source edges that arrive at a target edge are those between the names of its ends. -/
theorem NodesMerged.itemsOf_edges (hS : S.Wf) (h : NodesMerged T S.liveNodes g r) {n₁ n₂ : String} {a b : ℕ}
    (ha : g.firstNamed n₁ = some a) (hb : g.firstNamed n₂ = some b) :
    itemsOf (edgeTarget r) (UMap.toPairs S.edges) (a, b) = S.edgesNamed n₁ n₂ := by
  refine List.filter_congr fun e he => ?_
  obtain ⟨x, hx, y, hy, hidx, hidy⟩ := hS.edge_nodes he
  rw [decide_eq_decide, edgeTarget, Prod.mk.injEq, ← hidx, ← hidy, h.mapped_iff hx ha, h.mapped_iff hy hb,
    nameOf_of_mem hS hx, nameOf_of_mem hS hy, Option.some.injEq, Option.some.injEq]

theorem NodesMerged.edgeMeta_first (hT : T.Wf) (h : NodesMerged T S.liveNodes g r) {n₁ n₂ : String} {a b : ℕ}
    (ha : g.firstNamed n₁ = some a) (hb : g.firstNamed n₂ = some b) :
    g.edgeMeta (a, b) = T.metaNamed n₁ n₂ := by
  have hg : g.edgeMeta (a, b) = T.edgeMeta (a, b) := by rw [edgeMeta, h.edges, edgeMeta]
  rw [hg, metaNamed]
  rcases h.first_cases ha with hTa | ⟨hTa, hlen⟩
  · rcases h.first_cases hb with hTb | ⟨hTb, hlen⟩
    · simp only [hTa, hTb]
    · simp only [hTa, hTb]
      exact edgeMeta_of_notMem fun hmem => by have := (hT.edge_lt hmem).2; omega
  · simp only [hTa]
    exact edgeMeta_of_notMem fun hmem => by have := (hT.edge_lt hmem).1; omega

/-- Which source nodes have a merge action. -/
theorem NodesMerged.action_iff (hS : S.Wf) (h : NodesMerged T S.liveNodes g r) {s : CgNode}
    (hs : s ∈ S.liveNodes) : (r.getAction s.id).isSome =
      (T.hasName s.functionName || decide (S.firstNamed s.functionName ≠ some s.id)) := by
  obtain ⟨pre, post, hl⟩ := List.append_of_mem hs
  have hnone := h.action pre s post hl
  have hbefore := hS.id_lt_of_split hl
  have hfirst : S.firstNamed s.functionName = some s.id ↔ ∀ s' ∈ pre, s'.functionName ≠ s.functionName := by
    rw [hS.firstNamed_eq_iff hs]
    constructor
    · intro hno s' hs'
      have hmem : s' ∈ S.liveNodes := by rw [hl]; exact List.mem_append_left _ hs'
      exact hno s' hmem ((hbefore s' hmem).mp hs')
    · exact fun hno n hn hlt => hno n ((hbefore n hn).mpr hlt)
  rw [← hfirst, ← firstNamed_eq_none_iff] at hnone
  rw [Bool.eq_iff_iff, Option.isSome_iff_ne_none, ne_eq, hnone, Bool.or_eq_true, decide_eq_true_eq,
    Callgraph.hasName, Option.isSome_iff_ne_none, not_and_or]

theorem NodesMerged.flagged_entries (hS : S.Wf) (h : NodesMerged T S.liveNodes g r) (n₁ n₂ : String) :
    ((S.edgesNamed n₁ n₂).flatMap entriesOf).map (flagged r) = S.entriesNamed T.hasName n₁ n₂ := by
  refine List.map_congr_left fun x hx => ?_
  obtain ⟨e, he, hxe⟩ := List.mem_flatMap.mp hx
  obtain ⟨he, hname⟩ := List.mem_filter.mp he
  obtain ⟨a, ha, -, -, hida, -⟩ := hS.edge_nodes he
  obtain ⟨y, -, rfl⟩ := List.mem_map.mp hxe
  have hna : a.functionName = n₁ := by
    have h1 := (of_decide_eq_true hname).1
    rw [← hida, nameOf_of_mem hS ha] at h1
    exact Option.some.inj h1
  change ((r.getAction e.1.1).isSome, _) = (T.hasName n₁ || decide (S.firstNamed n₁ ≠ some e.1.1), _)
  rw [← hida, h.action_iff hS ha, hna]

/-- Every id stored in the metadata of the source is mapped. -/
theorem NodesMerged.mapped_refs (hS : S.Wf) (h : NodesMerged T S.liveNodes g r) {ids : List ℕ}
    (hids : ∀ i ∈ ids, S.hasNode i = true) : Mapped r.mapping ids := by
  intro i hi
  obtain ⟨n, hn⟩ := (S.hasNode_iff i).mp (hids i hi)
  obtain ⟨t, -, ht, -⟩ := h.mapped_first ((S.mem_liveNodes n).mpr ⟨i, hn⟩)
  rw [hS.node_id i n hn] at ht
  exact ⟨t, ht⟩

theorem NodesMerged.edge_refs (hS : S.Wf) (hrefs : S.RefsLive) (h : NodesMerged T S.liveNodes g r)
    (p : ℕ × ℕ) : ∀ x ∈ edgeEntries r p (UMap.toPairs S.edges), Mapped r.mapping x.2.2.refs := by
  intro x hx
  obtain ⟨e, he, hxe⟩ := List.mem_flatMap.mp hx
  obtain ⟨y, hy, rfl⟩ := List.mem_map.mp hxe
  exact h.mapped_refs hS (hrefs.edge e (List.mem_filter.mp he).1 y hy)

/-- The edge loop returns iff the edge metadata can be merged. -/
theorem NodesMerged.edgeLoop_ok_iff (hT : T.Wf) (hS : S.Wf) (hrefs : S.RefsLive)
    (h : NodesMerged T S.liveNodes g r) :
    (∃ g', (UMap.toPairs S.edges).foldlM (mergeEdge r) g = .ok g') ↔ EdgeMetaMergeable T S := by
  rw [mergeEdges_ok_iff (h.endsMapped hS)]
  have hcell : ∀ {n₁ n₂ a b}, g.firstNamed n₁ = some a → g.firstNamed n₂ = some b →
      ((∃ fields, (edgeEntries r (a, b) (UMap.toPairs S.edges)).foldlM (absorbEdgeEntry r)
        (g.edgeMeta (a, b)) = .ok fields) ↔
        (kindsOf (T.metaNamed n₁ n₂)).NoClash (S.entriesNamed T.hasName n₁ n₂)) := by
    intro n₁ n₂ a b ha hb
    rw [absorbEdgeEntries_ok_iff (h.edge_refs hS hrefs (a, b)), h.edgeMeta_first hT ha hb, edgeEntries,
      h.itemsOf_edges hS ha hb, h.flagged_entries hS]
  constructor
  · intro hall n₁ n₂
    cases hl : S.edgesNamed n₁ n₂ with
    | nil =>
      rw [entriesNamed, hl]
      exact Kinds.NoClash.nil _
    | cons e l =>
      have he : e ∈ S.edgesNamed n₁ n₂ := by rw [hl]; exact List.mem_cons_self ..
      obtain ⟨he, hname⟩ := List.mem_filter.mp he
      obtain ⟨x, hx, y, hy, hidx, hidy⟩ := hS.edge_nodes he
      obtain ⟨h1, h2⟩ := of_decide_eq_true hname
      rw [← hidx, nameOf_of_mem hS hx] at h1
      rw [← hidy, nameOf_of_mem hS hy] at h2
      obtain ⟨a, ha⟩ := h.first_some hx
      obtain ⟨b, hb⟩ := h.first_some hy
      rw [Option.some.inj h1] at ha
      rw [Option.some.inj h2] at hb
      exact (hcell ha hb).mp (hall (a, b))
  · intro hall p
    cases hl : itemsOf (edgeTarget r) (UMap.toPairs S.edges) p with
    | nil =>
      rw [edgeEntries, hl]
      exact ⟨_, rfl⟩
    | cons e l =>
      have he : e ∈ itemsOf (edgeTarget r) (UMap.toPairs S.edges) p := by rw [hl]; exact List.mem_cons_self ..
      obtain ⟨he, htarget⟩ := List.mem_filter.mp he
      obtain ⟨x, hx, y, hy, hidx, hidy⟩ := hS.edge_nodes he
      obtain ⟨a, ha⟩ := h.first_some hx
      obtain ⟨b, hb⟩ := h.first_some hy
      have hp : p = (a, b) := by
        rw [← of_decide_eq_true htarget, edgeTarget, ← hidx, ← hidy, (h.mapped_iff hx ha).mpr rfl,
          (h.mapped_iff hy hb).mpr rfl]
      rw [hp]
      exact (hcell ha hb).mpr (hall _ _)

/-! ## The metadata loops after the node loop -/

theorem NodesMerged.nodeMeta (h : NodesMerged T S.liveNodes g r) (t : ℕ) (k : String) :
    g.nodeMeta t k = T.nodeMeta t k := by
  unfold Callgraph.nodeMeta
  cases hTt : T.slot t with
  | some n =>
    obtain ⟨n', hn', -, hm⟩ := h.old t n hTt
    rw [hn']
    simp only [Option.bind_some, hm]
  | none =>
    by_cases hlt : t < T.nodes.length
    · rw [h.dead t hlt hTt]
    · cases hg : g.slot t with
      | none => rfl
      | some n' =>
        rw [Option.bind_some, h.fresh t n' (by omega) hg]
        rfl

/-- An object that arrives at a cell comes from a source node, the earlier ones from earlier nodes. -/
theorem valuesAt_split {ns : List CgNode} {t : ℕ} {k : String} {pre post : List SourceEntry} {x : SourceEntry}
    (h : valuesAt r ns t k = pre ++ x :: post) : ∃ before s after, ns = before ++ s :: after ∧
      valuesAt r before t k = pre ∧ s.id = x.1 ∧ r.mapping.lookup s.id = some t ∧ x.2.1 = k ∧
      s.metaFields.lookup k = some x.2.2 := by
  obtain ⟨l₁, l₂, rfl, hpre, hpost⟩ := List.filterMap_eq_append_iff.mp h
  obtain ⟨m₁, s, m₂, rfl, hnone, hx, -⟩ := List.filterMap_eq_cons_iff.mp hpost
  refine ⟨l₁ ++ m₁, s, m₂, by rw [List.append_assoc], ?_, ?_⟩
  · rw [valuesAt, List.filterMap_append, hpre, List.filterMap_eq_nil_iff.mpr hnone, List.append_nil]
  · split_ifs at hx with hm
    obtain ⟨md, hmd, rfl⟩ := Option.map_eq_some_iff.mp hx
    exact ⟨rfl, hm, rfl, hmd⟩

theorem valuesAt_mem {ns : List CgNode} {t : ℕ} {k : String} {x : SourceEntry} (hx : x ∈ valuesAt r ns t k) :
    ∃ s ∈ ns, s.id = x.1 ∧ r.mapping.lookup s.id = some t ∧ x.2.1 = k ∧ s.metaFields.lookup k = some x.2.2 := by
  obtain ⟨pre, post, hl⟩ := List.append_of_mem hx
  obtain ⟨before, s, after, hns, -, hs⟩ := valuesAt_split hl
  exact ⟨s, by rw [hns]; simp, hs⟩

theorem NodesMerged.entries_ready (hS : S.Wf) (hkey : S.MetaKeyed) (hrefs : S.RefsLive)
    (h : NodesMerged T S.liveNodes g r) :
    ∀ x ∈ S.liveNodes.flatMap nodeEntriesOf, EntryReady r g x := by
  intro x hx
  obtain ⟨s, hs, hxs⟩ := List.mem_flatMap.mp hx
  obtain ⟨e, he, rfl⟩ := List.mem_map.mp hxs
  obtain ⟨t, n, ht, -, hn, -⟩ := h.mapped_first hs
  exact ⟨⟨t, ht, hasNode_of_slot hn⟩, hkey.node s hs e he, h.mapped_refs hS (hrefs.node s hs e he)⟩

/-- Whoever finds a cell occupied has a merge action. -/
theorem NodesMerged.values_action (hS : S.Wf) (h : NodesMerged T S.liveNodes g r) {t : ℕ}
    {k : String} {pre post : List SourceEntry} {x : SourceEntry}
    (hl : valuesAt r S.liveNodes t k = pre ++ x :: post) (hocc : T.nodeMeta t k ≠ none ∨ pre ≠ []) :
    (r.getAction x.1).isSome = true := by
  obtain ⟨before, s, after, hsplit, hpre, hid, hmap, -, -⟩ := valuesAt_split hl
  have hs : s ∈ S.liveNodes := by rw [hsplit]; simp
  have hfirst : g.firstNamed s.functionName = some t := by rw [← h.mapped s hs, hmap]
  rw [← hid, h.action_iff hS hs, Bool.or_eq_true, decide_eq_true_eq]
  rcases hocc with hocc | hne
  · left
    rcases h.first_cases hfirst with hTt | ⟨-, hlen⟩
    · rw [Callgraph.hasName, hTt]
      rfl
    · exact absurd (by rw [Callgraph.nodeMeta, slot_of_ge hlen]; rfl) hocc
  · right
    obtain ⟨y, hy⟩ := List.exists_mem_of_ne_nil pre hne
    rw [← hpre] at hy
    obtain ⟨s', hs', -, hmap', -⟩ := valuesAt_mem hy
    have hmem' : s' ∈ S.liveNodes := by rw [hsplit]; exact List.mem_append_left _ hs'
    have hname : s'.functionName = s.functionName := by
      refine (h.mapped_iff hmem' hfirst).mp ?_
      rw [UMap.getD, hmap']
      rfl
    intro hfirstS
    exact (hS.firstNamed_eq_iff hs).mp hfirstS s' hmem' ((hS.id_lt_of_split hsplit s' hmem').mp hs') hname

theorem NodesMerged.nodeLoop (hS : S.Wf) (hTk : T.MetaKeyed) (hSk : S.MetaKeyed) (hrefs : S.RefsLive)
    (h : NodesMerged T S.liveNodes g r) (hlive : S.NoErased) {g₁ : Callgraph} (hsame : SameNodes g g₁) :
    ∃ g', S.nodes.foldlM (mergeNodeMetaData r) g₁ = .ok g' ∧ SameButMeta g₁ g' ∧
      ∀ t k, (valuesAt r S.liveNodes t k).foldlM (absorbNodeEntry r) (T.nodeMeta t k) = .ok (g'.nodeMeta t k) := by
  have hready : ∀ x ∈ S.liveNodes.flatMap nodeEntriesOf, EntryReady r g₁ x := by
    intro x hx
    obtain ⟨⟨t, ht, hl⟩, hrest⟩ := h.entries_ready hS hSk hrefs x hx
    exact ⟨⟨t, ht, by rw [hsame.hasNode]; exact hl⟩, hrest⟩
  have hmapped : ∀ s ∈ S.liveNodes, ∃ t, r.mapping.lookup s.id = some t ∧ g₁.hasNode t = true := by
    intro s hs
    obtain ⟨t, n, ht, -, hn, -⟩ := h.mapped_first hs
    exact ⟨t, ht, by rw [hsame.hasNode]; exact hasNode_of_slot hn⟩
  have hview : ∀ t k, g₁.nodeMeta t k = T.nodeMeta t k := by
    intro t k
    rw [Callgraph.nodeMeta, hsame.slot, ← Callgraph.nodeMeta, h.nodeMeta]
  have hitems := itemsOf_nodeEntries (r := r) S.liveNodes (fun s hs => by
    obtain ⟨t, ht, -⟩ := hmapped s hs
    exact ⟨t, ht⟩)
  have hloop := mergeNodeMetaData_loop (fun x hx => (hready x hx).placed) hmapped
  rw [← hlive.nodes_eq] at hloop
  have hscat := mergeNodeEntries_scatters fun x hx => (hready x hx).placed
  obtain ⟨g', hg'⟩ : ∃ g', (S.liveNodes.flatMap nodeEntriesOf).foldlM (mergeNodeEntry r) g₁ = .ok g' := by
    rw [scatter_ok_iff hscat (SameButMeta.refl g₁)]
    rintro ⟨t, k⟩
    rw [hitems, hview]
    refine absorbNodeEntries_ok (k := k) (fun own hown => hTk.nodeMeta hown) (fun x hx => ?_)
      (fun pre x post hl hocc => h.values_action hS hl hocc)
    obtain ⟨s, hs, -, -, -, hlk⟩ := valuesAt_mem hx
    have hpair := (UMap.mem_toPairs k x.2.2 s.metaFields).mpr hlk
    exact ⟨hSk.node s hs _ hpair, h.mapped_refs hS (hrefs.node s hs (k, x.2.2) hpair)⟩
  obtain ⟨hframe, hcell⟩ := scatter_ok hscat (SameButMeta.refl g₁) hg'
  refine ⟨g', by rw [hloop, hg'], hframe, fun t k => ?_⟩
  have hc := hcell (t, k)
  rw [hitems, hview] at hc
  exact hc

theorem NodesMerged.globalLoop (hS : S.Wf) (hTk : T.MetaKeyed) (hSk : S.MetaKeyed) (hrefs : S.RefsLive)
    (h : NodesMerged T S.liveNodes g r) {g₁ : Callgraph} (hglobal : g₁.metaFields = T.metaFields) :
    ∃ g', (UMap.toPairs S.metaFields).foldlM (mergeGlobalMetaData r) g₁ = .ok g' ∧ SameButGlobal g₁ g' ∧
      ∀ k, ((S.metaFields.lookup k).map fun md => (k, md)).toList.foldlM (absorbGlobal r)
        (T.metaFields.lookup k) = .ok (g'.metaFields.lookup k) := by
  have hready : ∀ e ∈ UMap.toPairs S.metaFields, e.2.getKey = e.1 ∧ Mapped r.mapping e.2.refs :=
    fun e he => ⟨hSk.global e he, h.mapped_refs hS (hrefs.global e he)⟩
  have hscat := mergeGlobals_scatters (g := g₁) hready
  have hitems : ∀ k, itemsOf Prod.fst (UMap.toPairs S.metaFields) k =
      ((S.metaFields.lookup k).map fun md => (k, md)).toList := fun k => UMap.toPairs_filter _ k
  obtain ⟨g', hg'⟩ : ∃ g', (UMap.toPairs S.metaFields).foldlM (mergeGlobalMetaData r) g₁ = .ok g' := by
    rw [scatter_ok_iff hscat (rfl : SameButGlobal g₁ g₁)]
    intro k
    rw [hitems, hglobal]
    cases hl : S.metaFields.lookup k with
    | none => exact ⟨_, rfl⟩
    | some md =>
      obtain ⟨hkey, hmap⟩ := hready (k, md) ((UMap.mem_toPairs k md _).mpr hl)
      cases hT : T.metaFields.lookup k with
      | none =>
        obtain ⟨c, hc, -⟩ := md.cloneMapped_spec hmap
        exact ⟨some c, by simp [absorbGlobal, absorbCell, hc]⟩
      | some own =>
        have hown := hTk.global (k, own) ((UMap.mem_toPairs k own _).mpr hT)
        obtain ⟨m, hm, -⟩ := own.merge_spec md none (hown.trans hkey.symm) hmap
        exact ⟨some m, by simp [absorbGlobal, absorbCell, hm]⟩
  obtain ⟨hframe, hcell⟩ := scatter_ok hscat (rfl : SameButGlobal g₁ g₁) hg'
  refine ⟨g', hg', hframe, fun k => ?_⟩
  have hc := hcell k
  rw [hitems, hglobal] at hc
  exact hc

end AfterNodes

/-! ## The whole merge -/

/-- What holds of the recorder and the graph that `merge` returns. -/
structure Merged (T S : Callgraph) (r : MergeRecorder) (g : Callgraph) : Prop where
  wf : g.Wf
  old : ∀ i n, T.slot i = some n → ∃ n', g.slot i = some n' ∧ n'.functionName = n.functionName
  dead : ∀ i, i < T.nodes.length → T.slot i = none → g.slot i = none
  kept_names : ∀ name, T.getNodesNamed name ≠ [] → g.getNodesNamed name = T.getNodesNamed name
  new_names : ∀ name, T.getNodesNamed name = [] →
    if (∃ s ∈ S.liveNodes, s.functionName = name) then ∃ i, T.nodes.length ≤ i ∧ g.getNodesNamed name = [i]
    else g.getNodesNamed name = []
  mapped : ∀ s ∈ S.liveNodes, r.mapping.lookup s.id = g.firstNamed s.functionName
  mapped_dom : ∀ i t, r.mapping.lookup i = some t → ∃ s ∈ S.liveNodes, s.id = i
  body : ∀ i n', g.slot i = some n' → n'.hasBody = ((T.slot i).any CgNode.hasBody ||
    S.liveNodes.any fun s => decide (r.mapping.lookup s.id = some i) && s.hasBody)
  hasName : ∀ name, g.hasName name = (T.hasName name || S.hasName name)
  edges : ∀ x, x ∈ g.edges ↔ x ∈ T.edges ∨ ∃ e ∈ UMap.toPairs S.edges, x = edgeTarget r e
  edgeMeta : ∀ p, (edgeEntries r p (UMap.toPairs S.edges)).foldlM (absorbEdgeEntry r) (T.edgeMeta p) =
    .ok (g.edgeMeta p)
  kinds : ∀ n₁ n₂, kindsOf (g.metaNamed n₁ n₂) =
    (kindsOf (T.metaNamed n₁ n₂)).kindAt ((S.entriesNamed T.hasName n₁ n₂).map Prod.snd)
  nodeMeta : ∀ t k, (valuesAt r S.liveNodes t k).foldlM (absorbNodeEntry r) (T.nodeMeta t k) =
    .ok (g.nodeMeta t k)
  global : ∀ k, ((S.metaFields.lookup k).map fun md => (k, md)).toList.foldlM (absorbGlobal r)
    (T.metaFields.lookup k) = .ok (g.metaFields.lookup k)

/-- A global cell absorbs at most one object. -/
theorem Merged.global_cases {T S g : Callgraph} {r : MergeRecorder} (h : Merged T S r g) (k : String) :
    (S.metaFields.lookup k = none ∧ g.metaFields.lookup k = T.metaFields.lookup k) ∨
    (∃ md c, S.metaFields.lookup k = some md ∧ T.metaFields.lookup k = none ∧
      g.metaFields.lookup k = some c ∧ md.cloneMapped r.mapping = .ok c) ∨
    ∃ md own m, S.metaFields.lookup k = some md ∧ T.metaFields.lookup k = some own ∧
      g.metaFields.lookup k = some m ∧ own.merge md none r.mapping = .ok m := by
  have hk := h.global k
  cases hS : S.metaFields.lookup k with
  | none =>
    rw [hS] at hk
    exact .inl ⟨rfl, (Except.ok.inj hk).symm⟩
  | some md =>
    rw [hS] at hk
    simp only [Option.map_some, Option.toList_some, List.foldlM_cons, List.foldlM_nil] at hk
    cases hT : T.metaFields.lookup k with
    | none =>
      simp only [hT, absorbGlobal, absorbCell] at hk
      cases hc : md.cloneMapped r.mapping with
      | error x => rw [hc] at hk; cases hk
      | ok c =>
        rw [hc] at hk
        exact .inr (.inl ⟨md, c, rfl, rfl, (Except.ok.inj hk).symm, hc⟩)
    | some own =>
      simp only [hT, absorbGlobal, absorbCell] at hk
      cases hm : own.merge md none r.mapping with
      | error x => rw [hm] at hk; cases hk
      | ok m =>
        rw [hm] at hk
        exact .inr (.inr ⟨md, own, m, rfl, rfl, (Except.ok.inj hk).symm, hm⟩)

/-- The inputs of a merge: well-formed graphs, a source without erased nodes, whose metadata is
stored under its keys and refers to nodes of the source. -/
structure Mergeable (T S : Callgraph) : Prop where
  target : T.Wf
  source : S.Wf
  live : S.NoErased
  targetKeyed : T.MetaKeyed
  sourceKeyed : S.MetaKeyed
  sourceRefs : S.RefsLive

theorem NodesMerged.kinds {T S g g₁ : Callgraph} {r : MergeRecorder} (hT : T.Wf) (hS : S.Wf)
    (h : NodesMerged T S.liveNodes g r) (he : EdgesMerged r g (UMap.toPairs S.edges) g₁) (n₁ n₂ : String) : kindsOf (g₁.metaNamed n₁ n₂) =
      (kindsOf (T.metaNamed n₁ n₂)).kindAt ((S.entriesNamed T.hasName n₁ n₂).map Prod.snd) := by
  have hfirst : ∀ n, g₁.firstNamed n = g.firstNamed n := fun n => by
    rw [firstNamed, he.same.getNodesNamed, firstNamed]
  -- a name that no node of the result has occurs in neither input
  have hlack : ∀ n, g.firstNamed n = none → T.firstNamed n = none ∧ S.hasName n = false := by
    intro n hn
    have hg := h.hasName hT hS n
    rw [Callgraph.hasName, hn, Option.isSome_none, eq_comm, Bool.or_eq_false_iff] at hg
    exact ⟨by simpa [Callgraph.hasName] using hg.1, hg.2⟩
  have hno : ∀ n m, S.hasName n = false ∨ S.hasName m = false → S.edgesNamed n m = [] := by
    intro n m hor
    rw [edgesNamed, List.filter_eq_nil_iff]
    intro e hmem hname
    obtain ⟨x, hx, y, hy, hidx, hidy⟩ := hS.edge_nodes hmem
    obtain ⟨h1, h2⟩ := of_decide_eq_true hname
    rw [← hidx, nameOf_of_mem hS hx] at h1
    rw [← hidy, nameOf_of_mem hS hy] at h2
    have hx' := (hasName_iff hS n).mpr ⟨x, hx, Option.some.inj h1⟩
    have hy' := (hasName_iff hS m).mpr ⟨y, hy, Option.some.inj h2⟩
    rw [hx', hy'] at hor
    rcases hor with hc | hc <;> cases hc
  have hempty : ∀ a b, S.hasName a = false ∨ S.hasName b = false → g₁.metaNamed a b = ∅ →
      T.metaNamed a b = ∅ → kindsOf (g₁.metaNamed a b) =
        (kindsOf (T.metaNamed a b)).kindAt ((S.entriesNamed T.hasName a b).map Prod.snd) := by
    intro a b hor hg hT'
    rw [hg, hT', entriesNamed, hno a b hor]
    exact (Kinds.kindAt_nil _).symm
  cases ha : g.firstNamed n₁ with
  | none =>
    obtain ⟨hTn, hSn⟩ := hlack n₁ ha
    exact hempty n₁ n₂ (.inl hSn) (by simp only [metaNamed, hfirst, ha]) (by simp only [metaNamed, hTn])
  | some a =>
    cases hb : g.firstNamed n₂ with
    | none =>
      obtain ⟨hTn, hSn⟩ := hlack n₂ hb
      refine hempty n₁ n₂ (.inr hSn) (by simp only [metaNamed, hfirst, ha, hb]) ?_
      rw [metaNamed, hTn]
      cases T.firstNamed n₁ <;> rfl
    | some b =>
      have hrun := he.edgeMeta (a, b)
      have hk := absorbEdgeEntries_kinds hrun
      have hg₁ : g₁.metaNamed n₁ n₂ = g₁.edgeMeta (a, b) := by simp only [metaNamed, hfirst, ha, hb]
      rw [hg₁, hk, h.edgeMeta_first hT ha hb, ← h.flagged_entries hS, edgeEntries, h.itemsOf_edges hS ha hb,
        List.map_map]
      rfl

theorem NodesMerged.merged {T S g₀ g₁ g₂ g₃ : Callgraph} {r : MergeRecorder} (hT : T.Wf) (hS : S.Wf)
    (hN : NodesMerged T S.liveNodes g₀ r) (hE : EdgesMerged r g₀ (UMap.toPairs S.edges) g₁) (hM : SameButMeta g₁ g₂)
    (hnode : ∀ t k, (valuesAt r S.liveNodes t k).foldlM (absorbNodeEntry r) (T.nodeMeta t k) =
      .ok (g₂.nodeMeta t k))
    (hG : SameButGlobal g₂ g₃)
    (hglobal : ∀ k, ((S.metaFields.lookup k).map fun md => (k, md)).toList.foldlM (absorbGlobal r)
      (T.metaFields.lookup k) = .ok (g₃.metaFields.lookup k))
    (hwf : ({ g₃ with mainNode := none } : Callgraph).Wf) : Merged T S r { g₃ with mainNode := none } := by
  have hslot : ∀ i, ({ g₃ with mainNode := none } : Callgraph).slot i = g₂.slot i := by
    intro i
    rw [hG]
    rfl
  have hnames : ∀ name, ({ g₃ with mainNode := none } : Callgraph).getNodesNamed name = g₀.getNodesNamed name := by
    intro name
    rw [hG, ← hE.same.getNodesNamed, hM.frame]
    rfl
  have hedges : ({ g₃ with mainNode := none } : Callgraph).edges = g₁.edges := by
    rw [hG, hM.frame]
  have hfirst : ∀ name, ({ g₃ with mainNode := none } : Callgraph).firstNamed name = g₀.firstNamed name := by
    intro name
    rw [firstNamed, hnames, firstNamed]
  have hedgeMeta : ∀ p, ({ g₃ with mainNode := none } : Callgraph).edgeMeta p = g₁.edgeMeta p := by
    intro p
    rw [edgeMeta, hedges, edgeMeta]
  exact {
    wf := hwf
    old := by
      intro i n hn
      obtain ⟨n₀, hn₀, hname, -⟩ := hN.old i n hn
      rw [← hE.same.slot] at hn₀
      obtain ⟨n₂, hn₂, -, hname₂, -⟩ := hM.symm.node hn₀
      exact ⟨n₂, by rw [hslot, hn₂], by rw [← hname₂, hname]⟩
    dead := by
      intro i hi hTi
      have h₀ := hN.dead i hi hTi
      rw [← hE.same.slot] at h₀
      have h₂ := hM.slot i
      rw [h₀, Option.map_none, Option.map_eq_none_iff] at h₂
      rw [hslot, h₂]
    kept_names := fun name hne => by rw [hnames, hN.kept_names name hne]
    new_names := by
      intro name hTn
      rw [hnames]
      exact hN.new_names name hTn
    mapped := fun s hs => by rw [hfirst, hN.mapped s hs]
    mapped_dom := hN.mapped_dom
    body := by
      intro i n' hn'
      rw [hslot] at hn'
      obtain ⟨n, hn, -, -, -, hb⟩ := hM.node hn'
      rw [hE.same.slot] at hn
      rw [hb, hN.body i n hn]
    hasName := by
      intro name
      rw [← hN.hasName hT hS, Callgraph.hasName, hfirst, Callgraph.hasName]
    edges := by
      intro x
      rw [hedges, hE.mem, hN.edges]
    edgeMeta := by
      intro p
      have hg₀ : g₀.edgeMeta p = T.edgeMeta p := by rw [Callgraph.edgeMeta, hN.edges, Callgraph.edgeMeta]
      rw [hedgeMeta, ← hg₀, hE.edgeMeta p]
    kinds := by
      intro n₁ n₂
      have hg₁ : ({ g₃ with mainNode := none } : Callgraph).metaNamed n₁ n₂ = g₁.metaNamed n₁ n₂ := by
        have h₁ : ∀ n, g₁.firstNamed n = g₀.firstNamed n := fun n => by
          rw [firstNamed, hE.same.getNodesNamed, firstNamed]
        simp only [metaNamed, hfirst, h₁, hedgeMeta]
      rw [hg₁, hN.kinds hT hS hE]
    nodeMeta := by
      intro t k
      rw [hnode t k, Callgraph.nodeMeta, Callgraph.nodeMeta, hslot]
    global := hglobal }

/-- `merge` returns iff the edge metadata can be merged; what it returns is `Merged`. -/
theorem merge_cases {T S : Callgraph} (h : Mergeable T S) :
    (EdgeMetaMergeable T S → ∃ r g, merge mergeByName T S = .ok (r, g)) ∧
      ∀ r g, merge mergeByName T S = .ok (r, g) → EdgeMetaMergeable T S ∧ Merged T S r g := by
  obtain ⟨g₀, r, hnodes, hN⟩ := mergeNodes_spec h.target h.source h.live
  have hiff := hN.edgeLoop_ok_iff h.target h.source h.sourceRefs
  -- nothing fails after the edge loop
  have hafter : ∀ g₁, (UMap.toPairs S.edges).foldlM (mergeEdge r) g₀ = .ok g₁ →
      ∃ g, mergeRest r S g₀ = .ok g ∧ Merged T S r g := by
    intro g₁ hg₁
    have hE := mergeEdges_ok (hN.endsMapped h.source) hg₁
    obtain ⟨g₂, hg₂, hM, hcells⟩ := hN.nodeLoop h.source h.targetKeyed h.sourceKeyed h.sourceRefs h.live hE.same
    have hglobal : g₂.metaFields = T.metaFields := by rw [hM.frame, ← hN.global, ← hE.same.metaFields]
    obtain ⟨g₃, hg₃, hG, hglob⟩ := hN.globalLoop h.source h.targetKeyed h.sourceKeyed h.sourceRefs hglobal
    have hrest : mergeRest r S g₀ = .ok { g₃ with mainNode := none } := by
      simp only [mergeRest, hg₁, hg₂, hg₃, bind, Except.bind]
      rfl
    have hwf := Wf.mergeRest (g := g₀) hN.wf r S
    rw [hrest] at hwf
    exact ⟨_, hrest, hN.merged h.target h.source hE hM hcells hG hglob hwf⟩
  constructor
  · intro hmerge
    obtain ⟨g₁, hg₁⟩ := hiff.mpr hmerge
    obtain ⟨g, hg, -⟩ := hafter g₁ hg₁
    exact ⟨r, g, by simp only [merge, hnodes, hg]⟩
  · intro r' g hrun
    simp only [merge, hnodes] at hrun
    cases hg₁ : (UMap.toPairs S.edges).foldlM (mergeEdge r) g₀ with
    | error e =>
      simp only [mergeRest, hg₁, bind, Except.bind] at hrun
      cases hrun
    | ok g₁ =>
      obtain ⟨g', hg', hM⟩ := hafter g₁ hg₁
      simp only [hg'] at hrun
      cases hrun
      exact ⟨hiff.mp ⟨g₁, hg₁⟩, hM⟩

end Callgraph
end MetaCG
