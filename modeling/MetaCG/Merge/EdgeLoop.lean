import MetaCG.Graph.MetaDataMerge
import MetaCG.Foundations.Scatter
import MetaCG.Merge.NodeLoop

/-! The edge loop of `merge`.

The loop is taken apart by target edge: what happens to the metadata of one target edge depends only
on the source edges that are mapped to it, in iteration order (`edgeEntries`). An entry whose key the
target edge lacks is cloned and stored under the key of the base class, whatever its own key is, so
the entries of one target edge can meet each other there (`kindAt`, `NoClash`). -/
namespace MetaCG
open Foundations
set_option autoImplicit false
set_option maxHeartbeats 250000
set_option maxRecDepth 120000

/-! ## One metadata entry -/

/-- Merge under the action of a source node; without one the assertion `msg` fails. -/
def mergeUnder (msg : String) (action : Option MergeAction) (mapping : GraphMapping)
    (own md : MetaData) : Except Exn MetaData :=
  match action with
  | none => .error (.assertion msg)
  | some act => own.merge md (some act) mapping

namespace Callgraph

def edgeText : String := "Metadata should not exists without a merge action"

/-- One entry of edge or node metadata, together with the source node it belongs to. -/
abbrev SourceEntry := ℕ × (String × MetaData)

def absorbEdgeEntry (r : MergeRecorder) (fields : NamedMetadata) (x : SourceEntry) : Except Exn NamedMetadata :=
  match fields.lookup x.2.1 with
  | some own =>
    (fun m => fields.insert x.2.1 m) <$> mergeUnder edgeText (r.getAction x.1) r.mapping own x.2.2
  | none => (fun c => fields.insert MetaData.baseKey c) <$> x.2.2.cloneMapped r.mapping

/-- `g'` is `g` with the metadata of the edge `ids` replaced by `fields`. -/
structure EdgeMetaSet (g : Callgraph) (ids : ℕ × ℕ) (fields : NamedMetadata) (g' : Callgraph) : Prop where
  frame : g' = { g with edges := g'.edges }
  mem : ∀ e, e ∈ g'.edges ↔ e ∈ g.edges
  edgeMeta : ∀ p, g'.edgeMeta p = if p = ids then fields else g.edgeMeta p

theorem EdgeMetaSet.refl (g : Callgraph) (ids : ℕ × ℕ) : EdgeMetaSet g ids (g.edgeMeta ids) g where
  frame := rfl
  mem := fun _ => Iff.rfl
  edgeMeta := fun p => by split_ifs with h; rw [h]; rfl

theorem EdgeMetaSet.trans {g g₁ g₂ : Callgraph} {ids : ℕ × ℕ} {f₁ f₂ : NamedMetadata}
    (h₁ : EdgeMetaSet g ids f₁ g₁) (h₂ : EdgeMetaSet g₁ ids f₂ g₂) : EdgeMetaSet g ids f₂ g₂ where
  frame := by rw [h₂.frame, h₁.frame]
  mem := fun e => (h₂.mem e).trans (h₁.mem e)
  edgeMeta := fun p => by
    rw [h₂.edgeMeta, h₁.edgeMeta]
    split_ifs <;> rfl

theorem addEdgeMetaData_set {g : Callgraph} {ids : ℕ × ℕ} (h : ids ∈ g.edges) (key : String) (md : MetaData) :
    EdgeMetaSet g ids ((g.edgeMeta ids).insert key md) (g.addEdgeMetaData key ids md).2 := by
  obtain ⟨fields, hf⟩ := (UMap.mem_iff_lookup ids g.edges).mp h
  have hm : g.edgeMeta ids = fields := by rw [Callgraph.edgeMeta, UMap.getD, hf]; rfl
  have hr : (g.addEdgeMetaData key ids md).2 = { g with edges := g.edges.insert ids (fields.insert key md) } := by
    simp only [addEdgeMetaData, hf]
  refine ⟨addEdgeMetaData_frame g key ids md, mem_edges_addEdgeMetaData g key ids md, fun p => ?_⟩
  rw [hr, hm]
  exact UMap.getD_insert _ _ _ _ _

theorem mergeEdgeMetaData_eq {g : Callgraph} (r : MergeRecorder) (u : ℕ) {ids : ℕ × ℕ} (h : ids ∈ g.edges)
    (e : String × MetaData) :
    match absorbEdgeEntry r (g.edgeMeta ids) (u, e) with
    | .ok fields => ∃ g', mergeEdgeMetaData r u ids g e = .ok g' ∧ EdgeMetaSet g ids fields g'
    | .error x => mergeEdgeMetaData r u ids g e = .error (x, g) := by
  unfold absorbEdgeEntry mergeEdgeMetaData getEdgeMetaData
  cases hl : (g.edgeMeta ids).lookup e.1 with
  | none =>
    cases hc : e.2.cloneMapped r.mapping with
    | error x => simp
    | ok c =>
      simp only [Outcome.guard_ok]
      exact ⟨_, rfl, addEdgeMetaData_set h _ _⟩
  | some own =>
    cases ha : r.getAction u with
    | none => simp [mergeUnder, edgeText]
    | some act =>
      simp only [mergeUnder]
      cases hm : own.merge e.2 (some act) r.mapping with
      | error x => simp
      | ok m =>
        simp only [Outcome.guard_ok]
        exact ⟨_, rfl, addEdgeMetaData_set h _ _⟩

/-- All metadata of one source edge. -/
theorem mergeEdgeMetaData_loop (r : MergeRecorder) (u : ℕ) {ids : ℕ × ℕ} (l : List (String × MetaData))
    (g : Callgraph) (h : ids ∈ g.edges) :
    match (l.map fun e => (u, e)).foldlM (absorbEdgeEntry r) (g.edgeMeta ids) with
    | .ok fields => ∃ g', l.foldlM (mergeEdgeMetaData r u ids) g = .ok g' ∧ EdgeMetaSet g ids fields g'
    | .error x => ∃ g', l.foldlM (mergeEdgeMetaData r u ids) g = .error (x, g') := by
  induction l generalizing g with
  | nil => exact ⟨g, rfl, EdgeMetaSet.refl g ids⟩
  | cons e l ih =>
    have he := mergeEdgeMetaData_eq r u h e
    rw [List.map_cons, List.foldlM_cons, List.foldlM_cons]
    cases ha : absorbEdgeEntry r (g.edgeMeta ids) (u, e) with
    | error x =>
      rw [ha] at he
      rw [he]
      exact ⟨_, rfl⟩
    | ok fields =>
      rw [ha] at he
      obtain ⟨g₁, hg₁, hs⟩ := he
      have hm : g₁.edgeMeta ids = fields := by rw [hs.edgeMeta, if_pos rfl]
      have hrest := ih g₁ ((hs.mem ids).mpr h)
      rw [hm] at hrest
      rw [hg₁]
      simp only [bind, Except.bind] at hrest ⊢
      cases hf : (l.map fun e => (u, e)).foldlM (absorbEdgeEntry r) fields with
      | error x =>
        rw [hf] at hrest
        exact hrest
      | ok fields' =>
        rw [hf] at hrest
        obtain ⟨g₂, hg₂, hs₂⟩ := hrest
        exact ⟨g₂, hg₂, hs.trans hs₂⟩

/-! ## One source edge -/

theorem edgeMeta_of_notMem {g : Callgraph} {p : ℕ × ℕ} (h : p ∉ g.edges) : g.edgeMeta p = ∅ := by
  rw [edgeMeta, UMap.getD, AList.lookup_eq_none.mpr h]
  rfl

theorem edgeMeta_withEdge {g : Callgraph} {u v : ℕ} (h : (u, v) ∉ g.edges) (p : ℕ × ℕ) :
    (g.withEdge u v).edgeMeta p = g.edgeMeta p := by
  have he : (g.withEdge u v).edgeMeta p = if p = (u, v) then ∅ else g.edgeMeta p := UMap.getD_insert _ _ _ _ _
  rw [he]
  split_ifs with hp
  · rw [hp, edgeMeta_of_notMem h]
  · rfl

/-- The nodes of two graphs, their names and the global metadata are the same. -/
structure SameNodes (g g' : Callgraph) : Prop where
  nodes : g'.nodes = g.nodes
  nameIdMap : g'.nameIdMap = g.nameIdMap
  metaFields : g'.metaFields = g.metaFields

theorem SameNodes.refl (g : Callgraph) : SameNodes g g := ⟨rfl, rfl, rfl⟩

theorem SameNodes.trans {g g₁ g₂ : Callgraph} (h₁ : SameNodes g g₁) (h₂ : SameNodes g₁ g₂) : SameNodes g g₂ :=
  ⟨h₂.nodes.trans h₁.nodes, h₂.nameIdMap.trans h₁.nameIdMap, h₂.metaFields.trans h₁.metaFields⟩

theorem SameNodes.slot {g g' : Callgraph} (h : SameNodes g g') (i : ℕ) : g'.slot i = g.slot i := by
  rw [Callgraph.slot, h.nodes, Callgraph.slot]

theorem SameNodes.hasNode {g g' : Callgraph} (h : SameNodes g g') (i : ℕ) : g'.hasNode i = g.hasNode i := by
  rw [Callgraph.hasNode, h.slot, Callgraph.hasNode]

theorem SameNodes.getNodesNamed {g g' : Callgraph} (h : SameNodes g g') (name : String) :
    g'.getNodesNamed name = g.getNodesNamed name := by
  rw [Callgraph.getNodesNamed, h.nameIdMap, Callgraph.getNodesNamed]

/-- After the edge is ensured: the same nodes, the same edge metadata, one edge more. -/
theorem ensureEdge_spec {g : Callgraph} {u v : ℕ} (hu : g.hasNode u = true) (hv : g.hasNode v = true) :
    ∃ g', g.ensureEdge u v = .ok g' ∧ SameNodes g g' ∧ (∀ e, e ∈ g'.edges ↔ e ∈ g.edges ∨ e = (u, v)) ∧
      ∀ p, g'.edgeMeta p = g.edgeMeta p := by
  unfold ensureEdge
  by_cases he : (u, v) ∈ g.edges
  · refine ⟨g, by rw [if_pos (by simpa [existsEdge] using he)], SameNodes.refl g, fun e => ?_, fun _ => rfl⟩
    exact ⟨.inl, fun h => h.elim id (fun h => h ▸ he)⟩
  · refine ⟨g.withEdge u v, ?_, ⟨rfl, rfl, rfl⟩, fun e => ?_, edgeMeta_withEdge he⟩
    · rw [if_neg (by simpa [existsEdge] using he), addEdge_of_live hu hv, addEdgeInternal_of_notMem he]
      rfl
    · rw [mem_edges_withEdge, or_comm]

abbrev SourceEdge := (ℕ × ℕ) × NamedMetadata

/-- The entries of a source edge. -/
def entriesOf (e : SourceEdge) : List SourceEntry := (UMap.toPairs e.2).map fun x => (e.1.1, x)

def absorbEdge (r : MergeRecorder) (fields : NamedMetadata) (e : SourceEdge) : Except Exn NamedMetadata :=
  (entriesOf e).foldlM (absorbEdgeEntry r) fields

/-- The target edge of a source edge. -/
def edgeTarget (r : MergeRecorder) (e : SourceEdge) : ℕ × ℕ :=
  (UMap.getD r.mapping e.1.1 0, UMap.getD r.mapping e.1.2 0)

/-- The source edge leads to live target nodes. -/
def EndsMapped (r : MergeRecorder) (g : Callgraph) (e : SourceEdge) : Prop :=
  ∃ a b, r.mapping.lookup e.1.1 = some a ∧ r.mapping.lookup e.1.2 = some b ∧
    g.hasNode a = true ∧ g.hasNode b = true

theorem mergeEdge_spec {g : Callgraph} {r : MergeRecorder} {e : SourceEdge} (h : EndsMapped r g e) :
    match absorbEdge r (g.edgeMeta (edgeTarget r e)) e with
    | .ok fields => ∃ g', mergeEdge r g e = .ok g' ∧ SameNodes g g' ∧
        (∀ x, x ∈ g'.edges ↔ x ∈ g.edges ∨ x = edgeTarget r e) ∧
        ∀ p, g'.edgeMeta p = if p = edgeTarget r e then fields else g.edgeMeta p
    | .error x => ∃ g', mergeEdge r g e = .error (x, g') := by
  obtain ⟨a, b, ha, hb, hla, hlb⟩ := h
  have ht : edgeTarget r e = (a, b) := by simp only [edgeTarget, UMap.getD, ha, hb, Option.getD_some]
  obtain ⟨g₁, hg₁, hsame, hmem, hmeta⟩ := ensureEdge_spec hla hlb
  have hloop := mergeEdgeMetaData_loop r e.1.1 (UMap.toPairs e.2) g₁ ((hmem (a, b)).mpr (.inr rfl))
  have heq : mergeEdge r g e = (UMap.toPairs e.2).foldlM (mergeEdgeMetaData r e.1.1 (a, b)) g₁ := by
    simp only [mergeEdge, mappingAtAsserted_eq _ ha, mappingAtAsserted_eq _ hb, Outcome.guard_ok, hg₁]
    rfl
  rw [ht, absorbEdge, entriesOf, ← hmeta (a, b), heq]
  cases hf : ((UMap.toPairs e.2).map fun x => (e.1.1, x)).foldlM (absorbEdgeEntry r) (g₁.edgeMeta (a, b)) with
  | error x =>
    rw [hf] at hloop
    exact hloop
  | ok fields =>
    rw [hf] at hloop
    obtain ⟨g', hg', hs⟩ := hloop
    refine ⟨g', hg', hsame.trans ⟨?_, ?_, ?_⟩, fun x => ?_, fun p => ?_⟩
    · rw [hs.frame]
    · rw [hs.frame]
    · rw [hs.frame]
    · rw [hs.mem, hmem]
    · rw [hs.edgeMeta, hmeta p]

/-! ## The whole loop -/

section Loop
variable {g : Callgraph} {r : MergeRecorder} {l : List SourceEdge}

/-- The entries that the source edges `l` bring to the target edge `p`, in iteration order. -/
def edgeEntries (r : MergeRecorder) (p : ℕ × ℕ) (l : List SourceEdge) : List SourceEntry :=
  (itemsOf (edgeTarget r) l p).flatMap entriesOf

theorem EndsMapped.of_same {g g' : Callgraph} (h : SameNodes g g') {e : SourceEdge} (he : EndsMapped r g e) :
    EndsMapped r g' e := by
  obtain ⟨a, b, ha, hb, hla, hlb⟩ := he
  exact ⟨a, b, ha, hb, by rw [h.hasNode]; exact hla, by rw [h.hasNode]; exact hlb⟩

theorem mergeEdges_scatters (hl : ∀ e ∈ l, EndsMapped r g e) :
    Scatters (SameNodes g) edgeMeta (edgeTarget r) (absorbEdge r) (mergeEdge r) l := by
  intro s e he hs
  have hspec := mergeEdge_spec ((hl e he).of_same hs)
  cases hf : absorbEdge r (s.edgeMeta (edgeTarget r e)) e with
  | error x =>
    rw [hf] at hspec
    obtain ⟨s', hs'⟩ := hspec
    exact ⟨_, hs'⟩
  | ok fields =>
    rw [hf] at hspec
    obtain ⟨s', hs', hsame, -, hmeta⟩ := hspec
    exact ⟨s', hs', hs.trans hsame, hmeta⟩

/-- The target after the source edges `l`. -/
structure EdgesMerged (r : MergeRecorder) (g : Callgraph) (l : List SourceEdge) (g' : Callgraph) : Prop where
  same : SameNodes g g'
  mem : ∀ x, x ∈ g'.edges ↔ x ∈ g.edges ∨ ∃ e ∈ l, x = edgeTarget r e
  edgeMeta : ∀ p, (edgeEntries r p l).foldlM (absorbEdgeEntry r) (g.edgeMeta p) = .ok (g'.edgeMeta p)

theorem mergeEdges_mem (hl : ∀ e ∈ l, EndsMapped r g e) {g' : Callgraph}
    (h : l.foldlM (mergeEdge r) g = .ok g') (x : ℕ × ℕ) :
    x ∈ g'.edges ↔ x ∈ g.edges ∨ ∃ e ∈ l, x = edgeTarget r e := by
  refine (foldlM_ok_inv (J := fun pre t => SameNodes g t ∧
    (x ∈ t.edges ↔ x ∈ g.edges ∨ ∃ e ∈ pre, x = edgeTarget r e)) (l := l) ⟨SameNodes.refl g, by simp⟩ ?_ h).2
  rintro pre e t t' hpre ⟨hsame, hmem⟩ hstep
  have hspec := mergeEdge_spec ((hl e (hpre.subset (by simp))).of_same hsame)
  cases hf : absorbEdge r (t.edgeMeta (edgeTarget r e)) e with
  | error y =>
    rw [hf] at hspec
    obtain ⟨y, hy⟩ := hspec
    rw [hy] at hstep
    cases hstep
  | ok fields =>
    rw [hf] at hspec
    obtain ⟨t₂, ht₂, hsame₂, hmem₂, -⟩ := hspec
    rw [ht₂] at hstep
    cases hstep
    refine ⟨hsame.trans hsame₂, ?_⟩
    rw [hmem₂, hmem, or_assoc]
    simp only [List.mem_append, List.mem_singleton, or_and_right, exists_or, exists_eq_left]

theorem mergeEdges_ok (hl : ∀ e ∈ l, EndsMapped r g e) {g' : Callgraph}
    (h : l.foldlM (mergeEdge r) g = .ok g') : EdgesMerged r g l g' := by
  obtain ⟨hsame, hcell⟩ := scatter_ok (mergeEdges_scatters hl) (SameNodes.refl g) h
  refine ⟨hsame, mergeEdges_mem hl h, fun p => ?_⟩
  rw [edgeEntries, foldlM_flatMap]
  exact hcell p

/-- The loop returns iff the entries of every target edge can be absorbed one after the other. -/
theorem mergeEdges_ok_iff (hl : ∀ e ∈ l, EndsMapped r g e) :
    (∃ g', l.foldlM (mergeEdge r) g = .ok g') ↔
      ∀ p, ∃ fields, (edgeEntries r p l).foldlM (absorbEdgeEntry r) (g.edgeMeta p) = .ok fields := by
  rw [scatter_ok_iff (mergeEdges_scatters hl) (SameNodes.refl g)]
  simp only [edgeEntries, foldlM_flatMap]
  rfl

end Loop
end Callgraph
end MetaCG
