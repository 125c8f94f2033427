import MetaCG.Foundations.Run
import MetaCG.Graph.History
import MetaCG.Format.Document

/-! The entry function that the metadata of a graph names.

`getMain` and the writers resolve the id in the `EntryFunctionMD` of a graph. Only a branch of `erase`
that depends on the cached main node takes dangling metadata away, and `clear` keeps it. -/
namespace MetaCG
open Foundations
set_option autoImplicit false
set_option maxHeartbeats 250000
set_option maxRecDepth 120000

/-- The id that entry metadata holds. -/
def MetaData.entryId : MetaData → Option ℕ
  | .entryFunction md => md.entryFunction
  | _ => none

theorem MetaData.entryId_cloneMapped {md c : MetaData} {mapping : GraphMapping} (h : md.cloneMapped mapping = .ok c) {i : ℕ}
    (hi : c.entryId = some i) : ∃ s, mapping.lookup s = some i := by
  cases md with
  | entryFunction a =>
    simp only [cloneMapped, EntryFunctionMD.applyMapping, mappingAt] at h
    cases ha : a.entryFunction with
    | none =>
      simp only [ha] at h
      cases h
      exact absurd (ha.symm.trans hi) (by simp)
    | some s =>
      cases hs : mapping.lookup s with
      | none => simp only [ha, hs] at h; cases h
      | some t =>
        simp only [ha, hs] at h
        cases h
        cases hi
        exact ⟨s, hs⟩
  | override a =>
    simp only [cloneMapped] at h
    cases hm : a.applyMapping mapping with
    | error e => rw [hm] at h; cases h
    | ok m => rw [hm] at h; cases h; cases hi
  | _ => cases h; cases hi

theorem MetaData.entryId_merge {own md c : MetaData} {mapping : GraphMapping} (h : own.merge md none mapping = .ok c) {i : ℕ}
    (hi : c.entryId = some i) : own.entryId = some i ∨ ∃ s, mapping.lookup s = some i := by
  cases own with
  | entryFunction a =>
    cases md with
    | entryFunction b =>
      simp only [MetaData.merge, EntryFunctionMD.merge, mappingAt] at h
      cases ha : a.entryFunction with
      | some t =>
        cases hb : b.entryFunction with
        | none => simp only [ha, hb] at h; cases h; exact .inl hi
        | some s => simp only [ha, hb] at h; cases h; exact .inl hi
      | none =>
        cases hb : b.entryFunction with
        | none => simp only [ha, hb] at h; cases h; exact .inl hi
        | some s =>
          cases hs : mapping.lookup s with
          | none => simp only [ha, hb, hs] at h; cases h
          | some t =>
            simp only [ha, hb, hs] at h
            cases h
            cases hi
            exact .inr ⟨s, hs⟩
    | _ => cases h
  | override a =>
    cases md with
    | override b =>
      simp only [MetaData.merge] at h
      cases hm : a.merge b mapping with
      | error e => rw [hm] at h; cases h
      | ok m => rw [hm] at h; cases h; cases hi
    | _ => cases h
  | _ => cases md <;> first | (cases h; cases hi) | cases h

namespace Callgraph

def EntryLive (g : Callgraph) : Prop := ∀ i, g.entryFunctionId = some i → g.hasNode i = true

/-- No node is lost, and the metadata of the graph itself stays. -/
structure Grows (g g' : Callgraph) : Prop where
  live : ∀ i, g.hasNode i = true → g'.hasNode i = true
  globals : g'.metaFields = g.metaFields

theorem Grows.refl (g : Callgraph) : Grows g g := ⟨fun _ h => h, rfl⟩

theorem Grows.trans {g₁ g₂ g₃ : Callgraph} (h₁ : Grows g₁ g₂) (h₂ : Grows g₂ g₃) : Grows g₁ g₃ :=
  ⟨fun i hi => h₂.live i (h₁.live i hi), h₂.globals.trans h₁.globals⟩

theorem entryFunctionId_congr {g g' : Callgraph} (h : g'.metaFields = g.metaFields) :
    g'.entryFunctionId = g.entryFunctionId := by
  rw [entryFunctionId, h, entryFunctionId]

theorem Grows.entryLive {g g' : Callgraph} (h : Grows g g') (he : g.EntryLive) : g'.EntryLive := by
  intro i hi
  rw [entryFunctionId_congr h.globals] at hi
  exact h.live i (he i hi)

/-! ## Operations that only add -/

theorem Grows.insertNode (g : Callgraph) (f : String) (o : Option String) (v b : Bool) : Grows g (g.insertNode f o v b) where
  live := by
    intro i hi
    have hlt := hasNode_lt hi
    rw [hasNode, slot_insertNode, if_neg (by omega)]
    exact hi
  globals := rfl

theorem Grows.insert {g g' : Callgraph} {f : String} {o : Option String} {v b : Bool} {id : ℕ}
    (hr : g.insert f o v b = .ok (g', id)) : Grows g g' ∧ g'.hasNode id = true := by
  obtain ⟨-, rfl, rfl⟩ := insert_cases hr
  refine ⟨.insertNode g f o v b, ?_⟩
  rw [hasNode, slot_insertNode, if_pos rfl]
  rfl

theorem Grows.getOrInsertNode {g g' : Callgraph} {f : String} {o : Option String} {v b : Bool} {id : ℕ}
    (hr : g.getOrInsertNode f o v b = .ok (g', id)) : Grows g g' := by
  rcases getOrInsertNode_cases hr with rfl | ⟨-, rfl⟩
  · exact .refl _
  · exact .insertNode g f o v b

theorem Grows.addEdgeInternal (g : Callgraph) (u v : ℕ) : Grows g (g.addEdgeInternal u v).2 := by
  by_cases he : (u, v) ∈ g.edges
  · rw [addEdgeInternal_of_mem he]
    exact .refl g
  · rw [addEdgeInternal_of_notMem he]
    exact ⟨fun _ h => h, rfl⟩

theorem Grows.addEdge {g g' : Callgraph} {u v : ℕ} {b : Bool} (hr : g.addEdge u v = .ok (b, g')) : Grows g g' := by
  rcases addEdge_cases hr with ⟨-, rfl⟩ | ⟨-, -, he⟩
  · exact .refl g'
  · rw [show g' = (g.addEdgeInternal u v).2 from congrArg Prod.snd he]
    exact .addEdgeInternal g u v

theorem Grows.removeEdge {g g' : Callgraph} {u v : ℕ} {b : Bool} (hr : g.removeEdge u v = .ok (b, g')) : Grows g g' := by
  unfold Callgraph.removeEdge at hr
  split_ifs at hr
  · obtain ⟨_, -, hr⟩ := bind_eq_ok.mp hr
    obtain ⟨_, -, hr⟩ := bind_eq_ok.mp hr
    cases hr
    exact ⟨fun _ h => h, rfl⟩
  · cases hr
    exact .refl g

theorem Grows.updateNode (g : Callgraph) (id : ℕ) (f : CgNode → CgNode) : Grows g (g.updateNode id f) where
  live := by
    intro i hi
    rw [hasNode, slot_updateNode]
    split_ifs
    · rw [Option.isSome_map]
      exact hi
    · exact hi
  globals := rfl

theorem Grows.addEdgeMetaData (g : Callgraph) (key : String) (ids : ℕ × ℕ) (md : MetaData) :
    Grows g (g.addEdgeMetaData key ids md).2 := by
  rw [addEdgeMetaData_frame]
  exact ⟨fun _ h => h, rfl⟩

theorem Grows.getMain (g : Callgraph) (force : Bool) : Grows g (Outcome.final (g.getMain force)) := by
  have hg : Grows g (if force then { g with mainNode := none } else g : Callgraph) := by
    split_ifs
    · exact ⟨fun _ h => h, rfl⟩
    · exact .refl g
  unfold Callgraph.getMain
  generalize (if force then { g with mainNode := none } else g : Callgraph) = g₁ at hg
  have hmain : ∀ m, Grows g { g₁ with mainNode := m } := fun m => hg.trans ⟨fun _ h => h, rfl⟩
  have hname : Grows g (Outcome.final (Outcome.guard g₁ (g₁.findMain mainNames) fun node =>
      .ok { g₁ with mainNode := node })) := Outcome.final_guard hg (fun p _ => hmain p)
  simp only
  split_ifs
  · exact hg
  · cases g₁.entryFunctionId with
    | none => exact hname
    | some id =>
      refine Outcome.final_guard hg (fun p _ => ?_)
      cases p with
      | none => exact hname
      | some _ => exact hmain _

/-! ## Merging -/

/-- The ids that the source ids are mapped to belong to nodes of the target. -/
def MappingLive (g : Callgraph) (mapping : GraphMapping) : Prop :=
  ∀ s t, mapping.lookup s = some t → g.hasNode t = true

theorem MappingLive.insert {g : Callgraph} {mapping : GraphMapping} (h : g.MappingLive mapping) {s t : ℕ}
    (ht : g.hasNode t = true) : g.MappingLive (mapping.insert s t) := by
  intro s' t' hl
  rw [UMap.lookup_insert_ite] at hl
  split_ifs at hl
  · cases hl
    exact ht
  · exact h s' t' hl

theorem MappingLive.grows {g g' : Callgraph} {mapping : GraphMapping} (h : g.MappingLive mapping) (hg : Grows g g') :
    g'.MappingLive mapping := fun s t hl => hg.live t (h s t hl)

theorem mergeNode_grows {g : Callgraph} {st : Callgraph × MergeRecorder}
    (h : Grows g st.1 ∧ st.1.MappingLive st.2.mapping) (policy : MergePolicy) (ptr : Option CgNode) :
    Grows g (Outcome.final (mergeNode policy st ptr)).1 ∧
      (Outcome.final (mergeNode policy st ptr)).1.MappingLive (Outcome.final (mergeNode policy st ptr)).2.mapping := by
  cases ptr with
  | none => exact h
  | some node =>
    refine Outcome.final_guard (I := fun st : Callgraph × MergeRecorder => Grows g st.1 ∧ st.1.MappingLive st.2.mapping)
      h (fun m _ => ?_)
    cases m with
    | none =>
      refine Outcome.final_guard (I := fun st : Callgraph × MergeRecorder => Grows g st.1 ∧ st.1.MappingLive st.2.mapping)
        h (fun r hr => ?_)
      obtain ⟨hgrow, hnew⟩ := Grows.insert hr
      exact ⟨h.1.trans hgrow, (h.2.grows hgrow).insert hnew⟩
    | some action =>
      refine Outcome.final_guard (I := fun st : Callgraph × MergeRecorder => Grows g st.1 ∧ st.1.MappingLive st.2.mapping)
        h (fun p hp => ?_)
      cases p with
      | none => exact h
      | some n =>
        have hlive : st.1.hasNode action.targetNode = true := hasNode_of_slot (getNode_eq_ok hp).symm
        have hgrow : Grows st.1 (if action.replace then st.1.updateNode action.targetNode (replaceCore node) else st.1) := by
          split_ifs
          · exact .updateNode ..
          · exact .refl st.1
        exact ⟨h.1.trans hgrow, (h.2.grows hgrow).insert (hgrow.live _ hlive)⟩

theorem Grows.keptByMerge (g : Callgraph) : KeptByMerge (Grows g) where
  addEdge := fun h hr => h.trans (.addEdge hr)
  addEdgeMetaData := fun h _ _ _ => h.trans (.addEdgeMetaData ..)
  setNodeMeta := fun h _ _ _ => h.trans (.updateNode ..)

theorem entryFunctionId_eq (g : Callgraph) :
    g.entryFunctionId = (g.metaFields.lookup "entryFunction").bind MetaData.entryId := by
  unfold entryFunctionId
  cases g.metaFields.lookup "entryFunction" with
  | none => rfl
  | some md => cases md <;> rfl

/-- Global metadata is stored under a key; its entry, if it has one, is a node. -/
theorem EntryLive.withMeta {g : Callgraph} (h : g.EntryLive) {key : String} {md : MetaData}
    (hmd : ∀ i, md.entryId = some i → g.hasNode i = true) :
    EntryLive { g with metaFields := g.metaFields.insert key md } := by
  intro i hi
  rw [entryFunctionId_eq] at hi
  simp only [UMap.lookup_insert_ite] at hi
  split_ifs at hi
  · exact hmd i hi
  · exact h i (by rw [entryFunctionId_eq]; exact hi)

theorem mergeGlobalMetaData_entryLive {g₀ g : Callgraph} (hnodes : g.nodes = g₀.nodes) (h : g.EntryLive) {r : MergeRecorder}
    (hm : g₀.MappingLive r.mapping) (md : String × MetaData) :
    (Outcome.final (mergeGlobalMetaData r g md)).nodes = g₀.nodes ∧ (Outcome.final (mergeGlobalMetaData r g md)).EntryLive := by
  have hmapped : ∀ s t, r.mapping.lookup s = some t → g.hasNode t = true := by
    intro s t hl
    have hlive := hm s t hl
    rw [hasNode, slot, ← hnodes] at hlive
    exact hlive
  unfold mergeGlobalMetaData
  cases hown : g.metaFields.lookup md.1 with
  | none =>
    refine Outcome.final_guard (I := fun g : Callgraph => g.nodes = g₀.nodes ∧ g.EntryLive) ⟨hnodes, h⟩ (fun c hc => ?_)
    refine ⟨hnodes, h.withMeta (fun i hi => ?_)⟩
    obtain ⟨s, hs⟩ := MetaData.entryId_cloneMapped hc hi
    exact hmapped s i hs
  | some own =>
    refine Outcome.final_guard (I := fun g : Callgraph => g.nodes = g₀.nodes ∧ g.EntryLive) ⟨hnodes, h⟩ (fun c hc => ?_)
    by_cases hkey : md.1 = "entryFunction"
    · refine ⟨hnodes, h.withMeta (fun i hi => ?_)⟩
      rcases MetaData.entryId_merge hc hi with hi | ⟨s, hs⟩
      · refine h i ?_
        rw [entryFunctionId_eq, ← hkey, hown]
        exact hi
      · exact hmapped s i hs
    · refine ⟨hnodes, fun i hi => h i ?_⟩
      rw [entryFunctionId_eq] at hi ⊢
      simp only [Outcome.final_ok] at hi
      rw [UMap.lookup_insert_ite, if_neg (Ne.symm hkey)] at hi
      exact hi

theorem mergeRest_entryLive {g : Callgraph} (h : g.EntryLive) {r : MergeRecorder} (hm : g.MappingLive r.mapping)
    (other : Callgraph) : (Outcome.final (mergeRest r other g)).EntryLive := by
  have hinv : ∀ {g'}, Grows g g' → g'.EntryLive := fun hg => hg.entryLive h
  unfold mergeRest
  have hedges := Outcome.final_foldlM (I := Grows g) (fun _ e hg' => (Grows.keptByMerge g).mergeEdge hg' r e)
    (UMap.toPairs other.edges) g (.refl g)
  cases hr₁ : (UMap.toPairs other.edges).foldlM (mergeEdge r) g with
  | error e =>
    rw [hr₁] at hedges
    exact hinv hedges
  | ok g₁ =>
    rw [hr₁] at hedges
    have hmeta := Outcome.final_foldlM (I := Grows g) (fun _ p hg' => (Grows.keptByMerge g).mergeNodeMetaData hg' r p)
      other.nodes g₁ hedges
    rw [ok_bind]
    cases hr₂ : other.nodes.foldlM (mergeNodeMetaData r) g₁ with
    | error e =>
      rw [hr₂] at hmeta
      exact hinv hmeta
    | ok g₂ =>
      rw [hr₂] at hmeta
      have hg₂ : Grows g g₂ := hmeta
      rw [ok_bind]
      refine Outcome.final_bind (I := EntryLive) ?_ (fun g₃ h₃ => h₃)
      exact (Outcome.final_foldlM (I := fun g' : Callgraph => g'.nodes = g₂.nodes ∧ g'.EntryLive)
        (fun g' md hg' => mergeGlobalMetaData_entryLive hg'.1 hg'.2 (hm.grows hg₂) md) _ g₂ ⟨rfl, hinv hg₂⟩).2

/-- Whatever the source holds and wherever the merge stops, the entry function stays a node. -/
theorem EntryLive.mergeLeaves {g : Callgraph} (h : g.EntryLive) (policy : MergePolicy) (other : Callgraph) :
    (mergeLeaves policy g other).EntryLive := by
  have hnodes := Outcome.final_foldlM
    (I := fun st : Callgraph × MergeRecorder => Grows g st.1 ∧ st.1.MappingLive st.2.mapping)
    (fun st ptr hst => mergeNode_grows hst policy ptr) other.nodes (g, MergeRecorder.empty)
    ⟨.refl g, fun s t hl => by cases hl⟩
  unfold Callgraph.mergeLeaves merge mergeNodes
  cases hn : other.nodes.foldlM (mergeNode policy) (g, MergeRecorder.empty) with
  | error e =>
    rw [hn] at hnodes
    exact hnodes.1.entryLive h
  | ok st =>
    rw [hn] at hnodes
    have hrest := mergeRest_entryLive (hnodes.1.entryLive h) hnodes.2 other
    simp only [Outcome.final_ok] at hrest ⊢
    cases hr : mergeRest st.2 other st.1 with
    | error e =>
      rw [hr] at hrest
      exact hrest
    | ok g' =>
      rw [hr] at hrest
      exact hrest

/-! ## Erasing and clearing -/

theorem eraseEdges_frame {g g' : Callgraph} {id : ℕ} (hr : g.eraseEdges id = .ok g') :
    g'.metaFields = g.metaFields ∧ g'.mainNode = g.mainNode := by
  obtain ⟨⟨E, R⟩, -, hr⟩ := bind_eq_ok.mp hr
  obtain ⟨⟨E', L⟩, -, hr⟩ := bind_eq_ok.mp hr
  cases hr
  exact ⟨rfl, rfl⟩

/-- After `erase` the metadata names the erased node iff it did before and the node was not the cached main. -/
theorem entryFunctionId_erase {g g' : Callgraph} {id : ℕ} {n : CgNode} (hn : g.slot id = some n) {b : Bool}
    (hr : g.erase id = .ok (b, g')) :
    g'.entryFunctionId = if g.mainNode = some id ∧ g.entryFunctionId = some id then none else g.entryFunctionId := by
  simp only [Callgraph.erase, hn] at hr
  obtain ⟨g₁, hg₁, hr⟩ := bind_eq_ok.mp hr
  obtain ⟨ids, -, hr⟩ := bind_eq_ok.mp hr
  obtain ⟨hmeta, hmain⟩ := eraseEdges_frame hg₁
  cases hr
  have hentry : g₁.entryFunctionId = g.entryFunctionId := entryFunctionId_congr hmeta
  change (g₁.eraseMain id).entryFunctionId = _
  unfold eraseMain
  rw [hmain, hentry]
  by_cases hm : g.mainNode = some id
  · by_cases he : g.entryFunctionId = some id
    · rw [if_pos hm, if_pos he, if_pos ⟨hm, he⟩, entryFunctionId_eq, UMap.lookup_erase_ite, if_pos rfl]
      rfl
    · rw [if_pos hm, if_neg he, if_neg (fun hc => he hc.2)]
      exact hentry
  · rw [if_neg hm, if_neg (fun hc => hm hc.1)]
    exact hentry

theorem entryLive_erase_iff {g : Callgraph} (hwf : g.Wf) (h : g.EntryLive) (id : ℕ) :
    (Op.apply 0 g (.erase id)).EntryLive ↔ (g.entryFunctionId = some id → g.mainNode = some id) := by
  simp only [Op.apply]
  cases hs : g.slot id with
  | none =>
    rw [erase_dead hs]
    refine iff_of_true h (fun he => ?_)
    have hlive := h id he
    rw [hasNode, hs] at hlive
    cases hlive
  | some n =>
    obtain ⟨g', hrun, herased⟩ := hwf.erase_live hs
    rw [hrun]
    change g'.EntryLive ↔ _
    have hentry := entryFunctionId_erase hs hrun
    constructor
    · intro hlive he
      by_contra hm
      rw [if_neg (fun hc => hm hc.1)] at hentry
      have hgone := hlive id (hentry.trans he)
      rw [hasNode, herased.slots, if_pos rfl] at hgone
      cases hgone
    · intro hc i hi
      rw [hentry] at hi
      split_ifs at hi with hboth
      have hne : i ≠ id := by
        intro he
        subst he
        exact hboth ⟨hc hi, hi⟩
      rw [hasNode, herased.slots, if_neg hne]
      exact h i hi

theorem entryLive_clear_iff (g : Callgraph) : g.clear.EntryLive ↔ g.entryFunctionId = none := by
  have hentry : g.clear.entryFunctionId = g.entryFunctionId := entryFunctionId_congr rfl
  rw [EntryLive, hentry]
  constructor
  · intro h
    cases he : g.entryFunctionId with
    | none => rfl
    | some i => exact absurd (h i he) (by simp [hasNode, slot, clear])
  · intro he i hi
    rw [he] at hi
    cases hi

/-! ## Whole histories -/

/-- Entry metadata is attached for a node of the graph only. -/
def Op.NamesNode (g : Callgraph) : Op → Prop
  | .addMetaData md => ∀ i, md.entryId = some i → g.hasNode i = true
  | _ => True

/-- The node named by the metadata is erased only as the cached main node, and its graph is not cleared. -/
def Op.KeepsEntry (g : Callgraph) : Op → Prop
  | .erase id => g.entryFunctionId = some id → g.mainNode = some id
  | .clear => g.entryFunctionId = none
  | _ => True

theorem Grows.orKeep {α : Type} {g : Callgraph} {x : Except Exn α} {graph : α → Callgraph}
    (hx : ∀ a, x = .ok a → Grows g (graph a)) : Grows g (g.orKeep x graph) := by
  cases x with
  | error e => exact .refl g
  | ok a => exact hx a rfl

/-- The step lemma: of the operations only `erase` and `clear` can lose the entry function. -/
theorem entryLive_apply_iff {g : Callgraph} (hwf : g.Wf) (h : g.EntryLive) (self : ℕ) {op : Op} (hop : op.NamesNode g) :
    (op.apply self g).EntryLive ↔ op.KeepsEntry g := by
  have grows : ∀ {g'}, Grows g g' → (g'.EntryLive ↔ True) := fun hg => iff_of_true (hg.entryLive h) trivial
  cases op with
  | insert f o v b => exact grows (.orKeep fun a ha => (Grows.insert ha).1)
  | getOrInsertNode f o v b => exact grows (.orKeep fun a ha => .getOrInsertNode ha)
  | erase id => exact entryLive_erase_iff hwf h id
  | addEdge p c => exact grows (.orKeep fun a ha => .addEdge ha)
  | addEdgeRef p c =>
    refine grows ?_
    unfold Op.apply addEdgeRef
    simp only
    split_ifs
    · exact .refl g
    · exact .addEdgeInternal g p.id c.id
  | addEdgeNamed p c =>
    refine grows (.orKeep fun a ha => ?_)
    unfold addEdgeNamed at ha
    split at ha
    · exact .addEdge ha
    · cases ha
      exact .refl g
  | removeEdge p c => exact grows (.orKeep fun a ha => .removeEdge ha)
  | removeEdgeRef p c =>
    refine grows (.orKeep fun a ha => ?_)
    unfold removeEdgeRef at ha
    split_ifs at ha
    · cases ha
      exact .refl g
    · exact .removeEdge ha
  | removeEdgeNamed p c =>
    refine grows (.orKeep fun a ha => ?_)
    unfold removeEdgeNamed at ha
    split at ha
    · exact .removeEdge ha
    · cases ha
      exact .refl g
  | clear => exact entryLive_clear_iff g
  | merge other => exact iff_of_true (h.mergeLeaves mergeByName other) trivial
  | getMain force => exact grows (.getMain g force)
  | addMetaData md => exact iff_of_true (h.withMeta hop) trivial
  | addNodeMetaData id md => exact grows (.updateNode ..)
  | addEdgeMetaData key ids md => exact grows (.addEdgeMetaData g key ids md)

/-- The metadata other than the entry function refers to nodes only. -/
structure OtherRefsLive (g : Callgraph) : Prop where
  node : ∀ n ∈ g.liveNodes, ∀ e ∈ UMap.toPairs n.metaFields, ∀ i ∈ e.2.refs, g.hasNode i = true
  edge : ∀ p ∈ UMap.toPairs g.edges, ∀ e ∈ UMap.toPairs p.2, ∀ i ∈ e.2.refs, g.hasNode i = true
  global : ∀ e ∈ UMap.toPairs g.metaFields, e.1 ≠ "entryFunction" → ∀ i ∈ e.2.refs, g.hasNode i = true
  kind : ∀ md, g.metaFields.lookup "entryFunction" = some md → md.getKey = "entryFunction"

/-- The entry function is a node, so that it can be looked up and written. -/
structure EntrySafe (g : Callgraph) : Prop where
  live : g.EntryLive
  getMain : ∀ force, ∃ g', g.getMain force = .ok g'
  write : g.OtherRefsLive → ∀ fileInfo useNamesAsIds, ∃ j, g.write fileInfo useNamesAsIds = .ok j

theorem Wf.findMain_ok {g : Callgraph} (h : g.Wf) (names : List String) : ∃ p, g.findMain names = .ok p := by
  induction names with
  | nil => exact ⟨none, rfl⟩
  | cons name names ih =>
    have hfirst : ∃ p, g.getFirstNode name = .ok p := by
      unfold getFirstNode
      cases hl : g.getNodesNamed name with
      | nil => exact ⟨none, rfl⟩
      | cons id rest =>
        obtain ⟨n, hn, -⟩ := (h.mem_named name id).mp (hl ▸ List.mem_cons_self ..)
        exact ⟨_, getNode_of_lt (slot_lt hn)⟩
    obtain ⟨p, hp⟩ := hfirst
    unfold findMain
    rw [hp]
    cases p with
    | none => exact ih
    | some node => exact ⟨some node.id, rfl⟩

theorem EntryLive.safe {g : Callgraph} (h : g.EntryLive) (hwf : g.Wf) : g.EntrySafe where
  live := h
  getMain := by
    intro force
    obtain ⟨p, hp⟩ := hwf.findMain_ok mainNames
    unfold Callgraph.getMain
    have hentry : (if force then { g with mainNode := none } else g : Callgraph).entryFunctionId = g.entryFunctionId := by
      split_ifs <;> rfl
    have hnode : ∀ id, (if force then { g with mainNode := none } else g : Callgraph).getNode id = g.getNode id := by
      split_ifs <;> exact fun _ => rfl
    have hfind : ∀ names, (if force then { g with mainNode := none } else g : Callgraph).findMain names = g.findMain names := by
      split_ifs
      · intro names
        induction names with
        | nil => rfl
        | cons name names ih =>
          unfold findMain
          rw [ih]
          rfl
      · exact fun _ => rfl
    generalize (if force then { g with mainNode := none } else g : Callgraph) = g₁ at hentry hnode hfind
    simp only [hentry, hnode, hfind, hp, Outcome.guard_ok]
    split_ifs
    · exact ⟨_, rfl⟩
    · cases he : g.entryFunctionId with
      | none => exact ⟨_, rfl⟩
      | some id =>
        obtain ⟨n, hn⟩ := (g.hasNode_iff id).mp (h id he)
        simp only [getNode_of_lt (slot_lt hn), hn, Outcome.guard_ok]
        exact ⟨_, rfl⟩
  write := by
    intro ho fileInfo b
    refine hwf.write_ok ⟨ho.node, ho.edge, fun e he i hi => ?_⟩ fileInfo b
    by_cases hk : e.1 = "entryFunction"
    · have hl : g.metaFields.lookup "entryFunction" = some e.2 := by
        rw [← hk]
        exact (UMap.mem_toPairs e.1 e.2 _).mp he
      have hkind := ho.kind e.2 hl
      refine h i ?_
      rw [entryFunctionId_eq, hl]
      cases hmd : e.2 with
      | entryFunction md =>
        rw [hmd] at hi
        exact Option.mem_toList.mp hi
      | _ =>
        rw [hmd] at hkind
        exact absurd hkind (by simp [MetaData.getKey])
    · exact ho.global e he hk i hi

/-- The entry function stays a node throughout a history iff every step keeps it. -/
theorem run_entrySafe_iff (self : ℕ) {ops : List Op} (hops : ∀ pre op, pre ++ [op] <+: ops → op.NamesNode (run self pre)) :
    (∀ pre, pre <+: ops → (run self pre).EntrySafe) ↔ ∀ pre op, pre ++ [op] <+: ops → op.KeepsEntry (run self pre) := by
  have hlive : (∀ pre, pre <+: ops → (run self pre).EntryLive) ↔
      ∀ pre op, pre ++ [op] <+: ops → op.KeepsEntry (run self pre) :=
    Run.inv_iff (f := Op.apply self) (I := EntryLive) (K := fun g op => op.KeepsEntry g) (fun i hi => by cases hi)
      (fun pre op hpre hi => entryLive_apply_iff (run_wf self pre) hi self (hops pre op hpre))
  rw [← hlive]
  constructor
  · exact fun h pre hpre => (h pre hpre).live
  · exact fun h pre hpre => (h pre hpre).safe (run_wf self pre)

/-- The entry function is cached, erased, replaced by a `main`, and the graph is cleared at the end. -/
def mainErased : List Op := [.insert "start" none false true, .addMetaData (.entryFunction ⟨some 0⟩), .getMain false,
  .erase 0, .insert "main" none false true, .clear]

theorem run_entrySafe_mainErased :
    (run 0 mainErased).entryFunctionId = none ∧ ∀ pre, pre <+: mainErased → (run 0 pre).EntrySafe := by
  have hops : Run.EachStep (Op.apply 0) (fun g op => op.NamesNode g) Callgraph.empty mainErased := by
    refine ⟨trivial, fun i hi => ?_, trivial, trivial, trivial, trivial, trivial⟩
    cases hi
    decide
  refine ⟨by decide, (run_entrySafe_iff 0 hops.at_prefix).mpr ?_⟩
  have hkeep : Run.EachStep (Op.apply 0) (fun g op => op.KeepsEntry g) Callgraph.empty mainErased := by
    refine ⟨trivial, trivial, trivial, ?_, trivial, ?_, trivial⟩
    · exact show entryFunctionId _ = some 0 → mainNode _ = some 0 by decide
    · exact show entryFunctionId _ = none by decide
  exact hkeep.at_prefix

/-- The entry function is erased before anyone asked for the main function. -/
def mainDangling : List Op := [.insert "start" none false true, .addMetaData (.entryFunction ⟨some 0⟩), .erase 0]

theorem run_mainDangling :
    (∀ pre op, pre ++ [op] <+: mainDangling → op.NamesNode (run 0 pre)) ∧ (run 0 mainDangling).entryFunctionId = some 0 ∧
      (run 0 mainDangling).hasNode 0 = false ∧ ¬ (run 0 mainDangling).EntrySafe ∧
      (run 0 mainDangling).write (.four ⟨"MetaCG", 0, 9, ""⟩) false = .error (.assertion "ID must be valid") := by
  have hops : Run.EachStep (Op.apply 0) (fun g op => op.NamesNode g) Callgraph.empty mainDangling := by
    refine ⟨trivial, fun i hi => ?_, trivial, trivial⟩
    cases hi
    decide
  have hgone : (run 0 mainDangling).hasNode 0 = false := by decide
  refine ⟨hops.at_prefix, by decide, hgone, fun h => ?_, rfl⟩
  have hlive := h.live 0 (by decide)
  rw [hgone] at hlive
  cases hlive

end Callgraph
end MetaCG
