import MetaCG.Merge.EdgeLoop

/-! The loops of `merge` over node metadata and global metadata.

Both store an object under its own key, so every cell (a node and a key, or a global key) absorbs
the objects of its key in turn and nothing else: the loops scatter over the cells. Objects of one
cell are of one kind, and a cell that is occupied when a source node arrives belongs to a node with
a merge action, so neither loop can fail on graphs whose metadata is well formed (`MetaKeyed`,
`RefsLive`). -/
namespace MetaCG
open Foundations
set_option autoImplicit false
set_option maxHeartbeats 250000
set_option maxRecDepth 120000

namespace Callgraph

/-! ## Well-formed metadata -/

/-- Node metadata and global metadata are stored under their own keys, as `addMetaData` does. -/
structure MetaKeyed (g : Callgraph) : Prop where
  node : ∀ n ∈ g.liveNodes, ∀ e ∈ UMap.toPairs n.metaFields, e.2.getKey = e.1
  global : ∀ e ∈ UMap.toPairs g.metaFields, e.2.getKey = e.1

/-- The node ids stored in the metadata of a graph are those of its nodes. -/
structure RefsLive (g : Callgraph) : Prop where
  node : ∀ n ∈ g.liveNodes, ∀ e ∈ UMap.toPairs n.metaFields, ∀ i ∈ e.2.refs, g.hasNode i = true
  edge : ∀ p ∈ UMap.toPairs g.edges, ∀ e ∈ UMap.toPairs p.2, ∀ i ∈ e.2.refs, g.hasNode i = true
  global : ∀ e ∈ UMap.toPairs g.metaFields, ∀ i ∈ e.2.refs, g.hasNode i = true

instance (g : Callgraph) : Decidable g.MetaKeyed :=
  decidable_of_iff ((∀ n ∈ g.liveNodes, ∀ e ∈ UMap.toPairs n.metaFields, e.2.getKey = e.1) ∧
    ∀ e ∈ UMap.toPairs g.metaFields, e.2.getKey = e.1) ⟨fun h => ⟨h.1, h.2⟩, fun h => ⟨h.1, h.2⟩⟩

instance (g : Callgraph) : Decidable g.RefsLive :=
  decidable_of_iff
    ((∀ n ∈ g.liveNodes, ∀ e ∈ UMap.toPairs n.metaFields, ∀ i ∈ e.2.refs, g.hasNode i = true) ∧
      (∀ p ∈ UMap.toPairs g.edges, ∀ e ∈ UMap.toPairs p.2, ∀ i ∈ e.2.refs, g.hasNode i = true) ∧
      ∀ e ∈ UMap.toPairs g.metaFields, ∀ i ∈ e.2.refs, g.hasNode i = true)
    ⟨fun h => ⟨h.1, h.2.1, h.2.2⟩, fun h => ⟨h.1, h.2, h.3⟩⟩

theorem nodeMeta_of_mem {S : Callgraph} (hS : S.Wf) {s : CgNode} (hs : s ∈ S.liveNodes) (k : String) :
    S.nodeMeta s.id k = s.metaFields.lookup k := by
  rw [nodeMeta, hS.slot_of_mem hs]
  rfl

theorem MetaKeyed.nodeMeta {g : Callgraph} (h : g.MetaKeyed) {i : ℕ} {k : String} {md : MetaData}
    (hm : g.nodeMeta i k = some md) : md.getKey = k := by
  obtain ⟨n, hn, hl⟩ := Option.bind_eq_some_iff.mp hm
  exact h.node n ((g.mem_liveNodes n).mpr ⟨i, hn⟩) (k, md) ((UMap.mem_toPairs k md _).mpr hl)

/-! ## One cell -/

/-- A cell absorbs an object: it merges with the object there, or the cell takes a clone. -/
def absorbCell (combine : MetaData → MetaData → Except Exn MetaData) (mapping : GraphMapping)
    (cell : Option MetaData) (md : MetaData) : Except Exn (Option MetaData) :=
  match cell with
  | some own => some <$> combine own md
  | none => some <$> md.cloneMapped mapping

def nodeText : String := "Metadata must not exist without previous merge action"

def absorbNodeEntry (r : MergeRecorder) (cell : Option MetaData) (x : SourceEntry) :
    Except Exn (Option MetaData) :=
  absorbCell (mergeUnder nodeText (r.getAction x.1) r.mapping) r.mapping cell x.2.2

theorem absorbNodeEntry_cases {r : MergeRecorder} {cell cell' : Option MetaData} {x : SourceEntry}
    (h : absorbNodeEntry r cell x = .ok cell') :
    (∃ c, cell = none ∧ cell' = some c ∧ x.2.2.cloneMapped r.mapping = .ok c) ∨
      ∃ own m act, cell = some own ∧ cell' = some m ∧ own.merge x.2.2 (some act) r.mapping = .ok m := by
  unfold absorbNodeEntry absorbCell at h
  cases cell with
  | none =>
    left
    cases hc : x.2.2.cloneMapped r.mapping with
    | error e => rw [hc] at h; cases h
    | ok c =>
      rw [hc] at h
      cases h
      exact ⟨c, rfl, rfl, rfl⟩
  | some own =>
    right
    cases ha : r.getAction x.1 with
    | none => rw [ha] at h; cases h
    | some act =>
      simp only [ha, mergeUnder] at h
      cases hm : own.merge x.2.2 (some act) r.mapping with
      | error e => rw [hm] at h; cases h
      | ok m =>
        rw [hm] at h
        cases h
        exact ⟨own, m, act, rfl, rfl, hm⟩

theorem absorbNodeEntry_ok {r : MergeRecorder} {k : String} {cell : Option MetaData} {x : SourceEntry}
    (hcell : ∀ own ∈ cell, own.getKey = k) (hx : x.2.2.getKey = k) (hrefs : Mapped r.mapping x.2.2.refs)
    (hact : cell ≠ none → (r.getAction x.1).isSome = true) :
    ∃ md, absorbNodeEntry r cell x = .ok (some md) ∧ md.getKey = k := by
  unfold absorbNodeEntry absorbCell
  cases cell with
  | none =>
    obtain ⟨c, hc, hkey, -⟩ := x.2.2.cloneMapped_spec hrefs
    exact ⟨c, by simp only [hc]; rfl, hkey.trans hx⟩
  | some own =>
    obtain ⟨act, ha⟩ := Option.isSome_iff_exists.mp (hact (by simp))
    have hown : own.getKey = k := hcell own rfl
    obtain ⟨m, hm, hkey, -⟩ := own.merge_spec x.2.2 (some act) (hown.trans hx.symm) hrefs
    exact ⟨m, by simp only [ha, mergeUnder, hm]; rfl, hkey.trans hown⟩

/-- A cell absorbs all its objects if every object that finds it occupied has an action. -/
theorem absorbNodeEntries_ok {r : MergeRecorder} {k : String} {cell : Option MetaData} {l : List SourceEntry}
    (hcell : ∀ own ∈ cell, own.getKey = k)
    (hl : ∀ x ∈ l, x.2.2.getKey = k ∧ Mapped r.mapping x.2.2.refs)
    (hact : ∀ pre x post, l = pre ++ x :: post → cell ≠ none ∨ pre ≠ [] → (r.getAction x.1).isSome = true) :
    ∃ cell', l.foldlM (absorbNodeEntry r) cell = .ok cell' := by
  have htot := foldlM_total (f := absorbNodeEntry r) (l := l) (s := cell)
    (J := fun pre c => (∀ own ∈ c, own.getKey = k) ∧ (c ≠ none → cell ≠ none ∨ pre ≠ []))
    ⟨hcell, fun h => .inl h⟩ ?_
  · obtain ⟨c, hc, -⟩ := htot
    exact ⟨c, hc⟩
  · rintro pre x c ⟨post, hpost⟩ ⟨hkey, hocc⟩
    have hsplit : l = pre ++ x :: post := by rw [← hpost, List.append_assoc]; rfl
    obtain ⟨hxk, hxr⟩ := hl x (by rw [hsplit]; simp)
    obtain ⟨md, hmd, hmdk⟩ := absorbNodeEntry_ok hkey hxk hxr (fun hc => hact pre x post hsplit (hocc hc))
    refine ⟨some md, hmd, ?_, fun _ => .inr (by simp)⟩
    rintro own ⟨⟩
    exact hmdk

/-! ## Node metadata -/

/-- Only the metadata of the nodes differs. -/
structure SameButMeta (g g' : Callgraph) : Prop where
  frame : g' = { g with nodes := g'.nodes }
  slot : ∀ i, (g'.slot i).map (fun n => { n with metaFields := ∅ }) =
    (g.slot i).map fun n => { n with metaFields := ∅ }

theorem SameButMeta.refl (g : Callgraph) : SameButMeta g g := ⟨rfl, fun _ => rfl⟩

theorem SameButMeta.trans {g g₁ g₂ : Callgraph} (h₁ : SameButMeta g g₁) (h₂ : SameButMeta g₁ g₂) :
    SameButMeta g g₂ := by
  refine ⟨?_, fun i => (h₂.slot i).trans (h₁.slot i)⟩
  rw [h₂.frame, h₁.frame]

theorem SameButMeta.symm {g g' : Callgraph} (h : SameButMeta g g') : SameButMeta g' g := by
  refine ⟨?_, fun i => (h.slot i).symm⟩
  rw [h.frame]

theorem SameButMeta.hasNode {g g' : Callgraph} (h : SameButMeta g g') (i : ℕ) : g'.hasNode i = g.hasNode i := by
  have hi := congrArg Option.isSome (h.slot i)
  rw [Option.isSome_map, Option.isSome_map] at hi
  exact hi

/-- A live node in one graph is the same node in the other, up to its metadata. -/
theorem SameButMeta.node {g g' : Callgraph} (h : SameButMeta g g') {i : ℕ} {n' : CgNode}
    (hn : g'.slot i = some n') : ∃ n, g.slot i = some n ∧ n'.id = n.id ∧ n'.functionName = n.functionName ∧
      n'.origin = n.origin ∧ n'.hasBody = n.hasBody := by
  have hi := h.slot i
  rw [hn, Option.map_some] at hi
  obtain ⟨n, hn', he⟩ := Option.map_eq_some_iff.mp hi.symm
  simp only [CgNode.mk.injEq, and_true] at he
  exact ⟨n, hn', he.1.symm, he.2.1.symm, he.2.2.1.symm, he.2.2.2.symm⟩

theorem setNodeMeta_same (g : Callgraph) (id : ℕ) (key : String) (md : MetaData) :
    SameButMeta g (g.setNodeMeta id key md) := by
  refine ⟨rfl, fun i => ?_⟩
  rw [setNodeMeta, slot_updateNode]
  split_ifs
  · rw [Option.map_map]
    rfl
  · rfl

theorem nodeMeta_setNodeMeta {g : Callgraph} {id : ℕ} (h : g.hasNode id = true) (key : String) (md : MetaData)
    (c : ℕ × String) :
    (g.setNodeMeta id key md).nodeMeta c.1 c.2 = if c = (id, key) then some md else g.nodeMeta c.1 c.2 := by
  obtain ⟨i, k⟩ := c
  obtain ⟨n, hn⟩ := (g.hasNode_iff id).mp h
  unfold nodeMeta setNodeMeta
  rw [slot_updateNode]
  by_cases hi : i = id
  · subst hi
    rw [if_pos rfl, hn]
    simp only [Option.map_some, Option.bind_some, UMap.lookup_insert_ite, Prod.mk.injEq, true_and]
  · rw [if_neg hi, if_neg (fun he => hi (Prod.mk.inj he).1)]

section NodeLoop
variable {g : Callgraph} {r : MergeRecorder}

/-- The metadata entries of a source node. -/
def nodeEntriesOf (n : CgNode) : List SourceEntry := (UMap.toPairs n.metaFields).map fun e => (n.id, e)

/-- The node and key under which an entry of a source node arrives. -/
def nodeTarget (r : MergeRecorder) (x : SourceEntry) : ℕ × String := (UMap.getD r.mapping x.1 0, x.2.1)

def mergeNodeEntry (r : MergeRecorder) (g : Callgraph) (x : SourceEntry) : Except (Exn × Callgraph) Callgraph :=
  mergeNodeMetaEntry r x.1 (UMap.getD r.mapping x.1 0) g x.2

/-- What the loop needs to know about an entry. -/
def EntryReady (r : MergeRecorder) (g : Callgraph) (x : SourceEntry) : Prop :=
  (∃ t, r.mapping.lookup x.1 = some t ∧ g.hasNode t = true) ∧ x.2.2.getKey = x.2.1 ∧ Mapped r.mapping x.2.2.refs

/-- The entry is stored under its own key and its node leads to a live target node. -/
def EntryPlaced (r : MergeRecorder) (g : Callgraph) (x : SourceEntry) : Prop :=
  (∃ t, r.mapping.lookup x.1 = some t ∧ g.hasNode t = true) ∧ x.2.2.getKey = x.2.1

theorem EntryReady.placed {x : SourceEntry} (h : EntryReady r g x) : EntryPlaced r g x := ⟨h.1, h.2.1⟩

theorem mergeNodeEntries_scatters {l : List SourceEntry} (hl : ∀ x ∈ l, EntryPlaced r g x) :
    Scatters (SameButMeta g) (fun s c => s.nodeMeta c.1 c.2) (nodeTarget r) (absorbNodeEntry r)
      (mergeNodeEntry r) l := by
  intro s x hx hs
  obtain ⟨⟨t, ht, hlive⟩, hkey⟩ := hl x hx
  have hgt : UMap.getD r.mapping x.1 0 = t := by rw [UMap.getD, ht]; rfl
  have hst : s.hasNode t = true := by rw [hs.hasNode]; exact hlive
  unfold absorbNodeEntry absorbCell mergeNodeEntry mergeNodeMetaEntry
  simp only [nodeTarget, hgt]
  cases hl : s.nodeMeta t x.2.1 with
  | none =>
    cases hc : x.2.2.cloneMapped r.mapping with
    | error e => exact ⟨_, rfl⟩
    | ok c =>
      simp only [Outcome.guard_ok, (MetaData.cloneMapped_result hc).1, hkey]
      exact ⟨_, rfl, hs.trans (setNodeMeta_same ..), fun i => nodeMeta_setNodeMeta hst _ _ i⟩
  | some own =>
    cases ha : r.getAction x.1 with
    | none =>
      simp only [mergeUnder]
      exact ⟨_, rfl⟩
    | some act =>
      simp only [mergeUnder]
      cases hm : own.merge x.2.2 (some act) r.mapping with
      | error e => exact ⟨_, rfl⟩
      | ok m => exact ⟨_, rfl, hs.trans (setNodeMeta_same ..), fun i => nodeMeta_setNodeMeta hst _ _ i⟩

theorem mergeNodeMetaData_eq {n : CgNode} {t : ℕ} (ht : r.mapping.lookup n.id = some t)
    (hlive : g.hasNode t = true) :
    mergeNodeMetaData r g (some n) = (nodeEntriesOf n).foldlM (mergeNodeEntry r) g := by
  obtain ⟨m, hm⟩ := (g.hasNode_iff t).mp hlive
  have hgt : UMap.getD r.mapping n.id 0 = t := by rw [UMap.getD, ht]; rfl
  simp only [mergeNodeMetaData, mappingAtAsserted_eq _ ht, Outcome.guard_ok, getNode_of_lt (slot_lt hm), hm,
    nodeEntriesOf, List.foldlM_map, mergeNodeEntry, hgt]

/-- The nested loops run through the entries of all source nodes. -/
theorem mergeNodeMetaData_loop {ns : List CgNode} (h : ∀ x ∈ ns.flatMap nodeEntriesOf, EntryPlaced r g x)
    (hns : ∀ n ∈ ns, ∃ t, r.mapping.lookup n.id = some t ∧ g.hasNode t = true) :
    (ns.map some).foldlM (mergeNodeMetaData r) g = (ns.flatMap nodeEntriesOf).foldlM (mergeNodeEntry r) g := by
  rw [List.foldlM_map, foldlM_flatMap]
  have heq : ∀ s n, n ∈ ns → SameButMeta g s →
      mergeNodeMetaData r s (some n) = (nodeEntriesOf n).foldlM (mergeNodeEntry r) s := by
    intro s n hn hs
    obtain ⟨t, ht, hlive⟩ := hns n hn
    exact mergeNodeMetaData_eq ht (by rw [hs.hasNode]; exact hlive)
  refine foldlM_congr_inv (I := SameButMeta g) (SameButMeta.refl g) heq ?_
  intro s n s' hn hs hstep
  have hplaced : ∀ x ∈ nodeEntriesOf n, EntryPlaced r g x :=
    fun x hx => h x (List.mem_flatMap.mpr ⟨n, hn, hx⟩)
  rw [heq s n hn hs] at hstep
  exact (scatter_ok (mergeNodeEntries_scatters hplaced) hs hstep).1

/-- The objects that the source nodes mapped to `t` hold under the key `k`, in the order of the nodes. -/
def valuesAt (r : MergeRecorder) (ns : List CgNode) (t : ℕ) (k : String) : List SourceEntry :=
  ns.filterMap fun n => if r.mapping.lookup n.id = some t then (n.metaFields.lookup k).map fun md => (n.id, (k, md))
    else none

theorem itemsOf_nodeEntries (ns : List CgNode) (hns : ∀ n ∈ ns, ∃ t, r.mapping.lookup n.id = some t)
    (c : ℕ × String) : itemsOf (nodeTarget r) (ns.flatMap nodeEntriesOf) c = valuesAt r ns c.1 c.2 := by
  obtain ⟨t, k⟩ := c
  induction ns with
  | nil => rfl
  | cons n ns ih =>
    obtain ⟨t', ht'⟩ := hns n (List.mem_cons_self ..)
    have hrest := ih (fun m hm => hns m (List.mem_cons_of_mem n hm))
    have hgt : UMap.getD r.mapping n.id 0 = t' := by rw [UMap.getD, ht']; rfl
    have hfst : itemsOf (nodeTarget r) (nodeEntriesOf n) (t, k) =
        (if t' = t then (n.metaFields.lookup k).map fun md => (n.id, (k, md)) else none).toList := by
      rw [itemsOf, nodeEntriesOf, List.filter_map]
      by_cases he : t' = t
      · subst he
        have hp : ((fun a => decide (nodeTarget r a = (t', k))) ∘ fun e : String × MetaData => (n.id, e)) =
            fun e => decide (e.1 = k) := by
          funext e
          simp [nodeTarget, hgt]
        rw [hp, UMap.toPairs_filter, if_pos rfl]
        cases n.metaFields.lookup k <;> rfl
      · have hp : ((fun a => decide (nodeTarget r a = (t, k))) ∘ fun e : String × MetaData => (n.id, e)) =
            fun _ => false := by
          funext e
          simp [nodeTarget, hgt, he]
        rw [hp, if_neg he, List.filter_false]
        rfl
    have hcond : (r.mapping.lookup n.id = some t) = (t' = t) := by rw [ht', Option.some.injEq]
    rw [valuesAt, List.filterMap_cons, List.flatMap_cons]
    rw [itemsOf, List.filter_append, ← itemsOf, ← itemsOf, hfst, hrest]
    simp only [hcond]
    cases (if t' = t then (n.metaFields.lookup k).map fun md => (n.id, (k, md)) else none) <;> rfl

end NodeLoop

/-! ## Global metadata -/

def absorbGlobal (r : MergeRecorder) (cell : Option MetaData) (e : String × MetaData) :
    Except Exn (Option MetaData) :=
  absorbCell (fun own md => own.merge md none r.mapping) r.mapping cell e.2

/-- Only the global metadata differs. -/
def SameButGlobal (g g' : Callgraph) : Prop := g' = { g with metaFields := g'.metaFields }

theorem mergeGlobals_scatters {g : Callgraph} {r : MergeRecorder} {l : List (String × MetaData)}
    (hl : ∀ e ∈ l, e.2.getKey = e.1 ∧ Mapped r.mapping e.2.refs) :
    Scatters (SameButGlobal g) (fun s k => s.metaFields.lookup k) Prod.fst (absorbGlobal r)
      (mergeGlobalMetaData r) l := by
  intro s e he hs
  obtain ⟨hkey, hrefs⟩ := hl e he
  unfold absorbGlobal absorbCell mergeGlobalMetaData
  beta_reduce
  cases hl : s.metaFields.lookup e.1 with
  | none =>
    obtain ⟨c, hc, hck, -⟩ := e.2.cloneMapped_spec hrefs
    simp only [hc, Outcome.guard_ok, addMetaData, hck, hkey]
    refine ⟨_, rfl, ?_, fun k => UMap.lookup_insert_ite _ _ _ _⟩
    unfold SameButGlobal at hs ⊢
    rw [hs]
  | some own =>
    simp only
    cases hm : own.merge e.2 none r.mapping with
    | error x => exact ⟨_, rfl⟩
    | ok m =>
      refine ⟨_, rfl, ?_, fun k => UMap.lookup_insert_ite _ _ _ _⟩
      unfold SameButGlobal at hs ⊢
      rw [hs]

end Callgraph
end MetaCG
