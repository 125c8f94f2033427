import MetaCG.Merge.Structure

/-! The node ids inside metadata follow a merge.

Merged objects map the ids of the source inside `merge`, cloned ones in `applyMapping`; both ways an
object ends up with its own ids and the images of the ids it absorbed. -/
namespace MetaCG
open Foundations
set_option autoImplicit false
set_option maxHeartbeats 250000
set_option maxRecDepth 120000

namespace MetaData

def overrides : MetaData → List ℕ
  | .override md => md.overrides
  | _ => []

def overriddenBy : MetaData → List ℕ
  | .override md => md.overriddenBy
  | _ => []

/-- The ids that `sel` reads are united: own ones and the images of those of the other object. -/
def Unites (mapping : GraphMapping) (sel : MetaData → List ℕ) : Prop :=
  (∀ own md action m, Mapped mapping md.refs → own.merge md action mapping = .ok m →
    ∀ x, x ∈ sel m ↔ x ∈ sel own ∨ ∃ y ∈ sel md, mapping.lookup y = some x) ∧
  ∀ md c, Mapped mapping md.refs → md.cloneMapped mapping = .ok c →
    ∀ x, x ∈ sel c ↔ ∃ y ∈ sel md, mapping.lookup y = some x

theorem merge_override {own md m : MetaData} {action : Option MergeAction} {mapping : GraphMapping}
    (h : own.merge md action mapping = .ok m) :
    (∃ a b c, own = .override a ∧ md = .override b ∧ m = .override c ∧ a.merge b mapping = .ok c) ∨
      ((∀ a, own ≠ .override a) ∧ (∀ b, md ≠ .override b) ∧ ∀ c, m ≠ .override c) := by
  have hk := getKey_of_merge h
  cases own with
  | override a =>
    cases md <;> simp [getKey] at hk
    next b =>
    left
    simp only [merge] at h
    cases hc : a.merge b mapping with
    | error e => rw [hc] at h; cases h
    | ok c =>
      rw [hc] at h
      cases h
      exact ⟨a, b, c, rfl, rfl, rfl, hc⟩
  | entryFunction a =>
    cases md <;> simp [getKey] at hk
    next b =>
    right
    simp only [merge] at h
    cases hc : a.merge b action mapping with
    | error e => rw [hc] at h; cases h
    | ok c =>
      rw [hc] at h
      cases h
      exact ⟨by simp, by simp, by simp⟩
  | _ =>
    cases md <;> simp [getKey] at hk
    right
    cases h
    exact ⟨by simp, by simp, by simp⟩

theorem cloneMapped_override {md c : MetaData} {mapping : GraphMapping} (h : md.cloneMapped mapping = .ok c) :
    (∃ a b, md = .override a ∧ c = .override b ∧ a.applyMapping mapping = .ok b) ∨
      ((∀ a, md ≠ .override a) ∧ ∀ b, c ≠ .override b) := by
  cases md with
  | override a =>
    left
    simp only [cloneMapped] at h
    cases hb : a.applyMapping mapping with
    | error e => rw [hb] at h; cases h
    | ok b =>
      rw [hb] at h
      cases h
      exact ⟨a, b, rfl, rfl, hb⟩
  | entryFunction a =>
    right
    simp only [cloneMapped] at h
    cases hb : a.applyMapping mapping with
    | error e => rw [hb] at h; cases h
    | ok b =>
      rw [hb] at h
      cases h
      exact ⟨by simp, by simp⟩
  | _ =>
    right
    cases h
    exact ⟨by simp, by simp⟩

theorem overrides_eq_nil {md : MetaData} (h : ∀ a, md ≠ .override a) : md.overrides = [] := by
  cases md with
  | override a => exact absurd rfl (h a)
  | _ => rfl

theorem overriddenBy_eq_nil {md : MetaData} (h : ∀ a, md ≠ .override a) : md.overriddenBy = [] := by
  cases md with
  | override a => exact absurd rfl (h a)
  | _ => rfl

theorem unites_overrides (mapping : GraphMapping) : Unites mapping overrides := by
  refine ⟨fun own md action m hrefs hm x => ?_, fun md c hrefs hc x => ?_⟩
  · rcases merge_override hm with ⟨a, b, c, rfl, rfl, rfl, hc⟩ | ⟨h1, h2, h3⟩
    · obtain ⟨c', hc', h1, -⟩ := a.merge_spec b hrefs
      rw [hc] at hc'
      cases hc'
      exact h1 x
    · rw [overrides_eq_nil h1, overrides_eq_nil h2, overrides_eq_nil h3]
      simp
  · rcases cloneMapped_override hc with ⟨a, b, rfl, rfl, hb⟩ | ⟨h1, h2⟩
    · obtain ⟨b', hb', h1, -⟩ := a.applyMapping_spec hrefs
      rw [hb] at hb'
      cases hb'
      exact mem_of_map_some h1 x
    · rw [overrides_eq_nil h1, overrides_eq_nil h2]
      simp

theorem unites_overriddenBy (mapping : GraphMapping) : Unites mapping overriddenBy := by
  refine ⟨fun own md action m hrefs hm x => ?_, fun md c hrefs hc x => ?_⟩
  · rcases merge_override hm with ⟨a, b, c, rfl, rfl, rfl, hc⟩ | ⟨h1, h2, h3⟩
    · obtain ⟨c', hc', -, h2⟩ := a.merge_spec b hrefs
      rw [hc] at hc'
      cases hc'
      exact h2 x
    · rw [overriddenBy_eq_nil h1, overriddenBy_eq_nil h2, overriddenBy_eq_nil h3]
      simp
  · rcases cloneMapped_override hc with ⟨a, b, rfl, rfl, hb⟩ | ⟨h1, h2⟩
    · obtain ⟨b', hb', -, h2⟩ := a.applyMapping_spec hrefs
      rw [hb] at hb'
      cases hb'
      exact mem_of_map_some h2 x
    · rw [overriddenBy_eq_nil h1, overriddenBy_eq_nil h2]
      simp

end MetaData

namespace Callgraph

/-! ## Cells of node metadata -/

/-- The ids that `sel` reads in a cell. -/
def readCell (sel : MetaData → List ℕ) (cell : Option MetaData) : List ℕ := (cell.map sel).getD []

theorem absorbNodeEntries_unites {r : MergeRecorder} {sel : MetaData → List ℕ}
    (hsel : MetaData.Unites r.mapping sel) {l : List SourceEntry} {cell cell' : Option MetaData}
    (hrefs : ∀ e ∈ l, Mapped r.mapping e.2.2.refs) (h : l.foldlM (absorbNodeEntry r) cell = .ok cell') (x : ℕ) :
    x ∈ readCell sel cell' ↔ x ∈ readCell sel cell ∨ ∃ e ∈ l, ∃ y ∈ sel e.2.2, r.mapping.lookup y = some x := by
  induction l generalizing cell with
  | nil =>
    cases h
    simp
  | cons e l ih =>
    rw [List.foldlM_cons] at h
    cases he : absorbNodeEntry r cell e with
    | error y => rw [he] at h; cases h
    | ok cell₁ =>
      rw [he] at h
      have hstep : x ∈ readCell sel cell₁ ↔
          x ∈ readCell sel cell ∨ ∃ y ∈ sel e.2.2, r.mapping.lookup y = some x := by
        have hmap := hrefs e (List.mem_cons_self ..)
        rcases absorbNodeEntry_cases he with ⟨c, rfl, rfl, hc⟩ | ⟨own, m, act, rfl, rfl, hm⟩
        · have := hsel.2 _ c hmap hc x
          simpa [readCell] using this
        · exact hsel.1 own _ (some act) m hmap hm x
      rw [ih (fun e' he' => hrefs e' (List.mem_cons_of_mem e he')) h, hstep, or_assoc, List.exists_mem_cons_iff]

/-! ## The override relation -/

def overridesOf (g : Callgraph) (i : ℕ) : List ℕ := readCell MetaData.overrides (g.nodeMeta i "overrideMD")

def overriddenByOf (g : Callgraph) (i : ℕ) : List ℕ := readCell MetaData.overriddenBy (g.nodeMeta i "overrideMD")

/-- Both nodes of an overriding pair know about it. -/
def OverrideSymmetric (g : Callgraph) : Prop := ∀ u v, v ∈ g.overridesOf u ↔ u ∈ g.overriddenByOf v

/-- How the references of the result come from those of the inputs. -/
structure ReferencesFollow (T S : Callgraph) (m : GraphMapping) (g : Callgraph) : Prop where
  overrides : ∀ i x, x ∈ g.overridesOf i ↔ x ∈ T.overridesOf i ∨
    ∃ s ∈ S.liveNodes, m.lookup s.id = some i ∧ ∃ y ∈ S.overridesOf s.id, m.lookup y = some x
  overriddenBy : ∀ i x, x ∈ g.overriddenByOf i ↔ x ∈ T.overriddenByOf i ∨
    ∃ s ∈ S.liveNodes, m.lookup s.id = some i ∧ ∃ y ∈ S.overriddenByOf s.id, m.lookup y = some x
  entry : g.entryFunctionId = match T.entryFunctionId with
    | some id => some id
    | none => S.entryFunctionId.bind m.lookup
  live : g.RefsLive
  symmetric : T.OverrideSymmetric → S.OverrideSymmetric → g.OverrideSymmetric

section
variable {T S g : Callgraph} {r : MergeRecorder}

theorem Merged.values_refs (hS : S.Wf) (hrefs : S.RefsLive) (h : Merged T S r g) (t : ℕ) (k : String) :
    ∀ x ∈ valuesAt r S.liveNodes t k, Mapped r.mapping x.2.2.refs := by
  intro x hx
  obtain ⟨s, hs, -, -, -, hl⟩ := valuesAt_mem hx
  exact h.mapped_refs hS (hrefs.node s hs (k, x.2.2) ((UMap.mem_toPairs _ _ _).mpr hl))

theorem Merged.readCell_iff (hS : S.Wf) (hrefs : S.RefsLive) (h : Merged T S r g) {sel : MetaData → List ℕ}
    (hsel : MetaData.Unites r.mapping sel) (k : String) (i x : ℕ) :
    x ∈ readCell sel (g.nodeMeta i k) ↔ x ∈ readCell sel (T.nodeMeta i k) ∨
      ∃ s ∈ S.liveNodes, r.mapping.lookup s.id = some i ∧
        ∃ y ∈ readCell sel (S.nodeMeta s.id k), r.mapping.lookup y = some x := by
  rw [absorbNodeEntries_unites hsel (h.values_refs hS hrefs i k) (h.nodeMeta i k) x]
  refine or_congr_right ⟨?_, ?_⟩
  · rintro ⟨e, he, y, hy, hl⟩
    obtain ⟨s, hs, -, hm, -, hlk⟩ := valuesAt_mem he
    refine ⟨s, hs, hm, y, ?_, hl⟩
    rw [nodeMeta_of_mem hS hs, hlk]
    exact hy
  · rintro ⟨s, hs, hm, y, hy, hl⟩
    rw [nodeMeta_of_mem hS hs] at hy
    cases hlk : s.metaFields.lookup k with
    | none => rw [hlk] at hy; cases hy
    | some md =>
      rw [hlk] at hy
      refine ⟨(s.id, (k, md)), List.mem_filterMap.mpr ⟨s, hs, ?_⟩, y, hy, hl⟩
      rw [if_pos hm, hlk]
      rfl

/-! ## Stored ids stay live -/

/-- The ids in `l` are nodes of the result once those of both inputs are. -/
def LiveIn (g : Callgraph) (l : List ℕ) : Prop := ∀ i ∈ l, g.hasNode i = true

theorem LiveIn.of_refsFrom {own other l : List ℕ} (hmap : ∀ i t, r.mapping.lookup i = some t → g.hasNode t = true)
    (hfrom : MetaData.RefsFrom r.mapping own other l) (hown : g.LiveIn own) : g.LiveIn l := by
  intro x hx
  rcases hfrom x hx with hx | ⟨y, -, hl⟩
  · exact hown x hx
  · exact hmap y x hl

theorem Merged.mapped_live (hS : S.Wf) (h : Merged T S r g) {i t : ℕ} (hl : r.mapping.lookup i = some t) :
    g.hasNode t = true := by
  obtain ⟨s, hs, rfl⟩ := h.mapped_dom i t hl
  obtain ⟨t', n, ht', hn, -⟩ := h.mapped_some hS (hS.slot_of_mem hs)
  rw [hl] at ht'
  cases ht'
  exact hasNode_of_slot hn

theorem Merged.liveIn_of_target (h : Merged T S r g) {l : List ℕ} (hl : T.LiveIn l) : g.LiveIn l := by
  intro i hi
  obtain ⟨n, hn⟩ := (T.hasNode_iff i).mp (hl i hi)
  obtain ⟨n', hn', -⟩ := h.old i n hn
  exact hasNode_of_slot hn'

theorem absorbNodeEntries_live (hmap : ∀ i t, r.mapping.lookup i = some t → g.hasNode t = true)
    {l : List SourceEntry} {cell cell' : Option MetaData} (hrefs : ∀ e ∈ l, Mapped r.mapping e.2.2.refs)
    (hcell : ∀ md ∈ cell, g.LiveIn md.refs) (h : l.foldlM (absorbNodeEntry r) cell = .ok cell') :
    ∀ md ∈ cell', g.LiveIn md.refs := by
  refine foldlM_ok_inv (J := fun _ c => ∀ md ∈ c, g.LiveIn md.refs) (l := l) hcell ?_ h
  intro pre e c c' hpre hc hstep md hmd
  have hme := hrefs e (hpre.subset (by simp))
  rcases absorbNodeEntry_cases hstep with ⟨c₁, rfl, rfl, hclone⟩ | ⟨own, m, act, rfl, rfl, hm⟩
  · cases hmd
    exact LiveIn.of_refsFrom hmap (MetaData.cloneMapped_result hclone).2 (fun i hi => absurd hi List.not_mem_nil)
  · cases hmd
    exact LiveIn.of_refsFrom hmap (MetaData.merge_result hme hm).2 (hc own rfl)

theorem absorbEdgeEntries_live (hmap : ∀ i t, r.mapping.lookup i = some t → g.hasNode t = true)
    {l : List SourceEntry} {fields fields' : NamedMetadata} (hrefs : ∀ e ∈ l, Mapped r.mapping e.2.2.refs)
    (hfields : ∀ k md, fields.lookup k = some md → g.LiveIn md.refs)
    (h : l.foldlM (absorbEdgeEntry r) fields = .ok fields') :
    ∀ k md, fields'.lookup k = some md → g.LiveIn md.refs := by
  refine foldlM_ok_inv (J := fun _ f => ∀ k md, f.lookup k = some md → g.LiveIn md.refs) (l := l) hfields ?_ h
  intro pre e f f' hpre hf hstep k md hmd
  have hme := hrefs e (hpre.subset (by simp))
  unfold absorbEdgeEntry at hstep
  cases hl : f.lookup e.2.1 with
  | none =>
    simp only [hl] at hstep
    cases hc : e.2.2.cloneMapped r.mapping with
    | error x => rw [hc] at hstep; cases hstep
    | ok c =>
      rw [hc] at hstep
      cases hstep
      rw [UMap.lookup_insert_ite] at hmd
      split_ifs at hmd
      · cases hmd
        exact LiveIn.of_refsFrom hmap (MetaData.cloneMapped_result hc).2 (fun i hi => absurd hi List.not_mem_nil)
      · exact hf k md hmd
  | some own =>
    simp only [hl] at hstep
    cases hm : mergeUnder edgeText (r.getAction e.1) r.mapping own e.2.2 with
    | error x => rw [hm] at hstep; cases hstep
    | ok m =>
      rw [hm] at hstep
      cases hstep
      rw [UMap.lookup_insert_ite] at hmd
      split_ifs at hmd
      · cases hmd
        cases ha : r.getAction e.1 with
        | none => rw [ha] at hm; cases hm
        | some act =>
          rw [ha] at hm
          exact LiveIn.of_refsFrom hmap (MetaData.merge_result hme hm).2 (hf e.2.1 own hl)
      · exact hf k md hmd

theorem Merged.refsLive (hS : S.Wf) (hTrefs : T.RefsLive) (hrefs : S.RefsLive)
    (h : Merged T S r g) : g.RefsLive where
  node := by
    intro n hn e he
    have hg : g.nodeMeta n.id e.1 = some e.2 := by
      rw [nodeMeta_of_mem h.wf hn]
      exact (UMap.mem_toPairs _ _ _).mp he
    refine absorbNodeEntries_live (fun i t => h.mapped_live hS) (h.values_refs hS hrefs n.id e.1) ?_
      (h.nodeMeta n.id e.1) e.2 hg
    intro md hmd
    refine h.liveIn_of_target ?_
    obtain ⟨m, hm, hl⟩ := Option.bind_eq_some_iff.mp hmd
    exact hTrefs.node m ((T.mem_liveNodes m).mpr ⟨_, hm⟩) (e.1, md) ((UMap.mem_toPairs _ _ _).mpr hl)
  edge := by
    intro p hp e he
    have hg : (g.edgeMeta p.1).lookup e.1 = some e.2 := by
      rw [Callgraph.edgeMeta, UMap.getD, (UMap.mem_toPairs _ _ _).mp hp]
      exact (UMap.mem_toPairs _ _ _).mp he
    refine absorbEdgeEntries_live (fun i t => h.mapped_live hS) ?_ ?_ (h.edgeMeta p.1) e.1 e.2 hg
    · intro x hx
      obtain ⟨q, hq, hxq⟩ := List.mem_flatMap.mp hx
      obtain ⟨y, hy, rfl⟩ := List.mem_map.mp hxq
      exact h.mapped_refs hS (hrefs.edge q (List.mem_filter.mp hq).1 y hy)
    · intro k md hmd
      refine h.liveIn_of_target ?_
      cases hl : T.edges.lookup p.1 with
      | none =>
        rw [Callgraph.edgeMeta, UMap.getD, hl] at hmd
        cases hmd
      | some fields =>
        rw [Callgraph.edgeMeta, UMap.getD, hl] at hmd
        exact hTrefs.edge (p.1, fields) ((UMap.mem_toPairs _ _ _).mpr hl) (k, md) ((UMap.mem_toPairs _ _ _).mpr hmd)
  global := by
    intro e he
    have hg := (UMap.mem_toPairs _ _ _).mp he
    rcases h.global_cases e.1 with ⟨-, hTg⟩ | ⟨md, c, hmd, -, hc, hclone⟩ | ⟨md, own, m, hmd, hown, hm, hmerge⟩
    · rw [hg] at hTg
      exact h.liveIn_of_target (hTrefs.global e ((UMap.mem_toPairs _ _ _).mpr hTg.symm))
    · have hmap := h.mapped_refs hS (hrefs.global (e.1, md) ((UMap.mem_toPairs _ _ _).mpr hmd))
      rw [hg] at hc
      cases hc
      exact LiveIn.of_refsFrom (fun i t => h.mapped_live hS) (MetaData.cloneMapped_result hclone).2
        (fun i hi => absurd hi List.not_mem_nil)
    · have hmap := h.mapped_refs hS (hrefs.global (e.1, md) ((UMap.mem_toPairs _ _ _).mpr hmd))
      rw [hg] at hm
      cases hm
      exact LiveIn.of_refsFrom (fun i t => h.mapped_live hS) (MetaData.merge_result hmap hmerge).2
        (h.liveIn_of_target (hTrefs.global (e.1, own) ((UMap.mem_toPairs _ _ _).mpr hown)))

/-! ## The entry function -/

theorem entryFunction_of_key {md : MetaData} (h : md.getKey = "entryFunction") :
    ∃ a, md = .entryFunction a := by
  cases md with
  | entryFunction a => exact ⟨a, rfl⟩
  | _ => simp [MetaData.getKey] at h

theorem Merged.entryFunctionId (hTk : T.MetaKeyed) (hSk : S.MetaKeyed) (h : Merged T S r g) :
    g.entryFunctionId = match T.entryFunctionId with
      | some id => some id
      | none => S.entryFunctionId.bind r.mapping.lookup := by
  have hkey : ∀ {G : Callgraph} {md}, G.MetaKeyed → G.metaFields.lookup "entryFunction" = some md →
      ∃ a, md = .entryFunction a := fun hk hl =>
    entryFunction_of_key (hk.global ("entryFunction", _) ((UMap.mem_toPairs _ _ _).mpr hl))
  unfold Callgraph.entryFunctionId
  rcases h.global_cases "entryFunction" with ⟨hSl, hg⟩ | ⟨md, c, hSl, hTl, hg, hc⟩ | ⟨md, own, m, hSl, hTl, hg, hm⟩
  · rw [hSl, hg]
    cases hT : T.metaFields.lookup "entryFunction" with
    | none => rfl
    | some own =>
      obtain ⟨⟨a⟩, rfl⟩ := hkey hTk hT
      cases a <;> rfl
  · obtain ⟨⟨b⟩, rfl⟩ := hkey hSk hSl
    rw [hSl, hTl, hg]
    cases b with
    | none =>
      cases hc
      rfl
    | some id =>
      simp only [MetaData.cloneMapped, EntryFunctionMD.applyMapping, mappingAt] at hc
      cases hl : r.mapping.lookup id with
      | none => rw [hl] at hc; cases hc
      | some t =>
        rw [hl] at hc
        cases hc
        exact hl.symm
  · obtain ⟨⟨a⟩, rfl⟩ := hkey hTk hTl
    obtain ⟨⟨b⟩, rfl⟩ := hkey hSk hSl
    rw [hSl, hTl, hg]
    cases a with
    | some id =>
      cases b <;> cases hm <;> rfl
    | none =>
      cases b with
      | none =>
        cases hm
        rfl
      | some id =>
        simp only [MetaData.merge, EntryFunctionMD.merge, mappingAt] at hm
        cases hl : r.mapping.lookup id with
        | none => rw [hl] at hm; cases hm
        | some t =>
          rw [hl] at hm
          cases hm
          exact hl.symm

/-! ## Putting the parts together -/

theorem readCell_live {sel : MetaData → List ℕ} (hsel : ∀ md, ∀ x ∈ sel md, x ∈ md.refs) (hrefs : S.RefsLive)
    {i y : ℕ} {k : String} (hy : y ∈ readCell sel (S.nodeMeta i k)) : S.hasNode y = true := by
  cases hc : S.nodeMeta i k with
  | none => rw [hc] at hy; cases hy
  | some md =>
    rw [hc] at hy
    obtain ⟨n, hn, hl⟩ := Option.bind_eq_some_iff.mp hc
    exact hrefs.node n ((S.mem_liveNodes n).mpr ⟨i, hn⟩) (k, md) ((UMap.mem_toPairs _ _ _).mpr hl) y (hsel md y hy)

theorem mem_refs_of_overrides (md : MetaData) : ∀ x ∈ md.overrides, x ∈ md.refs := by
  intro x hx
  cases md with
  | override a => exact List.mem_append_left _ hx
  | _ => cases hx

theorem mem_refs_of_overriddenBy (md : MetaData) : ∀ x ∈ md.overriddenBy, x ∈ md.refs := by
  intro x hx
  cases md with
  | override a => exact List.mem_append_right _ hx
  | _ => cases hx

theorem Merged.references (hS : S.Wf) (hTk : T.MetaKeyed) (hSk : S.MetaKeyed) (hTrefs : T.RefsLive)
    (hrefs : S.RefsLive) (h : Merged T S r g) : ReferencesFollow T S r.mapping g where
  overrides := fun i x => h.readCell_iff hS hrefs (MetaData.unites_overrides _) "overrideMD" i x
  overriddenBy := fun i x => h.readCell_iff hS hrefs (MetaData.unites_overriddenBy _) "overrideMD" i x
  entry := h.entryFunctionId hTk hSk
  live := h.refsLive hS hTrefs hrefs
  symmetric := by
    intro hTsym hSsym u v
    have hlive : ∀ {i : ℕ}, S.hasNode i = true → ∃ s ∈ S.liveNodes, s.id = i := by
      intro i hi
      obtain ⟨n, hn⟩ := (S.hasNode_iff i).mp hi
      exact ⟨n, (S.mem_liveNodes n).mpr ⟨i, hn⟩, hS.node_id i n hn⟩
    rw [overridesOf, overriddenByOf, h.readCell_iff hS hrefs (MetaData.unites_overrides _),
      h.readCell_iff hS hrefs (MetaData.unites_overriddenBy _)]
    refine or_congr (hTsym u v) ⟨?_, ?_⟩
    · rintro ⟨s, hs, hsu, y, hy, hyv⟩
      obtain ⟨t, ht, rfl⟩ := hlive (readCell_live mem_refs_of_overrides hrefs hy)
      exact ⟨t, ht, hyv, s.id, (hSsym s.id t.id).mp hy, hsu⟩
    · rintro ⟨t, ht, htv, y, hy, hyu⟩
      obtain ⟨s, hs, rfl⟩ := hlive (readCell_live mem_refs_of_overriddenBy hrefs hy)
      exact ⟨s, hs, hyu, t.id, (hSsym s.id t.id).mpr hy, htv⟩

end

/-- `merge` returns, and the references follow it, iff the edge metadata does not clash. -/
theorem merge_references_iff {T S : Callgraph} (h : Mergeable T S) (hrefs : T.RefsLive) :
    (∃ r g, merge mergeByName T S = .ok (r, g) ∧ ReferencesFollow T S r.mapping g) ↔ EdgeMetaMergeable T S := by
  obtain ⟨hret, hspec⟩ := merge_cases h
  constructor
  · rintro ⟨r, g, hrun, -⟩
    exact (hspec r g hrun).1
  · intro hmerge
    obtain ⟨r, g, hrun⟩ := hret hmerge
    exact ⟨r, g, hrun, (hspec r g hrun).2.references h.source h.targetKeyed h.sourceKeyed hrefs
      h.sourceRefs⟩

/-- `B::f` overrides `A::f` and calls it. -/
def overridingPair : Callgraph :=
  let nodes := (Callgraph.empty.insertNode "A::f" none true true).insertNode "B::f" none true true
  let relation := (nodes.setNodeMeta 0 "overrideMD" (.override ⟨[], [1]⟩)).setNodeMeta 1 "overrideMD"
    (.override ⟨[0], []⟩)
  (relation.addEdgeInternal 1 0).2

/-- The call carries `md`, as the reader of a file stores it. -/
def overridingPairWith (md : MetaData) : Callgraph := (overridingPair.addEdgeMetaData MetaData.baseKey (1, 0) md).2

theorem overridingPair_wf : overridingPair.Wf := by
  have hnodes := (Wf.empty.insertNode "A::f" none true true (by decide)).insertNode "B::f" none true true (by decide)
  exact ((hnodes.setNodeMeta 0 "overrideMD" _).setNodeMeta 1 "overrideMD" _).addEdgeInternal
    (by decide) (by decide)

theorem overridingPairWith_wf (md : MetaData) : (overridingPairWith md).Wf := overridingPair_wf.addEdgeMetaData _ _ _

theorem merge_references_overridingPair :
    ∃ r g, merge mergeByName overridingPair overridingPair = .ok (r, g) ∧
      ReferencesFollow overridingPair overridingPair r.mapping g :=
  (merge_references_iff ⟨overridingPair_wf, overridingPair_wf, by decide, by decide, by decide, by decide⟩
    (by decide)).mpr (EdgeMetaMergeable.of_plain (by decide))

/-- The calls carry metadata of different kinds: the merge aborts before it reaches the nodes. -/
theorem merge_overridingPair_aborts :
    Mergeable (overridingPairWith (.numStatements 1)) (overridingPairWith (.loopDepth 2)) ∧
      (overridingPairWith (.numStatements 1)).RefsLive ∧
      ¬ ∃ r g, merge mergeByName (overridingPairWith (.numStatements 1)) (overridingPairWith (.loopDepth 2)) =
        .ok (r, g) ∧
        ReferencesFollow (overridingPairWith (.numStatements 1)) (overridingPairWith (.loopDepth 2)) r.mapping g := by
  refine ⟨⟨overridingPairWith_wf _, overridingPairWith_wf _, by decide, by decide, by decide, by decide⟩,
    by decide, ?_⟩
  rintro ⟨r, g, hrun, -⟩
  have herr : (merge mergeByName (overridingPairWith (.numStatements 1))
      (overridingPairWith (.loopDepth 2))).isOk = false := by
    decide
  rw [hrun] at herr
  cases herr

end Callgraph
end MetaCG
