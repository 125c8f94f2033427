import MetaCG.Merge.Actions

/-! Under which keys `merge` leaves edge metadata.

An entry that the target edge has is merged where it lies. One that the target edge lacks is stored
under the key of the base class, so the result is stored under its own keys iff the target edge has
every entry that the source brings. -/
namespace MetaCG
open Foundations
set_option autoImplicit false
set_option maxHeartbeats 250000
set_option maxRecDepth 120000

namespace Kinds

/-- Every kind lies under its own key. -/
def Keyed (F : Kinds) : Prop := ∀ key kind, F key = some kind → kind = key

/-- No kind is that of the base class, which is abstract. -/
def Concrete (F : Kinds) : Prop := ∀ key kind, F key = some kind → kind ≠ MetaData.baseKey

theorem Keyed.base {F : Kinds} (hF : F.Keyed) (hc : F.Concrete) : F MetaData.baseKey = none := by
  rw [Option.eq_none_iff_forall_not_mem]
  exact fun kind hk => hc _ kind hk (hF _ kind hk)

theorem Concrete.kindAt {F : Kinds} (hF : F.Concrete) {es : List KindEntry} (hes : ∀ x ∈ es, x.2 ≠ MetaData.baseKey) :
    (F.kindAt es).Concrete := by
  intro key kind hk
  unfold Kinds.kindAt at hk
  split_ifs at hk
  · rcases Option.or_eq_some_iff.mp hk with hk | ⟨-, hk⟩
    · obtain ⟨x, hx, rfl⟩ := Option.map_eq_some_iff.mp hk
      exact hes x (List.mem_filter.mp (List.mem_of_getLast? hx)).1
    · rcases Option.or_eq_some_iff.mp hk with hk | ⟨-, hk⟩
      · exact hF _ kind hk
      · obtain ⟨x, hx, rfl⟩ := Option.map_eq_some_iff.mp hk
        exact hes x (List.mem_of_find?_eq_some hx)
  · exact hF key kind hk

/-- The kinds stay under their keys iff every entry meets one. -/
theorem keyed_kindAt_iff {F : Kinds} (hF : F.Concrete) {es : List KindEntry} (hes : ∀ x ∈ es, x.2 ≠ MetaData.baseKey) :
    (F.kindAt es).Keyed ↔ F.Keyed ∧ ∀ x ∈ es, (F x.1).isSome = true := by
  constructor
  · intro h
    have hbase : F.baseKind es = none := by
      have hnone := h.base (hF.kindAt hes)
      rwa [Kinds.kindAt, if_pos rfl] at hnone
    obtain ⟨hlast, hrest⟩ := Option.or_eq_none_iff.mp hbase
    obtain ⟨hFbase, hfind⟩ := Option.or_eq_none_iff.mp hrest
    have hover := List.filter_eq_nil_iff.mp (List.getLast?_eq_none_iff.mp (Option.map_eq_none_iff.mp hlast))
    have hkey := List.find?_eq_none.mp (Option.map_eq_none_iff.mp hfind)
    refine ⟨fun key kind hk => ?_, fun x hx => ?_⟩
    · by_cases hb : key = MetaData.baseKey
      · rw [hb, hFbase] at hk
        cases hk
      · exact h key kind (by rw [Kinds.kindAt, if_neg hb, hk])
    · have hx' : x.1 ≠ MetaData.baseKey := by simpa using hkey x hx
      simpa [overwrites, hx', Option.isSome_iff_ne_none] using hover x hx
  · rintro ⟨hk, hall⟩
    have hFbase := hk.base hF
    have hover : es.filter F.overwrites = [] := List.filter_eq_nil_iff.mpr fun x hx => by
      obtain ⟨kind, hkind⟩ := Option.isSome_iff_exists.mp (hall x hx)
      simp [overwrites, hkind]
    have hfind : (es.find? fun x => decide (x.1 = MetaData.baseKey)) = none := List.find?_eq_none.mpr fun x hx => by
      have hsome := hall x hx
      intro hb
      rw [of_decide_eq_true hb, hFbase] at hsome
      cases hsome
    have hsame : F.kindAt es = F := by
      funext key
      unfold Kinds.kindAt baseKind
      split_ifs with hb
      · rw [hover, hfind, hb, hFbase]
        rfl
      · rfl
    rw [hsame]
    exact hk

/-- A key that has a kind keeps one. -/
theorem kindAt_isSome {F : Kinds} {key : String} (h : (F key).isSome = true) (es : List KindEntry) :
    (F.kindAt es key).isSome = true := by
  unfold Kinds.kindAt
  split_ifs with hb
  · rw [hb] at h
    rw [baseKind, Option.isSome_or, Option.isSome_or, h, Bool.true_or, Bool.or_true]
  · exact h

end Kinds

theorem kindsOf_concrete (fields : NamedMetadata) : (kindsOf fields).Concrete := by
  intro key kind hk
  obtain ⟨md, -, rfl⟩ := Option.map_eq_some_iff.mp hk
  exact md.getKey_ne_baseKey

namespace Callgraph

/-! ## The properties -/

/-- Every metadata object of an edge is stored under its own key. -/
def EdgesKeyed (g : Callgraph) : Prop := ∀ ids, ∀ key md, (g.edgeMeta ids).lookup key = some md → md.getKey = key

/-- Every key on an edge of the source is found on the edge that it is mapped to. -/
def EdgeKeysFound (S : Callgraph) (mapping : GraphMapping) (g : Callgraph) : Prop :=
  ∀ u v key, key ∈ S.edgeMeta (u, v) → ∃ a b, mapping.lookup u = some a ∧ mapping.lookup v = some b ∧
    (g.getEdgeMetaData (a, b) key).isSome = true

/-- The target has every key on an edge of the source already, on the edge between the first nodes of the
names of its ends. -/
def EdgeKeysShared (T S : Callgraph) : Prop :=
  ∀ ids key, key ∈ S.edgeMeta ids → key ∈ T.metaNamed (S.endNames ids).1 (S.endNames ids).2

theorem edgesKeyed_iff (g : Callgraph) : g.EdgesKeyed ↔ ∀ ids, (kindsOf (g.edgeMeta ids)).Keyed := by
  refine forall_congr' fun ids => ⟨fun h key kind hk => ?_, fun h key md hl => ?_⟩
  · obtain ⟨md, hl, rfl⟩ := Option.map_eq_some_iff.mp hk
    exact h key md hl
  · exact h key md.getKey (by rw [kindsOf, hl]; rfl)

/-! ## The loops after the edge loop -/

theorem mergeGlobalMetaData_edges (g : Callgraph) {g' : Callgraph} (h : g'.edges = g.edges) (r : MergeRecorder)
    (md : String × MetaData) : (Outcome.final (mergeGlobalMetaData r g' md)).edges = g.edges := by
  unfold mergeGlobalMetaData
  cases g'.metaFields.lookup md.1 with
  | none => exact Outcome.final_guard (I := fun t : Callgraph => t.edges = g.edges) h fun c _ => h
  | some own => exact Outcome.final_guard (I := fun t : Callgraph => t.edges = g.edges) h fun c _ => h

/-- After the edge loop the edges stay as they are. -/
theorem mergeRest_edges {r : MergeRecorder} {S g g' : Callgraph} (h : mergeRest r S g = .ok g') :
    ∃ g₁, (UMap.toPairs S.edges).foldlM (mergeEdge r) g = .ok g₁ ∧ g'.edges = g₁.edges := by
  obtain ⟨g₁, hg₁, h⟩ := bind_eq_ok.mp h
  obtain ⟨g₂, hg₂, h⟩ := bind_eq_ok.mp h
  obtain ⟨g₃, hg₃, h⟩ := bind_eq_ok.mp h
  cases h
  have hnodes := Outcome.final_foldlM (I := fun t : Callgraph => t.edges = g₁.edges) (f := mergeNodeMetaData r)
    (fun t p ht => mergeNodeMetaData_kept (I := fun t : Callgraph => t.edges = g₁.edges) (fun ht _ _ _ => ht) ht r p)
    S.nodes g₁ rfl
  have hglobals := Outcome.final_foldlM (I := fun t : Callgraph => t.edges = g₂.edges) (f := mergeGlobalMetaData r)
    (fun t md ht => mergeGlobalMetaData_edges g₂ ht r md) (UMap.toPairs S.metaFields) g₂ rfl
  rw [hg₂] at hnodes
  rw [hg₃] at hglobals
  exact ⟨g₁, hg₁, hglobals.trans hnodes⟩

/-! ## The keys of a merged graph -/

theorem edgeMeta_lookup_iff (g : Callgraph) (ids : ℕ × ℕ) (key : String) (md : MetaData) :
    (g.edgeMeta ids).lookup key = some md ↔
      ∃ fields, (ids, fields) ∈ UMap.toPairs g.edges ∧ (key, md) ∈ UMap.toPairs fields := by
  simp only [UMap.mem_toPairs]
  rw [edgeMeta, UMap.getD]
  cases g.edges.lookup ids with
  | none => simp
  | some fields => simp

instance (g : Callgraph) : Decidable g.EdgesKeyed :=
  decidable_of_iff (∀ e ∈ UMap.toPairs g.edges, ∀ x ∈ UMap.toPairs e.2, x.2.getKey = x.1)
    ⟨fun h ids key md hl => by
      obtain ⟨fields, he, hx⟩ := (g.edgeMeta_lookup_iff ids key md).mp hl
      exact h _ he _ hx,
    fun h e he x hx => h e.1 x.1 x.2 ((g.edgeMeta_lookup_iff e.1 x.1 x.2).mpr ⟨e.2, he, hx⟩)⟩

instance (T S : Callgraph) : Decidable (EdgeKeysShared T S) :=
  decidable_of_iff (∀ e ∈ UMap.toPairs S.edges, ∀ x ∈ UMap.toPairs e.2,
      x.1 ∈ T.metaNamed (S.endNames e.1).1 (S.endNames e.1).2)
    ⟨fun h ids key hkey => by
      obtain ⟨md, hl⟩ := (UMap.mem_iff_lookup key _).mp hkey
      obtain ⟨fields, he, hx⟩ := (S.edgeMeta_lookup_iff ids key md).mp hl
      exact h _ he _ hx,
    fun h e he x hx => h e.1 x.1 (UMap.mem_of_lookup ((S.edgeMeta_lookup_iff e.1 x.1 x.2).mpr ⟨e.2, he, hx⟩))⟩

theorem kindsOf_isSome_iff (fields : NamedMetadata) (key : String) : (kindsOf fields key).isSome = true ↔ key ∈ fields := by
  rw [kindsOf, Option.isSome_map, AList.lookup_isSome]

section
variable {T S g₀ g : Callgraph} {r : MergeRecorder}

theorem NodesMerged.edgeMeta_target (hT : T.Wf) (hS : S.Wf) (h : NodesMerged T S.liveNodes g₀ r) {e : SourceEdge}
    (he : e ∈ UMap.toPairs S.edges) :
    T.edgeMeta (edgeTarget r e) = T.metaNamed (S.endNames e.1).1 (S.endNames e.1).2 := by
  obtain ⟨a, b, htarget, ha, hb⟩ := h.edge_first hS he
  rw [← h.edgeMeta_first hT ha hb, htarget, edgeMeta, edgeMeta, h.edges]

theorem NodesMerged.edgeKeysShared_iff (hT : T.Wf) (hS : S.Wf) (h : NodesMerged T S.liveNodes g₀ r) :
    EdgeKeysShared T S ↔ ∀ p, ∀ x ∈ (edgeEntries r p (UMap.toPairs S.edges)).map kindOf,
      (kindsOf (T.edgeMeta p) x.1).isSome = true := by
  constructor
  · intro hshared p x hx
    obtain ⟨y, hy, rfl⟩ := List.mem_map.mp hx
    obtain ⟨e, he, hy⟩ := List.mem_flatMap.mp hy
    obtain ⟨he, hp⟩ := List.mem_filter.mp he
    obtain ⟨z, hz, rfl⟩ := List.mem_map.mp hy
    rw [← of_decide_eq_true hp, kindsOf_isSome_iff, h.edgeMeta_target hT hS he]
    exact hshared e.1 z.1 (UMap.mem_of_lookup ((S.edgeMeta_lookup_iff e.1 z.1 z.2).mpr ⟨e.2, he, hz⟩))
  · intro hall ids key hkey
    obtain ⟨md, hmd⟩ := (UMap.mem_iff_lookup key _).mp hkey
    obtain ⟨fields, he, hz⟩ := (S.edgeMeta_lookup_iff ids key md).mp hmd
    rw [← h.edgeMeta_target hT hS he, ← kindsOf_isSome_iff]
    refine hall _ (key, md.getKey) (List.mem_map.mpr ⟨(ids.1, (key, md)), List.mem_flatMap.mpr ⟨(ids, fields), ?_, ?_⟩, rfl⟩)
    · exact List.mem_filter.mpr ⟨he, decide_eq_true rfl⟩
    · exact List.mem_map.mpr ⟨(key, md), hz, rfl⟩

/-- A merge that returns leaves the edge metadata under its own keys iff the target had its own there and has
every key that the source brings. Then it also has the keys of the source. -/
theorem merge_edgesKeyed (hT : T.Wf) (hS : S.Wf) (h : merge mergeByName T S = .ok (r, g)) :
    (g.EdgesKeyed ↔ T.EdgesKeyed ∧ EdgeKeysShared T S) ∧ (g.EdgesKeyed → EdgeKeysFound S r.mapping g) := by
  have hlive : S.NoErased := by
    by_contra hn
    obtain ⟨T', hrun⟩ := merge_erased hS hn hT
    rw [hrun] at h
    cases h
  obtain ⟨g₀, r', hnodes, hN⟩ := mergeNodes_spec hT hS hlive
  obtain ⟨hr, rfl⟩ : mergeRest r' S g₀ = .ok g ∧ r' = r := by
    cases hr : mergeRest r' S g₀ with
    | error e =>
      simp only [merge, hnodes, hr] at h
      cases h
    | ok g' =>
      simp only [merge, hnodes, hr] at h
      cases h
      exact ⟨rfl, rfl⟩
  obtain ⟨g₁, hg₁, hedges⟩ := mergeRest_edges hr
  have hE := mergeEdges_ok (hN.endsMapped hS) hg₁
  have hkinds : ∀ p, kindsOf (g.edgeMeta p) =
      (kindsOf (T.edgeMeta p)).kindAt ((edgeEntries r' p (UMap.toPairs S.edges)).map kindOf) := by
    intro p
    have hg : g.edgeMeta p = g₁.edgeMeta p := by rw [edgeMeta, edgeMeta, hedges]
    have hT₀ : g₀.edgeMeta p = T.edgeMeta p := by rw [edgeMeta, edgeMeta, hN.edges]
    rw [hg, absorbEdgeEntries_kinds (hE.edgeMeta p), hT₀]
  have hconcrete : ∀ p, ∀ x ∈ (edgeEntries r' p (UMap.toPairs S.edges)).map kindOf, x.2 ≠ MetaData.baseKey := by
    intro p x hx
    obtain ⟨y, -, rfl⟩ := List.mem_map.mp hx
    exact y.2.2.getKey_ne_baseKey
  have hkeyed : g.EdgesKeyed ↔ T.EdgesKeyed ∧ EdgeKeysShared T S := by
    rw [edgesKeyed_iff, edgesKeyed_iff, hN.edgeKeysShared_iff hT hS, ← forall_and]
    refine forall_congr' fun p => ?_
    rw [hkinds]
    exact Kinds.keyed_kindAt_iff (kindsOf_concrete _) (hconcrete p)
  refine ⟨hkeyed, fun hg u v key hkey => ?_⟩
  obtain ⟨md, hmd⟩ := (UMap.mem_iff_lookup key _).mp hkey
  obtain ⟨fields, he, -⟩ := (S.edgeMeta_lookup_iff (u, v) key md).mp hmd
  obtain ⟨a, b, ha, hb, -⟩ := hN.endsMapped hS _ he
  have htarget : edgeTarget r' ((u, v), fields) = (a, b) := by
    rw [edgeTarget, UMap.getD, UMap.getD, ha, hb]
    rfl
  have hT' := (hkeyed.mp hg).2 (u, v) key hkey
  rw [← hN.edgeMeta_target hT hS he, htarget, ← kindsOf_isSome_iff] at hT'
  have hfound := Kinds.kindAt_isSome hT' ((edgeEntries r' (a, b) (UMap.toPairs S.edges)).map kindOf)
  rw [← hkinds, kindsOf_isSome_iff] at hfound
  exact ⟨a, b, ha, hb, AList.lookup_isSome.mpr hfound⟩

end
end Callgraph
end MetaCG
