import MetaCG.Foundations.Outcome
import MetaCG.Graph.MetaData

/-! When merging and cloning metadata succeeds, and which node ids the result stores.

The only ways to fail are two objects of different classes and a stored id that the mapping does
not know. -/
namespace MetaCG
open Foundations
set_option autoImplicit false
set_option maxHeartbeats 250000
set_option maxRecDepth 120000

/-- The mapping knows every id of the list. -/
def Mapped (mapping : GraphMapping) (ids : List ℕ) : Prop := ∀ id ∈ ids, ∃ t, mapping.lookup id = some t

theorem mappingAtAsserted_eq {mapping : GraphMapping} {id t : ℕ} (msg : String)
    (h : mapping.lookup id = some t) : mappingAtAsserted msg mapping id = .ok t := by
  simp only [mappingAtAsserted, h]

theorem mappingAt_eq {mapping : GraphMapping} {id t : ℕ} (h : mapping.lookup id = some t) :
    mappingAt mapping id = .ok t := by
  simp only [mappingAt, h]

theorem mergeVectors_spec (mapping : GraphMapping) (src dst : List ℕ) (h : Mapped mapping src) :
    ∃ l, mergeVectors dst src mapping = .ok l ∧
      ∀ x, x ∈ l ↔ x ∈ dst ∨ ∃ y ∈ src, mapping.lookup y = some x := by
  induction src generalizing dst with
  | nil => exact ⟨dst, rfl, fun x => by simp⟩
  | cons y src ih =>
    obtain ⟨t, ht⟩ := h y (List.mem_cons_self ..)
    obtain ⟨l, hl, hmem⟩ := ih (if t ∈ dst then dst else dst ++ [t])
      (fun z hz => h z (List.mem_cons_of_mem y hz))
    refine ⟨l, ?_, fun x => ?_⟩
    · unfold mergeVectors at hl ⊢
      rw [List.foldlM_cons, mappingAtAsserted_eq _ ht]
      exact hl
    · have hd : x ∈ (if t ∈ dst then dst else dst ++ [t]) ↔ x ∈ dst ∨ x = t := by
        split_ifs with hc
        · exact ⟨.inl, fun hx => hx.elim id (fun he => he ▸ hc)⟩
        · rw [List.mem_append, List.mem_singleton]
      rw [hmem, hd]
      simp only [List.exists_mem_cons_iff, ht, Option.some.injEq]
      rw [or_assoc, eq_comm]

theorem mapM_mappingAt (mapping : GraphMapping) (msg : String) (src : List ℕ) (h : Mapped mapping src) :
    ∃ l, src.mapM (mappingAtAsserted msg mapping) = .ok l ∧ l.map some = src.map mapping.lookup := by
  induction src with
  | nil => exact ⟨[], rfl, rfl⟩
  | cons y src ih =>
    obtain ⟨t, ht⟩ := h y (List.mem_cons_self ..)
    obtain ⟨l, hl, hmap⟩ := ih (fun z hz => h z (List.mem_cons_of_mem y hz))
    refine ⟨t :: l, ?_, ?_⟩
    · rw [List.mapM_cons, mappingAtAsserted_eq msg ht, hl]
      rfl
    · rw [List.map_cons, List.map_cons, hmap, ht]

theorem mem_of_map_some {mapping : GraphMapping} {src l : List ℕ}
    (h : l.map some = src.map mapping.lookup) (x : ℕ) : x ∈ l ↔ ∃ y ∈ src, mapping.lookup y = some x := by
  have hx : x ∈ l ↔ some x ∈ l.map some := by simp
  rw [hx, h, List.mem_map]

theorem OverrideMD.merge_spec (own other : OverrideMD) {mapping : GraphMapping}
    (h : Mapped mapping (other.overrides ++ other.overriddenBy)) :
    ∃ m, own.merge other mapping = .ok m ∧
      (∀ x, x ∈ m.overrides ↔ x ∈ own.overrides ∨ ∃ y ∈ other.overrides, mapping.lookup y = some x) ∧
      ∀ x, x ∈ m.overriddenBy ↔ x ∈ own.overriddenBy ∨ ∃ y ∈ other.overriddenBy, mapping.lookup y = some x := by
  obtain ⟨l₁, h₁, hm₁⟩ := mergeVectors_spec mapping other.overriddenBy own.overriddenBy
    (fun y hy => h y (List.mem_append_right _ hy))
  obtain ⟨l₂, h₂, hm₂⟩ := mergeVectors_spec mapping other.overrides own.overrides
    (fun y hy => h y (List.mem_append_left _ hy))
  refine ⟨⟨l₂, l₁⟩, ?_, hm₂, hm₁⟩
  rw [OverrideMD.merge, h₁, h₂]
  rfl

theorem OverrideMD.applyMapping_spec (own : OverrideMD) {mapping : GraphMapping}
    (h : Mapped mapping (own.overrides ++ own.overriddenBy)) :
    ∃ m, own.applyMapping mapping = .ok m ∧ m.overrides.map some = own.overrides.map mapping.lookup ∧
      m.overriddenBy.map some = own.overriddenBy.map mapping.lookup := by
  obtain ⟨l₁, h₁, hm₁⟩ := mapM_mappingAt mapping "Incomplete mapping" own.overrides
    (fun y hy => h y (List.mem_append_left _ hy))
  obtain ⟨l₂, h₂, hm₂⟩ := mapM_mappingAt mapping "Incomplete mapping" own.overriddenBy
    (fun y hy => h y (List.mem_append_right _ hy))
  refine ⟨⟨l₁, l₂⟩, ?_, hm₁, hm₂⟩
  rw [OverrideMD.applyMapping, h₁, h₂]
  rfl

namespace MetaData

/-- Which ids a result stores: own ones, and images of the ids of the merged object. -/
def RefsFrom (mapping : GraphMapping) (own other result : List ℕ) : Prop :=
  ∀ x ∈ result, x ∈ own ∨ ∃ y ∈ other, mapping.lookup y = some x

theorem cloneMapped_spec (md : MetaData) {mapping : GraphMapping} (h : Mapped mapping md.refs) :
    ∃ c, md.cloneMapped mapping = .ok c ∧ c.getKey = md.getKey ∧ RefsFrom mapping [] md.refs c.refs := by
  cases md with
  | override a =>
    obtain ⟨m, hm, h1, h2⟩ := a.applyMapping_spec h
    refine ⟨.override m, by simp only [cloneMapped, hm]; rfl, rfl, fun x hx => .inr ?_⟩
    rcases List.mem_append.mp hx with hx | hx
    · obtain ⟨y, hy, hl⟩ := (mem_of_map_some h1 x).mp hx
      exact ⟨y, List.mem_append_left _ hy, hl⟩
    · obtain ⟨y, hy, hl⟩ := (mem_of_map_some h2 x).mp hx
      exact ⟨y, List.mem_append_right _ hy, hl⟩
  | entryFunction a =>
    obtain ⟨o⟩ := a
    cases o with
    | none => exact ⟨_, rfl, rfl, fun x hx => absurd hx List.not_mem_nil⟩
    | some id =>
      obtain ⟨t, ht⟩ := h id (by simp [refs])
      refine ⟨.entryFunction ⟨some t⟩, ?_, rfl, fun x hx => .inr ⟨id, by simp [refs], ?_⟩⟩
      · simp only [cloneMapped, EntryFunctionMD.applyMapping, mappingAt_eq ht]
        rfl
      · simp only [refs, Option.toList_some, List.mem_singleton] at hx
        rw [hx, ht]
  | _ => exact ⟨_, rfl, rfl, fun x hx => absurd hx List.not_mem_nil⟩

theorem merge_spec (own md : MetaData) (action : Option MergeAction) {mapping : GraphMapping}
    (hk : own.getKey = md.getKey) (h : Mapped mapping md.refs) :
    ∃ m, own.merge md action mapping = .ok m ∧ m.getKey = own.getKey ∧
      RefsFrom mapping own.refs md.refs m.refs := by
  cases own with
  | override a =>
    cases md <;> simp [getKey] at hk
    next b =>
    obtain ⟨m, hm, h1, h2⟩ := a.merge_spec b h
    refine ⟨.override m, by simp only [merge, hm]; rfl, rfl, fun x hx => ?_⟩
    rcases List.mem_append.mp hx with hx | hx
    · rcases (h1 x).mp hx with hx | ⟨y, hy, hl⟩
      · exact .inl (List.mem_append_left _ hx)
      · exact .inr ⟨y, List.mem_append_left _ hy, hl⟩
    · rcases (h2 x).mp hx with hx | ⟨y, hy, hl⟩
      · exact .inl (List.mem_append_right _ hx)
      · exact .inr ⟨y, List.mem_append_right _ hy, hl⟩
  | entryFunction a =>
    cases md <;> simp [getKey] at hk
    next b =>
    obtain ⟨oa⟩ := a
    obtain ⟨ob⟩ := b
    cases action with
    | some act => exact ⟨_, rfl, rfl, fun x hx => .inl hx⟩
    | none =>
      cases ob with
      | none => exact ⟨_, rfl, rfl, fun x hx => .inl hx⟩
      | some id =>
        cases oa with
        | some own => exact ⟨_, rfl, rfl, fun x hx => .inl hx⟩
        | none =>
          obtain ⟨t, ht⟩ := h id (by simp [refs])
          refine ⟨.entryFunction ⟨some t⟩, ?_, rfl, fun x hx => .inr ⟨id, by simp [refs], ?_⟩⟩
          · simp only [merge, EntryFunctionMD.merge, mappingAt_eq ht]
            rfl
          · simp only [refs, Option.toList_some, List.mem_singleton] at hx
            rw [hx, ht]
  | _ =>
    cases md <;> simp [getKey] at hk
    exact ⟨_, rfl, rfl, fun x hx => absurd hx List.not_mem_nil⟩

theorem merge_of_ne (own md : MetaData) (action : Option MergeAction) (mapping : GraphMapping)
    (hk : own.getKey ≠ md.getKey) : own.merge md action mapping = .error (.assertion own.mismatchText) := by
  cases own <;> cases md <;> first | rfl | exact absurd rfl hk

theorem getKey_of_merge {own md m : MetaData} {action : Option MergeAction} {mapping : GraphMapping}
    (h : own.merge md action mapping = .ok m) : own.getKey = md.getKey := by
  by_contra hne
  rw [merge_of_ne own md action mapping hne] at h
  cases h

/-- Merging keeps the kind and brings in no ids but the mapped ones. -/
theorem merge_result {own md m : MetaData} {action : Option MergeAction} {mapping : GraphMapping}
    (hrefs : Mapped mapping md.refs) (h : own.merge md action mapping = .ok m) :
    m.getKey = own.getKey ∧ RefsFrom mapping own.refs md.refs m.refs := by
  obtain ⟨m', hm', hres⟩ := own.merge_spec md action (getKey_of_merge h) hrefs
  rw [h] at hm'
  cases hm'
  exact hres

/-! ## When they return, and the errors with which they fail -/

theorem mapped_of_mapM {mapping : GraphMapping} {msg : String} {ids l : List ℕ}
    (h : ids.mapM (mappingAtAsserted msg mapping) = .ok l) : Mapped mapping ids := by
  intro id hid
  obtain ⟨t, ht⟩ := mapM_ok_mem h id hid
  unfold mappingAtAsserted at ht
  split at ht
  · next t' hl => exact ⟨t', hl⟩
  · cases ht

theorem mapped_of_mergeVectors {mapping : GraphMapping} {dst ids l : List ℕ}
    (h : mergeVectors dst ids mapping = .ok l) : Mapped mapping ids := by
  intro id hid
  obtain ⟨d, d', hd⟩ := foldlM_ok_mem h id hid
  obtain ⟨t, ht, -⟩ := bind_eq_ok.mp hd
  unfold mappingAtAsserted at ht
  split at ht
  · next t' hl => exact ⟨t', hl⟩
  · cases ht

theorem mapped_append {mapping : GraphMapping} {ids ids' : List ℕ} (h : Mapped mapping ids) (h' : Mapped mapping ids') :
    Mapped mapping (ids ++ ids') := fun id hid => (List.mem_append.mp hid).elim (h id) (h' id)

theorem map_eq_ok {α β : Type} {f : α → β} {x : Except Exn α} {b : β} (h : f <$> x = .ok b) :
    ∃ a, x = .ok a ∧ f a = b := by
  cases x with
  | error e => cases h
  | ok a => exact ⟨a, rfl, Except.ok.inj h⟩

/-- A clone can be mapped iff the mapping knows the ids it stores. -/
theorem cloneMapped_ok_iff (md : MetaData) (mapping : GraphMapping) :
    (∃ c, md.cloneMapped mapping = .ok c) ↔ Mapped mapping md.refs := by
  constructor
  · rintro ⟨c, hc⟩
    cases md with
    | override a =>
      obtain ⟨m, hm, -⟩ := map_eq_ok hc
      obtain ⟨l₁, h₁, hm⟩ := bind_eq_ok.mp hm
      obtain ⟨l₂, h₂, -⟩ := bind_eq_ok.mp hm
      exact mapped_append (mapped_of_mapM h₁) (mapped_of_mapM h₂)
    | entryFunction a =>
      obtain ⟨m, hm, -⟩ := map_eq_ok hc
      unfold EntryFunctionMD.applyMapping at hm
      intro id hid
      have hentry : a.entryFunction = some id := Option.mem_toList.mp hid
      rw [hentry] at hm
      obtain ⟨t, ht, -⟩ := bind_eq_ok.mp hm
      unfold mappingAt at ht
      split at ht
      · next t' hl => exact ⟨t', hl⟩
      · cases ht
    | _ => exact fun id hid => by cases hid
  · intro h
    obtain ⟨c, hc, -⟩ := md.cloneMapped_spec h
    exact ⟨c, hc⟩

theorem cloneMapped_result {md c : MetaData} {mapping : GraphMapping} (h : md.cloneMapped mapping = .ok c) :
    c.getKey = md.getKey ∧ RefsFrom mapping [] md.refs c.refs := by
  obtain ⟨c', hc', hres⟩ := md.cloneMapped_spec ((md.cloneMapped_ok_iff mapping).mp ⟨c, h⟩)
  rw [h] at hc'
  cases hc'
  exact hres

/-- Under an action two objects merge iff they are of one kind and, where they are override metadata,
the mapping knows the ids. -/
theorem merge_ok_iff (own md : MetaData) (action : MergeAction) (mapping : GraphMapping) :
    (∃ m, own.merge md (some action) mapping = .ok m) ↔
      own.getKey = md.getKey ∧ (md.getKey = "overrideMD" → Mapped mapping md.refs) := by
  constructor
  · rintro ⟨m, hm⟩
    refine ⟨getKey_of_merge hm, fun hkey => ?_⟩
    cases md with
    | override b =>
      cases own with
      | override a =>
        obtain ⟨m', hm', -⟩ := map_eq_ok hm
        obtain ⟨l₁, h₁, hm'⟩ := bind_eq_ok.mp hm'
        obtain ⟨l₂, h₂, -⟩ := bind_eq_ok.mp hm'
        exact mapped_append (mapped_of_mergeVectors h₂) (mapped_of_mergeVectors h₁)
      | _ => exact absurd (getKey_of_merge hm) (by simp [getKey])
    | _ => exact absurd hkey (by simp [getKey])
  · rintro ⟨hkey, hrefs⟩
    cases md with
    | override b =>
      obtain ⟨m, hm, -⟩ := own.merge_spec (.override b) (some action) hkey (hrefs rfl)
      exact ⟨m, hm⟩
    | entryFunction b =>
      cases own with
      | entryFunction a => exact ⟨_, rfl⟩
      | _ => exact absurd hkey (by simp [getKey])
    | _ =>
      obtain ⟨m, hm, -⟩ := own.merge_spec _ (some action) hkey (fun id hid => by cases hid)
      exact ⟨m, hm⟩

theorem getKey_merged {own md m : MetaData} {action : Option MergeAction} {mapping : GraphMapping}
    (h : own.merge md action mapping = .ok m) : m.getKey = own.getKey := by
  have hkey := getKey_of_merge h
  cases own with
  | override a =>
    cases md with
    | override b =>
      obtain ⟨m', -, rfl⟩ := map_eq_ok h
      rfl
    | _ => exact absurd hkey (by simp [getKey])
  | entryFunction a =>
    cases md with
    | entryFunction b =>
      obtain ⟨m', -, rfl⟩ := map_eq_ok h
      rfl
    | _ => exact absurd hkey (by simp [getKey])
  | _ => cases md <;> first | (cases h; rfl) | exact absurd hkey (by simp [getKey])

/-- The errors with which metadata operations fail. -/
def OpError (e : Exn) : Prop :=
  e = .outOfRange ∨ e = .assertion "Mapping must exist" ∨ e = .assertion "Incomplete mapping" ∨
    ∃ md : MetaData, e = .assertion md.mismatchText

theorem mappingAtAsserted_opErrors {msg : String} (hmsg : OpError (.assertion msg)) (mapping : GraphMapping) (id : ℕ) :
    ErrorsIn OpError (mappingAtAsserted msg mapping id) := by
  unfold mappingAtAsserted
  cases mapping.lookup id with
  | none => exact .error hmsg
  | some t => exact .ok t

theorem mappingAt_opErrors (mapping : GraphMapping) (id : ℕ) : ErrorsIn OpError (mappingAt mapping id) := by
  unfold mappingAt
  cases mapping.lookup id with
  | none => exact .error (.inl rfl)
  | some t => exact .ok t

theorem mergeVectors_opErrors (dst src : List ℕ) (mapping : GraphMapping) : ErrorsIn OpError (mergeVectors dst src mapping) :=
  .foldlM (fun _ _ _ => (mappingAtAsserted_opErrors (.inr (.inl rfl)) _ _).bind fun _ _ => .ok _) dst

theorem merge_opErrors (own md : MetaData) (action : Option MergeAction) (mapping : GraphMapping) :
    ErrorsIn OpError (own.merge md action mapping) := by
  by_cases hkey : own.getKey = md.getKey
  · cases own with
    | override a =>
      cases md with
      | override b =>
        exact .map ((mergeVectors_opErrors _ _ _).bind fun _ _ => (mergeVectors_opErrors _ _ _).bind fun _ _ => .ok _) _
      | _ => exact absurd hkey (by simp [getKey])
    | entryFunction a =>
      cases md with
      | entryFunction b =>
        refine .map ?_ _
        unfold EntryFunctionMD.merge
        split
        · exact (mappingAt_opErrors _ _).bind fun _ _ => .ok _
        · exact .ok a
      | _ => exact absurd hkey (by simp [getKey])
    | _ => cases md <;> first | exact .ok _ | exact absurd hkey (by simp [getKey])
  · rw [merge_of_ne own md action mapping hkey]
    exact .error (.inr (.inr (.inr ⟨own, rfl⟩)))

theorem cloneMapped_opErrors (md : MetaData) (mapping : GraphMapping) : ErrorsIn OpError (md.cloneMapped mapping) := by
  cases md with
  | override a =>
    exact .map ((ErrorsIn.mapM fun _ _ => mappingAtAsserted_opErrors (.inr (.inr (.inl rfl))) _ _).bind fun _ _ =>
      (ErrorsIn.mapM fun _ _ => mappingAtAsserted_opErrors (.inr (.inr (.inl rfl))) _ _).bind fun _ _ => .ok _) _
  | entryFunction a =>
    refine .map ?_ _
    unfold EntryFunctionMD.applyMapping
    cases a.entryFunction with
    | none => exact .ok a
    | some id => exact (mappingAt_opErrors _ _).bind fun _ _ => .ok _
  | _ => exact .ok _

end MetaData
end MetaCG
