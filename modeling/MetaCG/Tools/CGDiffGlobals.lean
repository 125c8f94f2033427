import MetaCG.Tools.CGDiffSummaries

/-! The comparison of global metadata in `cgdiff`.

What a value reads as depends on the graph in which its ids are resolved. When both graphs have the key,
the two loops resolve both values in the second graph; a value of the second graph alone is resolved in
the first. -/
namespace MetaCG.CGDiff
open Foundations Callgraph
set_option autoImplicit false
set_option maxHeartbeats 250000
set_option maxRecDepth 120000

/-- A difference of global metadata is reported under this key. -/
def Reported (diffs : List Diff) (key : String) : Prop := ∃ d, .globalMD d ∈ diffs ∧ d.key = key

theorem reported_append (ds ds' : List Diff) (key : String) :
    Reported (ds ++ ds') key ↔ Reported ds key ∨ Reported ds' key := by
  simp only [Reported, List.mem_append, or_and_right, exists_or]

section
variable (dump : Json → String) (ignoredMdKeys : List String) (mode : ComparisonMode) {A B : Callgraph}

/-- The values under a key read differently, in the graph in which they are compared. -/
def GlobalDiffers (A B : Callgraph) (key : String) : Prop :=
  match A.metaFields.lookup key, B.metaFields.lookup key with
  | some mdA, some mdB => dump (mdA.encode (nameIn B)) ≠ dump (mdB.encode (nameIn B))
  | none, none => False
  | _, _ => True

/-- The ids under a key are live in the graphs in which they are resolved. -/
def GlobalReadable (A B : Callgraph) (key : String) : Prop :=
  match A.metaFields.lookup key, B.metaFields.lookup key with
  | some mdA, some mdB => RefsIn B mdA ∧ RefsIn B mdB ∧ (GlobalDiffers dump A B key → RefsIn A mdA)
  | some mdA, none => RefsIn A mdA
  | none, some mdB => RefsIn A mdB
  | none, none => True

/-- One round of a loop: at most one difference is added. -/
def Adds (diffs diffs' : List Diff) (key : String) (differs : Prop) : Prop :=
  diffs' = diffs ∧ ¬ differs ∨ (∃ aValue bValue, diffs' = diffs ++ [.globalMD ⟨key, aValue, bValue⟩]) ∧ differs

theorem Adds.reported {diffs diffs' : List Diff} {key : String} {differs : Prop} (h : Adds diffs diffs' key differs) (k : String) :
    Reported diffs' k ↔ Reported diffs k ∨ k = key ∧ differs := by
  rcases h with ⟨rfl, hd⟩ | ⟨⟨aValue, bValue, rfl⟩, hd⟩
  · exact ⟨.inl, fun h => h.resolve_right fun h => hd h.2⟩
  · rw [reported_append, and_iff_left hd]
    refine or_congr_right ⟨?_, fun hk => ⟨_, List.mem_singleton_self _, hk.symm⟩⟩
    rintro ⟨d, hmem, rfl⟩
    cases List.mem_singleton.mp hmem
    rfl

theorem Adds.globals {diffs diffs' : List Diff} {key : String} {differs : Prop} (h : Adds diffs diffs' key differs)
    (hdiffs : ∀ d ∈ diffs, ∃ g, d = .globalMD g) : ∀ d ∈ diffs', ∃ g, d = .globalMD g := by
  rcases h with ⟨rfl, -⟩ | ⟨⟨aValue, bValue, rfl⟩, -⟩
  · exact hdiffs
  · intro d hd
    rcases List.mem_append.mp hd with hd | hd
    · exact hdiffs d hd
    · exact ⟨_, List.mem_singleton.mp hd⟩

theorem compareGlobalA_eq_ok {diffs diffs' : List Diff} {key : String} {mdA : MetaData} (hA : A.metaFields.lookup key = some mdA)
    (h : compareGlobalA dump ignoredMdKeys A B diffs (key, mdA) = .ok diffs') :
    (key ∉ ignoredMdKeys → GlobalReadable dump A B key) ∧
      Adds diffs diffs' key (key ∉ ignoredMdKeys ∧ GlobalDiffers dump A B key) := by
  unfold compareGlobalA at h
  split_ifs at h with hk
  · cases h
    exact ⟨fun hk' => absurd hk hk', .inl ⟨rfl, fun h => h.1 hk⟩⟩
  · unfold GlobalReadable GlobalDiffers
    rw [hA]
    cases hB : B.metaFields.lookup key with
    | none =>
      rw [hB] at h
      obtain ⟨j, hj, h⟩ := bind_eq_ok.mp h
      exact ⟨fun _ => (toJson_eq_ok.mp hj).1, .inr ⟨⟨_, _, (Except.ok.inj h).symm⟩, hk, trivial⟩⟩
    | some mdB =>
      rw [hB] at h
      obtain ⟨jA, hjA, h⟩ := bind_eq_ok.mp h
      obtain ⟨jB, hjB, h⟩ := bind_eq_ok.mp h
      obtain ⟨hrefsA, rfl⟩ := toJson_eq_ok.mp hjA
      obtain ⟨hrefsB, rfl⟩ := toJson_eq_ok.mp hjB
      split_ifs at h with hd
      · obtain ⟨aValue, ha, h⟩ := bind_eq_ok.mp h
        obtain ⟨bValue, hb, h⟩ := bind_eq_ok.mp h
        exact ⟨fun _ => ⟨hrefsA, hrefsB, fun _ => (toJson_eq_ok.mp ha).1⟩, .inr ⟨⟨_, _, (Except.ok.inj h).symm⟩, hk, hd⟩⟩
      · cases h
        exact ⟨fun _ => ⟨hrefsA, hrefsB, fun hd' => absurd hd' hd⟩, .inl ⟨rfl, fun h => hd h.2⟩⟩

theorem compareGlobalA_total {key : String} {mdA : MetaData} (hA : A.metaFields.lookup key = some mdA)
    (h : key ∉ ignoredMdKeys → GlobalReadable dump A B key) (diffs : List Diff) :
    ∃ diffs', compareGlobalA dump ignoredMdKeys A B diffs (key, mdA) = .ok diffs' := by
  unfold compareGlobalA
  split_ifs with hk
  · exact ⟨_, rfl⟩
  · have hread := h hk
    unfold GlobalReadable GlobalDiffers at hread
    rw [hA] at hread
    cases hB : B.metaFields.lookup key with
    | none =>
      rw [hB] at hread
      simp only [toJson_eq_ok.mpr ⟨hread, rfl⟩, ok_bind]
      exact ⟨_, rfl⟩
    | some mdB =>
      rw [hB] at hread
      obtain ⟨hrefsA, hrefsB, hown⟩ := hread
      simp only [toJson_eq_ok.mpr ⟨hrefsA, rfl⟩, toJson_eq_ok.mpr ⟨hrefsB, rfl⟩, ok_bind]
      split_ifs with hd
      · simp only [toJson_eq_ok.mpr ⟨hown hd, rfl⟩, ok_bind]
        exact ⟨_, rfl⟩
      · exact ⟨_, rfl⟩

theorem compareGlobalB_eq_ok {diffs diffs' : List Diff} {key : String} {mdB : MetaData} (hB : B.metaFields.lookup key = some mdB)
    (h : compareGlobalB dump ignoredMdKeys A diffs (key, mdB) = .ok diffs') :
    (key ∉ ignoredMdKeys → A.metaFields.lookup key = none → GlobalReadable dump A B key) ∧
      Adds diffs diffs' key (key ∉ ignoredMdKeys ∧ A.metaFields.lookup key = none) := by
  unfold compareGlobalB at h
  split_ifs at h with hk
  · cases h
    exact ⟨fun hk' => absurd hk hk', .inl ⟨rfl, fun h => h.1 hk⟩⟩
  · cases hA : A.metaFields.lookup key with
    | none =>
      rw [hA] at h
      obtain ⟨j, hj, h⟩ := bind_eq_ok.mp h
      refine ⟨fun _ _ => ?_, .inr ⟨⟨_, _, (Except.ok.inj h).symm⟩, hk, rfl⟩⟩
      unfold GlobalReadable
      rw [hA, hB]
      exact (toJson_eq_ok.mp hj).1
    | some mdA =>
      rw [hA] at h
      cases h
      exact ⟨fun _ h => (Option.some_ne_none _ h).elim, .inl ⟨rfl, fun h => Option.some_ne_none _ h.2⟩⟩

theorem compareGlobalB_total {key : String} {mdB : MetaData} (hB : B.metaFields.lookup key = some mdB)
    (h : key ∉ ignoredMdKeys → GlobalReadable dump A B key) (diffs : List Diff) :
    ∃ diffs', compareGlobalB dump ignoredMdKeys A diffs (key, mdB) = .ok diffs' := by
  unfold compareGlobalB
  split_ifs with hk
  · exact ⟨_, rfl⟩
  · have hread := h hk
    unfold GlobalReadable at hread
    rw [hB] at hread
    cases hA : A.metaFields.lookup key with
    | none =>
      rw [hA] at hread
      simp only [toJson_eq_ok.mpr ⟨hread, rfl⟩, ok_bind]
      exact ⟨_, rfl⟩
    | some mdA => exact ⟨_, rfl⟩

/-- Every key with a difference is reported, and nothing else. -/
theorem compareGlobals_eq_ok {diffs : List Diff} (hmode : mode.ignoreGlobalMetadata = false)
    (h : compareGlobals dump ignoredMdKeys mode A B = .ok diffs) :
    (∀ key ∉ ignoredMdKeys, GlobalReadable dump A B key) ∧ (∀ d ∈ diffs, ∃ g, d = .globalMD g) ∧
      ∀ key, Reported diffs key ↔ key ∉ ignoredMdKeys ∧ GlobalDiffers dump A B key := by
  rw [compareGlobals, hmode, if_neg (by simp)] at h
  obtain ⟨diffsA, hrunA, hrunB⟩ := bind_eq_ok.mp h
  have hlookA : ∀ pre e, pre ++ [e] <+: UMap.toPairs A.metaFields → A.metaFields.lookup e.1 = some e.2 :=
    fun pre e hpre => (UMap.mem_toPairs e.1 e.2 _).mp (hpre.subset (by simp))
  have hlookB : ∀ pre e, pre ++ [e] <+: UMap.toPairs B.metaFields → B.metaFields.lookup e.1 = some e.2 :=
    fun pre e hpre => (UMap.mem_toPairs e.1 e.2 _).mp (hpre.subset (by simp))
  have hA := foldlM_ok_inv (J := fun pre (diffs : List Diff) =>
      (∀ e ∈ pre, e.1 ∉ ignoredMdKeys → GlobalReadable dump A B e.1) ∧ (∀ d ∈ diffs, ∃ g, d = .globalMD g) ∧
        ∀ key, Reported diffs key ↔ key ∈ pre.map Prod.fst ∧ key ∉ ignoredMdKeys ∧ GlobalDiffers dump A B key)
    ⟨by simp, by simp, by simp [Reported]⟩ (fun pre e ds ds' hpre hJ hstep => by
      obtain ⟨hread, hadds⟩ := compareGlobalA_eq_ok dump ignoredMdKeys (hlookA pre e hpre) hstep
      refine ⟨fun e' he' => ?_, hadds.globals hJ.2.1, fun key => ?_⟩
      · rcases List.mem_append.mp he' with he' | he'
        · exact hJ.1 e' he'
        · rw [List.mem_singleton.mp he']
          exact hread
      · rw [hadds.reported, hJ.2.2, List.map_append, List.mem_append, List.map_singleton, List.mem_singleton, or_and_right]
        exact or_congr_right (and_congr_right fun he => by rw [he])) hrunA
  have hB := foldlM_ok_inv (J := fun pre (diffs : List Diff) =>
      (∀ e ∈ pre, e.1 ∉ ignoredMdKeys → A.metaFields.lookup e.1 = none → GlobalReadable dump A B e.1) ∧
        (∀ d ∈ diffs, ∃ g, d = .globalMD g) ∧
        ∀ key, Reported diffs key ↔ Reported diffsA key ∨
          key ∈ pre.map Prod.fst ∧ key ∉ ignoredMdKeys ∧ A.metaFields.lookup key = none)
    ⟨by simp, hA.2.1, by simp⟩ (fun pre e ds ds' hpre hJ hstep => by
      obtain ⟨hread, hadds⟩ := compareGlobalB_eq_ok dump ignoredMdKeys (hlookB pre e hpre) hstep
      refine ⟨fun e' he' => ?_, hadds.globals hJ.2.1, fun key => ?_⟩
      · rcases List.mem_append.mp he' with he' | he'
        · exact hJ.1 e' he'
        · rw [List.mem_singleton.mp he']
          exact hread
      · rw [hadds.reported, hJ.2.2, List.map_append, List.mem_append, List.map_singleton, List.mem_singleton, or_and_right,
          or_assoc]
        exact or_congr_right (or_congr_right (and_congr_right fun he => by rw [he]))) hrunB
  have hmemA : ∀ key, key ∈ (UMap.toPairs A.metaFields).map Prod.fst ↔ (A.metaFields.lookup key).isSome = true := by
    intro key
    rw [UMap.toPairs_keys, ← AList.mem_keys, ← AList.lookup_isSome]
  have hmemB : ∀ key, key ∈ (UMap.toPairs B.metaFields).map Prod.fst ↔ (B.metaFields.lookup key).isSome = true := by
    intro key
    rw [UMap.toPairs_keys, ← AList.mem_keys, ← AList.lookup_isSome]
  refine ⟨fun key hk => ?_, hB.2.1, fun key => ?_⟩
  · cases hlA : A.metaFields.lookup key with
    | some mdA => exact hA.1 (key, mdA) ((UMap.mem_toPairs key mdA _).mpr hlA) hk
    | none =>
      cases hlB : B.metaFields.lookup key with
      | some mdB => exact hB.1 (key, mdB) ((UMap.mem_toPairs key mdB _).mpr hlB) hk hlA
      | none =>
        unfold GlobalReadable
        rw [hlA, hlB]
        trivial
  · rw [hB.2.2, hA.2.2, hmemA, hmemB]
    unfold GlobalDiffers
    cases hlA : A.metaFields.lookup key with
    | some mdA => simp
    | none => cases hlB : B.metaFields.lookup key <;> simp

theorem compareGlobals_total (h : mode.ignoreGlobalMetadata = false → ∀ key ∉ ignoredMdKeys, GlobalReadable dump A B key) :
    ∃ diffs, compareGlobals dump ignoredMdKeys mode A B = .ok diffs := by
  unfold compareGlobals
  cases hmode : mode.ignoreGlobalMetadata with
  | true => exact ⟨[], rfl⟩
  | false =>
    obtain ⟨diffsA, hrunA, -⟩ := foldlM_total (f := compareGlobalA dump ignoredMdKeys A B) (J := fun _ _ => True)
      (l := UMap.toPairs A.metaFields) (s := []) trivial (fun pre e ds hpre _ => by
        obtain ⟨ds', hstep⟩ := compareGlobalA_total dump ignoredMdKeys
          ((UMap.mem_toPairs e.1 e.2 _).mp (hpre.subset (by simp))) (h hmode e.1) ds
        exact ⟨ds', hstep, trivial⟩)
    obtain ⟨diffsB, hrunB, -⟩ := foldlM_total (f := compareGlobalB dump ignoredMdKeys A) (J := fun _ _ => True)
      (l := UMap.toPairs B.metaFields) (s := diffsA) trivial (fun pre e ds hpre _ => by
        obtain ⟨ds', hstep⟩ := compareGlobalB_total dump ignoredMdKeys
          ((UMap.mem_toPairs e.1 e.2 _).mp (hpre.subset (by simp))) (h hmode e.1) ds
        exact ⟨ds', hstep, trivial⟩)
    refine ⟨diffsB, ?_⟩
    rw [if_neg (by simp), hrunA, ok_bind, hrunB]

theorem compareGlobals_globals {diffs : List Diff} (h : compareGlobals dump ignoredMdKeys mode A B = .ok diffs) :
    ∀ d ∈ diffs, ∃ g, d = .globalMD g := by
  cases hmode : mode.ignoreGlobalMetadata with
  | true =>
    rw [compareGlobals, hmode] at h
    cases h
    exact fun d hd => by cases hd
  | false => exact (compareGlobals_eq_ok dump ignoredMdKeys mode hmode h).2.1

/-- The global metadata of two graphs reads alike. -/
def GlobalsAlike (A B : Callgraph) : Prop :=
  mode.ignoreGlobalMetadata = false → ∀ key ∉ ignoredMdKeys, GlobalReadable dump A B key ∧ ¬ GlobalDiffers dump A B key

theorem compareGlobals_eq_nil_iff : compareGlobals dump ignoredMdKeys mode A B = .ok [] ↔ GlobalsAlike dump ignoredMdKeys mode A B := by
  constructor
  · intro h hmode key hk
    obtain ⟨hread, -, hreported⟩ := compareGlobals_eq_ok dump ignoredMdKeys mode hmode h
    refine ⟨hread key hk, fun hd => ?_⟩
    obtain ⟨d, hmem, -⟩ := (hreported key).mpr ⟨hk, hd⟩
    cases hmem
  · intro h
    obtain ⟨diffs, hrun⟩ := compareGlobals_total dump ignoredMdKeys mode fun hmode key hk => (h hmode key hk).1
    cases hmode : mode.ignoreGlobalMetadata with
    | true =>
      rw [compareGlobals, hmode]
      rfl
    | false =>
      obtain ⟨-, hglobals, hreported⟩ := compareGlobals_eq_ok dump ignoredMdKeys mode hmode hrun
      cases diffs with
      | nil => exact hrun
      | cons d ds =>
        obtain ⟨g, rfl⟩ := hglobals d (List.mem_cons_self ..)
        obtain ⟨hk, hd⟩ := (hreported g.key).mp ⟨g, List.mem_cons_self .., rfl⟩
        exact absurd hd (h hmode g.key hk).2

end
end MetaCG.CGDiff
