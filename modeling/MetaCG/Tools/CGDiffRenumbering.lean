import MetaCG.Tools.CGDiffForeign

/-! Renumbered graphs in `cgdiff`.

Renumbering the nodes of a graph renames the ids in its metadata, so what is read in its own graph stays the
same. Where no value with ids is resolved in the other graph, renumbering changes no comparison of global
metadata. -/
namespace MetaCG
open Foundations Callgraph
set_option autoImplicit false
set_option maxHeartbeats 250000
set_option maxRecDepth 120000

/-! ## Values of renamed metadata -/

namespace MetaData

theorem encode_congr {str str' : ℕ → String} {md : MetaData} (h : ∀ i ∈ md.refs, str i = str' i) :
    md.encode str = md.encode str' := by
  have hl : md.toJson (fun i => .ok (str i)) = .ok (md.encode str) := toJson_eq fun _ _ => rfl
  have hr : md.toJson (fun i => .ok (str i)) = .ok (md.encode str') := toJson_eq fun i hi => by rw [h i hi]
  exact Except.ok.inj (hl.symm.trans hr)

theorem encode_rename (f : ℕ → ℕ) (str : ℕ → String) (md : MetaData) :
    (md.rename f).encode str = md.encode fun i => str (f i) := by
  cases md with
  | override md => simp only [rename, encode, List.map_map]; rfl
  | entryFunction md => simp only [rename, encode, Option.map_map]; rfl
  | _ => rfl

/-- The value tells whether there are ids, if the strings of ids are not empty. -/
theorem refs_eq_nil_of_encode {str : ℕ → String} {md md' : MetaData} (hkey : md.getKey = md'.getKey)
    (h : md.encode str = md'.encode str) (hrefs : md.refs = []) (hstr : ∀ i ∈ md'.refs, str i ≠ "") : md'.refs = [] := by
  cases md' with
  | override a' =>
    cases md with
    | override a =>
      obtain ⟨ho, hb⟩ := List.append_eq_nil_iff.mp hrefs
      have hoverrides : ∀ a : OverrideMD, (MetaData.encode str (.override a)).at_ "overrides" =
          .ok (.arr (a.overrides.map fun i => .str (str i))) := fun a => Json.at_ofFields (by simp) rfl
      have hoverriddenBy : ∀ a : OverrideMD, (MetaData.encode str (.override a)).at_ "overriddenBy" =
          .ok (.arr (a.overriddenBy.map fun i => .str (str i))) := fun a => Json.at_ofFields (by simp) rfl
      have ho' := (hoverrides a).symm.trans ((congrArg (Json.at_ · "overrides") h).trans (hoverrides a'))
      have hb' := (hoverriddenBy a).symm.trans ((congrArg (Json.at_ · "overriddenBy") h).trans (hoverriddenBy a'))
      rw [ho, List.map_nil] at ho'
      rw [hb, List.map_nil] at hb'
      have hnil : ∀ {l : List ℕ}, (Except.ok (Json.arr []) : Except Exn Json) = .ok (.arr (l.map fun i => .str (str i))) → l = [] :=
        fun he => List.map_eq_nil_iff.mp (Json.arr.inj (Except.ok.inj he)).symm
      exact List.append_eq_nil_iff.mpr ⟨hnil ho', hnil hb'⟩
    | _ => simp [getKey] at hkey
  | entryFunction a' =>
    cases md with
    | entryFunction a =>
      obtain ⟨_ | i⟩ := a'
      · rfl
      · obtain ⟨_ | k⟩ := a
        · exact absurd (Json.str.inj h).symm (hstr i (List.mem_singleton_self i))
        · cases hrefs
    | _ => simp [getKey] at hkey
  | _ => rfl

end MetaData

namespace CGDiff

/-- `g'` is `g` with the node `i` renumbered to `f i`. -/
structure Renumbering (g g' : Callgraph) (f : ℕ → ℕ) : Prop where
  wf : g'.Wf
  noErased : g.NoErased → g'.NoErased
  live : ∀ i, g.hasNode i = true → g'.hasNode (f i) = true
  inj : ∀ i k, g.hasNode i = true → g.hasNode k = true → f i = f k → i = k
  onto : ∀ k, g'.hasNode k = true → ∃ i, g.hasNode i = true ∧ f i = k
  node : ∀ i n, g.slot i = some n → ∃ n', g'.slot (f i) = some n' ∧ n'.functionName = n.functionName ∧
    n'.origin = n.origin ∧ n'.hasBody = n.hasBody ∧ ∀ key, n'.metaFields.lookup key = (n.metaFields.lookup key).map (MetaData.rename f)
  edges : ∀ u v, g.hasNode u = true → g.hasNode v = true → ((f u, f v) ∈ g'.edges ↔ (u, v) ∈ g.edges)
  edgeMeta : ∀ u v, (u, v) ∈ g.edges → ∀ key,
    (g'.edgeMeta (f u, f v)).lookup key = ((g.edgeMeta (u, v)).lookup key).map (MetaData.rename f)
  globals : ∀ key, g'.metaFields.lookup key = (g.metaFields.lookup key).map (MetaData.rename f)

section
variable {g g' : Callgraph} {f : ℕ → ℕ}

theorem Renumbering.nameIn (h : Renumbering g g' f) {i : ℕ} (hi : g.hasNode i = true) : nameIn g' (f i) = nameIn g i := by
  obtain ⟨n, hn⟩ := (g.hasNode_iff i).mp hi
  obtain ⟨n', hn', hname, -⟩ := h.node i n hn
  rw [nameIn_eq hn', nameIn_eq hn, hname]

theorem Renumbering.refsIn (h : Renumbering g g' f) {md : MetaData} (hmd : RefsIn g md) : RefsIn g' (md.rename f) := by
  intro k hk
  rw [MetaData.refs_rename, List.mem_map] at hk
  obtain ⟨i, hi, rfl⟩ := hk
  exact h.live i (hmd i hi)

theorem Renumbering.encode (h : Renumbering g g' f) {md : MetaData} (hmd : RefsIn g md) :
    (md.rename f).encode (CGDiff.nameIn g') = md.encode (CGDiff.nameIn g) := by
  rw [MetaData.encode_rename]
  exact MetaData.encode_congr fun i hi => h.nameIn (hmd i hi)

/-- The renamed metadata of a container refers to nodes if the metadata does. -/
theorem Renumbering.refsIn_fields (h : Renumbering g g' f) {fields fields' : NamedMetadata}
    (hfields : ∀ key, fields'.lookup key = (fields.lookup key).map (MetaData.rename f))
    (hrefs : ∀ e ∈ UMap.toPairs fields, RefsIn g e.2) : ∀ e ∈ UMap.toPairs fields', RefsIn g' e.2 := by
  intro e he
  have hl := (UMap.mem_toPairs e.1 e.2 _).mp he
  rw [hfields] at hl
  obtain ⟨md, hmd, heq⟩ := Option.map_eq_some_iff.mp hl
  rw [← heq]
  exact h.refsIn (hrefs (e.1, md) ((UMap.mem_toPairs e.1 md _).mpr hmd))

theorem Renumbering.readable {mode : ComparisonMode} (h : Renumbering g g' f) (hg : g.Wf) (hr : Readable mode g) :
    Readable mode g' := by
  refine ⟨h.noErased hr.noErased, fun n' hn' => ?_⟩
  have hslot' := h.wf.slot_of_mem hn'
  obtain ⟨i, hi, hfi⟩ := h.onto n'.id (hasNode_of_slot hslot')
  obtain ⟨n, hn⟩ := (g.hasNode_iff i).mp hi
  obtain ⟨m, hm, -, -, -, hmeta⟩ := h.node i n hn
  rw [hfi, hslot'] at hm
  cases hm
  have hread := hr.node n ((g.mem_liveNodes n).mpr ⟨i, hn⟩)
  have hid : n.id = i := hg.node_id i n hn
  refine ⟨fun hmode => h.refsIn_fields hmeta (hread.metadata hmode), fun hmode v' hv' => ?_⟩
  obtain ⟨v, hv, rfl⟩ := h.onto v' (h.wf.edge_live _ _ hv').2
  rw [← hfi] at hv' ⊢
  have hedge : (i, v) ∈ g.edges := (h.edges i v hi hv).mp hv'
  refine h.refsIn_fields (h.edgeMeta i v hedge) ?_
  rw [← hid] at hedge ⊢
  exact hread.edgeMetadata hmode v hedge

end

section
variable {dump : Json → String} {A B A' B' : Callgraph} {f h : ℕ → ℕ}

theorem encode_of_refs_eq_nil {md : MetaData} (hrefs : md.refs = []) (str str' : ℕ → String) : md.encode str = md.encode str' :=
  MetaData.encode_congr fun i hi => by rw [hrefs] at hi; cases hi

theorem refsIn_of_refs_eq_nil {md : MetaData} (hrefs : md.refs = []) (g : Callgraph) : RefsIn g md :=
  fun i hi => by rw [hrefs] at hi; cases hi

/-- Live references can be read where no value with ids is resolved in the other graph. -/
theorem globalReadable_of_own (hA : A.RefsLive) (hB : B.RefsLive) {key : String} (hown : OwnAt A B key) :
    GlobalReadable dump A B key := by
  unfold OwnAt at hown
  unfold GlobalReadable
  cases hlA : A.metaFields.lookup key with
  | none =>
    cases hlB : B.metaFields.lookup key with
    | none => trivial
    | some mdB =>
      rw [hlA, hlB] at hown
      exact refsIn_of_refs_eq_nil hown A
  | some mdA =>
    cases hlB : B.metaFields.lookup key with
    | none => exact hA.global (key, mdA) ((UMap.mem_toPairs key mdA _).mpr hlA)
    | some mdB =>
      rw [hlA, hlB] at hown
      exact ⟨refsIn_of_refs_eq_nil hown B, hB.global (key, mdB) ((UMap.mem_toPairs key mdB _).mpr hlB),
        fun _ => refsIn_of_refs_eq_nil hown A⟩

/-- Without ids in values that the other graph resolves, renumbering changes nothing under a key. -/
theorem Renumbering.global (hA : Renumbering A A' f) (hB : Renumbering B B' h) {key : String} (hown : OwnAt A B key)
    (hread : GlobalReadable dump A B key) :
    OwnAt A' B' key ∧ GlobalReadable dump A' B' key ∧ (GlobalDiffers dump A' B' key ↔ GlobalDiffers dump A B key) := by
  unfold OwnAt GlobalReadable GlobalDiffers at *
  rw [hA.globals, hB.globals]
  cases hlA : A.metaFields.lookup key with
  | none =>
    rw [hlA] at hown hread
    cases hlB : B.metaFields.lookup key with
    | none => exact ⟨trivial, trivial, .rfl⟩
    | some mdB =>
      rw [hlB] at hown hread
      have hrefs : (mdB.rename h).refs = [] := by rw [MetaData.refs_rename, hown, List.map_nil]
      exact ⟨hrefs, refsIn_of_refs_eq_nil hrefs A', .rfl⟩
  | some mdA =>
    rw [hlA] at hown hread
    cases hlB : B.metaFields.lookup key with
    | none =>
      rw [hlB] at hread
      exact ⟨trivial, hA.refsIn hread, .rfl⟩
    | some mdB =>
      rw [hlB] at hown hread
      have hrefs : (mdA.rename f).refs = [] := by rw [MetaData.refs_rename, hown, List.map_nil]
      have hvalueA : (mdA.rename f).encode (CGDiff.nameIn B') = mdA.encode (CGDiff.nameIn B) := by
        rw [MetaData.encode_rename]
        exact encode_of_refs_eq_nil hown _ _
      refine ⟨hrefs, ⟨refsIn_of_refs_eq_nil hrefs B', hB.refsIn hread.2.1, fun _ => refsIn_of_refs_eq_nil hrefs A'⟩, ?_⟩
      dsimp only [Option.map_some]
      rw [hvalueA, hB.encode hread.2.1]

end
end CGDiff
end MetaCG
