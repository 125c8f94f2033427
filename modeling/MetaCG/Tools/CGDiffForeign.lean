import MetaCG.Tools.CGDiffGlobals

/-! Which ids the comparison of global metadata resolves in which graph.

`compareGlobalsBy` is the comparison with the mappings named by the graph that owns an id and the graph in
which it is resolved. Mappings that refuse the ids of the other graph show whether such an id is resolved. -/
namespace MetaCG.CGDiff
open Foundations Callgraph
set_option autoImplicit false
set_option maxHeartbeats 250000
set_option maxRecDepth 120000

inductive Side where
  | first
  | second
deriving DecidableEq

/-- For the owner of an id and the graph in which it is resolved. -/
abbrev Mappings := Side → Side → ℕ → Except Exn String

section
variable (dump : Json → String) (ignoredMdKeys : List String) (mode : ComparisonMode)

def compareGlobalABy (mapping : Mappings) (fieldsB : NamedMetadata) (diffs : List Diff) (md : String × MetaData) :
    Except Exn (List Diff) :=
  if md.1 ∈ ignoredMdKeys then .ok diffs
  else match fieldsB.lookup md.1 with
    | none => do
      let mdA ← md.2.toJson (mapping .first .first)
      return diffs ++ [.globalMD ⟨md.1, dump mdA, ""⟩]
    | some mdB => do
      let valueA ← md.2.toJson (mapping .first .second)
      let valueB ← mdB.toJson (mapping .second .second)
      if dump valueA ≠ dump valueB then do
        let aValue ← md.2.toJson (mapping .first .first)
        let bValue ← mdB.toJson (mapping .second .second)
        return diffs ++ [.globalMD ⟨md.1, dump aValue, dump bValue⟩]
      else return diffs

def compareGlobalBBy (mapping : Mappings) (fieldsA : NamedMetadata) (diffs : List Diff) (md : String × MetaData) :
    Except Exn (List Diff) :=
  if md.1 ∈ ignoredMdKeys then .ok diffs
  else match fieldsA.lookup md.1 with
    | none => do
      let mdB ← md.2.toJson (mapping .second .first)
      return diffs ++ [.globalMD ⟨md.1, "", dump mdB⟩]
    | some _ => .ok diffs

def compareGlobalsBy (mapping : Mappings) (fieldsA fieldsB : NamedMetadata) : Except Exn (List Diff) :=
  if mode.ignoreGlobalMetadata then .ok []
  else do
    let diffs ← (UMap.toPairs fieldsA).foldlM (compareGlobalABy dump ignoredMdKeys mapping fieldsB) []
    (UMap.toPairs fieldsB).foldlM (compareGlobalBBy dump ignoredMdKeys mapping fieldsA) diffs

/-- The mappings of two graphs. -/
def mappings (A B : Callgraph) : Mappings
  | _, .first => getStrFromNode A
  | _, .second => getStrFromNode B

theorem compareGlobals_eq (A B : Callgraph) : compareGlobals dump ignoredMdKeys mode A B =
    compareGlobalsBy dump ignoredMdKeys mode (mappings A B) A.metaFields B.metaFields := rfl

/-- The answer to an id of the other graph. -/
def notOwn : Exn := .runtimeError "not an id of this graph"

/-- The mappings of two graphs, each refusing the ids of the other graph. -/
def ownMappings (A B : Callgraph) : Mappings := fun owner graph id =>
  if owner = graph then mappings A B owner graph id else .error notOwn

/-- No id is resolved in a graph that it does not belong to. -/
def OwnIdsOnly (A B : Callgraph) : Prop :=
  compareGlobalsBy dump ignoredMdKeys mode (ownMappings A B) A.metaFields B.metaFields ≠ .error notOwn

/-- The values under a key that are resolved in the other graph hold no ids. -/
def OwnAt (A B : Callgraph) (key : String) : Prop :=
  match A.metaFields.lookup key, B.metaFields.lookup key with
  | some mdA, some _ => mdA.refs = []
  | none, some mdB => mdB.refs = []
  | _, _ => True

theorem toJson_notOwn (md : MetaData) : (md.refs = [] → ∃ j, md.toJson (fun _ => .error notOwn) = .ok j) ∧
    (md.refs ≠ [] → md.toJson (fun _ => .error notOwn) = .error notOwn) := by
  cases md with
  | override md =>
    obtain ⟨overrides, overriddenBy⟩ := md
    cases overrides with
    | cons i is => exact ⟨fun h => (List.cons_ne_nil i _ h).elim, fun _ => rfl⟩
    | nil =>
      cases overriddenBy with
      | cons i is => exact ⟨fun h => (List.cons_ne_nil i _ h).elim, fun _ => rfl⟩
      | nil => exact ⟨fun _ => ⟨_, rfl⟩, fun h => (h rfl).elim⟩
  | entryFunction md =>
    obtain ⟨_ | i⟩ := md
    · exact ⟨fun _ => ⟨_, rfl⟩, fun h => (h rfl).elim⟩
    · exact ⟨fun h => (List.cons_ne_nil i _ h).elim, fun _ => rfl⟩
  | _ => exact ⟨fun _ => ⟨_, rfl⟩, fun h => (h rfl).elim⟩

variable {A B : Callgraph}

theorem compareGlobalABy_ok {key : String} {mdA : MetaData} (hA : A.metaFields.lookup key = some mdA)
    (hread : key ∉ ignoredMdKeys → GlobalReadable dump A B key) (hown : key ∉ ignoredMdKeys → OwnAt A B key) (diffs : List Diff) :
    ∃ diffs', compareGlobalABy dump ignoredMdKeys (ownMappings A B) B.metaFields diffs (key, mdA) = .ok diffs' := by
  unfold compareGlobalABy
  split_ifs with hk
  · exact ⟨_, rfl⟩
  · have hread := hread hk
    have hown := hown hk
    unfold GlobalReadable at hread
    unfold OwnAt at hown
    rw [hA] at hread hown
    cases hB : B.metaFields.lookup key with
    | none =>
      rw [hB] at hread
      have hmdA : mdA.toJson (ownMappings A B .first .first) = _ := toJson_eq_ok.mpr ⟨hread, rfl⟩
      simp only [hmdA, ok_bind]
      exact ⟨_, rfl⟩
    | some mdB =>
      rw [hB] at hread hown
      obtain ⟨j, hj⟩ := (toJson_notOwn mdA).1 hown
      have hforeign : mdA.toJson (ownMappings A B .first .second) = .ok j := hj
      have hmdA : mdA.toJson (ownMappings A B .first .first) = _ :=
        toJson_eq_ok.mpr ⟨fun i hi => absurd (hown ▸ hi) List.not_mem_nil, rfl⟩
      have hmdB : mdB.toJson (ownMappings A B .second .second) = _ := toJson_eq_ok.mpr ⟨hread.2.1, rfl⟩
      simp only [hforeign, hmdB, hmdA, ok_bind]
      split_ifs
      · exact ⟨_, rfl⟩
      · exact ⟨_, rfl⟩

theorem compareGlobalABy_error {key : String} {mdA : MetaData} (hA : A.metaFields.lookup key = some mdA)
    (hk : key ∉ ignoredMdKeys) (hown : ¬ OwnAt A B key) (diffs : List Diff) :
    compareGlobalABy dump ignoredMdKeys (ownMappings A B) B.metaFields diffs (key, mdA) = .error notOwn := by
  unfold compareGlobalABy
  unfold OwnAt at hown
  rw [hA] at hown
  cases hB : B.metaFields.lookup key with
  | none => rw [hB] at hown; exact absurd trivial hown
  | some mdB =>
    rw [hB] at hown
    have hforeign : mdA.toJson (ownMappings A B .first .second) = .error notOwn := (toJson_notOwn mdA).2 hown
    dsimp only
    rw [if_neg hk]
    simp only [hforeign]
    rfl

theorem compareGlobalBBy_ok {key : String} {mdB : MetaData} (hB : B.metaFields.lookup key = some mdB)
    (hown : key ∉ ignoredMdKeys → OwnAt A B key) (diffs : List Diff) :
    ∃ diffs', compareGlobalBBy dump ignoredMdKeys (ownMappings A B) A.metaFields diffs (key, mdB) = .ok diffs' := by
  unfold compareGlobalBBy
  split_ifs with hk
  · exact ⟨_, rfl⟩
  · have hown := hown hk
    unfold OwnAt at hown
    rw [hB] at hown
    cases hA : A.metaFields.lookup key with
    | none =>
      rw [hA] at hown
      obtain ⟨j, hj⟩ := (toJson_notOwn mdB).1 hown
      have hforeign : mdB.toJson (ownMappings A B .second .first) = .ok j := hj
      simp only [hforeign, ok_bind]
      exact ⟨_, rfl⟩
    | some mdA => exact ⟨_, rfl⟩

theorem compareGlobalBBy_error {key : String} {mdB : MetaData} (hA : A.metaFields.lookup key = none)
    (hB : B.metaFields.lookup key = some mdB) (hk : key ∉ ignoredMdKeys) (hown : ¬ OwnAt A B key) (diffs : List Diff) :
    compareGlobalBBy dump ignoredMdKeys (ownMappings A B) A.metaFields diffs (key, mdB) = .error notOwn := by
  unfold OwnAt at hown
  rw [hA, hB] at hown
  have hforeign : mdB.toJson (ownMappings A B .second .first) = .error notOwn := (toJson_notOwn mdB).2 hown
  rw [compareGlobalBBy, if_neg hk, hA]
  simp only [hforeign]
  rfl

/-- Where the comparison can be made, only the refusal of an id ends it. -/
theorem compareGlobalsBy_errors (hread : ∀ key ∉ ignoredMdKeys, GlobalReadable dump A B key) :
    ErrorsIn (· = notOwn) (compareGlobalsBy dump ignoredMdKeys mode (ownMappings A B) A.metaFields B.metaFields) := by
  have hlook : ∀ {fields : NamedMetadata} {e}, e ∈ UMap.toPairs fields → fields.lookup e.1 = some e.2 :=
    fun he => (UMap.mem_toPairs _ _ _).mp he
  unfold compareGlobalsBy
  split_ifs
  · exact .ok _
  refine (ErrorsIn.foldlM (fun ds e he => ?_) _).bind fun diffs _ => .foldlM (fun ds e he => ?_) _
  · by_cases hown : e.1 ∉ ignoredMdKeys → OwnAt A B e.1
    · obtain ⟨ds', hstep⟩ := compareGlobalABy_ok dump ignoredMdKeys (hlook he) (hread e.1) hown ds
      rw [hstep]
      exact .ok _
    · obtain ⟨hk, hown⟩ := Classical.not_imp.mp hown
      rw [compareGlobalABy_error dump ignoredMdKeys (hlook he) hk hown]
      exact .error rfl
  · by_cases hown : e.1 ∉ ignoredMdKeys → OwnAt A B e.1
    · obtain ⟨ds', hstep⟩ := compareGlobalBBy_ok dump ignoredMdKeys (hlook he) hown ds
      rw [hstep]
      exact .ok _
    · obtain ⟨hk, hown⟩ := Classical.not_imp.mp hown
      cases hA : A.metaFields.lookup e.1 with
      | none =>
        rw [compareGlobalBBy_error dump ignoredMdKeys hA (hlook he) hk hown]
        exact .error rfl
      | some mdA =>
        rw [compareGlobalBBy, if_neg hk, hA]
        exact .ok _

/-- Where the comparison can be made, it keeps to the ids of each graph iff the values that are resolved in
the other graph hold none. -/
theorem ownIdsOnly_iff (hmode : mode.ignoreGlobalMetadata = false) (hread : ∀ key ∉ ignoredMdKeys, GlobalReadable dump A B key) :
    OwnIdsOnly dump ignoredMdKeys mode A B ↔ ∀ key ∉ ignoredMdKeys, OwnAt A B key := by
  have hlook : ∀ {fields : NamedMetadata} {e}, e ∈ UMap.toPairs fields → fields.lookup e.1 = some e.2 :=
    fun he => (UMap.mem_toPairs _ _ _).mp he
  constructor
  · intro hne key hk
    by_contra hown
    cases hrun : compareGlobalsBy dump ignoredMdKeys mode (ownMappings A B) A.metaFields B.metaFields with
    | error e =>
      rw [compareGlobalsBy_errors dump ignoredMdKeys mode hread e hrun] at hrun
      exact hne hrun
    | ok diffs =>
      rw [compareGlobalsBy, hmode, if_neg (by simp)] at hrun
      obtain ⟨diffsA, hrunA, hrunB⟩ := bind_eq_ok.mp hrun
      cases hA : A.metaFields.lookup key with
      | some mdA =>
        obtain ⟨ds, ds', hstep⟩ := foldlM_ok_mem hrunA (key, mdA) ((UMap.mem_toPairs key mdA _).mpr hA)
        rw [compareGlobalABy_error dump ignoredMdKeys hA hk hown] at hstep
        cases hstep
      | none =>
        cases hB : B.metaFields.lookup key with
        | none =>
          unfold OwnAt at hown
          rw [hA, hB] at hown
          exact hown trivial
        | some mdB =>
          obtain ⟨ds, ds', hstep⟩ := foldlM_ok_mem hrunB (key, mdB) ((UMap.mem_toPairs key mdB _).mpr hB)
          rw [compareGlobalBBy_error dump ignoredMdKeys hA hB hk hown] at hstep
          cases hstep
  · intro hown herr
    obtain ⟨diffsA, hrunA, -⟩ := foldlM_total (J := fun _ _ => True) (l := UMap.toPairs A.metaFields) (s := ([] : List Diff))
      (f := compareGlobalABy dump ignoredMdKeys (ownMappings A B) B.metaFields) trivial (fun pre e ds hpre _ => by
        obtain ⟨ds', hstep⟩ := compareGlobalABy_ok dump ignoredMdKeys (hlook (hpre.subset (by simp))) (hread e.1) (hown e.1) ds
        exact ⟨ds', hstep, trivial⟩)
    obtain ⟨diffsB, hrunB, -⟩ := foldlM_total (J := fun _ _ => True) (l := UMap.toPairs B.metaFields) (s := diffsA)
      (f := compareGlobalBBy dump ignoredMdKeys (ownMappings A B) A.metaFields) trivial (fun pre e ds hpre _ => by
        obtain ⟨ds', hstep⟩ := compareGlobalBBy_ok dump ignoredMdKeys (hlook (hpre.subset (by simp))) (hown e.1) ds
        exact ⟨ds', hstep, trivial⟩)
    rw [compareGlobalsBy, hmode, if_neg (by simp), hrunA, ok_bind, hrunB] at herr
    cases herr

end
end MetaCG.CGDiff
