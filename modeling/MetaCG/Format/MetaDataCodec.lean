import MetaCG.Format.MetaDataJson

/-! What the encoders write, and that the factory reads it back.

Node ids go through a string on the way out and through a map of strings on the way in, so what is
read is the metadata with its ids renamed. -/
namespace MetaCG
open Foundations
set_option autoImplicit false
set_option maxHeartbeats 250000
set_option maxRecDepth 120000

namespace MetaData

/-- The value that `toJson` returns when the node `i` has the string `str i`. -/
def encode (str : ℕ → String) : MetaData → Json
  | .override md => .ofFields [
      ("overrides", .arr (md.overrides.map fun i => .str (str i))),
      ("overriddenBy", .arr (md.overriddenBy.map fun i => .str (str i)))]
  | .entryFunction md => .str ((md.entryFunction.map str).getD "")
  | .codeStatistics numVars => .ofFields [("numVars", .int numVars.toInt)]
  | .numConditionalBranch numConditionalBranches => .int numConditionalBranches.toInt
  | .numOperations md => .ofFields [
      ("numberOfIntOps", .int md.numberOfIntOps.toInt),
      ("numberOfFloatOps", .int md.numberOfFloatOps.toInt),
      ("numberOfControlFlowOps", .int md.numberOfControlFlowOps.toInt),
      ("numberOfMemoryAccesses", .int md.numberOfMemoryAccesses.toInt)]
  | .numStatements numStmts => .int numStmts.toInt
  | .fileProperties fromSystemInclude => .ofFields [("systemInclude", .bool fromSystemInclude)]
  | .inlineInfo md => .ofFields [
      ("markedInline", .bool md.markedInline),
      ("likelyInline", .bool md.likelyInline),
      ("isTemplate", .bool md.isTemplateFunction),
      ("markedAlwaysInline", .bool md.markedAlwaysInline)]
  | .mallocVariable allocs =>
    .arr (allocs.entries.map fun e => .ofFields [("global", .str e.1), ("allocStmt", .str e.2)])
  | .uniqueType numTypes => .int numTypes.toInt
  | .loopDepth depth => .int depth.toInt
  | .globalLoopDepth depth => .int depth.toInt
  | .loopCallDepth loopFunctionMap => .obj (loopFunctionMap.entries.map fun e => (e.1, .int e.2.toInt))

theorem toJson_eq {nodeToStr : ℕ → Except Exn String} {str : ℕ → String} {md : MetaData}
    (h : ∀ i ∈ md.refs, nodeToStr i = .ok (str i)) : md.toJson nodeToStr = .ok (md.encode str) := by
  cases md with
  | override md =>
    have ho : md.overrides.mapM nodeToStr = .ok (md.overrides.map str) :=
      mapM_eq_map fun i hi => h i (List.mem_append_left _ hi)
    have hb : md.overriddenBy.mapM nodeToStr = .ok (md.overriddenBy.map str) :=
      mapM_eq_map fun i hi => h i (List.mem_append_right _ hi)
    simp only [toJson, ho, hb, encode, ok_bind, List.map_map]
    rfl
  | entryFunction md =>
    cases hm : md.entryFunction with
    | none => simp only [toJson, hm, encode]; rfl
    | some i =>
      have hi : nodeToStr i = .ok (str i) := h i (by simp [refs, hm])
      simp only [toJson, hm, encode, hi]
      rfl
  | _ => rfl

/-- The encoder asks for the string of every node that the metadata refers to. -/
theorem refs_of_toJson {nodeToStr : ℕ → Except Exn String} {md : MetaData} {j : Json}
    (h : md.toJson nodeToStr = .ok j) : ∀ i ∈ md.refs, ∃ s, nodeToStr i = .ok s := by
  cases md with
  | override md =>
    intro i hi
    obtain ⟨os, ho, h⟩ := bind_eq_ok.mp h
    obtain ⟨bs, hb, -⟩ := bind_eq_ok.mp h
    rcases List.mem_append.mp hi with hi | hi
    · exact mapM_ok_mem ho i hi
    · exact mapM_ok_mem hb i hi
  | entryFunction md =>
    intro i hi
    have hm : md.entryFunction = some i := by simpa [refs] using hi
    simp only [toJson, hm] at h
    cases hs : nodeToStr i with
    | error e => rw [hs] at h; cases h
    | ok s => exact ⟨s, rfl⟩
  | _ => exact fun i hi => by cases hi

/-- Metadata whose value is an empty container. -/
def emptyContainer : MetaData → Bool
  | .mallocVariable allocs => allocs.entries.isEmpty
  | .loopCallDepth loopFunctionMap => loopFunctionMap.entries.isEmpty
  | _ => false

theorem encode_empty (str : ℕ → String) (md : MetaData) : (md.encode str).empty = md.emptyContainer := by
  cases md with
  | mallocVariable allocs => simp [encode, Json.empty, emptyContainer]
  | loopCallDepth m => simp [encode, Json.empty, emptyContainer]
  | override md => exact Json.ofFields_cons_empty ..
  | codeStatistics n => exact Json.ofFields_cons_empty ..
  | numOperations md => exact Json.ofFields_cons_empty ..
  | fileProperties b => exact Json.ofFields_cons_empty ..
  | inlineInfo md => exact Json.ofFields_cons_empty ..
  | _ => rfl

theorem encode_is_null (str : ℕ → String) (md : MetaData) : (md.encode str).is_null = false := by
  cases md <;> rfl

/-- The metadata with its node ids renamed. -/
def rename (f : ℕ → ℕ) : MetaData → MetaData
  | .override md => .override ⟨md.overrides.map f, md.overriddenBy.map f⟩
  | .entryFunction md => .entryFunction ⟨md.entryFunction.map f⟩
  | md => md

@[simp] theorem getKey_rename (f : ℕ → ℕ) (md : MetaData) : (md.rename f).getKey = md.getKey := by
  cases md <;> rfl

@[simp] theorem emptyContainer_rename (f : ℕ → ℕ) (md : MetaData) :
    (md.rename f).emptyContainer = md.emptyContainer := by
  cases md <;> rfl

theorem refs_rename (f : ℕ → ℕ) (md : MetaData) : (md.rename f).refs = md.refs.map f := by
  cases md with
  | override md => exact List.map_append.symm
  | entryFunction md => cases h : md.entryFunction <;> simp [rename, refs, h]
  | _ => rfl

/-- A renaming that keeps the ids of the metadata changes nothing. -/
theorem rename_of_refs {f : ℕ → ℕ} {md : MetaData} (hf : ∀ i ∈ md.refs, f i = i) : md.rename f = md := by
  cases md with
  | override md =>
    have ho : md.overrides.map f = md.overrides :=
      (List.map_congr_left (g := id) fun i hi => hf i (List.mem_append_left _ hi)).trans (List.map_id _)
    have hb : md.overriddenBy.map f = md.overriddenBy :=
      (List.map_congr_left (g := id) fun i hi => hf i (List.mem_append_right _ hi)).trans (List.map_id _)
    rw [rename, ho, hb]
  | entryFunction md =>
    obtain ⟨entryFunction⟩ := md
    cases entryFunction with
    | none => rfl
    | some i => simp [rename, hf i (by simp [refs])]
  | _ => rfl

/-! ## Reading back -/

section
variable {strToNode : StrToNode} {str : ℕ → String} {f : ℕ → ℕ}

theorem getStrings_map (l : List ℕ) :
    (Json.arr (l.map fun i => .str (str i))).getStrings = .ok (l.map str) := by
  rw [Json.getStrings, List.mapM_map]
  exact mapM_eq_map fun i _ => rfl

theorem nodeFromStr_map {l : List ℕ} (h : ∀ i ∈ l, strToNode.lookup (str i) = some (f i)) :
    (l.map str).mapM (nodeFromStr strToNode) = .ok (l.map f) := by
  rw [List.mapM_map]
  refine mapM_eq_map fun i hi => ?_
  show nodeFromStr strToNode (str i) = _
  rw [nodeFromStr, h i hi]

theorem create_override {md : OverrideMD}
    (h : ∀ i ∈ (MetaData.override md).refs, strToNode.lookup (str i) = some (f i)) :
    createOverride ((MetaData.override md).encode str) strToNode =
      .ok ⟨md.overrides.map f, md.overriddenBy.map f⟩ := by
  have ho := nodeFromStr_map (l := md.overrides) fun i hi => h i (List.mem_append_left _ hi)
  have hb := nodeFromStr_map (l := md.overriddenBy) fun i hi => h i (List.mem_append_right _ hi)
  have hat : ∀ a b : Json, (Json.ofFields [("overrides", a), ("overriddenBy", b)]).at_ "overrides" = .ok a ∧
      (Json.ofFields [("overrides", a), ("overriddenBy", b)]).at_ "overriddenBy" = .ok b := fun a b =>
    ⟨Json.at_ofFields (by simp) (by simp [Ordered.find]), Json.at_ofFields (by simp) (by simp [Ordered.find])⟩
  rw [createOverride, encode, (hat _ _).1, (hat _ _).2, ok_bind, getStrings_map, ok_bind, ho, ok_bind, ok_bind,
    getStrings_map, ok_bind, hb]
  rfl

theorem createLoopFunctionMap_encode (m : OMap String Int32) :
    createLoopFunctionMap (.obj (m.entries.map fun e => (e.1, .int e.2.toInt))) = .ok m := by
  rw [createLoopFunctionMap, List.foldlM_map]
  rw [foldlM_eq_foldl (h := fun m e => m.insert e.1 e.2) (fun s e _ => by
    simp only [Json.getInt, Int32.ofInt_toInt]
    rfl), OMap.foldl_insert_entries]

theorem createAllocs_encode (m : OMap String String) :
    createAllocs (.arr (m.entries.map fun e => .ofFields [("global", .str e.1), ("allocStmt", .str e.2)])) = .ok m := by
  have hat : ∀ a b : Json, (Json.ofFields [("global", a), ("allocStmt", b)]).at_ "global" = .ok a ∧
      (Json.ofFields [("global", a), ("allocStmt", b)]).at_ "allocStmt" = .ok b := fun a b =>
    ⟨Json.at_ofFields (by simp) (by simp [Ordered.find]), Json.at_ofFields (by simp) (by simp [Ordered.find])⟩
  rw [createAllocs, Json.values, List.foldlM_map]
  rw [foldlM_eq_foldl (h := fun m e => m.insert e.1 e.2) (fun s e _ => by
    rw [(hat _ _).1, (hat _ _).2]
    rfl), OMap.foldl_insert_entries]

/-- What an encoder writes is read back with the node ids renamed. -/
theorem create_encode {md : MetaData} (h : ∀ i ∈ md.refs, strToNode.lookup (str i) = some (f i))
    (hempty : strToNode.lookup "" = none) :
    create md.getKey (md.encode str) strToNode = .ok (some (md.rename f)) := by
  cases md with
  | override md =>
    simp only [getKey, create, create_override h]
    rfl
  | entryFunction md =>
    cases hm : md.entryFunction with
    | none =>
      simp only [getKey, create, encode, hm, rename, Option.map_none, Option.getD_none, Json.getStr, ok_bind, hempty]
      rfl
    | some i =>
      have hi := h i (by simp [refs, hm])
      simp only [getKey, create, encode, hm, rename, Option.map_some, Option.getD_some, Json.getStr, ok_bind, hi]
      rfl
  | codeStatistics n =>
    have hsub : (Json.ofFields [("numVars", .int n.toInt)]).subscript "numVars" = .ok (.int n.toInt) :=
      Json.subscript_ofFields (by simp) (by simp [Ordered.find])
    simp only [getKey, create, encode, rename, orDefault, hsub, ok_bind, Json.getInt, Int32.ofInt_toInt]
    rfl
  | numConditionalBranch n =>
    simp only [getKey, create, encode, rename, orDefault, Json.getInt, Int32.ofInt_toInt]
    rfl
  | numOperations md =>
    have hsub : ∀ {k v}, Ordered.find k [
        ("numberOfIntOps", Json.int md.numberOfIntOps.toInt),
        ("numberOfFloatOps", .int md.numberOfFloatOps.toInt),
        ("numberOfControlFlowOps", .int md.numberOfControlFlowOps.toInt),
        ("numberOfMemoryAccesses", .int md.numberOfMemoryAccesses.toInt)] = some v →
        ((MetaData.numOperations md).encode str).subscript k = .ok v :=
      fun hf => Json.subscript_ofFields (by simp) hf
    have h1 := hsub (k := "numberOfIntOps") (v := .int md.numberOfIntOps.toInt) (by simp [Ordered.find])
    have h2 := hsub (k := "numberOfFloatOps") (v := .int md.numberOfFloatOps.toInt) (by simp [Ordered.find])
    have h3 := hsub (k := "numberOfControlFlowOps") (v := .int md.numberOfControlFlowOps.toInt) (by simp [Ordered.find])
    have h4 := hsub (k := "numberOfMemoryAccesses") (v := .int md.numberOfMemoryAccesses.toInt) (by simp [Ordered.find])
    simp only [getKey, create, rename, orDefault, h1, h2, h3, h4, ok_bind, Json.getInt, Int32.ofInt_toInt]
    rfl
  | numStatements n =>
    simp only [getKey, create, encode, rename, orDefault, Json.getInt, Int32.ofInt_toInt]
    rfl
  | fileProperties b =>
    have hsub : (Json.ofFields [("systemInclude", .bool b)]).subscript "systemInclude" = .ok (.bool b) :=
      Json.subscript_ofFields (by simp) (by simp [Ordered.find])
    simp only [getKey, create, encode, rename, orDefault, hsub, ok_bind, Json.getBool]
    rfl
  | inlineInfo md =>
    have hsub : ∀ {k v}, Ordered.find k [
        ("markedInline", Json.bool md.markedInline),
        ("likelyInline", .bool md.likelyInline),
        ("isTemplate", .bool md.isTemplateFunction),
        ("markedAlwaysInline", .bool md.markedAlwaysInline)] = some v →
        ((MetaData.inlineInfo md).encode str).subscript k = .ok v :=
      fun hf => Json.subscript_ofFields (by simp) hf
    have h1 := hsub (k := "markedInline") (v := .bool md.markedInline) (by simp [Ordered.find])
    have h2 := hsub (k := "likelyInline") (v := .bool md.likelyInline) (by simp [Ordered.find])
    have h3 := hsub (k := "isTemplate") (v := .bool md.isTemplateFunction) (by simp [Ordered.find])
    have h4 := hsub (k := "markedAlwaysInline") (v := .bool md.markedAlwaysInline) (by simp [Ordered.find])
    simp only [getKey, create, rename, orDefault, h1, h2, h3, h4, ok_bind, Json.getBool]
    rfl
  | mallocVariable allocs =>
    simp only [getKey, create, encode, rename, createAllocs_encode, ok_bind]
    rfl
  | uniqueType n =>
    simp only [getKey, create, encode, rename, Json.getInt, Int32.ofInt_toInt]
    rfl
  | loopDepth n =>
    simp only [getKey, create, encode, rename, orDefault, Json.getInt, Int32.ofInt_toInt]
    rfl
  | globalLoopDepth n =>
    simp only [getKey, create, encode, rename, orDefault, Json.getInt, Int32.ofInt_toInt]
    rfl
  | loopCallDepth m =>
    simp only [getKey, create, encode, rename, orDefault, createLoopFunctionMap_encode]
    rfl

/-- The strings of the nodes `ids`. -/
def stringsOf (str : ℕ → String) (ids : List ℕ) : StrToNode := UMap.ofPairs (ids.map fun i => (str i, i))

theorem lookup_stringsOf (hinj : Function.Injective str) {ids : List ℕ} {i : ℕ} (hi : i ∈ ids) :
    (stringsOf str ids).lookup (str i) = some i := by
  have hmem : str i ∈ stringsOf str ids :=
    (UMap.mem_ofPairs _ _).mpr (List.mem_map.mpr ⟨(str i, i), List.mem_map.mpr ⟨i, hi, rfl⟩, rfl⟩)
  obtain ⟨k, hk⟩ := (UMap.mem_iff_lookup _ _).mp hmem
  obtain ⟨i', -, he⟩ := List.mem_map.mp (UMap.mem_of_mem_ofPairs ((UMap.mem_toPairs _ k _).mpr hk))
  obtain ⟨hs, rfl⟩ := Prod.mk.inj he
  rw [hk, hinj hs]

/-- Metadata of one kind can be told from what is written of it. -/
theorem encode_injective (hinj : Function.Injective str) (hne : ∀ i, str i ≠ "") {md md' : MetaData}
    (hkey : md.getKey = md'.getKey) (h : md.encode str = md'.encode str) : md = md' := by
  have hempty : (stringsOf str (md.refs ++ md'.refs)).lookup "" = none := by
    rw [AList.lookup_eq_none, stringsOf, UMap.mem_ofPairs, List.map_map]
    intro hmem
    obtain ⟨i, -, hi⟩ := List.mem_map.mp hmem
    exact hne i hi
  have hmd : create md.getKey (md.encode str) (stringsOf str (md.refs ++ md'.refs)) = .ok (some (md.rename id)) :=
    create_encode (fun i hi => lookup_stringsOf hinj (List.mem_append_left _ hi)) hempty
  have hmd' : create md'.getKey (md'.encode str) (stringsOf str (md.refs ++ md'.refs)) = .ok (some (md'.rename id)) :=
    create_encode (fun i hi => lookup_stringsOf hinj (List.mem_append_right _ hi)) hempty
  rw [hkey, h, hmd', Except.ok.injEq, Option.some.injEq, rename_of_refs (f := id) fun _ _ => rfl,
    rename_of_refs (f := id) fun _ _ => rfl] at hmd
  exact hmd.symm

end

/-! ## The factory -/

/-- The keys under which `BuiltinMD.h` registers its classes. -/
def registeredKeys : List String := ["overrideMD", "entryFunction", "codeStatistics", "numConditionalBranches",
  "numOperations", "numStatements", "fileProperties", "inlineInfo", "mallocCollector", "uniqueTypeMetaData",
  "loopDepth", "globalLoopDepth", "loopCallDepth"]

def isRegistered (metadataKey : String) : Bool := decide (metadataKey ∈ registeredKeys)

/-- A created object has the key it was created for, and exactly the registered keys create one. -/
theorem create_spec {key : String} {j : Json} {strToNode : StrToNode} {md : Option MetaData}
    (h : create key j strToNode = .ok md) :
    (∀ m, md = some m → m.getKey = key) ∧ (md.isSome = true ↔ isRegistered key = true) := by
  unfold create at h
  split at h
  case h_14 =>
    -- none of the registered keys
    cases h
    simp_all [isRegistered, registeredKeys]
  all_goals
    obtain ⟨a, -, h⟩ := bind_eq_ok.mp h
    cases h
    exact ⟨fun m hm => by cases hm; rfl, ⟨fun _ => by decide, fun _ => rfl⟩⟩

end MetaData
end MetaCG
