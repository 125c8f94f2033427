import MetaCG.Format.ReadData
import MetaCG.Format.VersionTwoMCG

/-! What the writer of version 2 writes.

`nodeEntry` is the entry of one node, `document` the whole file; `write_eq` goes through the downgrade
loop by loop. -/
namespace MetaCG.VersionTwo
open Foundations Callgraph
set_option autoImplicit false
set_option maxHeartbeats 250000
set_option maxRecDepth 120000

/-! ## The entry of a node -/

structure NodeEntry where
  callees : List String
  callers : List String
  hasBody : Bool
  isVirtual : Bool
  overrides : List String
  overriddenBy : List String
  jMeta : Json

def strings (names : List String) : Json := .arr (names.map .str)

def NodeEntry.toJson (e : NodeEntry) : Json := .obj [
  ("callees", strings e.callees),
  ("callers", strings e.callers),
  ("doesOverride", .bool !e.overrides.isEmpty),
  ("hasBody", .bool e.hasBody),
  ("isVirtual", .bool e.isVirtual),
  ("meta", e.jMeta),
  ("overriddenBy", strings e.overriddenBy),
  ("overrides", strings e.overrides)]

def overrideOf (n : CgNode) : Option OverrideMD :=
  match n.metaFields.lookup "overrideMD" with
  | some (.override md) => some md
  | _ => none

def filePropertiesOf (n : CgNode) : Option Bool :=
  match n.metaFields.lookup "fileProperties" with
  | some (.fileProperties fromSystemInclude) => some fromSystemInclude
  | _ => none

/-- File properties with an origin; those made for the origin have nothing else. -/
def propsJson (origin : String) : Option Bool → Json
  | some fromSystemInclude => .obj [("origin", .str origin), ("systemInclude", .bool fromSystemInclude)]
  | none => .obj [("origin", .str origin)]

/-- The written metadata with the origin in it. -/
def withOrigin (str : ℕ → String) (n : CgNode) : List (String × Json) :=
  let m := metaJson str n.metaFields
  if filePropertiesOf n = none ∧ n.origin = none then m
  else Ordered.insert "fileProperties" (propsJson (n.origin.getD "") (filePropertiesOf n)) m

/-- Null instead of an empty object. -/
def orNull (fields : List (String × Json)) : Json := if fields.isEmpty then .null else .obj fields

def overrideJson (str : ℕ → String) (md : OverrideMD) : Json :=
  .obj [("overriddenBy", strings (md.overriddenBy.map str)), ("overrides", strings (md.overrides.map str))]

def nodeEntry (str : ℕ → String) (n : CgNode) (callees callers : List String) : NodeEntry where
  callees := callees
  callers := callers
  hasBody := n.hasBody
  isVirtual := (overrideOf n).isSome
  overrides := ((overrideOf n).map fun md => md.overrides.map str).getD []
  overriddenBy := ((overrideOf n).map fun md => md.overriddenBy.map str).getD []
  jMeta := orNull (Ordered.erase "overrideMD" (withOrigin str n))

section
variable {str : ℕ → String} {n : CgNode}

theorem getKey_of_lookup (hkey : ∀ e ∈ UMap.toPairs n.metaFields, e.2.getKey = e.1) {k : String} {md : MetaData}
    (h : n.metaFields.lookup k = some md) : md.getKey = k := hkey (k, md) ((UMap.mem_toPairs k md _).mpr h)

theorem find_overrideMD (str : ℕ → String) (hkey : ∀ e ∈ UMap.toPairs n.metaFields, e.2.getKey = e.1) :
    Ordered.find "overrideMD" (metaJson str n.metaFields) = (overrideOf n).map (overrideJson str) := by
  rw [find_metaJson, overrideOf]
  cases hl : n.metaFields.lookup "overrideMD" with
  | none => rfl
  | some md =>
    have hk := getKey_of_lookup hkey hl
    cases md with
    | override md =>
      simp (disch := decide) only [Option.filter_some, MetaData.emptyContainer, Bool.not_false, if_true, Option.map_some,
        MetaData.encode, Json.ofFields, Ordered.ofList, List.foldl, Ordered.insert_before, Ordered.insert_nil, overrideJson,
        strings, List.map_map]
      rfl
    | _ => simp [MetaData.getKey] at hk

theorem find_fileProperties (str : ℕ → String) (hkey : ∀ e ∈ UMap.toPairs n.metaFields, e.2.getKey = e.1) :
    Ordered.find "fileProperties" (metaJson str n.metaFields) =
      (filePropertiesOf n).map fun b => .obj [("systemInclude", .bool b)] := by
  rw [find_metaJson, filePropertiesOf]
  cases hl : n.metaFields.lookup "fileProperties" with
  | none => rfl
  | some md =>
    have hk := getKey_of_lookup hkey hl
    cases md with
    | fileProperties b => rfl
    | _ => simp [MetaData.getKey] at hk

theorem downgradeOrigin_eq (str : ℕ → String) (hkey : ∀ e ∈ UMap.toPairs n.metaFields, e.2.getKey = e.1) :
    downgradeOrigin (.obj (metaJson str n.metaFields)) (originJson n.origin) = .ok (.obj (withOrigin str n)) := by
  have hfind := find_fileProperties str hkey
  unfold downgradeOrigin withOrigin
  simp only [Json.contains, Json.subscriptMut, hfind]
  cases filePropertiesOf n with
  | some b =>
    have hinsert : ∀ j : Json, Ordered.insert "origin" j [("systemInclude", .bool b)] =
        [("origin", j), ("systemInclude", .bool b)] := fun j => Ordered.insert_before (by decide)
    cases n.origin <;> simp [originJson, Json.is_null, Json.assign, hinsert, propsJson]
  | none =>
    cases n.origin <;> simp [originJson, Json.is_null, Json.assign, Ordered.insert, propsJson]

theorem nodeObject_eq (callees : List (String × Json)) :
    Json.ofFields (nodeFields str n callees) = .obj [
      ("callees", .obj callees),
      ("functionName", .str n.functionName),
      ("hasBody", .bool n.hasBody),
      ("meta", .obj (metaJson str n.metaFields)),
      ("origin", originJson n.origin)] := by
  simp (disch := decide) only [Json.ofFields, nodeFields, Ordered.ofList, List.foldl, Ordered.insert_before,
    Ordered.insert_after, Ordered.insert_nil]

theorem withOrigin_sorted (str : ℕ → String) (n : CgNode) : Ordered.Sorted (withOrigin str n) := by
  unfold withOrigin
  split_ifs
  · exact metaJson_sorted _
  · exact Ordered.sorted_insert _ _ (metaJson_sorted _)

theorem find_override_withOrigin (str : ℕ → String) (hkey : ∀ e ∈ UMap.toPairs n.metaFields, e.2.getKey = e.1) :
    Ordered.find "overrideMD" (withOrigin str n) = (overrideOf n).map (overrideJson str) := by
  rw [← find_overrideMD str hkey]
  unfold withOrigin
  split_ifs
  · rfl
  · rw [Ordered.find_insert, if_neg (by decide)]

theorem downgradeNode_eq (hkey : ∀ e ∈ UMap.toPairs n.metaFields, e.2.getKey = e.1) (callees : List (String × Json)) :
    downgradeNode (.ofFields (nodeFields str n callees)) = .ok (nodeEntry str n (callees.map Prod.fst) []).toJson := by
  have hmeta := downgradeOrigin_eq str hkey
  have hfind := find_override_withOrigin str hkey
  rw [nodeObject_eq, downgradeNode]
  simp (disch := decide) only [Json.erase, Json.subscriptMut, Json.assign, Json.items, Ordered.erase_same, Ordered.erase_other,
    Ordered.erase_nil, Ordered.find_same, Ordered.find_other, Ordered.insert_before, Ordered.insert_after, Ordered.insert_nil,
    Ordered.insert_same, ok_bind, Option.getD_some, hmeta, downgradeOverrides, Json.contains, hfind]
  cases ho : overrideOf n with
  | none =>
    have hnone : Ordered.find "overrideMD" (withOrigin str n) = none := by rw [hfind, ho]; rfl
    simp (disch := decide) only [Option.map_none, Option.isSome_none, Bool.false_eq_true, if_false, pure, Except.pure, ok_bind,
      Ordered.insert_after, Ordered.insert_same, nodeEntry, NodeEntry.toJson, ho, strings,
      Option.getD_none, List.map_nil, List.isEmpty_nil, Bool.not_true, List.map_map, Function.comp_def, orNull, Json.empty,
      Ordered.erase_of_find_none (withOrigin_sorted str n) hnone]
    rfl
  | some md =>
    simp (disch := decide) only [Option.map_some, Option.isSome_some, if_true, pure, Except.pure, ok_bind, overrideJson,
      Option.getD_some, Ordered.find_same, Ordered.find_other]
    cases hl : md.overrides with
    | nil =>
      simp (disch := decide) only [strings, List.map_nil, Json.empty, List.isEmpty_nil, if_true, ok_bind,
        Ordered.insert_after, Ordered.insert_same, nodeEntry, NodeEntry.toJson, ho, hl, Option.map_some, Option.getD_some,
        Option.isSome_some, List.map_map]
      rfl
    | cons i l =>
      simp (disch := decide) only [strings, List.map_cons, Json.empty, List.isEmpty_cons, Bool.false_eq_true, if_false, ok_bind,
        Ordered.insert_after, Ordered.insert_same, nodeEntry, NodeEntry.toJson, ho, hl, Option.map_some, Option.getD_some,
        Option.isSome_some, List.map_map]
      rfl

end

/-! ## All nodes -/

section
variable {g : Callgraph} {str : ℕ → String}

/-- The names that the node `i` calls, as they are in a file. -/
def calleeNames (g : Callgraph) (str : ℕ → String) (i : ℕ) : List String := (g.calleesJson str g.edges.keys i).map Prod.fst

/-- The names of those callers of the node `i` that are in `order`. -/
def callerNames (g : Callgraph) (str : ℕ → String) (order : List ℕ) (i : ℕ) : List String :=
  (order.filter fun u => decide ((u, i) ∈ g.edges)).map str

def entryJson (g : Callgraph) (str : ℕ → String) (callers : ℕ → List String) (i : ℕ) : Json :=
  match g.slot i with
  | some n => (nodeEntry str n (calleeNames g str i) (callers i)).toJson
  | none => .null

def entriesJson (g : Callgraph) (str : ℕ → String) (callers : ℕ → List String) : List (String × Json) :=
  Ordered.ofList (g.liveIds.map fun i => (str i, entryJson g str callers i))

def document (info : MCGGeneratorVersionInfo) (g : Callgraph) (str : ℕ → String) : Json :=
  .obj (Ordered.insert "_CG" (.obj (entriesJson g str (callerNames g str (g.fileOrder str))))
    (match attachMCGFormatHeader (fileInfo info) with
      | .obj fields => fields
      | _ => []))

theorem mem_calleeNames (i : ℕ) (s : String) : s ∈ calleeNames g str i ↔ ∃ v, (i, v) ∈ g.edges ∧ s = str v := by
  rw [calleeNames, calleesJson, Ordered.mem_keys_ofList, List.map_map, List.mem_map]
  constructor
  · rintro ⟨e, he, rfl⟩
    obtain ⟨hmem, hi⟩ := List.mem_filter.mp he
    obtain rfl : e.1 = i := of_decide_eq_true hi
    exact ⟨e.2, AList.mem_keys.mpr hmem, rfl⟩
  · rintro ⟨v, hv, rfl⟩
    exact ⟨(i, v), List.mem_filter.mpr ⟨AList.mem_keys.mp hv, by simp⟩, rfl⟩

theorem calleeNames_nodup (g : Callgraph) (str : ℕ → String) (i : ℕ) : (calleeNames g str i).Nodup :=
  (Ordered.sorted_ofList _).keys_nodup

theorem mem_callerNames (order : List ℕ) (i : ℕ) (s : String) :
    s ∈ callerNames g str order i ↔ ∃ u ∈ order, (u, i) ∈ g.edges ∧ s = str u := by
  rw [callerNames, List.mem_map]
  constructor
  · rintro ⟨u, hu, rfl⟩
    obtain ⟨hmem, he⟩ := List.mem_filter.mp hu
    exact ⟨u, hmem, of_decide_eq_true he, rfl⟩
  · rintro ⟨u, hu, he, rfl⟩
    exact ⟨u, List.mem_filter.mpr ⟨hu, decide_eq_true he⟩, rfl⟩

theorem callerNames_sorted (hs : g.StrInj str) (i : ℕ) : (callerNames g str (g.fileOrder str) i).Pairwise (· < ·) := by
  rw [callerNames, List.pairwise_map]
  exact (Ordered.sortBy_sorted hs).sublist List.filter_sublist

theorem entriesJson_eq (hs : g.StrInj str) (callers : ℕ → List String) :
    entriesJson g str callers = (g.fileOrder str).map fun i => (str i, entryJson g str callers i) :=
  Ordered.ofList_map_eq hs _

theorem entriesJson_congr (h : g.Wf) {callers callers' : ℕ → List String}
    (hc : ∀ i, g.hasNode i = true → callers i = callers' i) : entriesJson g str callers = entriesJson g str callers' := by
  unfold entriesJson
  congr 1
  refine List.map_congr_left fun i hi => ?_
  rw [entryJson, entryJson, hc i ((h.mem_liveIds i).mp hi)]

theorem find_entriesJson (h : g.Wf) (hs : g.StrInj str) (callers : ℕ → List String) {i : ℕ} {n : CgNode}
    (hn : g.slot i = some n) :
    Ordered.find (str i) (entriesJson g str callers) = some (nodeEntry str n (calleeNames g str i) (callers i)).toJson := by
  have hkeys : ((g.liveIds.map fun i => (str i, entryJson g str callers i)).map Prod.fst).Nodup := by
    rw [List.map_map]
    exact hs
  rw [entriesJson, Ordered.find_ofList hkeys, Ordered.find_map_self hs ((h.mem_liveIds i).mpr (hasNode_of_slot hn)),
    entryJson, hn]

theorem NodeEntry.subscriptMut_callees (e : NodeEntry) : e.toJson.subscriptMut "callees" = .ok (strings e.callees) := by
  rw [NodeEntry.toJson, Json.subscriptMut, Ordered.find_same]
  rfl

theorem NodeEntry.subscriptMut_callers (e : NodeEntry) : e.toJson.subscriptMut "callers" = .ok (strings e.callers) := by
  rw [NodeEntry.toJson, Json.subscriptMut, Ordered.find_other (by decide), Ordered.find_same]
  rfl

theorem NodeEntry.assign_callers (e : NodeEntry) (callers : List String) :
    e.toJson.assign "callers" (strings callers) = .ok { e with callers := callers }.toJson := by
  rw [NodeEntry.toJson, Json.assign, Ordered.insert_after (by decide), Ordered.insert_same]
  rfl

/-- A loop over the nodes that rewrites every one. -/
theorem rewriteValues_eq {f : Json → Except Exn Json} {F G : ℕ → Json} (hs : g.StrInj str)
    (hf : ∀ i ∈ g.fileOrder str, f (F i) = .ok (G i)) :
    rewriteValues f (.obj ((g.fileOrder str).map fun i => (str i, F i))) =
      .ok (.obj ((g.fileOrder str).map fun i => (str i, G i))) := by
  have hsorted : Ordered.Sorted ((g.fileOrder str).map fun i => (str i, F i)) := by
    rw [Ordered.Sorted, List.pairwise_map]
    exact Ordered.sortBy_sorted hs
  rw [rewriteValues, Json.items, List.foldlM_map,
    foldlM_assign (h := fun m i => Ordered.insert (str i) (G i) m), Ordered.foldl_insert_map hsorted]
  intro m i hi
  simp only [hf i hi, ok_bind]
  rfl

theorem downgradeNodes_eq (h : g.Wf) (hs : g.StrInj str) (hkey : g.MetaKeyed) :
    rewriteValues downgradeNode (.obj (g.nodesJson str g.edges.keys)) = .ok (.obj (entriesJson g str fun _ => [])) := by
  rw [nodesJson_eq hs, entriesJson_eq hs, rewriteValues_eq hs]
  intro i hi
  obtain ⟨n, hn⟩ := (g.hasNode_iff i).mp ((h.mem_fileOrder hs i).mp hi)
  rw [nodeJson, entryJson, hn]
  exact downgradeNode_eq (hkey.node n ((g.mem_liveNodes n).mpr ⟨i, hn⟩)) _

theorem addCaller_eq (h : g.Wf) (hs : g.StrInj str) (callers : ℕ → List String) (caller : String) {v : ℕ}
    (hv : g.hasNode v = true) :
    addCaller caller (.obj (entriesJson g str callers)) (.str (str v)) =
      .ok (.obj (entriesJson g str (Function.update callers v (callers v ++ [caller])))) := by
  obtain ⟨n, hn⟩ := (g.hasNode_iff v).mp hv
  have hcallers : (strings (callers v)).push_back (.str caller) = .ok (strings (callers v ++ [caller])) := by
    simp [strings, Json.push_back]
  have hfind : (Json.obj (entriesJson g str callers)).subscriptMut (str v) =
      .ok (nodeEntry str n (calleeNames g str v) (callers v)).toJson := by
    rw [Json.subscriptMut, find_entriesJson h hs callers hn]
    rfl
  have hupdate : Ordered.insert (str v) (nodeEntry str n (calleeNames g str v) (callers v ++ [caller])).toJson
      (entriesJson g str callers) = entriesJson g str (Function.update callers v (callers v ++ [caller])) := by
    rw [entriesJson, Ordered.insert_ofList_map hs ((h.mem_liveIds v).mpr hv), entriesJson]
    congr 1
    refine List.map_congr_left fun i _ => ?_
    by_cases hi : i = v
    · subst hi
      rw [Function.update_self, entryJson, hn, Function.update_self]
    · rw [Function.update_of_ne hi, entryJson, entryJson, Function.update_of_ne hi]
  simp only [addCaller, Json.getStr, ok_bind, hfind, NodeEntry.subscriptMut_callers]
  rw [show (nodeEntry str n (calleeNames g str v) (callers v)).callers = callers v from rfl, hcallers, ok_bind,
    NodeEntry.assign_callers, ok_bind, Json.assign, ← hupdate]
  rfl

/-- The callees of one node get it as a caller. -/
theorem addCallers_eq (h : g.Wf) (hs : g.StrInj str) (callers : ℕ → List String) {u : ℕ} (hu : g.hasNode u = true) :
    addCallers (.obj (entriesJson g str callers)) (str u) =
      .ok (.obj (entriesJson g str fun i => callers i ++ if (u, i) ∈ g.edges then [str u] else [])) := by
  obtain ⟨n, hn⟩ := (g.hasNode_iff u).mp hu
  have hfind : (Json.obj (entriesJson g str callers)).subscriptMut (str u) =
      .ok (nodeEntry str n (calleeNames g str u) (callers u)).toJson := by
    rw [Json.subscriptMut, find_entriesJson h hs callers hn]
    rfl
  obtain ⟨j, hrun, hj⟩ := foldlM_total (f := fun j s => addCaller (str u) j (.str s)) (l := calleeNames g str u)
    (J := fun pre j => j = .obj (entriesJson g str fun i => callers i ++ if str i ∈ pre then [str u] else []))
    (s := .obj (entriesJson g str callers)) (by simp) (fun pre s j hpre hj => by
      obtain ⟨v, hv, rfl⟩ := (mem_calleeNames u s).mp (hpre.subset (List.mem_append_right _ (List.mem_singleton_self s)))
      have hvl := (h.edge_live u v hv).2
      have hnew : str v ∉ pre := by
        have hnd := (calleeNames_nodup g str u).sublist hpre.sublist
        rw [List.nodup_append] at hnd
        exact fun hmem => hnd.2.2 _ hmem _ (List.mem_singleton_self _) rfl
      rw [hj, addCaller_eq h hs _ _ hvl]
      refine ⟨_, rfl, ?_⟩
      congr 1
      refine entriesJson_congr h fun i hi => ?_
      by_cases hiv : i = v
      · subst hiv
        rw [Function.update_self, if_neg hnew, List.append_nil, if_pos (by simp)]
      · have hne : str i ≠ str v := fun he => hiv (hs.inj h hi hvl he)
        rw [Function.update_of_ne hiv]
        simp [hne])
  have hloop : addCallers (.obj (entriesJson g str callers)) (str u) = .ok j := by
    unfold addCallers
    rw [hfind, ok_bind, NodeEntry.subscriptMut_callees, ok_bind]
    show List.foldlM (addCaller (str u)) _ ((calleeNames g str u).map Json.str) = _
    rw [List.foldlM_map]
    exact hrun
  rw [hloop, hj]
  congr 2
  refine entriesJson_congr h fun i hi => ?_
  have hiff : str i ∈ calleeNames g str u ↔ (u, i) ∈ g.edges := by
    rw [mem_calleeNames]
    constructor
    · rintro ⟨v, hv, he⟩
      rwa [hs.inj h hi (h.edge_live u v hv).2 he]
    · exact fun he => ⟨i, he, rfl⟩
  simp only [hiff]

theorem callerNames_concat (g : Callgraph) (str : ℕ → String) (order : List ℕ) (u i : ℕ) :
    callerNames g str (order ++ [u]) i = callerNames g str order i ++ if (u, i) ∈ g.edges then [str u] else [] := by
  rw [callerNames, List.filter_append, List.map_append, callerNames]
  by_cases he : (u, i) ∈ g.edges
  · rw [if_pos he, List.filter_cons_of_pos (p := fun u => decide ((u, i) ∈ g.edges)) (decide_eq_true he)]
    rfl
  · rw [if_neg he, List.filter_cons_of_neg (p := fun u => decide ((u, i) ∈ g.edges)) (by simpa using he)]
    rfl

theorem addCallers_loop (h : g.Wf) (hs : g.StrInj str) :
    ((g.fileOrder str).map str).foldlM addCallers (.obj (entriesJson g str fun _ => [])) =
      .ok (.obj (entriesJson g str (callerNames g str (g.fileOrder str)))) := by
  rw [List.foldlM_map]
  obtain ⟨j, hrun, rfl⟩ := foldlM_total (f := fun j u => addCallers j (str u)) (l := g.fileOrder str)
    (J := fun pre j => j = .obj (entriesJson g str (callerNames g str pre))) (s := .obj (entriesJson g str fun _ => [])) rfl
    (fun pre u j hpre hj => by
      have hu := (h.mem_fileOrder hs u).mp (hpre.subset (List.mem_append_right _ (List.mem_singleton_self u)))
      rw [hj, addCallers_eq h hs _ hu]
      exact ⟨_, rfl, by rw [funext fun i => callerNames_concat g str pre u i]⟩)
  exact hrun

/-- The callers are sorted already. -/
theorem sortCallers_eq (h : g.Wf) (hs : g.StrInj str) :
    rewriteValues sortCallersOf (.obj (entriesJson g str (callerNames g str (g.fileOrder str)))) =
      .ok (.obj (entriesJson g str (callerNames g str (g.fileOrder str)))) := by
  rw [entriesJson_eq hs, rewriteValues_eq hs]
  intro i hi
  obtain ⟨n, hn⟩ := (g.hasNode_iff i).mp ((h.mem_fileOrder hs i).mp hi)
  have hstrings : (strings (callerNames g str (g.fileOrder str) i)).getStrings = .ok (callerNames g str (g.fileOrder str) i) := by
    rw [strings, Json.getStrings, List.mapM_map]
    exact (mapM_eq_map (h := id) fun s _ => rfl).trans (by rw [List.map_id])
  have hsorted : (callerNames g str (g.fileOrder str) i).mergeSort (fun a b => decide (a ≤ b)) =
      callerNames g str (g.fileOrder str) i :=
    List.mergeSort_of_pairwise ((callerNames_sorted hs i).imp fun hlt => decide_eq_true hlt.le)
  rw [entryJson, hn]
  simp only [sortCallersOf, NodeEntry.subscriptMut_callers, ok_bind]
  rw [show (nodeEntry str n (calleeNames g str i) (callerNames g str (g.fileOrder str) i)).callers =
    callerNames g str (g.fileOrder str) i from rfl, hstrings, ok_bind, hsorted]
  exact NodeEntry.assign_callers _ _

theorem downgrade_eq (h : g.Wf) (hs : g.StrInj str) (hkey : g.MetaKeyed) (sortCallers : Bool) (jMeta : Json) :
    downgradeV4FormatToV2Format sortCallers
        (.obj (Ordered.insert "meta" jMeta [("nodes", .obj (g.nodesJson str g.edges.keys))])) =
      .ok (.obj (entriesJson g str (callerNames g str (g.fileOrder str)))) := by
  have hkeys : (Json.obj (entriesJson g str fun _ => [])).items.map Prod.fst = (g.fileOrder str).map str := by
    rw [entriesJson_eq hs, Json.items, List.map_map]
    rfl
  simp (disch := decide) only [downgradeV4FormatToV2Format, Ordered.insert_before, Json.erase, Ordered.erase_same,
    Ordered.erase_other, Ordered.erase_nil, ok_bind, Json.subscriptMut, Ordered.find_same, Option.getD_some,
    downgradeNodes_eq h hs hkey, hkeys, addCallers_loop h hs]
  cases sortCallers with
  | false => rfl
  | true => exact sortCallers_eq h hs

/-- The writer writes the document of the graph. -/
theorem write_eq (h : g.Wf) (hs : g.StrInj (g.idStr true)) (hkey : g.MetaKeyed) (hr : g.RefsLive)
    (info v4Info : MCGGeneratorVersionInfo) (exportSorted : Bool) :
    write info v4Info exportSorted g = .ok (document info g (g.idStr true)) := by
  obtain ⟨hcg, -⟩ := document_subscriptMut v4Info (g := g) (g.idStr true)
  rw [write, write_eq_of_strInj h hr hs, ok_bind, hcg, ok_bind, downgrade_eq h hs hkey, ok_bind]
  rfl

end
end MetaCG.VersionTwo
