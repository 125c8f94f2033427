import MetaCG.Format.VersionTwoDocument

/-! What the reader of version 2 makes of a written file before it hands it to the reader of version 4.

File properties that the writer made for an origin lose it again and are left without a value, unless
the origin was empty. -/
namespace MetaCG.VersionTwo
open Foundations Callgraph
set_option autoImplicit false
set_option maxHeartbeats 250000
set_option maxRecDepth 120000

/-- Version 2 has no empty origins. -/
def originOf (n : CgNode) : Option String := n.origin.filter fun origin => decide (origin ≠ "")

/-- The file properties after the origin is taken out; an empty origin stays. -/
def upgradedProps (n : CgNode) : Option Bool → Json
  | some fromSystemInclude =>
    if originOf n = none then .obj [("origin", .str ""), ("systemInclude", .bool fromSystemInclude)]
    else .obj [("systemInclude", .bool fromSystemInclude)]
  | none => if originOf n = none then .obj [("origin", .str "")] else .obj []

def upgradedMeta (str : ℕ → String) (n : CgNode) : List (String × Json) :=
  if filePropertiesOf n = none ∧ n.origin = none then metaJson str n.metaFields
  else Ordered.insert "fileProperties" (upgradedProps n (filePropertiesOf n)) (metaJson str n.metaFields)

/-- A node of a file of version 4. -/
def fileNode (callees functionName hasBody jMeta origin : Json) : Json := .obj [
  ("callees", callees),
  ("functionName", functionName),
  ("hasBody", hasBody),
  ("meta", jMeta),
  ("origin", origin)]

def upgradedNode (str : ℕ → String) (n : CgNode) (callees : List String) : Json :=
  fileNode (.obj (callees.map fun s => (s, .null))) (.str n.functionName) (.bool n.hasBody) (orNull (upgradedMeta str n))
    (originJson (originOf n))

section
variable {str : ℕ → String} {n : CgNode}

theorem upgradedMeta_sorted (str : ℕ → String) (n : CgNode) : Ordered.Sorted (upgradedMeta str n) := by
  unfold upgradedMeta
  split_ifs
  · exact metaJson_sorted _
  · exact Ordered.sorted_insert _ _ (metaJson_sorted _)

/-- The metadata of a node in a file. -/
def writtenMeta (str : ℕ → String) (n : CgNode) : List (String × Json) := Ordered.erase "overrideMD" (withOrigin str n)

theorem writtenMeta_sorted (str : ℕ → String) (n : CgNode) : Ordered.Sorted (writtenMeta str n) :=
  Ordered.sorted_erase _ (withOrigin_sorted str n)

theorem find_writtenMeta (str : ℕ → String) (k : String) :
    Ordered.find k (writtenMeta str n) =
      if k = "overrideMD" then none
      else if k = "fileProperties" ∧ ¬ (filePropertiesOf n = none ∧ n.origin = none) then
        some (propsJson (n.origin.getD "") (filePropertiesOf n))
      else Ordered.find k (metaJson str n.metaFields) := by
  rw [writtenMeta, Ordered.find_erase]
  unfold withOrigin
  split_ifs with h1 h2 h3 h4
  · rfl
  · exact absurd h2 h3.2
  · rfl
  · rw [Ordered.find_insert, if_pos h4.1]
  · rw [Ordered.find_insert, if_neg fun hk => h4 ⟨hk, h2⟩]

theorem getStr_str (s : String) : (Json.str s).getStr = .ok s := rfl

/-- The metadata once the origin is taken out. -/
def metaWithoutOrigin (str : ℕ → String) (n : CgNode) : List (String × Json) :=
  if filePropertiesOf n = none ∧ n.origin = none then writtenMeta str n
  else Ordered.insert "fileProperties" (upgradedProps n (filePropertiesOf n)) (writtenMeta str n)

theorem upgradeOrigin_eq (str : ℕ → String) (hkey : ∀ e ∈ UMap.toPairs n.metaFields, e.2.getKey = e.1) :
    upgradeOrigin (orNull (writtenMeta str n)) = .ok (originJson (originOf n), orNull (metaWithoutOrigin str n)) := by
  have hfind := find_writtenMeta str (n := n) "fileProperties"
  rw [if_neg (by decide)] at hfind
  by_cases hnone : filePropertiesOf n = none ∧ n.origin = none
  · -- no file properties: nothing to take the origin from
    rw [if_neg (fun hn => hn.2 hnone), find_fileProperties str hkey, hnone.1] at hfind
    have hcontains : (orNull (writtenMeta str n)).contains "fileProperties" = false := by
      unfold orNull
      split_ifs
      · rfl
      · simp only [Json.contains, hfind]
        rfl
    have horigin : originOf n = none := by rw [originOf, hnone.2]; rfl
    rw [upgradeOrigin, hcontains, metaWithoutOrigin, if_pos hnone, horigin]
    rfl
  · rw [if_pos ⟨rfl, hnone⟩] at hfind
    have hobj : orNull (writtenMeta str n) = .obj (writtenMeta str n) := by
      unfold orNull
      cases hw : writtenMeta str n with
      | nil => rw [hw] at hfind; cases hfind
      | cons e l => rfl
    have hobj' : orNull (metaWithoutOrigin str n) =
        .obj (Ordered.insert "fileProperties" (upgradedProps n (filePropertiesOf n)) (writtenMeta str n)) := by
      rw [metaWithoutOrigin, if_neg hnone, orNull]
      cases hw : Ordered.insert "fileProperties" (upgradedProps n (filePropertiesOf n)) (writtenMeta str n) with
      | nil =>
        have hsome := Ordered.find_insert "fileProperties" "fileProperties" (upgradedProps n (filePropertiesOf n)) (writtenMeta str n)
        rw [hw, if_pos rfl] at hsome
        cases hsome
      | cons e l => rfl
    have hcontains : (orNull (writtenMeta str n)).contains "fileProperties" = true := by
      rw [hobj]
      simp only [Json.contains, hfind]
      rfl
    rw [upgradeOrigin, hcontains, if_pos rfl, hobj, hobj']
    have hprops : ∀ props, (propsJson (n.origin.getD "") props).at_ "origin" = .ok (.str (n.origin.getD "")) := by
      intro props
      cases props <;> rw [propsJson, Json.at_, Ordered.find_same]
    have herase : ∀ props, (propsJson (n.origin.getD "") props).erase "origin" = .ok (match props with
        | some b => .obj [("systemInclude", .bool b)]
        | none => .obj []) := by
      intro props
      cases props <;>
        simp (disch := decide) only [propsJson, Json.erase, Ordered.erase_same, Ordered.erase_other, Ordered.erase_nil]
    have hat : (Json.obj (writtenMeta str n)).at_ "fileProperties" =
        .ok (propsJson (n.origin.getD "") (filePropertiesOf n)) := by
      simp only [Json.at_, hfind]
    rw [hat, ok_bind, hprops, ok_bind, getStr_str, ok_bind, herase]
    by_cases horigin : n.origin.getD "" = ""
    · -- the origin is missing or empty, and the file properties keep the empty one
      have hnull : originOf n = none := by
        rw [originOf, Option.filter_eq_none_iff]
        intro o ho hne
        rw [ho] at horigin
        exact of_decide_eq_true hne horigin
      have hsame : upgradedProps n (filePropertiesOf n) = propsJson (n.origin.getD "") (filePropertiesOf n) := by
        rw [horigin]
        cases filePropertiesOf n <;> simp [upgradedProps, propsJson, hnull]
      rw [if_neg (not_not.mpr horigin), hnull, hsame, Ordered.insert_of_find (writtenMeta_sorted str n) hfind]
      rfl
    · obtain ⟨o, ho, hne⟩ : ∃ o, n.origin = some o ∧ o ≠ "" := by
        cases ho : n.origin with
        | none => rw [ho] at horigin; exact absurd rfl horigin
        | some o => rw [ho] at horigin; exact ⟨o, rfl, horigin⟩
      have hsome : originOf n = some o := by rw [originOf, ho, Option.filter_some, if_pos (decide_eq_true hne)]
      have hprops' : upgradedProps n (filePropertiesOf n) = match filePropertiesOf n with
          | some b => .obj [("systemInclude", .bool b)]
          | none => .obj [] := by
        cases filePropertiesOf n <;> simp [upgradedProps, hsome]
      rw [if_pos horigin, hsome, ho, hprops']
      rfl

theorem find_metaWithoutOrigin (k : String) :
    Ordered.find k (metaWithoutOrigin str n) = if k = "overrideMD" then none else Ordered.find k (upgradedMeta str n) := by
  unfold metaWithoutOrigin upgradedMeta
  by_cases hnone : filePropertiesOf n = none ∧ n.origin = none
  · rw [if_pos hnone, if_pos hnone, find_writtenMeta str]
    split_ifs with h1 h2
    · rfl
    · exact absurd hnone h2.2
    · rfl
  · rw [if_neg hnone, if_neg hnone, Ordered.find_insert, Ordered.find_insert, find_writtenMeta str]
    split_ifs with h1 h2 h3 h4
    · subst h1
      exact absurd h2 (by decide)
    · rfl
    · rfl
    · exact absurd h4.1 h1
    · rfl

theorem metaWithoutOrigin_sorted (str : ℕ → String) (n : CgNode) : Ordered.Sorted (metaWithoutOrigin str n) := by
  unfold metaWithoutOrigin
  split_ifs
  · exact writtenMeta_sorted str n
  · exact Ordered.sorted_insert _ _ (writtenMeta_sorted str n)

theorem find_override_upgradedMeta (hkey : ∀ e ∈ UMap.toPairs n.metaFields, e.2.getKey = e.1) :
    Ordered.find "overrideMD" (upgradedMeta str n) = (overrideOf n).map (overrideJson str) := by
  rw [← find_overrideMD str hkey]
  unfold upgradedMeta
  split_ifs
  · rfl
  · rw [Ordered.find_insert, if_neg (by decide)]

/-- Taking out the origin and putting back the override gives the metadata of version 4. -/
theorem insert_override (hkey : ∀ e ∈ UMap.toPairs n.metaFields, e.2.getKey = e.1) {md : OverrideMD}
    (ho : overrideOf n = some md) :
    Ordered.insert "overrideMD" (overrideJson str md) (metaWithoutOrigin str n) = upgradedMeta str n := by
  refine Ordered.ext_find (Ordered.sorted_insert _ _ (metaWithoutOrigin_sorted str n)) (upgradedMeta_sorted str n) fun k => ?_
  rw [Ordered.find_insert, find_metaWithoutOrigin]
  split_ifs with hk
  · rw [hk, find_override_upgradedMeta hkey, ho]
    rfl
  · rfl

theorem metaWithoutOrigin_of_none (hkey : ∀ e ∈ UMap.toPairs n.metaFields, e.2.getKey = e.1) (ho : overrideOf n = none) :
    metaWithoutOrigin str n = upgradedMeta str n := by
  refine Ordered.ext_find (metaWithoutOrigin_sorted str n) (upgradedMeta_sorted str n) fun k => ?_
  rw [find_metaWithoutOrigin]
  split_ifs with hk
  · rw [hk, find_override_upgradedMeta hkey, ho]
    rfl
  · rfl

theorem orNull_assign (fields : List (String × Json)) (key : String) (value : Json) :
    (orNull fields).assign key value = .ok (.obj (Ordered.insert key value fields)) := by
  cases fields with
  | nil => rfl
  | cons e l => rfl

theorem orNull_insert (fields : List (String × Json)) (key : String) (value : Json) :
    orNull (Ordered.insert key value fields) = .obj (Ordered.insert key value fields) := by
  cases hl : Ordered.insert key value fields with
  | nil =>
    have hsome := Ordered.find_insert key key value fields
    rw [hl, if_pos rfl] at hsome
    cases hsome
  | cons e l => rfl

theorem upgradeOverrides_eq (callees callers : List String) (hkey : ∀ e ∈ UMap.toPairs n.metaFields, e.2.getKey = e.1)
    {jNode : Json}
    (h1 : jNode.at_ "overrides" = .ok (strings (nodeEntry str n callees callers).overrides))
    (h2 : jNode.at_ "overriddenBy" = .ok (strings (nodeEntry str n callees callers).overriddenBy))
    (h3 : jNode.at_ "isVirtual" = .ok (.bool (overrideOf n).isSome)) :
    upgradeOverrides jNode (orNull (metaWithoutOrigin str n)) = .ok (orNull (upgradedMeta str n)) := by
  unfold upgradeOverrides definesOverrideData
  cases ho : overrideOf n with
  | none =>
    have hnone : strings (nodeEntry str n callees callers).overrides = .arr [] ∧
        strings (nodeEntry str n callees callers).overriddenBy = .arr [] := by
      simp [nodeEntry, ho, strings]
    rw [h1, h2, h3, ho, hnone.1, hnone.2, ← metaWithoutOrigin_of_none hkey ho]
    rfl
  | some md =>
    have hlists : strings (nodeEntry str n callees callers).overrides = strings (md.overrides.map str) ∧
        strings (nodeEntry str n callees callers).overriddenBy = strings (md.overriddenBy.map str) := by
      simp [nodeEntry, ho]
    have hjson : Json.ofFields [("overrides", .arr (strings (md.overrides.map str)).values),
        ("overriddenBy", .arr (strings (md.overriddenBy.map str)).values)] = overrideJson str md := by
      simp (disch := decide) only [Json.ofFields, Ordered.ofList, List.foldl, Ordered.insert_before, Ordered.insert_nil,
        overrideJson, strings, Json.values]
    have hdefines : ∃ b, (do
        if !(← Except.ok (strings (md.overrides.map str))).empty then return true
        else return !(← Except.ok (strings (md.overriddenBy.map str))).empty : Except Exn Bool) = .ok b := by
      simp only [ok_bind]
      split_ifs <;> exact ⟨_, rfl⟩
    obtain ⟨b, hb⟩ := hdefines
    rw [h1, h2, h3, ho, hlists.1, hlists.2, hb]
    simp only [ok_bind, Json.getBool, Option.isSome_some, Bool.true_or, if_true, hjson]
    rw [orNull_assign, insert_override hkey ho, ← insert_override hkey ho, orNull_insert]

theorem assign_null_loop (callees : List String) (hs : callees.Pairwise (· < ·)) :
    (strings callees).values.foldlM (fun (j jCallee : Json) => do j.assign (← jCallee.getStr) .null) (Json.obj []) =
      .ok (.obj (callees.map fun s => (s, .null))) := by
  have hsorted : Ordered.Sorted (callees.map fun s => (s, Json.null)) := by
    rw [Ordered.Sorted, List.pairwise_map]
    exact hs
  rw [strings, Json.values, List.foldlM_map, foldlM_assign (h := fun m s => Ordered.insert s .null m) (fun m s _ => rfl),
    ← Ordered.ofList_of_sorted hsorted, Ordered.ofList, List.foldl_map]

theorem upgradeNode_eq (str : ℕ → String) (hkey : ∀ e ∈ UMap.toPairs n.metaFields, e.2.getKey = e.1) {callees : List String}
    (hs : callees.Pairwise (· < ·)) (callers : List String) :
    upgradeNode n.functionName (nodeEntry str n callees callers).toJson = .ok (upgradedNode str n callees) := by
  have horigin := upgradeOrigin_eq str hkey
  have hloop := assign_null_loop callees hs
  simp only [Json.assign] at hloop
  have hmeta : (nodeEntry str n callees callers).jMeta = orNull (writtenMeta str n) := rfl
  have hcallees : (nodeEntry str n callees callers).callees = callees := rfl
  rw [upgradeNode, NodeEntry.toJson, hmeta, hcallees]
  simp (disch := decide) only [Json.assign, Ordered.insert_after, Ordered.insert_before, Ordered.insert_same, ok_bind,
    Json.subscriptMut, Ordered.find_same, Ordered.find_other, Option.getD_some, hloop, Json.erase, Ordered.erase_same,
    Ordered.erase_other, Ordered.erase_nil, Json.at_, horigin]
  rw [upgradeOverrides_eq callees callers hkey]
  · simp only [ok_bind]
    rfl
  all_goals
    simp (disch := decide) only [Json.at_, Ordered.find_same, Ordered.find_other]
  rfl

end

/-! ## The file -/

section
variable {g : Callgraph} {str : ℕ → String}

def upgradedNodes (g : Callgraph) (str : ℕ → String) : List (String × Json) :=
  (g.fileOrder str).map fun i => (str i, match g.slot i with
    | some n => upgradedNode str n (calleeNames g str i)
    | none => .null)

theorem calleeNames_sorted (g : Callgraph) (str : ℕ → String) (i : ℕ) : (calleeNames g str i).Pairwise (· < ·) := by
  rw [calleeNames, List.pairwise_map]
  exact Ordered.sorted_ofList _

theorem upgradeNodes_eq (h : g.Wf) (hs : g.StrInj str) (hkey : g.MetaKeyed)
    (hname : ∀ i n, g.slot i = some n → str i = n.functionName) (callers : ℕ → List String) :
    (entriesJson g str callers).foldlM (fun (jNodes : Json) it => do jNodes.assign it.1 (← upgradeNode it.1 it.2))
      (Json.obj []) = .ok (.obj (upgradedNodes g str)) := by
  have hsorted : Ordered.Sorted (upgradedNodes g str) := by
    rw [Ordered.Sorted, upgradedNodes, List.pairwise_map]
    exact Ordered.sortBy_sorted hs
  rw [entriesJson_eq hs, List.foldlM_map, foldlM_assign (h := fun m i => Ordered.insert (str i) (match g.slot i with
    | some n => upgradedNode str n (calleeNames g str i)
    | none => .null) m), ← Ordered.ofList_of_sorted hsorted, Ordered.ofList, upgradedNodes, List.foldl_map]
  intro m i hi
  obtain ⟨n, hn⟩ := (g.hasNode_iff i).mp ((h.mem_fileOrder hs i).mp hi)
  have hupgrade := upgradeNode_eq str (hkey.node n ((g.mem_liveNodes n).mpr ⟨i, hn⟩)) (calleeNames_sorted g str i) (callers i)
  rw [← hname i n hn] at hupgrade
  simp only [entryJson, hn, hupgrade, ok_bind]
  rfl

theorem upgrade_eq (h : g.Wf) (hs : g.StrInj str) (hkey : g.MetaKeyed)
    (hname : ∀ i n, g.slot i = some n → str i = n.functionName) (callers : ℕ → List String) :
    ∃ fields, upgradeV2FormatToV4Format (.obj (entriesJson g str callers)) = .ok (.obj fields) ∧
      Ordered.find "nodes" fields = some (.obj (upgradedNodes g str)) ∧ Ordered.find "meta" fields = some (.obj []) := by
  have hloop := upgradeNodes_eq h hs hkey hname callers
  refine ⟨Ordered.insert "meta" (.obj []) (Ordered.insert "nodes" (.obj (upgradedNodes g str))
    ((entriesJson g str callers).map fun e => (e.1, .null))), ?_, ?_, ?_⟩
  · rw [upgradeV2FormatToV4Format, Json.items, hloop]
    rfl
  · rw [Ordered.find_insert, if_neg (by decide), Ordered.find_insert, if_pos rfl]
  · rw [Ordered.find_insert, if_pos rfl]

/-- The generator of a header. -/
def generatorJson (info : MCGGeneratorVersionInfo) : Json := .obj [
  ("name", .str info.name),
  ("sha", .str info.sha),
  ("version", .str (getVersionStr info.versionMajor info.versionMinor))]

def headerJson (version : String) (info : MCGGeneratorVersionInfo) : Json := .obj [
  ("generator", generatorJson info),
  ("version", .str version)]

theorem headerJson_at (version version' : String) (info : MCGGeneratorVersionInfo) :
    (headerJson version info).at_ "version" = .ok (.str version) ∧
      (headerJson version info).at_ "generator" = .ok (generatorJson info) ∧
      (generatorJson info).at_ "name" = .ok (.str info.name) ∧
      (generatorJson info).at_ "version" = .ok (.str (getVersionStr info.versionMajor info.versionMinor)) ∧
      (headerJson version info).assign "version" (.str version') = .ok (headerJson version' info) := by
  refine ⟨?_, ?_, ?_, ?_, ?_⟩
  · rw [headerJson, Json.at_, Ordered.find_other (by decide), Ordered.find_same]
  · rw [headerJson, Json.at_, Ordered.find_same]
  · rw [generatorJson, Json.at_, Ordered.find_same]
  · rw [generatorJson, Json.at_, Ordered.find_other (by decide), Ordered.find_other (by decide), Ordered.find_same]
  · rw [headerJson, Json.assign, Ordered.insert_after (by decide), Ordered.insert_same, headerJson]

theorem attachMCGFormatHeader_eq (info : MCGFileInfo) :
    attachMCGFormatHeader info = .obj [("_CG", .null),
      ("_MetaCG", headerJson (getVersionStr info.version.versionMajor info.version.versionMinor) info.generatorInfo)] := by
  simp (disch := decide) only [attachMCGFormatHeader, Json.ofFields, Ordered.ofList, List.foldl, Ordered.insert_before,
    Ordered.insert_after, Ordered.insert_nil, headerJson, generatorJson]

theorem document_eq (info : MCGGeneratorVersionInfo) :
    document info g str = .obj [("_CG", .obj (entriesJson g str (callerNames g str (g.fileOrder str)))),
      ("_MetaCG", headerJson "2.0" info)] := by
  have hversion : getVersionStr 2 0 = "2.0" := by decide
  rw [document, attachMCGFormatHeader_eq]
  simp only [fileInfo, hversion, Ordered.insert_same]

/-- The reader of version 2 hands an upgraded file to the reader of version 4. -/
theorem read_eq (h : g.Wf) (hs : g.StrInj str) (hkey : g.MetaKeyed)
    (hname : ∀ i n, g.slot i = some n → str i = n.functionName) (info : MCGGeneratorVersionInfo) :
    ∃ j fields, read (document info g str) = MetaCG.read j ∧ readHeader j = .ok () ∧
      j.subscriptMut "_CG" = .ok (.obj fields) ∧ Ordered.find "nodes" fields = some (.obj (upgradedNodes g str)) ∧
      Ordered.find "meta" fields = some (.obj []) := by
  obtain ⟨fields, hupgrade, hnodes, hmeta⟩ := upgrade_eq h hs hkey hname (callerNames g str (g.fileOrder str))
  have hfour : getVersionStr 4 0 = "4.0" := by decide
  have htwo : ("2.0" : String).toList.take 1 = ['2'] := by decide
  refine ⟨.obj [("_CG", .obj fields), ("_MetaCG", headerJson "4.0" info)], fields, ?_, ?_, ?_, hnodes, hmeta⟩
  · have hcontains : (document info g str).contains "_MetaCG" = true := by
      rw [document_eq, Json.contains, Ordered.find_other (by decide), Ordered.find_same]
      rfl
    have hinfo : (document info g str).at_ "_MetaCG" = .ok (headerJson "2.0" info) := by
      rw [document_eq, Json.at_, Ordered.find_other (by decide), Ordered.find_same]
    have hcg : (document info g str).at_ "_CG" = .ok (.obj (entriesJson g str (callerNames g str (g.fileOrder str)))) := by
      rw [document_eq, Json.at_, Ordered.find_same]
    have hcg' : (document info g str).subscriptMut "_CG" =
        .ok (.obj (entriesJson g str (callerNames g str (g.fileOrder str)))) := by
      rw [document_eq, Json.subscriptMut, Ordered.find_same]
      rfl
    have hassign : (document info g str).assign "_CG" (.obj fields) =
        .ok (.obj [("_CG", .obj fields), ("_MetaCG", headerJson "2.0" info)]) := by
      rw [document_eq, Json.assign, Ordered.insert_same]
    have hlift : (Json.obj [("_CG", .obj fields), ("_MetaCG", headerJson "2.0" info)]).assign "_MetaCG" (headerJson "4.0" info) =
        .ok (.obj [("_CG", .obj fields), ("_MetaCG", headerJson "4.0" info)]) := by
      rw [Json.assign, Ordered.insert_after (by decide), Ordered.insert_same]
    obtain ⟨hversion, hgenerator, hname, hgversion, hset⟩ := headerJson_at "2.0" "4.0" info
    have hdoc : (document info g str).is_null = false := rfl
    have hnonnull : (headerJson "2.0" info).is_null = false := rfl
    simp only [read, hdoc, hcontains, hinfo, hnonnull, hversion, hgenerator, hname, hgversion, hcg, hcg', hupgrade, hassign, hset,
      hlift, htwo, ok_bind, Json.getStr, checkVersionStr_ok, Json.is_null_obj, Bool.not_true, Bool.false_eq_true, if_false, ne_eq,
      not_true, pure, Except.pure]
  · refine readHeader_ok info ?_
    rw [attachMCGFormatHeader_eq, MCGFileInfo.four, Json.subscriptMut, Json.subscriptMut, Ordered.find_other (by decide),
      Ordered.find_same, Ordered.find_other (by decide), Ordered.find_same]
    simp only [hfour]
  · rw [Json.subscriptMut, Ordered.find_same]
    rfl

end
end MetaCG.VersionTwo
