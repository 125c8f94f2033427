import MetaCG.Format.ReadFile
import MetaCG.Merge.EdgeKeys

/-! Under which keys edge metadata is stored.

`addEdgeMetaData` takes the key from the static type of the pointer. The reader and `merge` hold a
pointer to the base class, so what they add lies under the base key, one object for each edge. -/
namespace MetaCG
open Foundations Callgraph
set_option autoImplicit false
set_option maxHeartbeats 250000
set_option maxRecDepth 120000

/-- Edge metadata lies under its own keys, and an edge of the file has exactly the registered keys it lists. -/
structure EdgeKeysRead (j : Json) (r : Callgraph) : Prop where
  keyed : r.EdgesKeyed
  listed : ∀ caller callee, EdgeListed j caller callee → (placeOf j caller, placeOf j callee) ∈ r.edges ∧
    ∀ key, key ∈ r.edgeMeta (placeOf j caller, placeOf j callee) ↔
      MetaData.isRegistered key = true ∧ EdgeKeyListed j caller callee key

theorem EdgeKeyListed.edge {j : Json} {caller callee key : String} (h : EdgeKeyListed j caller callee key) :
    EdgeListed j caller callee := by
  obtain ⟨jNode, jEdge, -, hcaller, hcallee, -⟩ := h
  exact ⟨jNode, jEdge, hcaller, hcallee⟩

theorem baseKey_not_registered : MetaData.isRegistered MetaData.baseKey = false := by decide

/-- What was read is stored under its keys iff no edge of the file lists a registered key. -/
theorem edgeKeysRead_iff {j : Json} {r : Callgraph} (h : read j = .ok r) : EdgeKeysRead j r ↔ ¬ CreatesEdgeMeta j := by
  have hfile := read_fileRead h
  constructor
  · rintro hkeys ⟨caller, callee, key, hlisted, hreg⟩
    have hmem := ((hkeys.listed caller callee hlisted.edge).2 key).mpr ⟨hreg, hlisted⟩
    rw [(hfile.keys _ key hmem).1, baseKey_not_registered] at hreg
    cases hreg
  · intro hno
    have hnone : ∀ ids key, key ∉ r.edgeMeta ids := fun ids key hkey => hno (hfile.keys ids key hkey).2
    refine ⟨fun ids key md hl => absurd (UMap.mem_of_lookup hl) (hnone ids key), fun caller callee hlisted => ?_⟩
    exact ⟨hfile.edge caller callee hlisted, fun key => iff_of_false (hnone _ key) fun hkey =>
      hno ⟨caller, callee, key, hkey.2, hkey.1⟩⟩

/-- Edge metadata keeps its keys in a graph that was read iff no registered kind is listed on an edge, and in a
merged graph iff the target stores its own under their keys and has every key that the source brings. -/
theorem edgeKeys_iff {j : Json} {r T S g : Callgraph} {recorder : MergeRecorder} (hread : read j = .ok r) (hT : T.Wf)
    (hS : S.Wf) (hmerge : merge mergeByName T S = .ok (recorder, g)) :
    (EdgeKeysRead j r ↔ ¬ CreatesEdgeMeta j) ∧
      (g.EdgesKeyed ∧ EdgeKeysFound S recorder.mapping g ↔ T.EdgesKeyed ∧ EdgeKeysShared T S) := by
  obtain ⟨hkeyed, hfound⟩ := merge_edgesKeyed hT hS hmerge
  refine ⟨edgeKeysRead_iff hread, ?_⟩
  rw [← hkeyed]
  exact ⟨fun h => h.1, fun h => ⟨h, hfound h⟩⟩

/-- A file with one function that calls itself; `edgeMeta` is the metadata of the call. -/
def selfCallFile (edgeMeta : List (String × Json)) : Json :=
  .obj [
    ("_CG", .obj [
      ("meta", .obj []),
      ("nodes", .obj [
        ("0", .obj [
          ("callees", .obj [("0", .obj edgeMeta)]),
          ("functionName", .str "f"),
          ("hasBody", .bool true),
          ("meta", .obj []),
          ("origin", .null)])])]),
    ("_MetaCG", .obj [
      ("generator", .obj [("name", .str "MetaCG"), ("sha", .str ""), ("version", .str "0.9")]),
      ("version", .str "4.0")])]

/-- One call that carries metadata under its key. -/
def keyedCall (md : MetaData) : Callgraph :=
  run 0 [.insert "f" none false true, .insert "g" none false true, .addEdge 0 1, .addEdgeMetaData md.getKey (0, 1) md]

theorem edgeKeys_keyedCall : ∃ r recorder g, read (selfCallFile []) = .ok r ∧
    merge mergeByName (keyedCall (.loopDepth 1)) (keyedCall (.loopDepth 2)) = .ok (recorder, g) ∧
      EdgeKeysRead (selfCallFile []) r ∧ g.EdgesKeyed ∧
        EdgeKeysFound (keyedCall (.loopDepth 2)) recorder.mapping g := by
  have hread : ∃ r, read (selfCallFile []) = .ok r := ⟨_, rfl⟩
  have hmerge : ∃ p, merge mergeByName (keyedCall (.loopDepth 1)) (keyedCall (.loopDepth 2)) = .ok p := ⟨_, rfl⟩
  obtain ⟨r, hr⟩ := hread
  obtain ⟨⟨recorder, g⟩, hg⟩ := hmerge
  obtain ⟨h₁, h₂⟩ := edgeKeys_iff hr (run_wf 0 _) (run_wf 0 _) hg
  exact ⟨r, recorder, g, hr, hg, h₁.mpr (by decide), h₂.mpr ⟨by decide, by decide⟩⟩

/-- A loop depth on a call is found under the base key, after reading and after a merge. -/
theorem edgeKeys_loopDepth :
    (∃ r, read (selfCallFile [("loopDepth", .int 1)]) = .ok r ∧
      r.getEdgeMetaData (0, 0) MetaData.baseKey = some (.loopDepth 1) ∧ r.getEdgeMetaData (0, 0) "loopDepth" = none ∧
        ¬ EdgeKeysRead (selfCallFile [("loopDepth", .int 1)]) r) ∧
      ∃ recorder g, merge mergeByName oneCall (keyedCall (.loopDepth 2)) = .ok (recorder, g) ∧
        g.getEdgeMetaData (0, 1) MetaData.baseKey = some (.loopDepth 2) ∧
          ¬ g.EdgesKeyed ∧ ¬ EdgeKeysFound (keyedCall (.loopDepth 2)) recorder.mapping g := by
  have hread : ∃ r, read (selfCallFile [("loopDepth", .int 1)]) = .ok r ∧
      r.getEdgeMetaData (0, 0) MetaData.baseKey = some (.loopDepth 1) ∧ r.getEdgeMetaData (0, 0) "loopDepth" = none :=
    ⟨_, rfl, rfl, rfl⟩
  have hmerge : ∃ p, merge mergeByName oneCall (keyedCall (.loopDepth 2)) = .ok p ∧
      p.2.getEdgeMetaData (0, 1) MetaData.baseKey = some (.loopDepth 2) ∧ p.2.getEdgeMetaData (0, 1) "loopDepth" = none ∧
        p.1.mapping.lookup 0 = some 0 ∧ p.1.mapping.lookup 1 = some 1 := ⟨_, rfl, rfl, rfl, rfl, rfl⟩
  obtain ⟨r, hr, hbase, hnone⟩ := hread
  obtain ⟨⟨recorder, g⟩, hg, hgbase, hgnone, hm₀, hm₁⟩ := hmerge
  refine ⟨⟨r, hr, hbase, hnone, fun h => (edgeKeysRead_iff hr).mp h (by decide)⟩, recorder, g, hg, hgbase, fun h => ?_, fun h => ?_⟩
  · exact absurd (h (0, 1) _ _ hgbase) (by decide)
  · obtain ⟨a, b, ha, hb, hfound⟩ := h 0 1 "loopDepth" (by decide)
    rw [hm₀] at ha
    rw [hm₁] at hb
    cases ha
    cases hb
    rw [hgnone] at hfound
    cases hfound

end MetaCG
