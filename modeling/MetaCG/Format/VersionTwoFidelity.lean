import MetaCG.Format.VersionTwoRoundTrip

/-! What a round trip through version 2 preserves, and which graphs survive it.

The reader takes the origin out of file properties that the writer made up for it, and then misses the
flag in them: a graph can be read back exactly if every function with an origin has file properties. -/
namespace MetaCG.VersionTwo
open Foundations Callgraph
set_option autoImplicit false
set_option maxHeartbeats 250000
set_option maxRecDepth 120000

/-! ## Names as keys -/

/-- No two functions have the same name. -/
def UniqueNames (g : Callgraph) : Prop := (g.liveNodes.map CgNode.functionName).Nodup

instance (g : Callgraph) : Decidable (UniqueNames g) :=
  inferInstanceAs (Decidable ((g.liveNodes.map CgNode.functionName).Nodup))

section
variable {g : Callgraph}

theorem UniqueNames.slot_inj (h : g.Wf) (hu : UniqueNames g) {i k : ℕ} {n m : CgNode} (hn : g.slot i = some n)
    (hm : g.slot k = some m) (he : n.functionName = m.functionName) : i = k := by
  have hnm : n = m := List.inj_on_of_nodup_map hu ((g.mem_liveNodes n).mpr ⟨i, hn⟩) ((g.mem_liveNodes m).mpr ⟨k, hm⟩) he
  rw [← h.node_id i n hn, ← h.node_id k m hm, hnm]

theorem UniqueNames.idStr (h : g.Wf) (hu : UniqueNames g) {i : ℕ} {n : CgNode} (hn : g.slot i = some n) :
    g.idStr true i = n.functionName := by
  have hone : (g.getNodesNamed n.functionName).length ≤ 1 := by
    have hnd : (g.getNodesNamed n.functionName).Nodup := by
      rw [h.names]
      exact List.nodup_range.filter _
    have hsub : g.getNodesNamed n.functionName ⊆ [i] := by
      intro k hk
      obtain ⟨m, hm, he⟩ := (h.mem_named _ k).mp hk
      exact List.mem_singleton.mpr (hu.slot_inj h hm hn he)
    exact (List.subperm_of_subset hnd hsub).length_le
  rw [idStr_eq hn, convertToStr, if_pos rfl]
  simp only
  rw [if_neg (by omega)]

theorem UniqueNames.strInj (h : g.Wf) (hu : UniqueNames g) : g.StrInj (g.idStr true) := by
  have hnames : g.liveIds.map (g.idStr true) = g.liveNodes.map CgNode.functionName := by
    rw [liveIds, List.map_map]
    exact List.map_congr_left fun n hn => hu.idStr h (h.slot_of_mem hn)
  rw [StrInj, hnames]
  exact hu

/-! ## Graphs that survive -/

theorem read_of_kept (h : g.Wf) (hkey : g.MetaKeyed) (hu : UniqueNames g) (hr : g.RefsLive) (hkept : OriginsKept g)
    (info : MCGGeneratorVersionInfo) :
    ∃ r, read (document info g (g.idStr true)) = .ok r ∧ ReadBack (lossy g) (g.idStr true) r := by
  have hs := hu.strInj h
  have hne : ∀ i, (lossy g).hasNode i = true → g.idStr true i ≠ "" := fun i hi =>
    h.idStr_ne_empty (by rw [← hasNode_lossy]; exact hi)
  obtain ⟨r, hread, hback⟩ := read_document (lossy_wf h) (lossy_strInj hs) hne (lossy_plain g) (lossy_metaKeyed hkey)
    (lossy_refsLive hr) info
  obtain ⟨j, fields, hj, hheader, hcg, hnodes, hmeta⟩ := read_eq h hs hkey (fun i n hn => hu.idStr h hn) info
  obtain ⟨hcg', hheader'⟩ := document_subscriptMut info (g := lossy g) (g.idStr true)
  rw [read_parts hheader' hcg' (by rw [Ordered.find_insert, if_neg (by decide), Ordered.find_same])
    (by rw [Ordered.find_insert, if_pos rfl]; rfl)] at hread
  obtain ⟨st, hst, hdata⟩ := bind_eq_ok.mp hread
  obtain ⟨st', hst', halike⟩ := foldlM_rel (f := readNode) (g := readNode) (R := StatesAlike)
    (fun s t e e' s' hst he hf => readNode_alike hst he hf) (nodesAlike h hs hkey hkept)
    (t := ⟨Callgraph.empty, ∅, []⟩) ⟨rfl, rfl, .nil⟩ hst
  refine ⟨r, ?_, hback⟩
  rw [hj, read_parts hheader hcg hnodes hmeta, hst', ok_bind, halike.cg, halike.strToNode, ← hdata]
  exact (foldlM_forall₂ (fun cg t t' ht => ht _ cg) halike.temp _).symm

/-- Whatever is read back from a file in the form of version 4 has its metadata created. -/
theorem create_of_readNodes {nodes : List (String × Json)} {st : ReadState} {cg : Callgraph}
    (hnodes : nodes.foldlM readNode ⟨Callgraph.empty, ∅, []⟩ = .ok st)
    (hdata : st.tempNodeData.foldlM (readNodeData st.strToNode) st.cg = .ok cg) {e : String × Json} (he : e ∈ nodes)
    {jMeta : Json} {fields : List (String × Json)} (hmeta : e.2.subscriptMut "meta" = .ok jMeta)
    (hfields : jMeta.iterator = .ok fields) : ∀ x ∈ fields, ∃ md, MetaData.create x.1 x.2 st.strToNode = .ok md := by
  have htemp : ∀ e ∈ nodes, ∃ t ∈ st.tempNodeData, e.2.subscriptMut "meta" = .ok t.jMeta := by
    refine foldlM_ok_inv (J := fun pre st => ∀ e ∈ pre, ∃ t ∈ st.tempNodeData, e.2.subscriptMut "meta" = .ok t.jMeta)
      (by simp) ?_ hnodes
    intro pre a t t' _ hpre ha
    obtain ⟨r, -, ha⟩ := bind_eq_ok.mp ha
    cases r with
    | none => cases ha
    | some r =>
      obtain ⟨jEdges, -, ha⟩ := bind_eq_ok.mp ha
      obtain ⟨jMeta, hjMeta, ha⟩ := bind_eq_ok.mp ha
      cases ha
      intro e he
      rcases List.mem_append.mp he with he | he
      · obtain ⟨d, hd, hmeta⟩ := hpre e he
        exact ⟨d, List.mem_append_left _ hd, hmeta⟩
      · rw [List.mem_singleton.mp he]
        exact ⟨_, List.mem_append_right _ (List.mem_singleton_self _), hjMeta⟩
  obtain ⟨t, ht, hjMeta⟩ := htemp e he
  rw [hmeta] at hjMeta
  obtain ⟨cg₁, cg₂, hround⟩ := foldlM_ok_mem hdata t ht
  obtain ⟨p, -, hround⟩ := bind_eq_ok.mp hround
  cases p with
  | none => cases hround
  | some _ =>
    obtain ⟨edges, -, hround⟩ := bind_eq_ok.mp hround
    obtain ⟨cg₃, -, hround⟩ := bind_eq_ok.mp hround
    obtain ⟨p, -, hround⟩ := bind_eq_ok.mp hround
    cases p with
    | none => cases hround
    | some node =>
      obtain ⟨items, hitems, hround⟩ := bind_eq_ok.mp hround
      obtain ⟨metaFields, hloop, -⟩ := bind_eq_ok.mp hround
      rw [← Except.ok.inj hjMeta, hfields] at hitems
      cases hitems
      intro x hx
      obtain ⟨fs, fs', hx⟩ := foldlM_ok_mem hloop x hx
      obtain ⟨md, hcreate, -⟩ := bind_eq_ok.mp hx
      exact ⟨md, hcreate⟩

/-- File properties that were made up for an origin miss their flag. -/
theorem create_madeUp (n : CgNode) (t : StrToNode) :
    MetaData.create "fileProperties" (upgradedProps n none) t = .error .undefined := by
  have hsub : ∀ j : Json, j.is_null = false → j.subscript "systemInclude" = .error .undefined →
      MetaData.create "fileProperties" j t = .error .undefined := by
    intro j hnull hj
    simp only [MetaData.create, MetaData.orDefault, hnull, Bool.false_eq_true, if_false, hj]
    rfl
  unfold upgradedProps
  simp only
  split_ifs
  · refine hsub _ rfl ?_
    rw [Json.subscript, Ordered.find_other (by decide)]
    rfl
  · exact hsub _ rfl rfl

theorem kept_of_read (h : g.Wf) (hkey : g.MetaKeyed) (hu : UniqueNames g) (info : MCGGeneratorVersionInfo) {r : Callgraph}
    (hread : read (document info g (g.idStr true)) = .ok r) : OriginsKept g := by
  have hs := hu.strInj h
  obtain ⟨j, fields, hj, hheader, hcg, hnodes, hmeta⟩ := read_eq h hs hkey (fun i n hn => hu.idStr h hn) info
  rw [hj, read_parts hheader hcg hnodes hmeta] at hread
  obtain ⟨st, hst, hdata⟩ := bind_eq_ok.mp hread
  intro n hn horigin
  by_contra hprops
  have hslot := h.slot_of_mem hn
  have hnone : filePropertiesOf n = none := by
    rw [filePropertiesOf, AList.lookup_eq_none.mpr hprops]
  have hfields : upgradedMeta (g.idStr true) n =
      Ordered.insert "fileProperties" (upgradedProps n none) (metaJson (g.idStr true) n.metaFields) := by
    rw [upgradedMeta, if_neg fun hboth => horigin hboth.2, hnone]
  have hmem : (g.idStr true n.id, upgradedNode (g.idStr true) n (calleeNames g (g.idStr true) n.id)) ∈
      upgradedNodes g (g.idStr true) :=
    List.mem_map.mpr ⟨n.id, (h.mem_fileOrder hs n.id).mpr (hasNode_of_slot hslot), by rw [hslot]⟩
  have hentry : ("fileProperties", upgradedProps n none) ∈ upgradedMeta (g.idStr true) n := by
    rw [hfields]
    exact Ordered.mem_of_find (by rw [Ordered.find_insert, if_pos rfl])
  obtain ⟨md, hcreate⟩ := create_of_readNodes hst hdata hmem (fileNode_subscriptMut _ _ _ _ _).2
    (orNull_iterator (upgradedMeta (g.idStr true) n)) _ hentry
  rw [create_madeUp] at hcreate
  cases hcreate

/-- The reader of version 2 accepts what the writer emits exactly if the origins have their file properties. -/
theorem read_write_iff (h : g.Wf) (hkey : g.MetaKeyed) (hu : UniqueNames g) (info v4Info : MCGGeneratorVersionInfo)
    (exportSorted : Bool) :
    (∀ j, write info v4Info exportSorted g = .ok j → ∃ r, read j = .ok r) ↔ (g.RefsLive → OriginsKept g) := by
  have hs := hu.strInj h
  constructor
  · intro haccept hr
    obtain ⟨r, hread⟩ := haccept _ (write_eq h hs hkey hr info v4Info exportSorted)
    exact kept_of_read h hkey hu info hread
  · intro hkept j hw
    obtain ⟨v4Json, hv4, -⟩ := bind_eq_ok.mp hw
    have hr := h.refsLive_of_write hv4
    rw [write_eq h hs hkey hr] at hw
    cases hw
    obtain ⟨r, hread, -⟩ := read_of_kept h hkey hu hr (hkept hr) info
    exact ⟨r, hread⟩

end

instance (g : Callgraph) : Decidable (OriginsKept g) :=
  inferInstanceAs (Decidable (∀ n ∈ g.liveNodes, n.origin ≠ none → "fileProperties" ∈ n.metaFields))

/-- Two functions, one virtual, with origins and file properties. -/
def twoFiles : Callgraph := run 0 [.insert "f" (some "f.cpp") false true, .insert "g" none false false,
  .addNodeMetaData 0 (.fileProperties true), .addNodeMetaData 1 (.override ⟨[0], []⟩), .addEdge 0 1, .addEdge 1 1,
  .addMetaData (.entryFunction ⟨some 0⟩)]

theorem read_write_twoFiles :
    (∀ j, write ⟨"CGCollector", 0, 9, ""⟩ ⟨"MetaCG", 0, 9, ""⟩ false twoFiles = .ok j → ∃ r, read j = .ok r) ↔
      (twoFiles.RefsLive → OriginsKept twoFiles) :=
  read_write_iff (run_wf 0 _) (by decide) (by decide) _ _ false

/-- A function with an origin and no metadata. -/
def originOnly : Callgraph := run 0 [.insert "f" (some "f.cpp") false true]

theorem read_write_originOnly :
    originOnly.Wf ∧ originOnly.MetaKeyed ∧ UniqueNames originOnly ∧ originOnly.RefsLive ∧
      ∃ j, write ⟨"CGCollector", 0, 9, ""⟩ ⟨"MetaCG", 0, 9, ""⟩ false originOnly = .ok j ∧ ¬ ∃ r, read j = .ok r := by
  have hwf : originOnly.Wf := run_wf 0 _
  have hkey : originOnly.MetaKeyed := by decide
  have hu : UniqueNames originOnly := by decide
  have hr : originOnly.RefsLive := by decide
  refine ⟨hwf, hkey, hu, hr, _, write_eq hwf (hu.strInj hwf) hkey hr _ _ false, ?_⟩
  rintro ⟨r, hread⟩
  have hkept : ¬ OriginsKept originOnly := by decide
  exact hkept (kept_of_read hwf hkey hu _ hread)

/-! ## What is preserved -/

def NoEmptyOrigins (g : Callgraph) : Prop := ∀ n ∈ g.liveNodes, n.origin ≠ some ""

instance (g : Callgraph) : Decidable (NoEmptyOrigins g) :=
  inferInstanceAs (Decidable (∀ n ∈ g.liveNodes, n.origin ≠ some ""))

section
variable {g : Callgraph}

theorem originOf_eq (hempty : NoEmptyOrigins g) {n : CgNode} (hn : n ∈ g.liveNodes) : originOf n = n.origin := by
  rw [originOf]
  cases ho : n.origin with
  | none => rfl
  | some origin =>
    rw [Option.filter_some, if_pos]
    exact decide_eq_true fun he => hempty n hn (by rw [ho, he])

/-- A round trip through version 2 preserves everything but the metadata of edges and of the graph. -/
theorem write_read_faithful (h : g.Wf) (hkey : g.MetaKeyed) (hu : UniqueNames g) (hr : g.RefsLive) (hempty : NoEmptyOrigins g)
    (hkept : OriginsKept g) (info v4Info : MCGGeneratorVersionInfo) (exportSorted : Bool) :
    ∃ j r f, write info v4Info exportSorted g = .ok j ∧ read j = .ok r ∧ Isomorphic { g with metaFields := ∅ } r f ∧
      PlainEdges r ∧ ∀ key, r.metaFields.lookup key = none := by
  obtain ⟨r, hread, hback⟩ := read_of_kept h hkey hu hr hkept info
  have hiso := hback.isomorphic (lossy_wf h) (lossy_strInj (hu.strInj h))
  refine ⟨_, r, (lossy g).readId (g.idStr true), write_eq h (hu.strInj h) hkey hr info v4Info exportSorted, hread, ?_, hback.data.plain, hback.globals⟩
  have hlive : ∀ i, ({ g with metaFields := ∅ } : Callgraph).hasNode i = (lossy g).hasNode i := fun i =>
    (hasNode_lossy g i).symm
  exact {
    live := fun i hi => hiso.live i (by rw [← hlive]; exact hi)
    inj := fun i k hi hk => hiso.inj i k (by rw [← hlive]; exact hi) (by rw [← hlive]; exact hk)
    onto := fun k hk => (hiso.onto k hk).imp fun i hi => ⟨by rw [hlive]; exact hi.1, hi.2⟩
    node := by
      intro i n hn
      have hslot : (lossy g).slot i = some { n with origin := originOf n } := by
        rw [slot_lossy, show g.slot i = some n from hn]
        rfl
      obtain ⟨n', hn', hname, horigin, hbody, hmeta⟩ := hiso.node i _ hslot
      exact ⟨n', hn', hname, horigin.trans (originOf_eq hempty ((g.mem_liveNodes n).mpr ⟨i, hn⟩)), hbody, hmeta⟩
    edges := fun u v hu hv => (hiso.edges u v (by rw [← hlive]; exact hu) (by rw [← hlive]; exact hv)).trans
      (mem_edges_lossy g (u, v))
    globals := hiso.globals }

end

theorem write_read_faithful_twoFiles :
    ∃ j r f, write ⟨"CGCollector", 0, 9, ""⟩ ⟨"MetaCG", 0, 9, ""⟩ true twoFiles = .ok j ∧ read j = .ok r ∧
      Isomorphic { twoFiles with metaFields := ∅ } r f ∧ PlainEdges r ∧ ∀ key, r.metaFields.lookup key = none :=
  write_read_faithful (run_wf 0 _) (by decide) (by decide) (by decide) (by decide) (by decide) _ _ true

/-- Overrides refer to nodes. -/
def OverridesLive (g : Callgraph) : Prop :=
  (∀ n ∈ g.liveNodes, ∀ e ∈ UMap.toPairs n.metaFields, e.2.getKey = "overrideMD" → ∀ i ∈ e.2.refs, g.hasNode i = true) ∧
    (∀ p ∈ UMap.toPairs g.edges, ∀ e ∈ UMap.toPairs p.2, e.2.getKey = "overrideMD" → ∀ i ∈ e.2.refs, g.hasNode i = true) ∧
    ∀ e ∈ UMap.toPairs g.metaFields, e.2.getKey = "overrideMD" → ∀ i ∈ e.2.refs, g.hasNode i = true

instance (g : Callgraph) : Decidable (OverridesLive g) := inferInstanceAs (Decidable (_ ∧ _ ∧ _))

/-- The function that the metadata of the graph names as its entry is erased. -/
def erasedEntry : Callgraph := run 0 [.insert "f" none false true, .insert "start" none false true,
  .addMetaData (.entryFunction ⟨some 1⟩), .erase 1]

/-- The metadata of the graph is written before it is dropped, so its references must be live too. -/
theorem write_erasedEntry :
    erasedEntry.Wf ∧ erasedEntry.MetaKeyed ∧ UniqueNames erasedEntry ∧ OverridesLive erasedEntry ∧
      NoEmptyOrigins erasedEntry ∧ OriginsKept erasedEntry ∧
      ¬ ∃ j, write ⟨"CGCollector", 0, 9, ""⟩ ⟨"MetaCG", 0, 9, ""⟩ false erasedEntry = .ok j := by
  have hwf : erasedEntry.Wf := run_wf 0 _
  have hdangling : ¬ erasedEntry.RefsLive := by decide
  refine ⟨hwf, by decide, by decide, by decide, by decide, by decide, ?_⟩
  rintro ⟨j, hw⟩
  obtain ⟨v4Json, hv4, -⟩ := bind_eq_ok.mp hw
  exact hdangling (hwf.refsLive_of_write hv4)

end MetaCG.VersionTwo
