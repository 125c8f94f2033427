import MetaCG.Tools.CGDiffGlobals

/-! What `compare` reports.

The loop over the summaries reports a name that only one graph has, and a name whose two summaries the
comparator tells apart. So nothing is reported iff both graphs can be read, their global metadata reads
alike and, for every name, their first nodes of this name look alike. -/
namespace MetaCG.CGDiff
open Foundations Callgraph
set_option autoImplicit false
set_option maxHeartbeats 250000
set_option maxRecDepth 120000

/-- No flag is set. -/
def noFlags : ComparisonMode := ⟨false, false, false, false, false⟩

section
variable (dump : Json → String) (sortJson : List Json → List Json) (ignoredMdKeys : List String) (order : Dot.HashOrder)
  (mode : ComparisonMode)

/-! ## Two nodes -/

/-- The comparator finds no difference between two nodes. -/
structure LooksAlike (A B : Callgraph) (n m : CgNode) : Prop where
  name : n.functionName = m.functionName
  hasBody : mode.ignoreBody = false → n.hasBody = m.hasBody
  callees : mode.ignoreEdges = false → ∀ c, CallsNamed A n.id c ↔ CallsNamed B m.id c
  metadata : mode.ignoreMetadata = false → texts dump ignoredMdKeys (sortArrays sortJson) A n.metaFields =
    texts dump ignoredMdKeys (sortArrays sortJson) B m.metaFields
  edgeMetadata : mode.ignoreEdges = false → mode.ignoreEdgeMetadata = false → ∀ c,
    (firstCallee order A n.id c).map (fun v => texts dump ignoredMdKeys id A (A.edgeMeta (n.id, v))) =
      (firstCallee order B m.id c).map fun w => texts dump ignoredMdKeys id B (B.edgeMeta (m.id, w))

theorem LooksAlike.symm {A B : Callgraph} {n m : CgNode} (h : LooksAlike dump sortJson ignoredMdKeys order mode A B n m) :
    LooksAlike dump sortJson ignoredMdKeys order mode B A m n where
  name := h.name.symm
  hasBody := fun hmode => (h.hasBody hmode).symm
  callees := fun hmode c => (h.callees hmode c).symm
  metadata := fun hmode => (h.metadata hmode).symm
  edgeMetadata := fun hmode hmode' c => (h.edgeMetadata hmode hmode' c).symm

theorem sameSummary_iff {A B : Callgraph} {n m : CgNode} {a b : NodeSummary}
    (ha : Summarises dump sortJson ignoredMdKeys order mode A n a)
    (hb : Summarises dump sortJson ignoredMdKeys order mode B m b) :
    sameSummary mode b a = true ↔ LooksAlike dump sortJson ignoredMdKeys order mode A B n m := by
  have hcallees : b.callees.same a.callees = true ↔ ∀ c, CallsNamed A n.id c ↔ CallsNamed B m.id c := by
    rw [StringSet.same_iff, Set.ext_iff]
    exact forall_congr' fun c => iff_comm.trans (iff_congr (ha.callees c) (hb.callees c))
  unfold sameSummary
  simp only [Bool.and_eq_true, Bool.or_eq_true, decide_eq_true_eq, beq_iff_eq]
  rw [hcallees, StringSet.same_iff, sameEdgeMetadata_iff, ha.name, hb.name, ha.hasBody, hb.hasBody]
  constructor
  · rintro ⟨⟨⟨⟨hname, hbody⟩, hcalls⟩, hmd⟩, hemd⟩
    refine ⟨hname.symm, fun hm => ?_, fun hm => ?_, fun hm => ?_, fun hm hm' c => ?_⟩
    · exact (hbody.resolve_left (by simp [hm])).symm
    · exact hcalls.resolve_left (by simp [hm])
    · rw [← ha.metadata hm, ← hb.metadata hm]
      exact (hmd.resolve_left (by simp [hm])).symm
    · rw [← ha.edgeMetadata hm' c, ← hb.edgeMetadata hm' c]
      exact (hemd.resolve_left (by simp [hm, hm']) c).symm
  · intro h
    refine ⟨⟨⟨⟨h.name.symm, ?_⟩, ?_⟩, ?_⟩, ?_⟩
    · cases hm : mode.ignoreBody with
      | true => exact .inl rfl
      | false => exact .inr (h.hasBody hm).symm
    · cases hm : mode.ignoreEdges with
      | true => exact .inl rfl
      | false => exact .inr (h.callees hm)
    · cases hm : mode.ignoreMetadata with
      | true => exact .inl rfl
      | false =>
        refine .inr ?_
        rw [ha.metadata hm, hb.metadata hm]
        exact (h.metadata hm).symm
    · cases hm' : mode.ignoreEdgeMetadata with
      | true => exact .inl (.inl rfl)
      | false =>
        cases hm : mode.ignoreEdges with
        | true => exact .inl (.inr rfl)
        | false =>
          refine .inr fun c => ?_
          rw [ha.edgeMetadata hm' c, hb.edgeMetadata hm' c]
          exact (h.edgeMetadata hm hm' c).symm

/-- A property that keeps an edge in the list and holds of no edge in the list holds of no callee. -/
theorem edgeDiffs_any {f : String → EdgeDiff} {keep P : EdgeDiff → Bool} (hkeep : ∀ ed, P ed = true → keep ed = true)
    {callees : List String} (h : (((order.names callees).map f).filter keep).any P = false) :
    ∀ c ∈ callees, P (f c) = false := by
  intro c hc
  by_contra hP
  have hP : P (f c) = true := by simpa using hP
  have hmem : f c ∈ ((order.names callees).map f).filter keep := by
    rw [List.mem_filter]
    exact ⟨List.mem_map_of_mem ((order.names_perm _).mem_iff.mpr (List.mem_dedup.mpr hc)), hkeep _ hP⟩
  rw [List.any_eq_false] at h
  exact h _ hmem hP

theorem without_eq_nil (a b : StringSet) : without a b = [] ↔ ∀ t ∈ a, t ∈ b := by
  unfold without
  rw [List.filter_eq_nil_iff]
  exact forall₂_congr fun t _ => by simp

/-- What is compared when `createNodeDiff` names no kind of difference. -/
theorem diffType_eq_nil {a b : NodeSummary} (h : (createNodeDiff order mode a b).diffType = []) :
    (mode.ignoreBody = false → a.hasBody = b.hasBody) ∧ (mode.ignoreMetadata = false → a.metadata.same b.metadata = true) ∧
      (mode.ignoreEdges = false → ∀ c ∈ a.callees ++ b.callees, c ∈ a.callees ∧ c ∈ b.callees) ∧
      (mode.ignoreEdges = false → mode.ignoreEdgeMetadata = false → sameEdgeMetadata a.edgeMetadata b.edgeMetadata = false →
        ∀ c ∈ a.callees ++ b.callees, (edgeDiff a b true c).metadataDiffers = false) := by
  unfold createNodeDiff at h
  dsimp only at h
  rw [List.append_eq_nil_iff, List.append_eq_nil_iff, List.append_eq_nil_iff] at h
  obtain ⟨⟨⟨hbody, hedges⟩, hedgeMd⟩, hmd⟩ := h
  refine ⟨fun hm => ?_, fun hm => ?_, fun hm c hc => ?_, fun hm hm' hsame => ?_⟩
  · rw [hm, ite_eq_right_iff] at hbody
    simpa using hbody
  · rw [hm, ite_eq_right_iff] at hmd
    simpa using hmd
  · rw [hm, if_neg (show ¬ false = true by simp), ite_eq_right_iff] at hedges
    have hany := Bool.eq_false_iff.mpr fun h => List.cons_ne_nil _ _ (hedges h)
    have hnone := edgeDiffs_any order (fun ed h => by rw [h, Bool.true_or]) hany c hc
    unfold edgeDiff at hnone
    simp only [Bool.or_eq_false_iff, Bool.not_eq_false', List.contains_iff_mem] at hnone
    exact ⟨hnone.2, hnone.1⟩
  · rw [hm, hm', hsame, if_neg (show ¬ false = true by simp), Bool.not_false, Bool.and_true, ite_eq_right_iff] at hedgeMd
    have hany := Bool.eq_false_iff.mpr fun h => List.cons_ne_nil _ _ (hedgeMd h)
    exact edgeDiffs_any order (fun ed h => by rw [h, Bool.or_true]) hany

theorem elems_of_no_edgeDiff {a b : NodeSummary} {c : String} {sa sb : StringSet}
    (ha : a.edgeMetadata.lookup c = some sa) (hb : b.edgeMetadata.lookup c = some sb)
    (h : (edgeDiff a b true c).metadataDiffers = false) : sa.elems = sb.elems := by
  unfold EdgeDiff.metadataDiffers edgeDiff at h
  simp only [ha, hb, if_true, Bool.or_eq_false_iff, Bool.not_eq_false', List.isEmpty_iff, without_eq_nil] at h
  exact Set.Subset.antisymm h.1 h.2

/-- Nodes that the comparator tells apart are reported with a kind of difference. -/
theorem createNodeDiff_diffType {A B : Callgraph} (hA : A.Wf) (hB : B.Wf) {n m : CgNode} {a b : NodeSummary}
    (ha : Summarises dump sortJson ignoredMdKeys order mode A n a)
    (hb : Summarises dump sortJson ignoredMdKeys order mode B m b) (hname : n.functionName = m.functionName)
    (hdiff : ¬ LooksAlike dump sortJson ignoredMdKeys order mode A B n m) :
    (createNodeDiff order mode a b).diffType ≠ [] := by
  intro hnil
  obtain ⟨hbody, hmd, hcalls, hedgeMd⟩ := diffType_eq_nil order mode hnil
  have hcallees : mode.ignoreEdges = false → ∀ c, CallsNamed A n.id c ↔ CallsNamed B m.id c := by
    intro hm c
    rw [← ha.callees c, ← hb.callees c]
    exact ⟨fun hc => (hcalls hm c (List.mem_append_left _ hc)).2, fun hc => (hcalls hm c (List.mem_append_right _ hc)).1⟩
  refine hdiff ⟨hname, fun hm => ?_, hcallees, fun hm => ?_, fun hm hm' => ?_⟩
  · rw [← ha.hasBody, ← hb.hasBody]
    exact hbody hm
  · rw [← ha.metadata hm, ← hb.metadata hm]
    exact (StringSet.same_iff _ _).mp (hmd hm)
  · simp only [← ha.edgeMetadata hm', ← hb.edgeMetadata hm', ← sameEdgeMetadata_iff]
    by_contra hsame
    have hnone := hedgeMd hm hm' (by simpa using hsame)
    refine hsame ((sameEdgeMetadata_iff _ _).mpr fun c => ?_)
    -- Both maps have the callees as keys, and under none of them the sets differ.
    have hkeysA := firstCallee_isSome order hA n.id c
    have hkeysB := firstCallee_isSome order hB m.id c
    have hA' := congrArg Option.isSome (ha.edgeMetadata hm' c)
    have hB' := congrArg Option.isSome (hb.edgeMetadata hm' c)
    rw [Option.isSome_map, Option.isSome_map] at hA' hB'
    rw [← hA'] at hkeysA
    rw [← hB', ← hcallees hm c, ← hkeysA] at hkeysB
    cases hsa : a.edgeMetadata.lookup c with
    | none =>
      rw [hsa] at hkeysB
      have hsb : b.edgeMetadata.lookup c = none := Option.not_isSome_iff_eq_none.mp fun h => by simpa using hkeysB.mp h
      rw [hsb]
    | some sa =>
      rw [hsa] at hkeysA hkeysB
      obtain ⟨sb, hsb⟩ := Option.isSome_iff_exists.mp (hkeysB.mpr rfl)
      have hc : c ∈ a.callees := (ha.callees c).mpr (hkeysA.mp rfl)
      rw [hsb, Option.map_some, Option.map_some, elems_of_no_edgeDiff hsa hsb (hnone c (List.mem_append_left _ hc))]

/-! ## The loop over the summaries -/

/-- What one round reports. -/
def nodeDiff (nodesB : UMap String NodeSummary) (nA : NodeSummary) : Option Diff :=
  match nodesB.lookup nA.name with
  | none => some (.node (missingNode nA "cgA"))
  | some nB => if sameSummary mode nB nA then none else some (.node (createNodeDiff order mode nA nB))

theorem compareNode_eq (st : List Diff × UMap String NodeSummary) (nA : NodeSummary) :
    (compareNode order mode st nA).1 = st.1 ++ (nodeDiff order mode st.2 nA).toList ∧
      ∀ k, (compareNode order mode st nA).2.lookup k = if k = nA.name then none else st.2.lookup k := by
  unfold compareNode nodeDiff
  cases hl : st.2.lookup nA.name with
  | none =>
    refine ⟨rfl, fun k => ?_⟩
    split_ifs with hk
    · rw [hk, hl]
    · rfl
  | some nB =>
    dsimp only
    split_ifs
    · exact ⟨(List.append_nil _).symm, fun k => UMap.lookup_erase_ite _ _ _⟩
    · exact ⟨rfl, fun k => UMap.lookup_erase_ite _ _ _⟩

theorem foldl_compareNode (l : List NodeSummary) (hl : (l.map NodeSummary.name).Nodup)
    (st : List Diff × UMap String NodeSummary) :
    (l.foldl (compareNode order mode) st).1 = st.1 ++ l.filterMap (nodeDiff order mode st.2) ∧
      ∀ k, (l.foldl (compareNode order mode) st).2.lookup k = if k ∈ l.map NodeSummary.name then none else st.2.lookup k := by
  induction l generalizing st with
  | nil => exact ⟨(List.append_nil _).symm, fun k => by simp⟩
  | cons nA l ih =>
    rw [List.map_cons, List.nodup_cons] at hl
    obtain ⟨hdiffs, hrest⟩ := compareNode_eq order mode st nA
    obtain ⟨hdiffs', hrest'⟩ := ih hl.2 (compareNode order mode st nA)
    have hsame : ∀ nA' ∈ l, nodeDiff order mode (compareNode order mode st nA).2 nA' = nodeDiff order mode st.2 nA' := by
      intro nA' hmem
      have hne : nA'.name ≠ nA.name := fun he => hl.1 (he ▸ List.mem_map_of_mem hmem)
      rw [nodeDiff, hrest, if_neg hne, nodeDiff]
    rw [List.foldl_cons]
    constructor
    · rw [hdiffs', hdiffs, List.filterMap_congr hsame, List.append_assoc, List.filterMap_cons]
      cases nodeDiff order mode st.2 nA <;> rfl
    · intro k
      rw [hrest', hrest, List.map_cons]
      by_cases hk : k = nA.name
      · simp [hk]
      · simp [hk]

/-- Every entry is stored under the name of its summary. -/
def Keyed (nodes : UMap String NodeSummary) : Prop := ∀ k s, nodes.lookup k = some s → s.name = k

theorem mem_summaries {nodes : UMap String NodeSummary} (h : Keyed nodes) (s : NodeSummary) :
    s ∈ summaries order nodes ↔ nodes.lookup s.name = some s := by
  rw [summaries, List.mem_filterMap]
  constructor
  · rintro ⟨k, -, hk⟩
    rw [h k s hk]
    exact hk
  · intro hs
    refine ⟨s.name, ?_, hs⟩
    rw [(order.names_perm _).mem_iff, List.mem_dedup]
    exact UMap.mem_of_lookup hs

theorem summaries_names {nodes : UMap String NodeSummary} (h : Keyed nodes) :
    (summaries order nodes).map NodeSummary.name = order.names nodes.keys := by
  have hkeys : ∀ k ∈ order.names nodes.keys, (nodes.lookup k).map NodeSummary.name = some k := by
    intro k hk
    rw [(order.names_perm _).mem_iff, List.mem_dedup] at hk
    obtain ⟨s, hs⟩ := (UMap.mem_iff_lookup k nodes).mp hk
    rw [hs, Option.map_some, h k s hs]
  rw [summaries, List.map_filterMap, List.filterMap_congr hkeys, List.filterMap_some]

theorem summaries_nodup {nodes : UMap String NodeSummary} (h : Keyed nodes) :
    ((summaries order nodes).map NodeSummary.name).Nodup := by
  rw [summaries_names order h]
  exact (order.names_perm _).nodup_iff.mpr (List.nodup_dedup _)

/-- The differences of the nodes. -/
def nodeDiffs (nodesA nodesB : UMap String NodeSummary) : List Diff :=
  let r := (summaries order nodesA).foldl (compareNode order mode) ([], nodesB)
  r.1 ++ (summaries order r.2).map fun nB => .node (missingNode nB "cgB")

/-- A difference: a name that one graph lacks, or two summaries that differ. -/
inductive Differs (nodesA nodesB : UMap String NodeSummary) : Diff → Prop where
  | onlyInA (a : NodeSummary) (ha : nodesA.lookup a.name = some a) (hb : nodesB.lookup a.name = none) :
    Differs nodesA nodesB (.node (missingNode a "cgA"))
  | onlyInB (b : NodeSummary) (hb : nodesB.lookup b.name = some b) (ha : nodesA.lookup b.name = none) :
    Differs nodesA nodesB (.node (missingNode b "cgB"))
  | inBoth (a b : NodeSummary) (ha : nodesA.lookup a.name = some a) (hb : nodesB.lookup a.name = some b)
    (hdiff : sameSummary mode b a = false) : Differs nodesA nodesB (.node (createNodeDiff order mode a b))

theorem mem_nodeDiffs {nodesA nodesB : UMap String NodeSummary} (hA : Keyed nodesA) (hB : Keyed nodesB) (d : Diff) :
    d ∈ nodeDiffs order mode nodesA nodesB ↔ Differs order mode nodesA nodesB d := by
  obtain ⟨hdiffs, hrest⟩ := foldl_compareNode order mode _ (summaries_nodup order hA) ([], nodesB)
  have hmem : ∀ k, k ∈ (summaries order nodesA).map NodeSummary.name ↔ k ∈ nodesA := by
    intro k
    rw [summaries_names order hA, (order.names_perm _).mem_iff, List.mem_dedup]
    rfl
  have hkeyed : Keyed ((summaries order nodesA).foldl (compareNode order mode) ([], nodesB)).2 := by
    intro k s hs
    rw [hrest] at hs
    split_ifs at hs
    exact hB k s hs
  rw [nodeDiffs, List.mem_append, hdiffs, List.nil_append, List.mem_filterMap, List.mem_map]
  simp only [mem_summaries order hA, mem_summaries order hkeyed, hrest, hmem]
  constructor
  · rintro (⟨a, ha, hd⟩ | ⟨b, hb, rfl⟩)
    · unfold nodeDiff at hd
      cases hl : nodesB.lookup a.name with
      | none =>
        rw [hl] at hd
        rw [← Option.some.inj hd]
        exact .onlyInA a ha hl
      | some b =>
        rw [hl] at hd
        dsimp only at hd
        split_ifs at hd with hsame
        rw [← Option.some.inj hd]
        exact .inBoth a b ha hl (by simpa using hsame)
    · split_ifs at hb with hk
      exact .onlyInB b hb (AList.lookup_eq_none.mpr hk)
  · rintro (⟨a, ha, hb⟩ | ⟨b, hb, ha⟩ | ⟨a, b, ha, hb, hdiff⟩)
    · exact .inl ⟨a, ha, by rw [nodeDiff, hb]⟩
    · exact .inr ⟨b, by rw [if_neg (AList.lookup_eq_none.mp ha), hb], rfl⟩
    · refine .inl ⟨a, ha, ?_⟩
      rw [nodeDiff, hb]
      dsimp only
      rw [if_neg (by simp [hdiff])]

/-! ## The comparison -/

theorem compare_eq (mcgA mcgB : Callgraph) : compare dump sortJson ignoredMdKeys order mode mcgA mcgB = do
    let nodesA ← collectNodeSummaries dump sortJson ignoredMdKeys order mode mcgA
    let nodesB ← collectNodeSummaries dump sortJson ignoredMdKeys order mode mcgB
    let diffs ← compareGlobals dump ignoredMdKeys mode mcgA mcgB
    return diffs ++ nodeDiffs order mode nodesA nodesB := by
  have hstart : ∀ (l : List NodeSummary) (diffs : List Diff) (nodesB : UMap String NodeSummary),
      l.foldl (compareNode order mode) (diffs, nodesB) =
        (diffs ++ (l.foldl (compareNode order mode) ([], nodesB)).1, (l.foldl (compareNode order mode) ([], nodesB)).2) := by
    intro l
    induction l using List.reverseRecOn with
    | nil => exact fun diffs nodesB => by rw [List.foldl_nil, List.foldl_nil, List.append_nil]
    | append_singleton l nA ih =>
      intro diffs nodesB
      rw [List.foldl_concat, List.foldl_concat, ih]
      unfold compareNode
      dsimp only
      split
      · rw [List.append_assoc]
      · split_ifs
        · rfl
        · rw [List.append_assoc]
  unfold compare
  congr 1; funext nodesA
  congr 1; funext nodesB
  congr 1; funext diffs
  rw [hstart, nodeDiffs]
  dsimp only
  rw [List.append_assoc]

variable {A B : Callgraph}

theorem Summarised.keyed {g : Callgraph} {nodes : UMap String NodeSummary}
    (h : Summarised dump sortJson ignoredMdKeys order mode g nodes) : Keyed nodes := by
  intro k s hs
  have hrel := h k
  rw [hs] at hrel
  cases hf : firstNode g k with
  | none => rw [hf] at hrel; cases hrel
  | some n =>
    rw [hf] at hrel
    cases hrel with
    | some hsum => rw [hsum.name, (firstNode_eq_some hf).2]

/-- The first nodes of every name look alike, or no graph has the name. -/
def FirstsAlike (A B : Callgraph) : Prop :=
  ∀ name, Option.Rel (LooksAlike dump sortJson ignoredMdKeys order mode A B) (firstNode A name) (firstNode B name)

theorem FirstsAlike.symm {A B : Callgraph} (h : FirstsAlike dump sortJson ignoredMdKeys order mode A B) :
    FirstsAlike dump sortJson ignoredMdKeys order mode B A := by
  intro name
  have hrel := h name
  generalize firstNode A name = fA at hrel ⊢
  generalize firstNode B name = fB at hrel ⊢
  cases hrel with
  | none => exact .none
  | some halike => exact .some halike.symm

theorem looksAlike_iff_lookup {nodesA nodesB : UMap String NodeSummary}
    (hA : Summarised dump sortJson ignoredMdKeys order mode A nodesA)
    (hB : Summarised dump sortJson ignoredMdKeys order mode B nodesB) (name : String) :
    Option.Rel (LooksAlike dump sortJson ignoredMdKeys order mode A B) (firstNode A name) (firstNode B name) ↔
      Option.Rel (fun a b => sameSummary mode b a = true) (nodesA.lookup name) (nodesB.lookup name) := by
  have hrelA := hA name
  have hrelB := hB name
  generalize firstNode A name = fA at hrelA ⊢
  generalize firstNode B name = fB at hrelB ⊢
  generalize nodesA.lookup name = lA at hrelA ⊢
  generalize nodesB.lookup name = lB at hrelB ⊢
  cases hrelA with
  | none =>
    cases hrelB with
    | none => exact iff_of_true .none .none
    | some hb => exact iff_of_false (fun h => by cases h) (fun h => by cases h)
  | some ha =>
    cases hrelB with
    | none => exact iff_of_false (fun h => by cases h) (fun h => by cases h)
    | some hb =>
      have hsame := sameSummary_iff dump sortJson ignoredMdKeys order mode ha hb
      constructor
      · rintro (h | h)
        exact .some (hsame.mpr h)
      · rintro (h | h)
        exact .some (hsame.mp h)

/-- Without a difference every name has two summaries that the comparator takes for the same, or none. -/
theorem not_differs_iff {nodesA nodesB : UMap String NodeSummary} (hA : Keyed nodesA) (hB : Keyed nodesB) :
    (∀ d, ¬ Differs order mode nodesA nodesB d) ↔
      ∀ name, Option.Rel (fun a b => sameSummary mode b a = true) (nodesA.lookup name) (nodesB.lookup name) := by
  constructor
  · intro hnone name
    cases ha : nodesA.lookup name with
    | none =>
      cases hb : nodesB.lookup name with
      | none => exact .none
      | some b =>
        have hname := hB name b hb
        exact absurd (.onlyInB b (by rw [hname, hb]) (by rw [hname, ha])) (hnone _)
    | some a =>
      have hname := hA name a ha
      cases hb : nodesB.lookup name with
      | none => exact absurd (.onlyInA a (by rw [hname, ha]) (by rw [hname, hb])) (hnone _)
      | some b =>
        refine .some ?_
        by_contra hdiff
        exact hnone _ (.inBoth a b (by rw [hname, ha]) (by rw [hname, hb]) (by simpa using hdiff))
  · intro hsame d hd
    cases hd with
    | onlyInA a ha hb =>
      have hrel := hsame a.name
      rw [ha, hb] at hrel
      cases hrel
    | onlyInB b hb ha =>
      have hrel := hsame b.name
      rw [ha, hb] at hrel
      cases hrel
    | inBoth a b ha hb hdiff =>
      have hrel := hsame a.name
      rw [ha, hb] at hrel
      cases hrel with
      | some h => simp [hdiff] at h

/-- Nothing is reported iff both graphs can be read, their global metadata reads alike and their first
nodes of every name look alike. -/
theorem compare_eq_nil_iff (hA : A.Wf) (hB : B.Wf) : compare dump sortJson ignoredMdKeys order mode A B = .ok [] ↔
    (Readable mode A ∧ Readable mode B) ∧ GlobalsAlike dump ignoredMdKeys mode A B ∧
      FirstsAlike dump sortJson ignoredMdKeys order mode A B := by
  have hnodes : ∀ {nodesA nodesB}, Summarised dump sortJson ignoredMdKeys order mode A nodesA →
      Summarised dump sortJson ignoredMdKeys order mode B nodesB →
      (nodeDiffs order mode nodesA nodesB = [] ↔ FirstsAlike dump sortJson ignoredMdKeys order mode A B) := by
    intro nodesA nodesB hsA hsB
    rw [List.eq_nil_iff_forall_not_mem]
    simp only [mem_nodeDiffs order mode hsA.keyed hsB.keyed]
    rw [not_differs_iff order mode hsA.keyed hsB.keyed]
    exact forall_congr' fun name => (looksAlike_iff_lookup dump sortJson ignoredMdKeys order mode hsA hsB name).symm
  rw [compare_eq]
  constructor
  · intro h
    obtain ⟨nodesA, hrunA, h⟩ := bind_eq_ok.mp h
    obtain ⟨nodesB, hrunB, h⟩ := bind_eq_ok.mp h
    obtain ⟨diffs, hglobals, h⟩ := bind_eq_ok.mp h
    obtain ⟨hreadA, hsA⟩ := collectNodeSummaries_eq_ok dump sortJson ignoredMdKeys order mode hA hrunA
    obtain ⟨hreadB, hsB⟩ := collectNodeSummaries_eq_ok dump sortJson ignoredMdKeys order mode hB hrunB
    obtain ⟨rfl, hnil⟩ := List.append_eq_nil_iff.mp (Except.ok.inj h)
    exact ⟨⟨hreadA, hreadB⟩, (compareGlobals_eq_nil_iff dump ignoredMdKeys mode).mp hglobals, (hnodes hsA hsB).mp hnil⟩
  · rintro ⟨⟨hreadA, hreadB⟩, hglobals, hfirsts⟩
    obtain ⟨nodesA, hrunA⟩ := collectNodeSummaries_total dump sortJson ignoredMdKeys order mode hA hreadA
    obtain ⟨nodesB, hrunB⟩ := collectNodeSummaries_total dump sortJson ignoredMdKeys order mode hB hreadB
    have hsA := (collectNodeSummaries_eq_ok dump sortJson ignoredMdKeys order mode hA hrunA).2
    have hsB := (collectNodeSummaries_eq_ok dump sortJson ignoredMdKeys order mode hB hrunB).2
    rw [hrunA, ok_bind, hrunB, ok_bind, (compareGlobals_eq_nil_iff dump ignoredMdKeys mode).mpr hglobals, ok_bind,
      (hnodes hsA hsB).mpr hfirsts]
    rfl

theorem compare_isOk (hA : A.Wf) (hB : B.Wf) : (∃ diffs, compare dump sortJson ignoredMdKeys order mode A B = .ok diffs) ↔
    (Readable mode A ∧ Readable mode B) ∧
      (mode.ignoreGlobalMetadata = false → ∀ key ∉ ignoredMdKeys, GlobalReadable dump A B key) := by
  rw [compare_eq]
  constructor
  · rintro ⟨diffs, h⟩
    obtain ⟨nodesA, hrunA, h⟩ := bind_eq_ok.mp h
    obtain ⟨nodesB, hrunB, h⟩ := bind_eq_ok.mp h
    obtain ⟨globals, hglobals, -⟩ := bind_eq_ok.mp h
    exact ⟨⟨(collectNodeSummaries_eq_ok dump sortJson ignoredMdKeys order mode hA hrunA).1,
      (collectNodeSummaries_eq_ok dump sortJson ignoredMdKeys order mode hB hrunB).1⟩,
      fun hmode => (compareGlobals_eq_ok dump ignoredMdKeys mode hmode hglobals).1⟩
  · rintro ⟨⟨hreadA, hreadB⟩, hglobals⟩
    obtain ⟨nodesA, hrunA⟩ := collectNodeSummaries_total dump sortJson ignoredMdKeys order mode hA hreadA
    obtain ⟨nodesB, hrunB⟩ := collectNodeSummaries_total dump sortJson ignoredMdKeys order mode hB hreadB
    obtain ⟨globals, hrun⟩ := compareGlobals_total dump ignoredMdKeys mode hglobals
    rw [hrunA, ok_bind, hrunB, ok_bind, hrun]
    exact ⟨_, rfl⟩

/-- The keys that are reported, whatever the nodes are. -/
theorem reported_of_compare (hmode : mode.ignoreGlobalMetadata = false) (hA : A.Wf) (hB : B.Wf) {diffs : List Diff}
    (h : compare dump sortJson ignoredMdKeys order mode A B = .ok diffs) (key : String) :
    Reported diffs key ↔ key ∉ ignoredMdKeys ∧ GlobalDiffers dump A B key := by
  rw [compare_eq] at h
  obtain ⟨nodesA, hrunA, h⟩ := bind_eq_ok.mp h
  obtain ⟨nodesB, hrunB, h⟩ := bind_eq_ok.mp h
  obtain ⟨globals, hglobals, h⟩ := bind_eq_ok.mp h
  have hkA := (collectNodeSummaries_eq_ok dump sortJson ignoredMdKeys order mode hA hrunA).2.keyed
  have hkB := (collectNodeSummaries_eq_ok dump sortJson ignoredMdKeys order mode hB hrunB).2.keyed
  have hnodes : ¬ Reported (nodeDiffs order mode nodesA nodesB) key := by
    rintro ⟨g, hg, -⟩
    generalize hd : Diff.globalMD g = d at hg
    cases (mem_nodeDiffs order mode hkA hkB d).mp hg <;> cases hd
  rw [← Except.ok.inj h, reported_append, or_iff_left hnodes]
  exact (compareGlobals_eq_ok dump ignoredMdKeys mode hmode hglobals).2.2 key

/-- The kinds of difference of a node that both graphs have. -/
def differenceKinds : List String := ["differentBody", "differentEdges", "differentEdgeMetadata", "differentMetadata"]

theorem createNodeDiff_kinds (a b : NodeSummary) : ∀ kind ∈ (createNodeDiff order mode a b).diffType, kind ∈ differenceKinds := by
  have hone : ∀ (c : Bool) (k : String), k ∈ differenceKinds → ∀ kind ∈ (if c = true then [k] else []), kind ∈ differenceKinds := by
    intro c k hk kind hkind
    split_ifs at hkind
    · rw [List.mem_singleton.mp hkind]
      exact hk
    · cases hkind
  intro kind hkind
  unfold createNodeDiff at hkind
  dsimp only at hkind
  rw [List.mem_append, List.mem_append, List.mem_append] at hkind
  rcases hkind with ((h | h) | h) | h
  · exact hone _ _ (by decide) kind h
  · exact hone _ _ (by decide) kind h
  · exact hone _ _ (by decide) kind h
  · exact hone _ _ (by decide) kind h

/-- A difference that is reported for a node of both graphs carries a kind of difference. -/
theorem kinds_of_compare (hA : A.Wf) (hB : B.Wf) {diffs : List Diff}
    (h : compare dump sortJson ignoredMdKeys order mode A B = .ok diffs) {nd : NodeDiff} (hnd : .node nd ∈ diffs)
    (hinA : (firstNode A nd.name).isSome = true) (hinB : (firstNode B nd.name).isSome = true) :
    nd.diffType ≠ [] ∧ ∀ kind ∈ nd.diffType, kind ∈ differenceKinds := by
  rw [compare_eq] at h
  obtain ⟨nodesA, hrunA, h⟩ := bind_eq_ok.mp h
  obtain ⟨nodesB, hrunB, h⟩ := bind_eq_ok.mp h
  obtain ⟨globals, hglobals, h⟩ := bind_eq_ok.mp h
  have hsA := (collectNodeSummaries_eq_ok dump sortJson ignoredMdKeys order mode hA hrunA).2
  have hsB := (collectNodeSummaries_eq_ok dump sortJson ignoredMdKeys order mode hB hrunB).2
  rw [← Except.ok.inj h, List.mem_append, mem_nodeDiffs order mode hsA.keyed hsB.keyed] at hnd
  rcases hnd with hnd | hnd
  · obtain ⟨g, hg⟩ := (compareGlobals_globals dump ignoredMdKeys mode hglobals) _ hnd
    cases hg
  · generalize hd : Diff.node nd = d at hnd
    cases hnd with
    | onlyInA a ha hb =>
      cases hd
      rw [hsB.isSome, show (missingNode a "cgA").name = a.name from rfl, hb] at hinB
      cases hinB
    | onlyInB b hb ha =>
      cases hd
      rw [hsA.isSome, show (missingNode b "cgB").name = b.name from rfl, ha] at hinA
      cases hinA
    | inBoth a b ha hb hdiff =>
      cases hd
      refine ⟨?_, createNodeDiff_kinds order mode a b⟩
      have hrelA := hsA a.name
      have hrelB := hsB a.name
      rw [ha] at hrelA
      rw [hb] at hrelB
      generalize hfA : firstNode A a.name = fA at hrelA
      generalize hfB : firstNode B a.name = fB at hrelB
      cases hrelA with
      | some hsumA =>
        cases hrelB with
        | some hsumB =>
          have hname := (firstNode_eq_some hfA).2.trans (firstNode_eq_some hfB).2.symm
          refine createNodeDiff_diffType dump sortJson ignoredMdKeys order mode hA hB hsumA hsumB hname fun halike => ?_
          rw [(sameSummary_iff dump sortJson ignoredMdKeys order mode hsumA hsumB).mpr halike] at hdiff
          cases hdiff

end
end MetaCG.CGDiff
