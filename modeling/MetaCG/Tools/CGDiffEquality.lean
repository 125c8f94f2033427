import Mathlib.Data.Set.Function
import MetaCG.Format.DotRoundTrip
import MetaCG.Tools.CGDiffCompare

/-! `cgdiff` decides structural equality when function names are unique.

Without colons in the metadata keys a printed pair of key and value can be split again, so the sets of
strings agree iff the pairs do. With unique names the first node of a name is the only one, and pairing
the nodes by name is a bijection. -/
namespace MetaCG.CGDiff
open Foundations Callgraph
set_option autoImplicit false
set_option maxHeartbeats 250000
set_option maxRecDepth 120000

/-! ## Printed pairs -/

/-- The metadata keys on nodes and edges have no colon. -/
structure PlainKeys (g : Callgraph) : Prop where
  node : ∀ n ∈ g.liveNodes, ∀ e ∈ UMap.toPairs n.metaFields, ':' ∉ e.1.toList
  edge : ∀ p ∈ UMap.toPairs g.edges, ∀ e ∈ UMap.toPairs p.2, ':' ∉ e.1.toList

theorem eq_of_colon {x x' z z' : List Char} (hx : ':' ∉ x) (hx' : ':' ∉ x') (h : x ++ ':' :: z = x' ++ ':' :: z') :
    x = x' ∧ z = z' := by
  have hcut : ∀ {x : List Char} (z : List Char), ':' ∉ x → (x ++ ':' :: z).takeWhile (fun c => decide (c ≠ ':')) = x := by
    intro x z hx
    have hpos : ∀ c ∈ x, decide (c ≠ ':') = true := fun c hc => decide_eq_true fun he => hx (he ▸ hc)
    rw [List.takeWhile_append_of_pos hpos]
    simp
  have hkey : x = x' := by rw [← hcut z hx, ← hcut z' hx', h]
  rw [hkey] at h
  exact ⟨hkey, List.tail_eq_of_cons_eq (List.append_cancel_left h)⟩

theorem text_inj {dump : Json → String} {e e' : String × Json} (hk : ':' ∉ e.1.toList) (hk' : ':' ∉ e'.1.toList)
    (h : text dump e = text dump e') : e.1 = e'.1 ∧ dump e.2 = dump e'.2 := by
  have hlist := congrArg String.toList h
  simp only [text, String.toList_append, List.append_assoc] at hlist
  obtain ⟨hkey, hvalue⟩ := eq_of_colon hk hk' hlist
  exact ⟨String.toList_injective hkey, String.toList_injective hvalue⟩

section
variable (dump : Json → String) (sortJson : List Json → List Json) (ignoredMdKeys : List String) (order : Dot.HashOrder)
  (mode : ComparisonMode)

/-- The values of the metadata on nodes and edges, as they are printed. -/
def printed (g : Callgraph) : List Json :=
  (g.liveNodes.flatMap fun n => (UMap.toPairs n.metaFields).map fun e => sortArrays sortJson (e.2.encode (nameIn g))) ++
    (UMap.toPairs g.edges).flatMap fun p => (UMap.toPairs p.2).map fun e => e.2.encode (nameIn g)

/-- The pairs that can be split again. -/
def Splits (values : List Json) : Set (String × Json) := {e | ':' ∉ e.1.toList ∧ e.2 ∈ values}

theorem text_injOn {dump : Json → String} {values : List Json} (h : Set.InjOn dump {j | j ∈ values}) :
    Set.InjOn (text dump) (Splits values) := by
  intro e he e' he' htext
  obtain ⟨hkey, hvalue⟩ := text_inj he.1 he'.1 htext
  exact Prod.ext hkey (h he.2 he'.2 hvalue)

theorem texts_eq_iff {dump : Json → String} {values : List Json} (h : Set.InjOn dump {j | j ∈ values})
    {arrange : Json → Json} {A B : Callgraph} {fields fields' : NamedMetadata}
    (hA : seen ignoredMdKeys arrange A fields ⊆ Splits values) (hB : seen ignoredMdKeys arrange B fields' ⊆ Splits values) :
    texts dump ignoredMdKeys arrange A fields = texts dump ignoredMdKeys arrange B fields' ↔
      seen ignoredMdKeys arrange A fields = seen ignoredMdKeys arrange B fields' :=
  (text_injOn h).image_eq_image_iff hA hB

theorem seen_node_subset {g : Callgraph} (h : PlainKeys g) {n : CgNode} (hn : n ∈ g.liveNodes) {values : List Json}
    (hv : ∀ j ∈ printed sortJson g, j ∈ values) : seen ignoredMdKeys (sortArrays sortJson) g n.metaFields ⊆ Splits values := by
  rintro ⟨key, value⟩ ⟨-, md, hmd, rfl⟩
  have hmem := (UMap.mem_toPairs key md _).mpr hmd
  refine ⟨h.node n hn (key, md) hmem, hv _ (List.mem_append_left _ (List.mem_flatMap.mpr ⟨n, hn, ?_⟩))⟩
  exact List.mem_map.mpr ⟨(key, md), hmem, rfl⟩

theorem seen_edge_subset {g : Callgraph} (h : PlainKeys g) {u v : ℕ} (huv : (u, v) ∈ g.edges) {values : List Json}
    (hv : ∀ j ∈ printed sortJson g, j ∈ values) : seen ignoredMdKeys id g (g.edgeMeta (u, v)) ⊆ Splits values := by
  obtain ⟨fields, hfields⟩ := (UMap.mem_iff_lookup _ _).mp huv
  have hedge := (UMap.mem_toPairs (u, v) fields _).mpr hfields
  rw [edgeMeta, UMap.getD, hfields, Option.getD_some]
  rintro ⟨key, value⟩ ⟨-, md, hmd, rfl⟩
  have hmem := (UMap.mem_toPairs key md _).mpr hmd
  refine ⟨h.edge _ hedge (key, md) hmem, hv _ (List.mem_append_right _ (List.mem_flatMap.mpr ⟨_, hedge, ?_⟩))⟩
  exact List.mem_map.mpr ⟨(key, md), hmem, rfl⟩

/-! ## Unique names -/

/-- No two live nodes have one name. -/
def UniqueNames (g : Callgraph) : Prop := (g.liveNodes.map CgNode.functionName).Nodup

instance (g : Callgraph) : Decidable (UniqueNames g) := inferInstanceAs (Decidable (List.Nodup _))

theorem UniqueNames.eq_of_name {g : Callgraph} (h : UniqueNames g) {n m : CgNode} (hn : n ∈ g.liveNodes) (hm : m ∈ g.liveNodes)
    (hname : n.functionName = m.functionName) : n = m := List.inj_on_of_nodup_map h hn hm hname

theorem firstNode_eq_some_iff {g : Callgraph} (h : UniqueNames g) {name : String} {n : CgNode} :
    firstNode g name = some n ↔ n ∈ g.liveNodes ∧ n.functionName = name := by
  refine ⟨firstNode_eq_some, ?_⟩
  rintro ⟨hn, rfl⟩
  cases hf : firstNode g n.functionName with
  | none =>
    have hnone := List.find?_eq_none.mp hf n hn
    simp at hnone
  | some m =>
    obtain ⟨hm, hname⟩ := firstNode_eq_some hf
    rw [h.eq_of_name hm hn hname]

theorem firstCallee_eq_some {g : Callgraph} (h : g.Wf) {u v : ℕ} {c : String} (hf : firstCallee order g u c = some v) :
    (u, v) ∈ g.edges ∧ g.nameOf v = some c := by
  unfold firstCallee at hf
  exact ⟨(Dot.mem_calleeNeighbours h order u v).mp (List.mem_of_find?_eq_some hf), by simpa using List.find?_some hf⟩

theorem firstCallee_eq_some_iff {g : Callgraph} (h : g.Wf) (hd : UniqueNames g) {u v : ℕ} {c : String} :
    firstCallee order g u c = some v ↔ (u, v) ∈ g.edges ∧ g.nameOf v = some c := by
  refine ⟨firstCallee_eq_some order h, ?_⟩
  rintro ⟨hv, hname⟩
  obtain ⟨w, hw⟩ := Option.isSome_iff_exists.mp ((firstCallee_isSome order h u c).mpr ⟨v, hv, hname⟩)
  obtain ⟨-, hname'⟩ := firstCallee_eq_some order h hw
  obtain ⟨n, hn, hnn⟩ := Option.map_eq_some_iff.mp hname
  obtain ⟨m, hm, hmn⟩ := Option.map_eq_some_iff.mp hname'
  have heq := hd.eq_of_name ((g.mem_liveNodes n).mpr ⟨v, hn⟩) ((g.mem_liveNodes m).mpr ⟨w, hm⟩) (hnn.trans hmn.symm)
  rw [hw, ← h.node_id v n hn, ← h.node_id w m hm, heq]

/-! ## Structural equality -/

/-- The aspects of two nodes that are not ignored agree. -/
structure Agree (A B : Callgraph) (n m : CgNode) : Prop where
  hasBody : mode.ignoreBody = false → n.hasBody = m.hasBody
  callees : mode.ignoreEdges = false → ∀ c, CallsNamed A n.id c ↔ CallsNamed B m.id c
  metadata : mode.ignoreMetadata = false →
    seen ignoredMdKeys (sortArrays sortJson) A n.metaFields = seen ignoredMdKeys (sortArrays sortJson) B m.metaFields
  edgeMetadata : mode.ignoreEdges = false → mode.ignoreEdgeMetadata = false →
    ∀ v w, (n.id, v) ∈ A.edges → (m.id, w) ∈ B.edges → A.nameOf v = B.nameOf w →
      seen ignoredMdKeys id A (A.edgeMeta (n.id, v)) = seen ignoredMdKeys id B (B.edgeMeta (m.id, w))

/-- A bijection of the nodes keeps names and the aspects that are not ignored. -/
def StructurallyEqual (A B : Callgraph) : Prop :=
  ∃ f : CgNode → CgNode, Set.BijOn f {n | n ∈ A.liveNodes} {m | m ∈ B.liveNodes} ∧
    ∀ n ∈ A.liveNodes, (f n).functionName = n.functionName ∧ Agree sortJson ignoredMdKeys mode A B n (f n)

variable {dump sortJson ignoredMdKeys order mode} {A B : Callgraph}

/-- Graphs with unique names, plain keys and values that print differently. -/
structure Comparable (dump : Json → String) (sortJson : List Json → List Json) (A B : Callgraph) : Prop where
  wfA : A.Wf
  wfB : B.Wf
  uniqueA : UniqueNames A
  uniqueB : UniqueNames B
  keysA : PlainKeys A
  keysB : PlainKeys B
  dump : Set.InjOn dump {j | j ∈ printed sortJson A ++ printed sortJson B}

theorem looksAlike_iff (h : Comparable dump sortJson A B) {n m : CgNode} (hn : n ∈ A.liveNodes) (hm : m ∈ B.liveNodes)
    (hname : n.functionName = m.functionName) :
    LooksAlike dump sortJson ignoredMdKeys order mode A B n m ↔ Agree sortJson ignoredMdKeys mode A B n m := by
  have hvA : ∀ j ∈ printed sortJson A, j ∈ printed sortJson A ++ printed sortJson B := fun j hj => List.mem_append_left _ hj
  have hvB : ∀ j ∈ printed sortJson B, j ∈ printed sortJson A ++ printed sortJson B := fun j hj => List.mem_append_right _ hj
  have hnode := texts_eq_iff ignoredMdKeys h.dump (seen_node_subset sortJson ignoredMdKeys h.keysA hn hvA)
    (seen_node_subset sortJson ignoredMdKeys h.keysB hm hvB)
  have hedge : ∀ {v w}, (n.id, v) ∈ A.edges → (m.id, w) ∈ B.edges → _ := fun hv hw =>
    texts_eq_iff ignoredMdKeys h.dump (seen_edge_subset sortJson ignoredMdKeys h.keysA hv hvA)
      (seen_edge_subset sortJson ignoredMdKeys h.keysB hw hvB)
  constructor
  · intro hl
    refine ⟨hl.hasBody, hl.callees, fun hmode => hnode.mp (hl.metadata hmode), fun hmode hmode' v w hv hw hvw => ?_⟩
    obtain ⟨p, hp⟩ := (A.hasNode_iff v).mp (h.wfA.edge_live _ v hv).2
    have hc : A.nameOf v = some p.functionName := by rw [nameOf, hp]; rfl
    have heq := hl.edgeMetadata hmode hmode' p.functionName
    rw [(firstCallee_eq_some_iff order h.wfA h.uniqueA).mpr ⟨hv, hc⟩,
      (firstCallee_eq_some_iff order h.wfB h.uniqueB).mpr ⟨hw, hvw ▸ hc⟩] at heq
    exact (hedge hv hw).mp (Option.some.inj heq)
  · intro ha
    refine ⟨hname, ha.hasBody, ha.callees, fun hmode => hnode.mpr (ha.metadata hmode), fun hmode hmode' c => ?_⟩
    have hisSome : (firstCallee order A n.id c).isSome = (firstCallee order B m.id c).isSome := by
      rw [Bool.eq_iff_iff, firstCallee_isSome order h.wfA, firstCallee_isSome order h.wfB]
      exact ha.callees hmode c
    cases hv : firstCallee order A n.id c with
    | none =>
      rw [hv] at hisSome
      have hw : firstCallee order B m.id c = none := Option.not_isSome_iff_eq_none.mp (by rw [← hisSome]; simp)
      rw [hw]
      rfl
    | some v =>
      rw [hv] at hisSome
      obtain ⟨w, hw⟩ := Option.isSome_iff_exists.mp hisSome.symm
      obtain ⟨hv, hcv⟩ := firstCallee_eq_some order h.wfA hv
      obtain ⟨hw', hcw⟩ := firstCallee_eq_some order h.wfB hw
      rw [hw, Option.map_some, Option.map_some, (hedge hv hw').mpr (ha.edgeMetadata hmode hmode' v w hv hw' (hcv.trans hcw.symm))]

/-- Pairing the nodes by name is the only bijection that keeps names. -/
theorem firstsAlike_iff (h : Comparable dump sortJson A B) :
    FirstsAlike dump sortJson ignoredMdKeys order mode A B ↔ StructurallyEqual sortJson ignoredMdKeys mode A B := by
  constructor
  · intro hf
    have hpartner : ∀ n ∈ A.liveNodes, ∃ m, firstNode B n.functionName = some m ∧
        LooksAlike dump sortJson ignoredMdKeys order mode A B n m := by
      intro n hn
      have hrel := hf n.functionName
      rw [(firstNode_eq_some_iff h.uniqueA).mpr ⟨hn, rfl⟩] at hrel
      generalize hm : firstNode B n.functionName = o at hrel
      cases hrel with
      | some halike => exact ⟨_, rfl, halike⟩
    refine ⟨fun n => (firstNode B n.functionName).getD n, ⟨?_, ?_, ?_⟩, fun n hn => ?_⟩
    · intro n hn
      obtain ⟨m, hm, -⟩ := hpartner n hn
      change (firstNode B n.functionName).getD n ∈ B.liveNodes
      rw [hm]
      exact (firstNode_eq_some hm).1
    · intro n hn n' hn' heq
      obtain ⟨m, hm, halike⟩ := hpartner n hn
      obtain ⟨m', hm', halike'⟩ := hpartner n' hn'
      dsimp only at heq
      rw [hm, hm', Option.getD_some, Option.getD_some] at heq
      exact h.uniqueA.eq_of_name hn hn' (by rw [halike.name, halike'.name, heq])
    · intro m hm
      have hrel := hf m.functionName
      have hfm := (firstNode_eq_some_iff h.uniqueB).mpr ⟨hm, rfl⟩
      rw [hfm] at hrel
      generalize hn : firstNode A m.functionName = o at hrel
      cases hrel with
      | @some n _ halike =>
        refine ⟨n, (firstNode_eq_some hn).1, ?_⟩
        dsimp only
        rw [halike.name, hfm, Option.getD_some]
    · obtain ⟨m, hm, halike⟩ := hpartner n hn
      dsimp only
      rw [hm, Option.getD_some]
      exact ⟨halike.name.symm, (looksAlike_iff h hn (firstNode_eq_some hm).1 halike.name).mp halike⟩
  · rintro ⟨f, ⟨hmaps, -, hsurj⟩, hf⟩ name
    cases hn : firstNode A name with
    | some n =>
      obtain ⟨hmem, hname⟩ := firstNode_eq_some hn
      obtain ⟨hname', hagree⟩ := hf n hmem
      have hfn : f n ∈ B.liveNodes := hmaps hmem
      rw [(firstNode_eq_some_iff h.uniqueB).mpr ⟨hfn, hname'.trans hname⟩]
      exact .some ((looksAlike_iff h hmem hfn hname'.symm).mpr hagree)
    | none =>
      cases hm : firstNode B name with
      | none => exact .none
      | some m =>
        obtain ⟨hmem, hname⟩ := firstNode_eq_some hm
        obtain ⟨n, hnA, rfl⟩ := hsurj hmem
        have hfound := (firstNode_eq_some_iff h.uniqueA).mpr ⟨hnA, (hf n hnA).1.symm.trans hname⟩
        rw [hn] at hfound
        cases hfound

theorem Comparable.symm (h : Comparable dump sortJson A B) : Comparable dump sortJson B A where
  wfA := h.wfB
  wfB := h.wfA
  uniqueA := h.uniqueB
  uniqueB := h.uniqueA
  keysA := h.keysB
  keysB := h.keysA
  dump := h.dump.mono fun _ hj => (List.mem_append.mp hj).elim (List.mem_append_right _) (List.mem_append_left _)

theorem StructurallyEqual.symm (order : Dot.HashOrder) (h : Comparable dump sortJson A B)
    (he : StructurallyEqual sortJson ignoredMdKeys mode A B) : StructurallyEqual sortJson ignoredMdKeys mode B A := by
  have hfirsts : FirstsAlike dump sortJson ignoredMdKeys order mode A B := (firstsAlike_iff h).mpr he
  exact (firstsAlike_iff h.symm).mp (hfirsts.symm dump sortJson ignoredMdKeys order mode)

theorem readable_iff {g : Callgraph} (hn : g.NoErased) : Readable mode g ↔ ∀ n ∈ g.liveNodes, NodeReadable mode g n :=
  ⟨fun h => h.node, fun h => ⟨hn, h⟩⟩

/-- The comparison decides structural equality of graphs whose metadata can be read. The verdict does not
depend on the order of the graphs, and differences of nodes that both graphs have carry their kinds. -/
theorem compare_structurallyEqual (dump : Json → String) (sortJson : List Json → List Json) (ignoredMdKeys : List String)
    (mode : ComparisonMode) (hmode : mode.ignoreGlobalMetadata = true) (A B : Callgraph) (hA : A.Wf) (hB : B.Wf)
    (hnA : A.NoErased) (hnB : B.NoErased) (huA : UniqueNames A) (huB : UniqueNames B) (hkA : PlainKeys A)
    (hkB : PlainKeys B) (hdump : Set.InjOn dump {j | j ∈ printed sortJson A ++ printed sortJson B}) (order : Dot.HashOrder) :
    (compare dump sortJson ignoredMdKeys order mode A B = .ok [] ↔
        ((∀ n ∈ A.liveNodes, NodeReadable mode A n) ∧ ∀ m ∈ B.liveNodes, NodeReadable mode B m) ∧
          StructurallyEqual sortJson ignoredMdKeys mode A B) ∧
      (∀ order', compare dump sortJson ignoredMdKeys order mode A B = .ok [] ↔
        compare dump sortJson ignoredMdKeys order' mode B A = .ok []) ∧
      ∀ diffs, compare dump sortJson ignoredMdKeys order mode A B = .ok diffs → ∀ nd, .node nd ∈ diffs →
        (∃ n ∈ A.liveNodes, n.functionName = nd.name) → (∃ m ∈ B.liveNodes, m.functionName = nd.name) →
          nd.diffType ≠ [] ∧ ∀ kind ∈ nd.diffType, kind ∈ differenceKinds := by
  have h : Comparable dump sortJson A B := ⟨hA, hB, huA, huB, hkA, hkB, hdump⟩
  have hglobals : ∀ X Y, GlobalsAlike dump ignoredMdKeys mode X Y := fun X Y hm => by rw [hmode] at hm; cases hm
  have hiff : ∀ order, compare dump sortJson ignoredMdKeys order mode A B = .ok [] ↔
      (Readable mode A ∧ Readable mode B) ∧ StructurallyEqual sortJson ignoredMdKeys mode A B := by
    intro order
    rw [compare_eq_nil_iff dump sortJson ignoredMdKeys order mode hA hB, and_iff_right (hglobals A B), firstsAlike_iff h]
  have hiff' : ∀ order, compare dump sortJson ignoredMdKeys order mode B A = .ok [] ↔
      (Readable mode B ∧ Readable mode A) ∧ StructurallyEqual sortJson ignoredMdKeys mode B A := by
    intro order
    rw [compare_eq_nil_iff dump sortJson ignoredMdKeys order mode hB hA, and_iff_right (hglobals B A), firstsAlike_iff h.symm]
  refine ⟨?_, fun order' => ?_, fun diffs hrun nd hnd hinA hinB => ?_⟩
  · rw [hiff, readable_iff hnA, readable_iff hnB]
  · rw [hiff, hiff', and_comm (a := Readable mode A)]
    exact and_congr_right fun _ => ⟨.symm order h, .symm order h.symm⟩
  · have hfirst : ∀ {g : Callgraph}, (∃ n ∈ g.liveNodes, n.functionName = nd.name) → (firstNode g nd.name).isSome = true := by
      rintro g ⟨n, hn, hname⟩
      rw [firstNode, List.find?_isSome]
      exact ⟨n, hn, decide_eq_true hname⟩
    exact kinds_of_compare dump sortJson ignoredMdKeys order mode hA hB hrun hnd (hfirst hinA) (hfirst hinB)

/-- The values of the example below are numbers. -/
def dumpNumber : Json → String
  | .int z => toString z
  | _ => ""

/-- `main` calls `foo`, which has three statements. -/
def mainFoo : Callgraph := Callgraph.run 0 [.insert "main" none false true, .insert "foo" none false true, .addEdge 0 1,
  .addNodeMetaData 1 (.numStatements 3)]

/-- The same graph with the functions inserted the other way round. -/
def fooMain : Callgraph := Callgraph.run 0 [.insert "foo" none false true, .insert "main" none false true, .addEdge 1 0,
  .addNodeMetaData 0 (.numStatements 3)]

def globalsIgnored : ComparisonMode := ⟨false, false, false, false, true⟩

theorem compare_structurallyEqual_mainFoo : StructurallyEqual id [] globalsIgnored mainFoo fooMain ∧
    compare dumpNumber id [] Dot.dedupOrder globalsIgnored fooMain mainFoo = .ok [] := by
  have hrun : compare dumpNumber id [] Dot.dedupOrder globalsIgnored mainFoo fooMain = .ok [] := rfl
  have hprinted : printed id mainFoo ++ printed id fooMain = [.int 3, .int 3] := rfl
  have hdump : Set.InjOn dumpNumber {j | j ∈ printed id mainFoo ++ printed id fooMain} := by
    rw [hprinted]
    intro j hj j' hj' _
    have hone : ∀ {j : Json}, j ∈ [Json.int 3, Json.int 3] → j = .int 3 := by simp
    rw [hone hj, hone hj']
  obtain ⟨hiff, hcomm, -⟩ := compare_structurallyEqual dumpNumber id [] globalsIgnored rfl mainFoo fooMain
    (Callgraph.run_wf 0 _) (Callgraph.run_wf 0 _) (by decide) (by decide) (by decide) (by decide)
    ⟨by decide, by decide⟩ ⟨by decide, by decide⟩ hdump Dot.dedupOrder
  exact ⟨(hiff.mp hrun).2, (hcomm Dot.dedupOrder).mp hrun⟩

end
end MetaCG.CGDiff
