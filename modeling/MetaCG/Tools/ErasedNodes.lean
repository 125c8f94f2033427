import MetaCG.Graph.History
import MetaCG.Graph.Compact
import MetaCG.Format.DotRoundTrip
import MetaCG.Tools.CGDiffSummaries

/-! Erased nodes in the loops over `getNodes()`.

An erased node leaves a null slot. `Callgraph::merge`, `DotGenerator::generate` and the comparison of
`cgdiff` dereference every slot they walk over, so a graph must not have erased nodes when it is handed
to one of them. Without erased nodes none of them meets a null pointer of a slot. -/
namespace MetaCG
open Foundations Callgraph
set_option autoImplicit false
set_option maxHeartbeats 250000
set_option maxRecDepth 120000

/-- The error is not the access to a null slot. -/
def NotNull (e : Exn) : Prop := e ≠ .nullDereference

/-! ## Errors of a merge -/

namespace Callgraph

theorem mappingAtAsserted_errors (msg : String) (mapping : GraphMapping) (id : ℕ) :
    ErrorsIn NotNull (mappingAtAsserted msg mapping id) := by
  unfold mappingAtAsserted
  cases mapping.lookup id with
  | none => exact .error (by simp [NotNull])
  | some t => exact .ok t

theorem notNull_of_opError (e : Exn) (h : MetaData.OpError e) : NotNull e := by
  rcases h with rfl | rfl | rfl | ⟨md, rfl⟩ <;> simp [NotNull]

theorem merge_errors (own md : MetaData) (action : Option MergeAction) (mapping : GraphMapping) :
    ErrorsIn NotNull (own.merge md action mapping) := (own.merge_opErrors md action mapping).mono notNull_of_opError

theorem cloneMapped_errors (md : MetaData) (mapping : GraphMapping) : ErrorsIn NotNull (md.cloneMapped mapping) :=
  (md.cloneMapped_opErrors mapping).mono notNull_of_opError

theorem getNode_errors (g : Callgraph) (id : ℕ) : ErrorsIn NotNull (g.getNode id) := by
  unfold getNode
  split_ifs
  · exact .ok none
  · cases g.nodes[id]? with
    | none => exact .error (by simp [NotNull])
    | some p => exact .ok p

theorem mergeByName_errors (g : Callgraph) (node : CgNode) : ErrorsIn NotNull (mergeByName g node) := by
  unfold mergeByName
  cases g.getNodesNamed node.functionName with
  | nil => exact .ok none
  | cons front rest =>
    refine (getNode_errors g front).bind fun p _ => ?_
    cases p with
    | none => exact .error (by simp [NotNull])
    | some t =>
      simp only
      split_ifs
      · exact .ok _
      · exact .ok _

theorem insert_errors (g : Callgraph) (f : String) (o : Option String) (v b : Bool) : ErrorsIn NotNull (g.insert f o v b) := by
  unfold Callgraph.insert
  split_ifs
  · exact .error (by simp [NotNull])
  · exact .ok _

theorem addEdge_errors (g : Callgraph) (u v : ℕ) : ErrorsIn NotNull (g.addEdge u v) := by
  refine (getNode_errors g u).bind fun p _ => ?_
  cases p with
  | none => exact .ok _
  | some n =>
    refine (getNode_errors g v).bind fun q _ => ?_
    cases q with
    | none => exact .ok _
    | some m => exact .ok _

theorem mergeNode_errors (st : Callgraph × MergeRecorder) (node : CgNode) :
    ErrorsIn (fun e => NotNull e.1) (mergeNode mergeByName st (some node)) := by
  refine (mergeByName_errors st.1 node).guard fun m _ => ?_
  cases m with
  | none => exact (insert_errors _ _ _ _ _).guard fun r _ => .ok _
  | some action =>
    refine (getNode_errors _ _).guard fun p _ => ?_
    cases p with
    | none => exact .error (by simp [NotNull])
    | some t => exact .ok _

theorem mergeEdge_errors (r : MergeRecorder) (g : Callgraph) (edge : (ℕ × ℕ) × NamedMetadata) :
    ErrorsIn (fun e => NotNull e.1) (mergeEdge r g edge) := by
  refine (mappingAtAsserted_errors _ _ _).guard fun u _ => (mappingAtAsserted_errors _ _ _).guard fun v _ => ?_
  refine ErrorsIn.bind ?_ fun g' _ => .foldlM (fun g'' md _ => ?_) g'
  · unfold ensureEdge
    split_ifs
    · exact .ok g
    · exact (addEdge_errors g u v).guard fun _ _ => .ok _
  · unfold mergeEdgeMetaData
    cases g''.getEdgeMetaData (u, v) md.1 with
    | none => exact (cloneMapped_errors _ _).guard fun _ _ => .ok _
    | some own =>
      cases r.getAction edge.1.1 with
      | none => exact .error (by simp [NotNull])
      | some action => exact (merge_errors _ _ _ _).guard fun _ _ => .ok _

theorem mergeNodeMetaData_errors (r : MergeRecorder) (g : Callgraph) (node : CgNode) :
    ErrorsIn (fun e => NotNull e.1) (mergeNodeMetaData r g (some node)) := by
  refine (mappingAtAsserted_errors _ _ _).guard fun t _ => (getNode_errors g t).guard fun p _ => ?_
  cases p with
  | none => exact .error (by simp [NotNull])
  | some m =>
    refine .foldlM (fun g' md _ => ?_) g
    unfold mergeNodeMetaEntry
    cases g'.nodeMeta t md.1 with
    | none => exact (cloneMapped_errors _ _).guard fun _ _ => .ok _
    | some own =>
      cases r.getAction node.id with
      | none => exact .error (by simp [NotNull])
      | some action => exact (merge_errors _ _ _ _).guard fun _ _ => .ok _

theorem mergeGlobalMetaData_errors (r : MergeRecorder) (g : Callgraph) (md : String × MetaData) :
    ErrorsIn (fun e => NotNull e.1) (mergeGlobalMetaData r g md) := by
  unfold mergeGlobalMetaData
  cases g.metaFields.lookup md.1 with
  | none => exact (cloneMapped_errors _ _).guard fun _ _ => .ok _
  | some own => exact (merge_errors _ _ _ _).guard fun _ _ => .ok _

/-- Without erased slots in the source a merge does not meet a null pointer. -/
theorem NoErased.merge_errors {g : Callgraph} (hn : g.NoErased) (T : Callgraph) :
    ErrorsIn (fun e => NotNull e.1) (merge mergeByName T g) := by
  have hsome : ∀ p ∈ g.nodes, ∃ node, p = some node := fun p hp => Option.ne_none_iff_exists'.mp (hn p hp)
  have hnodes : ErrorsIn (fun e => NotNull e.1) (mergeNodes mergeByName T g) := by
    refine .foldlM (fun st p hp => ?_) _
    obtain ⟨node, rfl⟩ := hsome p hp
    exact mergeNode_errors st node
  have hrest : ∀ r T', ErrorsIn (fun e => NotNull e.1) (mergeRest r g T') := by
    intro r T'
    refine (ErrorsIn.foldlM (fun g' e _ => mergeEdge_errors r g' e) T').bind fun g₁ _ => ?_
    refine (ErrorsIn.foldlM (fun g' p hp => ?_) g₁).bind fun g₂ _ => ?_
    · obtain ⟨node, rfl⟩ := hsome p hp
      exact mergeNodeMetaData_errors r g' node
    · exact (ErrorsIn.foldlM (fun g' md _ => mergeGlobalMetaData_errors r g' md) g₂).bind fun _ _ => .ok _
  unfold merge
  cases hr : mergeNodes mergeByName T g with
  | error e => exact .error (hnodes e hr)
  | ok st =>
    cases hr' : mergeRest st.2 g st.1 with
    | error e =>
      simp only [hr']
      exact .error (hrest st.2 st.1 e hr')
    | ok g' =>
      simp only [hr']
      exact .ok _

end Callgraph

/-! ## The DOT generator -/

theorem Dot.generate_erased {g : Callgraph} (h : g.Wf) (hn : ¬ g.NoErased) (outputSorted : Bool) (order : Dot.HashOrder) :
    Dot.generate g outputSorted order = .error .nullDereference := by
  have hnull : none ∈ g.nodes := by
    by_contra hnot
    exact hn fun p hp he => hnot (he ▸ hp)
  obtain ⟨st, -, hrun⟩ := foldlM_stops (f := Dot.fillNode g order) (s := ([], []))
    (I := fun st => ∃ pre, Dot.Filled g pre st) (l := g.nodes) ⟨[], rfl, fun e he => absurd he List.not_mem_nil, fun e _ he => by
      obtain ⟨n, hmem, -⟩ := he
      exact absurd hmem List.not_mem_nil⟩
    (fun st p _ hne hst => by
      obtain ⟨node, rfl⟩ := Option.ne_none_iff_exists'.mp hne
      obtain ⟨pre, hpre⟩ := hst
      obtain ⟨st', hstep, hfilled⟩ := Dot.fillNode_spec h order hpre node
      exact ⟨st', hstep, _, hfilled⟩)
    (fun st => ⟨_, rfl⟩) hnull
  unfold Dot.generate Dot.dotContents Dot.fillNodesAndEdges
  rw [hrun]
  rfl

/-! ## The comparison -/

namespace CGDiff

theorem getStrFromNode_errors {g : Callgraph} (hn : g.NoErased) (id : ℕ) : ErrorsIn NotNull (getStrFromNode g id) := by
  unfold getStrFromNode
  split_ifs
  · exact .error (by simp [NotNull])
  · cases hp : g.nodes[id]? with
    | none => exact .error (by simp [NotNull])
    | some p =>
      cases p with
      | none => exact absurd rfl (hn none (List.mem_of_getElem? hp))
      | some node => exact .ok _

theorem toJson_errors {nodeToStr : ℕ → Except Exn String} (h : ∀ i, ErrorsIn NotNull (nodeToStr i)) (md : MetaData) :
    ErrorsIn NotNull (md.toJson nodeToStr) := by
  cases md with
  | override md =>
    exact (ErrorsIn.mapM fun i _ => h i).bind fun _ _ => (ErrorsIn.mapM fun i _ => h i).bind fun _ _ => .ok _
  | entryFunction md =>
    obtain ⟨_ | id⟩ := md
    · exact .ok _
    · exact (h id).bind fun _ _ => .ok _
  | _ => exact .ok _

section
variable (dump : Json → String) (sortJson : List Json → List Json) (ignoredMdKeys : List String) (order : Dot.HashOrder)
  (mode : ComparisonMode)

theorem collectNode_errors {g : Callgraph} (h : g.Wf) (hn : g.NoErased) (nodes : UMap String NodeSummary) (node : CgNode) :
    ErrorsIn NotNull (collectNode dump sortJson ignoredMdKeys order mode g nodes (some node)) := by
  have hjson : ∀ md : MetaData, ErrorsIn NotNull (md.toJson (getStrFromNode g)) := toJson_errors (getStrFromNode_errors hn)
  have hlive : ∀ i ∈ order.neighbours (g.callees node.id), g.hasNode i = true := fun i hi =>
    (h.edge_live node.id i ((Dot.mem_calleeNeighbours h order node.id i).mp hi)).2
  rw [collectNode, Dot.getNeighbours_eq hlive, ok_bind, calleeNames_eq g hlive, ok_bind]
  refine ErrorsIn.bind ?_ fun edgeMetaData _ => ErrorsIn.bind ?_ fun nodeMetadata _ => .ok _
  · unfold collectAllEdgeMetaData
    split_ifs
    · exact .ok _
    · rw [List.foldlM_map]
      refine .foldlM (fun s v hv => ?_) _
      rw [collectEdgeMetaData_eq dump ignoredMdKeys h ((Dot.mem_calleeNeighbours h order node.id v).mp hv)]
      exact (ErrorsIn.foldlM (fun emd md _ => (hjson md.2).bind fun _ _ => .ok _) _).bind fun _ _ => .ok _
  · unfold collectNodeMetaData
    split_ifs
    · exact .ok _
    · exact .foldlM (fun set md _ => (hjson md.2).bind fun _ _ => .ok _) _

theorem collectNodeSummaries_errors {g : Callgraph} (h : g.Wf) (hn : g.NoErased) :
    ErrorsIn NotNull (collectNodeSummaries dump sortJson ignoredMdKeys order mode g) := by
  refine .foldlM (fun nodes p hp => ?_) _
  obtain ⟨node, rfl⟩ := Option.ne_none_iff_exists'.mp (hn p hp)
  exact collectNode_errors dump sortJson ignoredMdKeys order mode h hn nodes node

/-- Without erased slots in either graph the comparison does not meet a null pointer of a slot. -/
theorem compare_errors {a b : Callgraph} (ha : a.Wf) (hna : a.NoErased) (hb : b.Wf) (hnb : b.NoErased) :
    ErrorsIn NotNull (compare dump sortJson ignoredMdKeys order mode a b) := by
  have hjson : ∀ {g : Callgraph}, g.NoErased → ∀ md : MetaData, ErrorsIn NotNull (md.toJson (getStrFromNode g)) :=
    fun hn => toJson_errors (getStrFromNode_errors hn)
  refine (collectNodeSummaries_errors dump sortJson ignoredMdKeys order mode ha hna).bind fun nodesA _ =>
    (collectNodeSummaries_errors dump sortJson ignoredMdKeys order mode hb hnb).bind fun nodesB _ =>
      ErrorsIn.bind ?_ fun diffs _ => .ok _
  unfold compareGlobals
  split_ifs
  · exact .ok _
  · refine (ErrorsIn.foldlM (fun diffs md _ => ?_) _).bind fun diffs _ => .foldlM (fun diffs md _ => ?_) diffs
    · unfold compareGlobalA
      split_ifs
      · exact .ok _
      · cases b.metaFields.lookup md.1 with
        | none => exact (hjson hna md.2).bind fun _ _ => .ok _
        | some mdB =>
          refine (hjson hnb md.2).bind fun valueA _ => (hjson hnb mdB).bind fun valueB _ => ?_
          split_ifs
          · exact (hjson hna md.2).bind fun _ _ => (hjson hnb mdB).bind fun _ _ => .ok _
          · exact .ok _
    · unfold compareGlobalB
      split_ifs
      · exact .ok _
      · cases a.metaFields.lookup md.1 with
        | none => exact (hjson hna md.2).bind fun _ _ => .ok _
        | some _ => exact .ok _

end

/-- A comparison of the names, the calls and nothing else. -/
def namesOnly : ComparisonMode := ⟨true, true, true, true, true⟩

theorem nodeReadable_namesOnly (g : Callgraph) (n : CgNode) : NodeReadable namesOnly g n where
  metadata := fun h => by cases h
  edgeMetadata := fun h => by cases h

theorem collectNodeSummaries_erased (dump : Json → String) (sortJson : List Json → List Json) (ignoredMdKeys : List String)
    (order : Dot.HashOrder) {g : Callgraph} (h : g.Wf) (hn : ¬ g.NoErased) :
    collectNodeSummaries dump sortJson ignoredMdKeys order namesOnly g = .error .nullDereference := by
  have hnull : none ∈ g.nodes := by
    by_contra hnot
    exact hn fun p hp he => hnot (he ▸ hp)
  obtain ⟨st, -, hrun⟩ := foldlM_stops (f := collectNode dump sortJson ignoredMdKeys order namesOnly g) (s := ∅)
    (I := fun _ => True) (l := g.nodes) trivial
    (fun nodes p _ hne _ => by
      obtain ⟨node, rfl⟩ := Option.ne_none_iff_exists'.mp hne
      obtain ⟨nodes', hstep⟩ :=
        collectNode_total dump sortJson ignoredMdKeys order namesOnly h (nodeReadable_namesOnly g node) nodes
      exact ⟨nodes', hstep, trivial⟩)
    (fun st => ⟨_, rfl⟩) hnull
  unfold collectNodeSummaries
  rw [hrun]
  rfl

end CGDiff

/-! ## Every consumer needs a graph without erased nodes -/

/-- The merges agree, the recorded ids up to renumbering. -/
def SameMerge (g : Callgraph) : Except (Exn × Callgraph) (MergeRecorder × Callgraph) →
    Except (Exn × Callgraph) (MergeRecorder × Callgraph) → Prop
  | .ok (r, T), .ok (r', T') => T' = T ∧ ∀ i, g.hasNode i = true → r'.mapping.lookup (g.newId i) = r.mapping.lookup i
  | .error e, .error e' => e' = e
  | _, _ => False

/-- Merging `g` into a graph reads no null slot and does what merging the compacted graph does. -/
def MergeHarmless (g : Callgraph) : Prop :=
  ∀ T : Callgraph, T.Wf → ErrorsIn (fun e => NotNull e.1) (merge mergeByName T g) ∧
    SameMerge g (merge mergeByName T g) (merge mergeByName T g.compact)

/-- Drawing `g` reads no null slot and gives a string that the compacted graph can give. -/
def DotHarmless (g : Callgraph) : Prop :=
  ∀ outputSorted order, ErrorsIn NotNull (Dot.generate g outputSorted order) ∧
    ∃ order', Dot.generate g.compact outputSorted order' = Dot.generate g outputSorted order

/-- Comparing `g` with a graph without erased nodes reads no null slot and gives the differences of the
compacted graph, on either side. -/
def DiffHarmless (g : Callgraph) : Prop :=
  ∀ dump sortJson ignoredMdKeys order mode (other : Callgraph), other.Wf → other.NoErased →
    (ErrorsIn NotNull (CGDiff.compare dump sortJson ignoredMdKeys order mode g other) ∧
      CGDiff.compare dump sortJson ignoredMdKeys order mode g.compact other =
        CGDiff.compare dump sortJson ignoredMdKeys order mode g other) ∧
    ErrorsIn NotNull (CGDiff.compare dump sortJson ignoredMdKeys order mode other g) ∧
      CGDiff.compare dump sortJson ignoredMdKeys order mode other g.compact =
        CGDiff.compare dump sortJson ignoredMdKeys order mode other g

theorem SameMerge.refl {g : Callgraph} (hn : g.NoErased) (x : Except (Exn × Callgraph) (MergeRecorder × Callgraph)) :
    SameMerge g x x := by
  cases x with
  | error e => exact rfl
  | ok st => exact ⟨rfl, fun i _ => by rw [hn.newId]⟩

theorem mergeHarmless_iff {g : Callgraph} (h : g.Wf) : MergeHarmless g ↔ g.NoErased := by
  constructor
  · intro hm
    by_contra hn
    obtain ⟨T', hrun⟩ := merge_erased h hn Wf.empty
    exact (hm Callgraph.empty Wf.empty).1 _ hrun rfl
  · intro hn T _
    rw [h.compact_eq hn]
    exact ⟨hn.merge_errors T, .refl hn _⟩

theorem dotHarmless_iff {g : Callgraph} (h : g.Wf) : DotHarmless g ↔ g.NoErased := by
  constructor
  · intro hd
    by_contra hn
    exact (hd true Dot.dedupOrder).1 _ (Dot.generate_erased h hn true Dot.dedupOrder) rfl
  · intro hn outputSorted order
    obtain ⟨names, edges, hrun, -⟩ := Dot.generate_spec h hn outputSorted order
    rw [h.compact_eq hn]
    refine ⟨?_, order, rfl⟩
    rw [hrun]
    exact .ok _

theorem diffHarmless_iff {g : Callgraph} (h : g.Wf) : DiffHarmless g ↔ g.NoErased := by
  constructor
  · intro hd
    by_contra hn
    have herr := (hd (fun _ => "") id [] Dot.dedupOrder CGDiff.namesOnly Callgraph.empty Wf.empty (by decide)).1.1
    refine herr .nullDereference ?_ rfl
    rw [CGDiff.compare, CGDiff.collectNodeSummaries_erased _ _ _ _ h hn]
    rfl
  · intro hn dump sortJson ignoredMdKeys order mode other ho hno
    rw [h.compact_eq hn]
    exact ⟨⟨CGDiff.compare_errors _ _ _ _ _ h hn ho hno, rfl⟩, CGDiff.compare_errors _ _ _ _ _ ho hno h hn, rfl⟩

/-- Erased nodes are harmless to none of the three: each of them needs a graph without erased nodes. -/
theorem erasedHarmless_iff (self : ℕ) (ops : List Op) :
    (MergeHarmless (run self ops) ↔ (run self ops).NoErased) ∧ (DotHarmless (run self ops) ↔ (run self ops).NoErased) ∧
      (DiffHarmless (run self ops) ↔ (run self ops).NoErased) :=
  ⟨mergeHarmless_iff (run_wf self ops), dotHarmless_iff (run_wf self ops), diffHarmless_iff (run_wf self ops)⟩

/-- One function is inserted and erased again. -/
def onlyErased : List Op := [.insert "f" none false true, .erase 0]

theorem onlyErased_harmful :
    ¬ MergeHarmless (run 0 onlyErased) ∧ ¬ DotHarmless (run 0 onlyErased) ∧ ¬ DiffHarmless (run 0 onlyErased) := by
  have hmerge : (match merge mergeByName Callgraph.empty (run 0 onlyErased) with
    | .error (e, _) => decide (e = .nullDereference)
    | .ok _ => false) = true := by decide
  have hdot : Dot.generate (run 0 onlyErased) true Dot.dedupOrder = .error .nullDereference := rfl
  have hdiff : CGDiff.collectNodeSummaries (fun _ => "") id [] Dot.dedupOrder CGDiff.namesOnly (run 0 onlyErased) =
    .error .nullDereference := rfl
  refine ⟨fun h => ?_, fun h => (h true Dot.dedupOrder).1 _ hdot rfl, fun h => ?_⟩
  · have herr := (h Callgraph.empty Wf.empty).1
    cases hrun : merge mergeByName Callgraph.empty (run 0 onlyErased) with
    | ok st => rw [hrun] at hmerge; cases hmerge
    | error e =>
      rw [hrun] at hmerge
      exact herr e hrun (of_decide_eq_true hmerge)
  · refine (h (fun _ => "") id [] Dot.dedupOrder CGDiff.namesOnly Callgraph.empty Wf.empty (by decide)).1.1 .nullDereference
      ?_ rfl
    rw [CGDiff.compare, hdiff]
    rfl

end MetaCG
