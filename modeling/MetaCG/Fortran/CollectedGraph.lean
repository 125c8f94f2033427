import MetaCG.Fortran.CallbackEffects
import MetaCG.Pgis.VirtualHierarchy

/-! The graph that the collector returns.

The walk makes the nodes of the procedures of the file, one for each name, and keeps the edges aside. What is returned has the
calls that were kept, and a node for each of their ends. -/
namespace MetaCG.Fortran
open Foundations
set_option autoImplicit false
set_option maxHeartbeats 250000
set_option maxRecDepth 120000

/-- The procedure that a callback makes a node for. -/
def Callback.node {σ : Type} : Callback σ → Option σ
  | .preMainProgram programStmt => programStmt.bind id
  | .postEntryStmt name | .postFunctionStmt name _ | .postSubroutineStmt name _ | .preStmtFunctionStmt name => name
  | _ => none

/-- The name of a procedure that may be missing. -/
def namesOf {σ : Type} (tbl : SymbolTable σ) (s : Option σ) : Set String := {name | s.map tbl.mangleSymbol = some name}

/-- The names of the procedures of a file. -/
def nodesOf {σ : Type} (tbl : SymbolTable σ) (callbacks : List (Callback σ)) : Set String :=
  {name | ∃ c ∈ callbacks, name ∈ namesOf tbl c.node}

section
variable {g g' : Callgraph} {name : String} {i : ℕ}

theorem getOrInsertNode_eq_ok (h : g.Wf) {o : Option String} {v b : Bool} (hrun : g.getOrInsertNode name o v b = .ok (g', i)) :
    name ≠ "" ∧ g'.nameOf i = some name ∧ g.Extends {name} ∅ g' := by
  have hname : name ≠ "" := by
    rintro rfl
    have hnone : g.firstNamed "" = none := by
      refine Option.eq_none_iff_forall_ne_some.mpr fun j hj => ?_
      obtain ⟨n, hn, hempty⟩ := h.slot_firstNamed hj
      exact h.node_name j n hn hempty
    rw [Callgraph.getOrInsertNode, Callgraph.getFirstNode_eq h, ok_bind, hnone] at hrun
    cases hrun
  obtain ⟨g₁, j, hg₁, hj, hext⟩ := h.getOrInsertNode_extends hname o v b
  cases hrun.symm.trans hg₁
  exact ⟨hname, hj, hext⟩

theorem addCollectedEdge_eq_ok (h : g.Wf) {e : Edge} (hrun : addCollectedEdge g e = .ok g') :
    g.Extends {e.caller, e.callee} {(e.caller, e.callee)} g' := by
  obtain ⟨⟨g₁, u⟩, hu, hrun⟩ := bind_eq_ok.mp hrun
  obtain ⟨⟨g₂, v⟩, hv, hrun⟩ := bind_eq_ok.mp hrun
  cases hrun
  obtain ⟨-, hun, hext₁⟩ := getOrInsertNode_eq_ok h hu
  obtain ⟨-, hvn, hext₂⟩ := getOrInsertNode_eq_ok hext₁.wf hv
  have hext := (hext₁.trans hext₂).trans (hext₂.wf.addEdgeRef_extends 0 (hext₂.kept u _ hun) hvn)
  rwa [Set.union_empty, Set.union_empty, Set.empty_union, Set.singleton_union] at hext

/-- The ends of edges. -/
def endsOf (edges : List Edge) : Set String := {name | ∃ e ∈ edges, name = e.caller ∨ name = e.callee}

def callsOf (edges : List Edge) : Set (String × String) := {p | ∃ e ∈ edges, p = (e.caller, e.callee)}

theorem addCollectedEdges_eq_ok (h : g.Wf) {edges : List Edge} (hrun : edges.foldlM addCollectedEdge g = .ok g') :
    g.Extends (endsOf edges) (callsOf edges) g' := by
  refine foldlM_ok_inv (J := fun pre t => g.Extends (endsOf pre) (callsOf pre) t) ?_ (fun pre e t t' _ ht hround => ?_) hrun
  · have hends : endsOf [] = ∅ := Set.eq_empty_of_forall_notMem fun _ h => absurd h.choose_spec.1 List.not_mem_nil
    have hcalls : callsOf [] = ∅ := Set.eq_empty_of_forall_notMem fun _ h => absurd h.choose_spec.1 List.not_mem_nil
    rw [hends, hcalls]
    exact .refl h
  · have hext := ht.trans (addCollectedEdge_eq_ok ht.wf hround)
    have hends : endsOf (pre ++ [e]) = endsOf pre ∪ {e.caller, e.callee} := by
      ext name
      simp only [endsOf, List.mem_append, List.mem_singleton, or_and_right, exists_or, exists_eq_left, Set.mem_union]
      rfl
    have hcalls : callsOf (pre ++ [e]) = callsOf pre ∪ {(e.caller, e.callee)} := by
      ext p
      simp only [callsOf, List.mem_append, List.mem_singleton, or_and_right, exists_or, exists_eq_left, Set.mem_union]
      rfl
    rw [hends, hcalls]
    exact hext

theorem mem_uniqueEdges (l : List Edge) (e : Edge) : e ∈ uniqueEdges l ↔ e ∈ l := by
  induction l using uniqueEdges.induct with
  | case1 => exact Iff.rfl
  | case2 => exact Iff.rfl
  | case3 edges e' ih =>
    rw [uniqueEdges, if_pos rfl, ih]
    simp
  | case4 e₁ e₂ edges hne ih =>
    rw [uniqueEdges, if_neg hne, List.mem_cons, ih, List.mem_cons]
    simp

theorem mem_uniquifyEdges (l : List Edge) (e : Edge) : e ∈ uniquifyEdges l ↔ e ∈ l := by
  rw [uniquifyEdges, mem_uniqueEdges, List.mem_mergeSort]

end

section
variable {σ : Type} [DecidableEq σ] [Fintype σ] {tbl : SymbolTable σ} {opts : Settings} {st st' : State σ}

omit [DecidableEq σ] [Fintype σ] in
theorem extends_of_place (h : st.cg.Wf) (hplace : st'.place = st.place) : st.cg.Extends ∅ ∅ st'.cg := by
  have hcg : st'.cg = st.cg := congrArg Place.cg hplace
  rw [hcg]
  exact .refl h

omit [DecidableEq σ] [Fintype σ] in
theorem setBody_extends (h : st.cg.Wf) (hrun : setBody tbl st = .ok st') : st.cg.Extends ∅ ∅ st'.cg := by
  obtain ⟨current, -, hrun⟩ := bind_eq_ok.mp hrun
  obtain ⟨node, -, hrun⟩ := bind_eq_ok.mp hrun
  cases node with
  | none =>
    cases hrun
    exact .refl h
  | some n =>
    cases hrun
    exact Pgis.updateNode_extends h n.id fun _ => ⟨rfl, rfl⟩

omit [DecidableEq σ] [Fintype σ] in
theorem handleFuncSubStmt_extends {s : σ} (h : st.cg.Wf) (hrun : handleFuncSubStmt tbl opts st s = .ok st') :
    st.cg.Extends {tbl.mangleSymbol s} ∅ st'.cg := by
  obtain ⟨⟨g, i⟩, hg, hrun⟩ := bind_eq_ok.mp hrun
  cases hrun
  exact (getOrInsertNode_eq_ok h hg).2.2

theorem handleDummyArgs_cg {items : List (Option σ)} (hrun : handleDummyArgs tbl st items = .ok st') : st'.cg = st.cg := by
  obtain ⟨current, -, hrun⟩ := bind_eq_ok.mp hrun
  split at hrun
  · cases hrun
    rfl
  · cases hrun
    refine foldl_changes (R := fun s s' => s'.cg = s.cg) (fun _ => rfl) (fun _ _ _ h h' => h'.trans h) (fun s item => ?_) items st
    cases item <;> rfl

theorem handleTrackedVars_cg {current : σ} (hrun : handleTrackedVars tbl st current = .ok st') : st'.cg = st.cg := by
  unfold handleTrackedVars at hrun
  split_ifs at hrun
  · cases hrun
    rfl
  · obtain ⟨acc, -, hrun⟩ := bind_eq_ok.mp hrun
    cases hrun
    rfl

theorem handleEndFuncSubStmt_cg (hrun : handleEndFuncSubStmt tbl st = .ok st') : st'.cg = st.cg := by
  obtain ⟨current, -, hrun⟩ := bind_eq_ok.mp hrun
  obtain ⟨st₁, hvars, hrun⟩ := bind_eq_ok.mp hrun
  cases hrun
  exact (handleTrackedVars_cg hvars : st₁.cg = st.cg)

omit [DecidableEq σ] [Fintype σ] in
theorem namesOf_none : namesOf tbl none = ∅ := Set.eq_empty_of_forall_notMem fun _ h => by cases h

omit [DecidableEq σ] [Fintype σ] in
theorem namesOf_some (s : σ) : namesOf tbl (some s) = {tbl.mangleSymbol s} := by
  ext name
  simp [namesOf, eq_comm]

theorem postFunctionStmt_extends {name : Option σ} {args : List (Option σ)} (h : st.cg.Wf)
    (hrun : postFunctionStmt tbl opts st name args = .ok st') : st.cg.Extends (namesOf tbl name) ∅ st'.cg := by
  obtain ⟨s, hname, hrun⟩ := bind_eq_ok.mp hrun
  obtain ⟨st₁, hsub, hrun⟩ := bind_eq_ok.mp hrun
  rw [handleDummyArgs_cg hrun]
  cases name with
  | none => cases hname
  | some s' =>
    cases hname
    rw [namesOf_some]
    exact handleFuncSubStmt_extends h hsub

omit [DecidableEq σ] [Fintype σ] in
theorem preMainProgram_extends {programStmt : Option (Option σ)} (h : st.cg.Wf)
    (hrun : preMainProgram tbl opts st programStmt = .ok st') : st.cg.Extends (namesOf tbl (programStmt.bind id)) ∅ st'.cg := by
  unfold preMainProgram at hrun
  split at hrun
  · next s =>
    obtain ⟨⟨g, i⟩, hg, hrun⟩ := bind_eq_ok.mp hrun
    cases hrun
    rw [Option.bind_some, id, namesOf_some]
    exact (getOrInsertNode_eq_ok h hg).2.2
  · next hno =>
    cases hrun
    have hnone : programStmt.bind id = none := by
      cases programStmt with
      | none => rfl
      | some s =>
        cases s with
        | none => rfl
        | some s => exact absurd rfl (hno s)
    rw [hnone, namesOf_none]
    exact .refl h

omit [DecidableEq σ] [Fintype σ] in
theorem postEntryStmt_extends {name : Option σ} (h : st.cg.Wf) (hrun : postEntryStmt tbl opts st name = .ok st') :
    st.cg.Extends (namesOf tbl name) ∅ st'.cg := by
  cases name with
  | none =>
    cases hrun
    rw [namesOf_none]
    exact .refl h
  | some s =>
    obtain ⟨⟨g, i⟩, hg, hrun⟩ := bind_eq_ok.mp hrun
    cases hrun
    rw [namesOf_some]
    exact (getOrInsertNode_eq_ok h hg).2.2

omit [DecidableEq σ] [Fintype σ] in
theorem preStmtFunctionStmt_extends {name : Option σ} (h : st.cg.Wf) (hrun : preStmtFunctionStmt tbl opts st name = .ok st') :
    st.cg.Extends (namesOf tbl name) ∅ st'.cg := by
  obtain ⟨s, hname, hrest⟩ := bind_eq_ok.mp hrun
  obtain ⟨st₁, hsub, hbody⟩ := bind_eq_ok.mp hrest
  cases name with
  | none => cases hname
  | some s' =>
    cases hname
    have hext := handleFuncSubStmt_extends h hsub
    have hboth := hext.trans (setBody_extends hext.wf hbody)
    rwa [Set.union_empty, Set.union_empty, ← namesOf_some] at hboth

/-- A callback makes the node of its procedure, and no edge. -/
theorem visit_extends {c : Callback σ} (h : st.cg.Wf) (hrun : visit tbl opts st c = .ok st') :
    st.cg.Extends (namesOf tbl c.node) ∅ st'.cg := by
  have hnone : ∀ {g : Callgraph}, st.cg.Extends ∅ ∅ g → st.cg.Extends (namesOf tbl none) ∅ g := by
    intro g hext
    rwa [namesOf_none]
  have hend : ∀ {st₁ : State σ}, handleEndFuncSubStmt tbl st = .ok st₁ → st.cg.Extends ∅ ∅ st₁.cg := by
    intro st₁ hst₁
    rw [handleEndFuncSubStmt_cg hst₁]
    exact .refl h
  cases hc : c.aboutTypes with
  | true =>
    have hext := hnone (extends_of_place h (visit_changesTypes hc hrun).place)
    cases c <;> first | exact hext | cases hc
  | false =>
    cases c with
    | preMainProgram => exact preMainProgram_extends h hrun
    | postMainProgram =>
      obtain ⟨st₁, hst₁, hrun⟩ := bind_eq_ok.mp hrun
      cases hrun
      exact hnone (hend hst₁ : st.cg.Extends ∅ ∅ st₁.cg)
    | preFunctionSubprogram | postFunctionSubprogram | preSubroutineSubprogram | postSubroutineSubprogram | preInterfaceStmt
    | preEndInterfaceStmt =>
      cases hrun
      exact hnone (.refl h)
    | postExecutionPart =>
      unfold visit postExecutionPart at hrun
      split_ifs at hrun
      · cases hrun
        exact hnone (.refl h)
      · exact hnone (setBody_extends h hrun)
    | postEntryStmt => exact postEntryStmt_extends h hrun
    | postFunctionStmt | postSubroutineStmt => exact postFunctionStmt_extends h hrun
    | postEndFunctionStmt | postEndSubroutineStmt | postStmtFunctionStmt => exact hnone (hend hrun)
    | postProcedureDesignator => exact hnone (extends_of_place h (postProcedureDesignator_changes hrun).place)
    | postAssignmentStmt name =>
      cases hrun
      exact hnone (extends_of_place h (postAssignment_changes st [name]).place)
    | postAllocateStmt names =>
      cases hrun
      exact hnone (extends_of_place h (postAssignment_changes st names).place)
    | postCall => exact hnone (extends_of_place h (postCall_changes hrun).place)
    | postTypeDeclarationStmt => exact hnone (extends_of_place h (postTypeDeclarationStmt_changes hrun).place)
    | postDefinedOperator op =>
      cases hrun
      exact hnone (extends_of_place h (postDefinedOperator_changes st op).place)
    | postProcedureStmt names =>
      cases hrun
      exact hnone (extends_of_place h (postProcedureStmt_changes st names).place)
    | preExpr => exact hnone (extends_of_place h (preExpr_changes hrun).place)
    | postExpr e =>
      cases hrun
      exact hnone (extends_of_place h (postExpr_changes st e).place)
    | preStmtFunctionStmt => exact preStmtFunctionStmt_extends h hrun
    | _ => cases hc

theorem walk_extends {callbacks : List (Callback σ)} (h : st.cg.Wf) (hrun : walk tbl opts st callbacks = .ok st') :
    st.cg.Extends (nodesOf tbl callbacks) ∅ st'.cg := by
  refine foldlM_ok_inv (J := fun pre s => st.cg.Extends (nodesOf tbl pre) ∅ s.cg) ?_ (fun pre c s s' _ hs hround => ?_) hrun
  · have hempty : nodesOf tbl [] = ∅ := Set.eq_empty_of_forall_notMem fun _ h => absurd h.choose_spec.1 List.not_mem_nil
    rw [hempty]
    exact .refl h
  · have hext := hs.trans (visit_extends hs.wf hround)
    have hmore : nodesOf tbl (pre ++ [c]) = nodesOf tbl pre ∪ namesOf tbl c.node := by
      ext name
      simp only [nodesOf, List.mem_append, List.mem_singleton, or_and_right, exists_or, exists_eq_left, Set.mem_union]
      rfl
    rwa [hmore, ← Set.union_empty ∅]

/-- What is returned has the calls that were kept, and one node for each procedure and each end of a call. -/
theorem collect_eq_ok {callbacks : List (Callback σ)} {g : Callgraph} (hrun : collect tbl opts callbacks = .ok g) :
    ∃ st, walk tbl opts (.start .empty) callbacks = .ok st ∧ g.Wf ∧ g.callsNamed = callsOf (allEdges tbl st) ∧
      (∀ name, g.getNodesNamed name ≠ [] ↔ name ∈ nodesOf tbl callbacks ∪ endsOf (allEdges tbl st)) ∧
      ∀ name, (g.getNodesNamed name).length ≤ 1 := by
  obtain ⟨st, hwalk, hpost⟩ := bind_eq_ok.mp hrun
  have hstart := walk_extends Callgraph.Wf.empty hwalk
  have hext := hstart.trans (addCollectedEdges_eq_ok hstart.wf hpost)
  have hends : endsOf (uniquifyEdges (allEdges tbl st)) = endsOf (allEdges tbl st) := by
    simp only [endsOf, mem_uniquifyEdges]
  have hcalls : callsOf (uniquifyEdges (allEdges tbl st)) = callsOf (allEdges tbl st) := by
    simp only [callsOf, mem_uniquifyEdges]
  have hnew : ∀ name, Callgraph.empty.getNodesNamed name = [] := fun _ => rfl
  have hno : Callgraph.empty.callsNamed = ∅ := by
    refine Set.eq_empty_of_forall_notMem fun p hp => ?_
    obtain ⟨u, v, he, -⟩ := hp
    exact absurd he (AList.notMem_empty _)
  rw [hends, hcalls, Set.empty_union] at hext
  refine ⟨st, hwalk, hext.wf, ?_, fun name => ?_, fun name => ?_⟩
  · have hall := hext.calls
    rwa [show (State.start Callgraph.empty : State σ).cg.callsNamed = ∅ from hno, Set.empty_union] at hall
  · rw [hext.named_iff]
    exact or_iff_right fun h => h (hnew name)
  · by_cases hin : name ∈ nodesOf tbl callbacks ∪ endsOf (allEdges tbl st)
    · exact (hext.named name hin).le
    · exact (hext.others name hin).trans_le (Nat.zero_le 1)

/-! ## Arguments that may be finalized -/

/-- Whether the first argument that the called procedure takes has been initialized. -/
def firstInitialized (tbl : SymbolTable σ) (st : State σ) (procedureCalled : String) : Bool :=
  (st.procedures.find? fun f => decide (tbl.mangleSymbol f.symbol = procedureCalled)).any fun called =>
    called.dummyArgs.head?.any DummyArg.hasBeenInitialized

theorem walk_argPos {callbacks : List (Callback σ)} (hrun : walk tbl opts (.start .empty) callbacks = .ok st) :
    ∀ pf ∈ st.potentialFinalizers, pf.argPos = 0 := by
  refine foldlM_ok_inv (J := fun _ (s : State σ) => ∀ pf ∈ s.potentialFinalizers, pf.argPos = 0)
    (fun pf hpf => absurd hpf List.not_mem_nil) (fun _ _ s s' _ hs hround pf hpf => ?_) hrun
  exact (visit_argPos hround pf hpf).elim (hs pf) id

omit [DecidableEq σ] [Fintype σ] in
theorem isInitialized_eq {pf : PotentialFinalizer} (h : pf.argPos = 0) :
    isInitialized tbl st pf = firstInitialized tbl st pf.procedureCalled := by
  unfold isInitialized firstInitialized
  cases st.procedures.find? fun f => decide (tbl.mangleSymbol f.symbol = pf.procedureCalled) with
  | none => rfl
  | some called =>
    rw [Option.any_some, List.head?_eq_getElem?, h]

end
end MetaCG.Fortran
