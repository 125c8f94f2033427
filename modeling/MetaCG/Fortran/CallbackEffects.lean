import MetaCG.Foundations.Outcome
import MetaCG.Fortran.ParseTreeVisitor

/-! What a callback changes.

Each group of callbacks writes to fields of its own: procedures, edges, variables, types or operators. -/
namespace MetaCG.Fortran
open Foundations
set_option autoImplicit false
set_option maxHeartbeats 250000
set_option maxRecDepth 120000

/-- What the collector knows of the types. -/
structure Classes (σ : Type) where
  inDerivedTypeDef : Bool
  types : List (TypeEntry σ)
  procedureOverwrites : UMap (Option σ × String) (List σ)
  finalizers : UMap (Option σ) (List σ)
  typeOperators : UMap (Option σ × String) (List String)

def State.classes {σ : Type} (st : State σ) : Classes σ :=
  ⟨st.inDerivedTypeDef, st.types, st.procedureOverwrites, st.finalizers, st.typeOperators⟩

/-- Where the walk is, and the nodes that it has made. -/
structure Place (σ : Type) where
  cg : Callgraph
  inFunctionOrSubroutineSubProgram : Bool
  inMainProgram : Bool
  currentProcedures : List (Procedure σ)

def State.place {σ : Type} (st : State σ) : Place σ :=
  ⟨st.cg, st.inFunctionOrSubroutineSubProgram, st.inMainProgram, st.currentProcedures⟩

/-- The callback writes to variables only, and adds edges. -/
structure ChangesVariables {σ : Type} (st st' : State σ) : Prop where
  place : st'.place = st.place
  classes : st'.classes = st.classes
  procedures : st'.procedures = st.procedures
  edges : st.edges <+: st'.edges
  argPos : ∀ pf ∈ st'.potentialFinalizers, pf ∈ st.potentialFinalizers ∨ pf.argPos = 0

/-- The callback writes to the types and to what is imported with them. -/
structure ChangesTypes {σ : Type} (st st' : State σ) : Prop where
  place : st'.place = st.place
  edges : st'.edges = st.edges
  trackedVars : st'.trackedVars = st.trackedVars
  exprStmtWithOps : st'.exprStmtWithOps = st.exprStmtWithOps
  potentialFinalizers : st'.potentialFinalizers = st.potentialFinalizers

section
variable {σ : Type} {st st' st'' : State σ}

theorem ChangesVariables.refl (st : State σ) : ChangesVariables st st :=
  ⟨rfl, rfl, rfl, List.prefix_rfl, fun _ h => .inl h⟩

theorem ChangesVariables.trans (h : ChangesVariables st st') (h' : ChangesVariables st' st'') : ChangesVariables st st'' :=
  ⟨h'.place.trans h.place, h'.classes.trans h.classes, h'.procedures.trans h.procedures, h.edges.trans h'.edges,
    fun pf hpf => (h'.argPos pf hpf).elim (h.argPos pf) .inr⟩

theorem ChangesTypes.refl (st : State σ) : ChangesTypes st st := ⟨rfl, rfl, rfl, rfl, rfl⟩

theorem ChangesTypes.trans (h : ChangesTypes st st') (h' : ChangesTypes st' st'') : ChangesTypes st st'' :=
  ⟨h'.place.trans h.place, h'.edges.trans h.edges, h'.trackedVars.trans h.trackedVars,
    h'.exprStmtWithOps.trans h.exprStmtWithOps, h'.potentialFinalizers.trans h.potentialFinalizers⟩

/-- A loop whose rounds are related to where they start. -/
theorem foldl_changes {α : Type} {R : State σ → State σ → Prop} (hrefl : ∀ s, R s s)
    (htrans : ∀ s s' s'', R s s' → R s' s'' → R s s'') {f : State σ → α → State σ} (hf : ∀ s a, R s (f s a)) (l : List α)
    (st : State σ) : R st (l.foldl f st) := by
  induction l generalizing st with
  | nil => exact hrefl st
  | cons a l ih => exact htrans _ _ _ (hf st a) (ih (f st a))

theorem foldlM_changes {α : Type} {R : State σ → State σ → Prop} (hrefl : ∀ s, R s s)
    (htrans : ∀ s s' s'', R s s' → R s' s'' → R s s'') {f : State σ → α → Except Exn (State σ)}
    (hf : ∀ s a s', f s a = .ok s' → R s s') {l : List α} (h : l.foldlM f st = .ok st') : R st st' :=
  foldlM_ok_inv (J := fun _ s => R st s) (hrefl st) (fun _ a s s' _ hs hround => htrans _ _ _ hs (hf s a s' hround)) h

end

section
variable {σ : Type} [DecidableEq σ] [Fintype σ] {tbl : SymbolTable σ} {opts : Settings} {st st' : State σ}

/-! ## Calls and variables -/

theorem postProcedureDesignator_changes {p : ProcedureDesignator σ} (h : postProcedureDesignator tbl opts st p = .ok st') :
    ChangesVariables st st' := by
  unfold postProcedureDesignator at h
  split at h
  · cases h
    exact .refl st
  split at h
  · cases h
    exact .refl st
  · split_ifs at h
    · cases h
      exact .refl st
    · cases h
      exact ⟨rfl, rfl, rfl, List.prefix_append .., fun _ h => .inl h⟩
  · cases h
    exact .refl st
  · dsimp only at h
    split at h
    · cases h
      exact ⟨rfl, rfl, rfl, List.prefix_append .., fun _ h => .inl h⟩
    · obtain ⟨key, -, h⟩ := bind_eq_ok.mp h
      cases h
      exact ⟨rfl, rfl, rfl, (List.prefix_append ..).trans (List.prefix_append ..), fun _ h => .inl h⟩

theorem assigned_changes (current : σ) (st : State σ) (name : Option σ) : ChangesVariables st (assigned tbl current st name) := by
  cases name with
  | none => exact .refl st
  | some sym => exact ⟨rfl, rfl, rfl, List.prefix_rfl, fun _ h => .inl h⟩

theorem postAssignment_changes (st : State σ) (names : List (Option σ)) : ChangesVariables st (postAssignment tbl st names) := by
  unfold postAssignment
  split
  · exact .refl st
  · exact foldl_changes .refl (fun _ _ _ => .trans) (assigned_changes _) names st

theorem handleActualArg_changes {procSymbol current : σ} {arg : Option σ}
    (h : handleActualArg tbl procSymbol current st arg = .ok st') : ChangesVariables st st' := by
  unfold handleActualArg at h
  cases arg with
  | none =>
    cases h
    exact .refl st
  | some sym =>
    dsimp only at h
    split_ifs at h
    · cases h
      exact assigned_changes current st (some sym)
    · split at h
      · cases h
        exact .refl st
      · obtain ⟨edges, -, h⟩ := bind_eq_ok.mp h
        cases h
        refine ⟨rfl, rfl, rfl, List.prefix_rfl, fun pf hpf => ?_⟩
        exact (List.mem_append.mp hpf).imp_right fun hnew => congrArg PotentialFinalizer.argPos (List.mem_singleton.mp hnew)

theorem postCall_changes {procName : Option σ} {args : List (Option σ)} (h : postCall tbl st procName args = .ok st') :
    ChangesVariables st st' := by
  unfold postCall at h
  split at h
  · exact foldlM_changes .refl (fun _ _ _ => .trans) (fun _ _ _ => handleActualArg_changes) h
  · cases h
    exact .refl st

theorem declareEntity_changes {attrs : List AttrSpec} {current : Procedure σ} {name : Option σ}
    (h : declareEntity tbl attrs current st name = .ok st') : ChangesVariables st st' := by
  have htrack : ∀ var, ChangesVariables st { st with trackedVars := addTrackedVar tbl st.trackedVars var } := fun var =>
    ⟨rfl, rfl, rfl, List.prefix_rfl, fun _ h => .inl h⟩
  have hfinalize : ∀ sym, (do return { st with edges := st.edges ++
      (← addEdgesForFinalizers tbl st.types st.finalizers current.symbol sym) } : Except Exn (State σ)) = .ok st' →
      ChangesVariables st st' := by
    intro sym hsym
    obtain ⟨edges, -, hret⟩ := bind_eq_ok.mp hsym
    cases hret
    exact ⟨rfl, rfl, rfl, List.prefix_append .., fun _ h => .inl h⟩
  unfold declareEntity at h
  cases name with
  | none =>
    cases h
    exact .refl st
  | some sym =>
    dsimp only at h
    split_ifs at h
    · cases h
      exact .refl st
    · cases h
      exact .refl st
    · split at h
      · cases h
        exact htrack _
      · exact hfinalize sym h
      · cases h
        exact htrack _
      · cases h
        exact .refl st
    · cases h
      exact htrack _
    · exact hfinalize sym h

theorem postTypeDeclarationStmt_changes {attrs : List AttrSpec} {entities : List (Option σ)}
    (h : postTypeDeclarationStmt tbl st attrs entities = .ok st') : ChangesVariables st st' := by
  unfold postTypeDeclarationStmt at h
  split at h
  · cases h
    exact .refl st
  · exact foldlM_changes .refl (fun _ _ _ => .trans) (fun _ _ _ => declareEntity_changes) h

/-! ## Expressions and interfaces -/

theorem preExpr_changes {e : Expr σ} (h : preExpr tbl st e = .ok st') : ChangesVariables st st' := by
  unfold preExpr at h
  split at h
  · cases h
    exact ⟨rfl, rfl, rfl, List.prefix_rfl, fun _ h => .inl h⟩
  · split at h
    · cases h
      exact .refl st
    · obtain ⟨edges, -, h⟩ := bind_eq_ok.mp h
      cases h
      exact ⟨rfl, rfl, rfl, List.prefix_append .., fun _ h => .inl h⟩
  · cases h
    exact .refl st

omit [DecidableEq σ] [Fintype σ] in
theorem postExpr_changes (st : State σ) (e : Expr σ) : ChangesVariables st (postExpr st e) := by
  unfold postExpr
  split
  · exact ⟨rfl, rfl, rfl, List.prefix_rfl, fun _ h => .inl h⟩
  · exact .refl st

omit [DecidableEq σ] [Fintype σ] in
theorem postDefinedOperator_changes (st : State σ) (op : DefinedOperator σ) : ChangesVariables st (postDefinedOperator st op) := by
  unfold postDefinedOperator
  split_ifs
  · exact .refl st
  · dsimp only
    split <;> exact ⟨rfl, rfl, rfl, List.prefix_rfl, fun _ h => .inl h⟩

omit [DecidableEq σ] [Fintype σ] in
theorem postProcedureStmt_changes (st : State σ) (names : List (Option σ)) :
    ChangesVariables st (postProcedureStmt st names) := by
  unfold postProcedureStmt
  split_ifs
  · exact .refl st
  · exact ⟨rfl, rfl, rfl, List.prefix_rfl, fun _ h => .inl h⟩

/-! ## Procedures -/

/-- Whether the walk is in a subprogram and whether it is in a main program. -/
def State.flags (st : State σ) : Bool × Bool := (st.inFunctionOrSubroutineSubProgram, st.inMainProgram)

def State.withFlags (st : State σ) (flags : Bool × Bool) : State σ :=
  { st with inFunctionOrSubroutineSubProgram := flags.1, inMainProgram := flags.2 }

def flagsAfter (flags : Bool × Bool) : Callback σ → Bool × Bool
  | .preMainProgram _ => (flags.1, true)
  | .postMainProgram => (flags.1, false)
  | .preFunctionSubprogram | .preSubroutineSubprogram => (true, flags.2)
  | .postFunctionSubprogram | .postSubroutineSubprogram => (false, flags.2)
  | _ => flags

omit [DecidableEq σ] [Fintype σ] in
theorem flags_of_place (h : st'.place = st.place) : st'.flags = st.flags :=
  Prod.ext (congrArg Place.inFunctionOrSubroutineSubProgram h) (congrArg Place.inMainProgram h)

/-- The callback leaves the types alone and adds edges; the flags stay. -/
structure ChangesProcedures (st st' : State σ) : Prop where
  classes : st'.classes = st.classes
  flags : st'.flags = st.flags
  edges : st.edges <+: st'.edges
  argPos : ∀ pf ∈ st'.potentialFinalizers, pf ∈ st.potentialFinalizers ∨ pf.argPos = 0

omit [DecidableEq σ] [Fintype σ] in
theorem ChangesProcedures.refl (st : State σ) : ChangesProcedures st st :=
  ⟨rfl, rfl, List.prefix_rfl, fun _ h => .inl h⟩

omit [DecidableEq σ] [Fintype σ] in
theorem ChangesProcedures.trans {st'' : State σ} (h : ChangesProcedures st st') (h' : ChangesProcedures st' st'') :
    ChangesProcedures st st'' :=
  ⟨h'.classes.trans h.classes, h'.flags.trans h.flags, h.edges.trans h'.edges,
    fun pf hpf => (h'.argPos pf hpf).elim (h.argPos pf) .inr⟩

omit [DecidableEq σ] [Fintype σ] in
theorem ChangesVariables.procedure (h : ChangesVariables st st') : ChangesProcedures st st' :=
  ⟨h.classes, flags_of_place h.place, h.edges, h.argPos⟩

omit [DecidableEq σ] [Fintype σ] in
theorem handleFuncSubStmt_changes {sym : σ} (h : handleFuncSubStmt tbl opts st sym = .ok st') : ChangesProcedures st st' := by
  obtain ⟨⟨cg, i⟩, -, h⟩ := bind_eq_ok.mp h
  cases h
  exact ⟨rfl, rfl, List.prefix_rfl, fun _ h => .inl h⟩

theorem handleDummyArgs_changes {items : List (Option σ)} (h : handleDummyArgs tbl st items = .ok st') :
    ChangesProcedures st st' := by
  obtain ⟨current, -, h⟩ := bind_eq_ok.mp h
  split at h
  · cases h
    exact .refl st
  · cases h
    refine foldl_changes .refl (fun _ _ _ => .trans) (fun s item => ?_) items st
    cases item with
    | none => exact .refl s
    | some symbol => exact ⟨rfl, rfl, List.prefix_rfl, fun _ h => .inl h⟩

theorem handleTrackedVars_edges {types : List (TypeEntry σ)} {finalizers : UMap (Option σ) (List σ)} {current : σ}
    {vars : List (TrackedVar σ)} {acc acc' : List Edge × List (Procedure σ)}
    (h : vars.foldlM (handleTrackedVar tbl types finalizers current) acc = .ok acc') : acc.1 <+: acc'.1 := by
  refine foldlM_ok_inv (J := fun _ t => acc.1 <+: t.1) List.prefix_rfl (fun _ var t t' _ hpre hround => ?_) h
  unfold handleTrackedVar at hround
  split_ifs at hround
  · cases hround
    exact hpre
  · cases hround
    exact hpre
  all_goals
    obtain ⟨added, -, hround⟩ := bind_eq_ok.mp hround
    cases hround
    exact hpre.trans (List.prefix_append ..)

theorem handleTrackedVars_changes {current : σ} (h : handleTrackedVars tbl st current = .ok st') : ChangesProcedures st st' := by
  unfold handleTrackedVars at h
  split_ifs at h
  · cases h
    exact .refl st
  · obtain ⟨⟨edges, procedures⟩, hloop, h⟩ := bind_eq_ok.mp h
    cases h
    exact ⟨rfl, rfl, handleTrackedVars_edges hloop, fun _ h => .inl h⟩

theorem handleEndFuncSubStmt_changes (h : handleEndFuncSubStmt tbl st = .ok st') : ChangesProcedures st st' := by
  obtain ⟨current, -, h⟩ := bind_eq_ok.mp h
  obtain ⟨st₁, hvars, h⟩ := bind_eq_ok.mp h
  cases h
  exact (handleTrackedVars_changes hvars).trans ⟨rfl, rfl, List.prefix_rfl, fun _ h => .inl h⟩

theorem postFunctionStmt_changes {name : Option σ} {args : List (Option σ)}
    (h : postFunctionStmt tbl opts st name args = .ok st') : ChangesProcedures st st' := by
  obtain ⟨sym, -, h⟩ := bind_eq_ok.mp h
  obtain ⟨st₁, hsub, h⟩ := bind_eq_ok.mp h
  exact (handleFuncSubStmt_changes hsub).trans (handleDummyArgs_changes h)

omit [DecidableEq σ] [Fintype σ] in
theorem setBody_changes (h : setBody tbl st = .ok st') : ChangesProcedures st st' := by
  obtain ⟨current, -, h⟩ := bind_eq_ok.mp h
  obtain ⟨node, -, h⟩ := bind_eq_ok.mp h
  cases node <;> cases h <;> exact ⟨rfl, rfl, List.prefix_rfl, fun _ h => .inl h⟩

omit [DecidableEq σ] [Fintype σ] in
theorem preMainProgram_changes {programStmt : Option (Option σ)} (h : preMainProgram tbl opts st programStmt = .ok st') :
    ChangesProcedures (st.withFlags (st.inFunctionOrSubroutineSubProgram, true)) st' := by
  unfold preMainProgram at h
  split at h
  · obtain ⟨⟨cg, i⟩, -, h⟩ := bind_eq_ok.mp h
    cases h
    exact ⟨rfl, rfl, List.prefix_rfl, fun _ h => .inl h⟩
  · cases h
    exact ⟨rfl, rfl, List.prefix_rfl, fun _ h => .inl h⟩

/-- A callback that is about no derived type. -/
def Callback.aboutTypes : Callback σ → Bool
  | .preDerivedTypeDef | .postDerivedTypeDef | .preDerivedTypeStmt _ | .postTypeAttrSpec _ | .postTypeBoundProcedureStmt _
  | .postTypeBoundGenericStmt _ _ | .postUseStmt _ => true
  | _ => false

/-- Apart from the flags, which can be read off the callback. -/
theorem visit_changes {c : Callback σ} (hc : c.aboutTypes = false) (h : visit tbl opts st c = .ok st') :
    ChangesProcedures (st.withFlags (flagsAfter st.flags c)) st' := by
  cases c with
  | preMainProgram => exact preMainProgram_changes h
  | postMainProgram =>
    obtain ⟨st₁, hend, h⟩ := bind_eq_ok.mp h
    cases h
    have hchanges := handleEndFuncSubStmt_changes hend
    exact ⟨hchanges.classes, Prod.ext (Prod.ext_iff.mp hchanges.flags).1 rfl, hchanges.edges, hchanges.argPos⟩
  | preFunctionSubprogram | postFunctionSubprogram | preSubroutineSubprogram | postSubroutineSubprogram | preInterfaceStmt
  | preEndInterfaceStmt =>
    cases h
    exact ⟨rfl, rfl, List.prefix_rfl, fun _ h => .inl h⟩
  | postExecutionPart =>
    unfold visit postExecutionPart at h
    split_ifs at h
    · cases h
      exact .refl st
    · exact setBody_changes h
  | postEntryStmt name =>
    cases name with
    | none =>
      cases h
      exact .refl st
    | some sym =>
      obtain ⟨⟨cg, i⟩, -, h⟩ := bind_eq_ok.mp h
      cases h
      exact ⟨rfl, rfl, List.prefix_rfl, fun _ h => .inl h⟩
  | postFunctionStmt | postSubroutineStmt => exact postFunctionStmt_changes h
  | postEndFunctionStmt | postEndSubroutineStmt | postStmtFunctionStmt => exact handleEndFuncSubStmt_changes h
  | postProcedureDesignator => exact (postProcedureDesignator_changes h).procedure
  | postAssignmentStmt name =>
    cases h
    exact (postAssignment_changes st [name]).procedure
  | postAllocateStmt names =>
    cases h
    exact (postAssignment_changes st names).procedure
  | postCall => exact (postCall_changes h).procedure
  | postTypeDeclarationStmt => exact (postTypeDeclarationStmt_changes h).procedure
  | preDerivedTypeDef | postDerivedTypeDef | preDerivedTypeStmt | postTypeAttrSpec | postTypeBoundProcedureStmt
  | postTypeBoundGenericStmt | postUseStmt => cases hc
  | postDefinedOperator op =>
    cases h
    exact (postDefinedOperator_changes st op).procedure
  | postProcedureStmt names =>
    cases h
    exact (postProcedureStmt_changes st names).procedure
  | preExpr => exact (preExpr_changes h).procedure
  | postExpr e =>
    cases h
    exact (postExpr_changes st e).procedure
  | preStmtFunctionStmt name =>
    obtain ⟨sym, -, h⟩ := bind_eq_ok.mp h
    obtain ⟨st₁, hsub, h⟩ := bind_eq_ok.mp h
    exact (handleFuncSubStmt_changes hsub).trans (setBody_changes h)

/-! ## Types -/

section
variable {t : TypeEntry σ}

theorem addOverwrite_changes {n : String} {v : σ} (h : addOverwrite tbl t st n v = .ok st') : ChangesTypes st st' := by
  obtain ⟨base, -, h⟩ := bind_eq_ok.mp h
  cases h
  exact ⟨rfl, rfl, rfl, rfl, rfl⟩

theorem addFinalizer_changes {v : σ} (h : addFinalizer tbl t st v = .ok st') : ChangesTypes st st' := by
  obtain ⟨base, -, h⟩ := bind_eq_ok.mp h
  cases h
  exact ⟨rfl, rfl, rfl, rfl, rfl⟩

theorem addTypeOperator_changes {op v : String} (h : addTypeOperator tbl t op st v = .ok st') : ChangesTypes st st' := by
  obtain ⟨base, -, h⟩ := bind_eq_ok.mp h
  cases h
  exact ⟨rfl, rfl, rfl, rfl, rfl⟩

theorem addDeclaration_eq_ok {x : TypeBoundProcDecl σ} (h : addDeclaration tbl t st x = .ok st') :
    x.name = none ∧ st' = st ∨ ∃ name v, x.name = some name ∧ x.procedure.getD (some name) = some v ∧
      addOverwrite tbl t st (tbl.name name) v = .ok st' := by
  unfold addDeclaration at h
  split at h
  · next hname =>
    cases h
    exact .inl ⟨hname, rfl⟩
  · next name hname =>
    split at h
    · cases h
    · next v hv => exact .inr ⟨name, v, hname, hv, h⟩

theorem addBindingName_eq_ok {n : Option σ} (h : addBindingName tbl t st n = .ok st') :
    (∀ sym v, n = some sym → tbl.details sym ≠ .procBinding v) ∧ st' = st ∨ ∃ sym v, n = some sym ∧
      tbl.details sym = .procBinding v ∧ addOverwrite tbl t st (tbl.name sym) v = .ok st' := by
  unfold addBindingName at h
  split at h
  · cases h
    exact .inl ⟨fun _ _ hn => (by cases hn), rfl⟩
  · next sym =>
    split at h
    · next v hv => exact .inr ⟨sym, v, rfl, hv, h⟩
    · next hother =>
      cases h
      refine .inl ⟨fun sym' v hsym hv => ?_, rfl⟩
      cases hsym
      exact hother v hv

theorem useComponent_changes {component : σ} (h : useComponent tbl t st component = .ok st') : ChangesTypes st st' := by
  unfold useComponent at h
  split at h
  · exact addOverwrite_changes h
  · exact foldlM_changes .refl (fun _ _ _ => .trans) (fun _ _ _ => addTypeOperator_changes) h
  · cases h
    exact .refl st

end

theorem useSymbol_changes {symbol : σ} (h : useSymbol tbl st symbol = .ok st') : ChangesTypes st st' := by
  unfold useSymbol at h
  split at h
  · unfold useDerivedType at h
    split at h
    · cases h
    · obtain ⟨st₁, hfinals, h⟩ := bind_eq_ok.mp h
      have hstart := foldlM_changes .refl (fun _ _ _ => .trans) (fun _ _ _ => addFinalizer_changes) hfinals
      have hrest := foldlM_changes .refl (fun _ _ _ => .trans) (fun _ _ _ => useComponent_changes) h
      exact .trans ⟨hstart.place, hstart.edges, hstart.trackedVars, hstart.exprStmtWithOps, hstart.potentialFinalizers⟩ hrest
  · split_ifs at h <;> cases h <;> exact ⟨rfl, rfl, rfl, rfl, rfl⟩
  · split_ifs at h <;> cases h <;> exact ⟨rfl, rfl, rfl, rfl, rfl⟩
  · cases h
    exact .refl st

theorem visit_changesTypes {c : Callback σ} (hc : c.aboutTypes = true) (h : visit tbl opts st c = .ok st') :
    ChangesTypes st st' := by
  cases c with
  | preDerivedTypeDef =>
    cases h
    exact ⟨rfl, rfl, rfl, rfl, rfl⟩
  | postDerivedTypeDef =>
    obtain ⟨t, -, h⟩ := bind_eq_ok.mp h
    split at h
    · cases h
    · have hloop := foldlM_changes .refl (fun _ _ _ => .trans) (fun _ _ _ => addFinalizer_changes) h
      exact ⟨hloop.place, hloop.edges, hloop.trackedVars, hloop.exprStmtWithOps, hloop.potentialFinalizers⟩
  | preDerivedTypeStmt name =>
    change preDerivedTypeStmt st name = .ok st' at h
    unfold preDerivedTypeStmt at h
    split_ifs at h
    · cases h
      exact .refl st
    · obtain ⟨t, -, h⟩ := bind_eq_ok.mp h
      split at h <;> cases h
      exact ⟨rfl, rfl, rfl, rfl, rfl⟩
  | postTypeAttrSpec parent =>
    change postTypeAttrSpec st parent = .ok st' at h
    unfold postTypeAttrSpec at h
    split_ifs at h
    · cases h
      exact .refl st
    · obtain ⟨t, -, h⟩ := bind_eq_ok.mp h
      split at h <;> cases h
      · exact .refl st
      · exact ⟨rfl, rfl, rfl, rfl, rfl⟩
  | postTypeBoundProcedureStmt s =>
    change postTypeBoundProcedureStmt tbl st s = .ok st' at h
    unfold postTypeBoundProcedureStmt at h
    split_ifs at h
    · cases h
      exact .refl st
    · split at h
      · obtain ⟨t, -, h⟩ := bind_eq_ok.mp h
        refine foldlM_changes .refl (fun _ _ _ => .trans) (fun s x s' hx => ?_) h
        rcases addDeclaration_eq_ok hx with ⟨-, rfl⟩ | ⟨name, v, -, -, hadd⟩
        · exact .refl _
        · exact addOverwrite_changes hadd
      · obtain ⟨t, -, h⟩ := bind_eq_ok.mp h
        refine foldlM_changes .refl (fun _ _ _ => .trans) (fun s x s' hx => ?_) h
        rcases addBindingName_eq_ok hx with ⟨-, rfl⟩ | ⟨name, v, -, -, hadd⟩
        · exact .refl _
        · exact addOverwrite_changes hadd
  | postTypeBoundGenericStmt spec names =>
    change postTypeBoundGenericStmt tbl st spec names = .ok st' at h
    unfold postTypeBoundGenericStmt at h
    split_ifs at h
    · cases h
      exact .refl st
    · obtain ⟨t, -, h⟩ := bind_eq_ok.mp h
      split at h
      · cases h
        exact .refl st
      · refine foldlM_changes .refl (fun _ _ _ => .trans) (fun s x s' hx => ?_) h
        cases x with
        | none => cases hx
        | some sym => exact addTypeOperator_changes hx
  | postUseStmt moduleName =>
    cases moduleName with
    | none => cases h
    | some sym => exact foldlM_changes .refl (fun _ _ _ => .trans) (fun _ _ _ => useSymbol_changes) h
  | _ => cases hc

theorem visit_argPos {c : Callback σ} (h : visit tbl opts st c = .ok st') :
    ∀ pf ∈ st'.potentialFinalizers, pf ∈ st.potentialFinalizers ∨ pf.argPos = 0 := by
  cases hc : c.aboutTypes with
  | true =>
    rw [(visit_changesTypes hc h).potentialFinalizers]
    exact fun _ hpf => .inl hpf
  | false => exact (visit_changes hc h).argPos

theorem visit_flags {c : Callback σ} (h : visit tbl opts st c = .ok st') : st'.flags = flagsAfter st.flags c := by
  cases hc : c.aboutTypes with
  | true =>
    have hsame := flags_of_place (visit_changesTypes hc h).place
    cases c <;> first | exact hsame | cases hc
  | false => exact (visit_changes hc h).flags

theorem walk_flags {callbacks : List (Callback σ)} (h : walk tbl opts st callbacks = .ok st') :
    st'.flags = callbacks.foldl flagsAfter st.flags := by
  induction callbacks generalizing st with
  | nil =>
    cases h
    rfl
  | cons c callbacks ih =>
    rw [walk, List.foldlM_cons] at h
    obtain ⟨st₁, hvisit, h⟩ := bind_eq_ok.mp h
    rw [List.foldl_cons, ← visit_flags hvisit]
    exact ih h

end
end MetaCG.Fortran
