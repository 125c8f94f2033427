import MetaCG.Fortran.CallbackTotals

/-! The collector comes to an end.

If no type extends itself and the front end has found the symbols, no callback of a walk over the file fails, and the stack of
current procedures is what it was when the walk entered a part. Only a main program without a `PROGRAM` statement makes the
collector look at the top of an empty stack. -/
namespace MetaCG.Fortran
open Foundations
set_option autoImplicit false
set_option maxHeartbeats 250000
set_option maxRecDepth 120000

section
variable {σ : Type} [DecidableEq σ] [Fintype σ] {tbl : SymbolTable σ} {opts : Settings} {st st' : State σ} {d : Declared σ}
  {p : Procedure σ} {l : List (Procedure σ)}

omit [DecidableEq σ] [Fintype σ] in
theorem useSymbol_named (h : ∀ t ∈ d.types, ∃ a, t.typeSymbol = some a) (s : σ) :
    ∀ t ∈ (d.useSymbol tbl s).types, ∃ a, t.typeSymbol = some a := by
  unfold Declared.useSymbol
  split
  · rw [useComponents_types]
    intro t ht
    rcases List.mem_append.mp ht with ht | ht
    · exact h t ht
    · exact ⟨s, congrArg TypeEntry.typeSymbol (List.mem_singleton.mp ht)⟩
  · exact h

/-- A type that is met has a symbol. -/
theorem declare_named (h : ∀ t ∈ d.types, ∃ a, t.typeSymbol = some a) (ch : Chunk σ) :
    ∀ t ∈ (d.declare tbl ch).types, ∃ a, t.typeSymbol = some a := by
  unfold Declared.declare
  split
  · intro t ht
    rcases List.mem_append.mp ht with ht | ht
    · exact h t ht
    · exact ⟨_, congrArg TypeEntry.typeSymbol (List.mem_singleton.mp ht)⟩
  · split <;> exact h
  · split <;> exact h
  · split <;> exact h
  · next moduleName _ =>
    clear * - h
    induction (tbl.scope moduleName).getD [] generalizing d with
    | nil => exact h
    | cons s l ih => exact ih (useSymbol_named h s)
  · exact h

/-- What holds wherever the walk is. -/
structure Ready (tbl : SymbolTable σ) (d : Declared σ) (st : State σ) : Prop extends Kept tbl st where
  wf : st.cg.Wf
  types : st.types = d.types
  named : ∀ t ∈ d.types, ∃ a, t.typeSymbol = some a

/-- The walk over a part does not fail, and the stack is as it should be at its end. -/
def Passes (tbl : SymbolTable σ) (opts : Settings) (d : Declared σ) (st : State σ) (chunks : List (Chunk σ))
    (Stack : List (Procedure σ) → Prop) : Prop :=
  Acyclic (chunks.foldl (Declared.declare tbl) d).types → (∀ ch ∈ chunks, ∀ c ∈ ch.callbacks, c.isResolved = true) →
    ∃ st', walk tbl opts st (chunks.flatMap Chunk.callbacks) = .ok st' ∧
      Ready tbl (chunks.foldl (Declared.declare tbl) d) st' ∧ Stack st'.currentProcedures

variable {a b : List (Chunk σ)} {P Q : List (Procedure σ) → Prop}

theorem Passes.append (h : Passes tbl opts d st a P)
    (h' : ∀ st₁, Ready tbl (a.foldl (Declared.declare tbl) d) st₁ → P st₁.currentProcedures →
      Passes tbl opts (a.foldl (Declared.declare tbl) d) st₁ b Q) : Passes tbl opts d st (a ++ b) Q := by
  intro hac hres
  rw [List.foldl_append] at hac ⊢
  obtain ⟨st₁, hst₁, hready, hP⟩ := h (hac.of_prefix (declares_types _ b)) fun ch hch => hres ch (List.mem_append_left b hch)
  obtain ⟨st₂, hst₂, hresult⟩ := h' st₁ hready hP hac fun ch hch => hres ch (List.mem_append_right a hch)
  refine ⟨st₂, ?_, hresult⟩
  rw [List.flatMap_append, walk, List.foldlM_append]
  exact (congrArg (· >>= _) hst₁).trans hst₂

theorem Passes.mono (h : Passes tbl opts d st a P) (hPQ : ∀ l, P l → Q l) : Passes tbl opts d st a Q := by
  intro hac hres
  obtain ⟨st', hst', hready, hP⟩ := h hac hres
  exact ⟨st', hst', hready, hPQ _ hP⟩

theorem Passes.nil (h : Ready tbl d st) (hP : P st.currentProcedures) : Passes tbl opts d st [] P :=
  fun _ _ => ⟨st, rfl, h, hP⟩

theorem Passes.one (h : Ready tbl d st) {c : Callback σ} {hstart : c.startsType = false}
    (hrun : Acyclic (d.declare tbl (.one c hstart)).types → c.isResolved = true → ∃ st', visit tbl opts st c = .ok st' ∧
      Kept tbl st' ∧ st'.types = (d.declare tbl (.one c hstart)).types ∧ P st'.currentProcedures) :
    Passes tbl opts d st [.one c hstart] P := by
  intro hac hres
  obtain ⟨st', hst', hkept, htypes, hP⟩ := hrun hac (hres _ (List.mem_singleton_self _) c (List.mem_singleton_self c))
  refine ⟨st', ?_, ⟨hkept, (visit_extends h.wf hst').wf, htypes, declare_named h.named _⟩, hP⟩
  rw [List.flatMap_singleton, Chunk.callbacks, walk, List.foldlM_cons, hst', ok_bind]
  rfl

/-- A callback that declares nothing. -/
theorem Passes.other (h : Ready tbl d st) {c : Callback σ} {hstart : c.startsType = false} (hc : c.aboutTypes = false)
    (hrun : HasBases tbl st.types → c.isResolved = true → ∃ st', visit tbl opts st c = .ok st' ∧ Kept tbl st' ∧
      P st'.currentProcedures) :
    Passes tbl opts d st [.one c hstart] P := by
  refine .one h fun hac hres => ?_
  rw [declare_other d hstart hc] at hac ⊢
  obtain ⟨st', hst', hkept, hP⟩ := hrun (h.types ▸ hac.hasBases) hres
  exact ⟨st', hst', hkept, (congrArg Classes.types (visit_changes hc hst').classes).trans h.types, hP⟩

/-! ## The parse tree -/

/-- A callback that is about variables only. -/
theorem visit_variables_total (h : Ready tbl d st) (hb : HasBases tbl st.types) (htbl : tbl.Complete) {c : Callback σ}
    (hc : c.isStatement = true) (huse : c.aboutTypes = false) (hres : c.isResolved = true) :
    ∃ st', visit tbl opts st c = .ok st' ∧ Kept tbl st' ∧ st'.currentProcedures = st.currentProcedures := by
  have hplace : ∀ {st' : State σ}, ChangesVariables st st' → st'.currentProcedures = st.currentProcedures := fun hch =>
    congrArg Place.currentProcedures hch.place
  have hk := h.toKept
  cases c with
  | postEntryStmt name =>
    cases name with
    | none => exact ⟨st, rfl, hk, rfl⟩
    | some s =>
      obtain ⟨g, i, hg, -⟩ := h.wf.getOrInsertNode_extends (htbl.mangled s) (some opts.currentFileName) false true
      refine ⟨{ st with cg := g }, ?_, ⟨hk.operators, hk.edges, hk.finalizerEdges⟩, rfl⟩
      rw [visit, postEntryStmt, hg]
      rfl
  | postProcedureDesignator p =>
    obtain ⟨st', hst', hkept⟩ := @postProcedureDesignator_total σ _ _ tbl opts st hk hb p
    exact ⟨st', hst', hkept, hplace (postProcedureDesignator_changes hst')⟩
  | postAssignmentStmt name => exact ⟨_, rfl, postAssignment_kept hk _, hplace (postAssignment_changes st _)⟩
  | postAllocateStmt names => exact ⟨_, rfl, postAssignment_kept hk _, hplace (postAssignment_changes st _)⟩
  | postCall procName args =>
    obtain ⟨st', hst', hkept⟩ := postCall_total hk hb procName args
    exact ⟨st', hst', hkept, hplace (postCall_changes hst')⟩
  | postTypeDeclarationStmt attrs entities =>
    obtain ⟨st', hst', hkept⟩ := postTypeDeclarationStmt_total hk hb attrs entities
    exact ⟨st', hst', hkept, hplace (postTypeDeclarationStmt_changes hst')⟩
  | preInterfaceStmt | preEndInterfaceStmt => exact ⟨_, rfl, ⟨hk.operators, hk.edges, hk.finalizerEdges⟩, rfl⟩
  | postDefinedOperator op =>
    refine ⟨_, rfl, ?_, hplace (postDefinedOperator_changes st op)⟩
    unfold postDefinedOperator
    split_ifs
    · exact hk
    · dsimp only
      split <;> exact ⟨hk.operators, hk.edges, hk.finalizerEdges⟩
  | postProcedureStmt names =>
    refine ⟨_, rfl, ?_, hplace (postProcedureStmt_changes st names)⟩
    unfold postProcedureStmt
    split_ifs
    · exact hk
    · exact ⟨hk.operators, hk.edges, hk.finalizerEdges⟩
  | preExpr e =>
    obtain ⟨st', hst', hkept⟩ := preExpr_total hk hb hres
    exact ⟨st', hst', hkept, hplace (preExpr_changes hst')⟩
  | postExpr e =>
    refine ⟨_, rfl, ?_, hplace (postExpr_changes st e)⟩
    unfold postExpr
    split
    · exact ⟨fun op hop => hk.operators op (List.dropLast_subset _ hop), hk.edges, hk.finalizerEdges⟩
    · exact hk
  | postUseStmt => cases huse
  | _ => cases hc

theorem passes_statement (h : Ready tbl d st) (htbl : tbl.Complete) (c : { c : Callback σ // c.isStatement = true }) :
    Passes tbl opts d st (ParseTree.statement c).chunks (· = st.currentProcedures) := by
  obtain ⟨c, hc⟩ := c
  rw [ParseTree.chunks]
  cases huse : c.aboutTypes with
  | false => exact .other h huse fun hb hres => visit_variables_total h hb htbl hc huse hres
  | true =>
    refine .one h fun hac hres => ?_
    cases c with
    | postUseStmt moduleName =>
      obtain ⟨s, rfl⟩ := Option.isSome_iff_exists.mp hres
      obtain ⟨st', hst', htypes⟩ := useSymbols_total htbl h.types hac
      have hch : ChangesTypes st st' := @visit_changesTypes σ _ _ tbl opts st st' (.postUseStmt (some s)) rfl hst'
      exact ⟨st', hst', h.toKept.of_changesTypes hch, htypes, congrArg Place.currentProcedures hch.place⟩
    | _ => first | cases huse; done | cases hc

/-- The statements and the end of a derived type add no type. -/
theorem declare_inType (d : Declared σ) {c : Callback σ} {hstart : c.startsType = false}
    (hc : c.isBinding = true ∨ c = .postDerivedTypeDef) : (d.declare tbl (.one c hstart)).types = d.types := by
  unfold Declared.declare
  split
  · next heq => cases heq
  · split <;> rfl
  · split <;> rfl
  · split <;> rfl
  · next heq =>
    cases heq
    rcases hc with hc | hc <;> cases hc
  · rfl

theorem passes_binding (h : Ready tbl d st) (hne : d.types ≠ []) {c : Callback σ} {hstart : c.startsType = false}
    (hc : c.isBinding = true) : Passes tbl opts d st [.one c hstart] (· = st.currentProcedures) := by
  refine .one h fun hac hres => ?_
  have hb : HasBases tbl st.types := h.types ▸ (hac.of_prefix (declare_types d _)).hasBases
  have hne' : st.types ≠ [] := h.types ▸ hne
  have hrun : ∃ st', visit tbl opts st c = .ok st' ∧ st'.types = st.types := by
    cases c with
    | postTypeBoundProcedureStmt s => exact postTypeBoundProcedureStmt_total hb hne' hres
    | postTypeBoundGenericStmt spec names => exact postTypeBoundGenericStmt_total hb hne' hres
    | _ => cases hc
  have habout : c.aboutTypes = true := by cases c <;> first | rfl | cases hc
  obtain ⟨st', hst', htypes⟩ := hrun
  have hch := visit_changesTypes habout hst'
  exact ⟨st', hst', h.toKept.of_changesTypes hch, (htypes.trans h.types).trans (declare_inType d (.inl hc)).symm,
    congrArg Place.currentProcedures hch.place⟩

theorem passes_components (h : Ready tbl d st) (htbl : tbl.Complete) (hne : d.types ≠ [])
    (stmts : List { c : Callback σ // c.isComponent = true }) :
    Passes tbl opts d st (stmts.map fun c => .one c.1 (Callback.startsType_of_isComponent c.2)) (· = st.currentProcedures) := by
  induction stmts generalizing d st with
  | nil => exact .nil h rfl
  | cons c stmts ih =>
    have hfirst : Passes tbl opts d st [.one c.1 (Callback.startsType_of_isComponent c.2)] (· = st.currentProcedures) :=
      (Callback.isComponent_cases c.2).elim (passes_binding h hne) fun hc => passes_statement h htbl ⟨c.1, hc⟩
    refine hfirst.append fun st₁ hst₁ hprocs => ?_
    rw [← hprocs]
    refine ih hst₁ fun hnil => hne ?_
    exact List.prefix_nil.mp (hnil ▸ declares_types d [_])

theorem passes_header (h : Ready tbl d st) (htbl : tbl.Complete) (header : List { c : Callback σ // c.isExpression = true }) :
    Passes tbl opts d st (headerChunks header) (· = st.currentProcedures) := by
  induction header generalizing d st with
  | nil => exact .nil h rfl
  | cons c header ih =>
    have hfirst := @passes_statement σ _ _ tbl opts st d h htbl ⟨c.1, Callback.isStatement_of_isExpression c.2⟩
    refine hfirst.append fun st₁ hst₁ hprocs => ?_
    rw [← hprocs]
    exact ih hst₁

theorem canonicalizeSymbol_isSome (a : σ) (mode : CanonicalMode) : ∃ s, (tbl.canonicalizeSymbol (some a) mode).symbol = some s := by
  rw [SymbolTable.canonicalizeSymbol]
  fun_induction SymbolTable.canonicalizeFrom tbl mode ∅ a with
  | case1 visited s _ => exact ⟨s, rfl⟩
  | case2 visited s _ next _ ih => exact ih
  | case3 visited s _ kind _ => exact ⟨_, rfl⟩

theorem passes_endType (h : Ready tbl d st) (hne : d.types ≠ []) :
    Passes tbl opts d st [.one .postDerivedTypeDef rfl] (· = st.currentProcedures) := by
  refine .one h fun hac _ => ?_
  have hb : HasBases tbl st.types := h.types ▸ (hac.of_prefix (declare_types d _)).hasBases
  obtain ⟨t, ht, hcur⟩ := currentType_total (h.types ▸ hne : st.types ≠ [])
  obtain ⟨a, ha⟩ := h.named t (h.types ▸ ht)
  obtain ⟨s, hs⟩ := @canonicalizeSymbol_isSome σ _ _ tbl a .Identity
  obtain ⟨st', hst', htypes⟩ := @types_total σ _ _ tbl { st with inDerivedTypeDef := false } t σ (addFinalizer tbl t) (finals tbl s)
    hb ht fun s a _ hbs hts => addFinalizer_total hbs hts a
  have hrun : visit tbl opts st .postDerivedTypeDef = .ok st' := by
    rw [visit, postDerivedTypeDef, hcur, ok_bind, ha, hs]
    exact hst'
  have hch := visit_changesTypes rfl hrun
  exact ⟨st', hrun, h.toKept.of_changesTypes hch, (htypes.trans h.types).trans (declare_inType d (.inr rfl)).symm,
    congrArg Place.currentProcedures hch.place⟩

theorem passes_startType (h : Ready tbl d st) (typeSymbol : σ) (attrs : List (Option σ)) :
    Passes tbl opts d st [.typeStart typeSymbol attrs] (· = st.currentProcedures) := by
  intro _ _
  have hrun := @typeStart_walk σ _ _ tbl opts st typeSymbol attrs
  refine ⟨_, (congrArg _ (List.flatMap_singleton ..)).trans hrun, ⟨⟨h.operators, h.edges, h.finalizerEdges⟩, h.wf, ?_, ?_⟩, rfl⟩
  · exact congrArg (· ++ _) h.types
  · exact @declare_named σ _ _ tbl d h.named (.typeStart typeSymbol attrs)

/-- The statement of a function or subroutine. -/
theorem passes_open (h : Ready tbl d st) (htbl : tbl.Complete) (isFunction : Bool) (name : σ) (args : List (Option σ)) :
    Passes tbl opts d st [openProcedure isFunction name args] (∃ p, · = p :: st.currentProcedures) := by
  cases isFunction <;> exact .other h rfl fun _ _ => postFunctionStmt_total h.toKept h.wf htbl name args

theorem passes_close (h : Ready tbl d st) (hcur : st.currentProcedures = p :: l) (isFunction : Bool) :
    Passes tbl opts d st [closeProcedure isFunction] (· = l) := by
  cases isFunction <;> exact .other h rfl fun hb _ => handleEndFuncSubStmt_total h.toKept hb hcur

theorem passes_enter (h : Ready tbl d st) (isFunction : Bool) :
    Passes tbl opts d st [enterSubprogram isFunction] (· = st.currentProcedures) := by
  cases isFunction <;> exact .other h rfl fun _ _ => ⟨_, rfl, ⟨h.operators, h.edges, h.finalizerEdges⟩, rfl⟩

theorem passes_leave (h : Ready tbl d st) (isFunction : Bool) :
    Passes tbl opts d st [leaveSubprogram isFunction] (· = st.currentProcedures) := by
  cases isFunction <;> exact .other h rfl fun _ _ => ⟨_, rfl, ⟨h.operators, h.edges, h.finalizerEdges⟩, rfl⟩

theorem passes_executionPart (h : Ready tbl d st) (hcur : st.currentProcedures = p :: l) :
    Passes tbl opts d st [.one .postExecutionPart rfl] (· = p :: l) := by
  refine .other h rfl fun _ _ => ?_
  rw [visit, postExecutionPart]
  split_ifs
  · exact ⟨st, rfl, h.toKept, hcur⟩
  · exact setBody_total h.toKept h.wf hcur

/-- The execution part and the internal subprograms. -/
theorem passes_body (h : Ready tbl d st) (hcur : st.currentProcedures = p :: l) {internal : List (Chunk σ)}
    (hinternal : ∀ st₁, Ready tbl (d.declare tbl (.one .postExecutionPart rfl)) st₁ →
      Passes tbl opts (d.declare tbl (.one .postExecutionPart rfl)) st₁ internal (· = st₁.currentProcedures)) :
    Passes tbl opts d st (.one .postExecutionPart rfl :: internal) (· = p :: l) := by
  refine (passes_executionPart h hcur).append fun st₁ hst₁ hprocs => ?_
  rw [← hprocs]
  exact hinternal st₁ hst₁

theorem passes_openStmtFunction (h : Ready tbl d st) (htbl : tbl.Complete) (name : σ) :
    Passes tbl opts d st [.one (.preStmtFunctionStmt (some name)) rfl] (∃ p, · = p :: st.currentProcedures) := by
  refine .other h rfl fun _ _ => ?_
  obtain ⟨st₁, hst₁, hkept, hcur⟩ := @handleFuncSubStmt_total σ tbl opts st h.toKept h.wf name (htbl.mangled name)
  obtain ⟨st₂, hst₂, hkept, hcur⟩ := setBody_total hkept (handleFuncSubStmt_extends h.wf hst₁).wf hcur
  refine ⟨st₂, ?_, hkept, _, hcur⟩
  rw [visit, preStmtFunctionStmt, named, ok_bind, hst₁, ok_bind, hst₂]

/-- A part between the statement that opens a procedure and the one that closes it. -/
theorem passes_procedure {o e : Chunk σ} {inside : List (Chunk σ)}
    (ho : Passes tbl opts d st [o] (∃ p, · = p :: st.currentProcedures))
    (hinside : ∀ p st₁, Ready tbl (d.declare tbl o) st₁ → st₁.currentProcedures = p :: st.currentProcedures →
      Passes tbl opts (d.declare tbl o) st₁ inside (· = p :: st.currentProcedures))
    (he : ∀ p st₂, Ready tbl ((o :: inside).foldl (Declared.declare tbl) d) st₂ →
      st₂.currentProcedures = p :: st.currentProcedures →
      Passes tbl opts ((o :: inside).foldl (Declared.declare tbl) d) st₂ [e] (· = st.currentProcedures)) :
    Passes tbl opts d st (o :: inside ++ [e]) (· = st.currentProcedures) := by
  refine Passes.append (P := (∃ p, · = p :: st.currentProcedures)) ?_ fun st₂ hst₂ hstack => ?_
  · refine ho.append fun st₁ hst₁ hstack => ?_
    obtain ⟨p, hp⟩ := hstack
    exact (hinside p st₁ hst₁ hp).mono fun l hl => ⟨p, hl⟩
  · obtain ⟨p, hp⟩ := hstack
    exact he p st₂ hst₂ hp

mutual

/-- The walk over a part leaves the stack as it is. -/
theorem ParseTree.passes (htbl : tbl.Complete) (t : ParseTree σ) {d : Declared σ} {st : State σ} (h : Ready tbl d st) :
    Passes tbl opts d st t.chunks (· = st.currentProcedures) := by
  cases t with
  | statement c => exact passes_statement h htbl c
  | derivedType typeSymbol attrs stmts =>
    rw [ParseTree.chunks]
    have hne : (d.declare tbl (.typeStart typeSymbol attrs)).types ≠ [] :=
      List.append_ne_nil_of_right_ne_nil _ (List.cons_ne_nil _ _)
    refine Passes.append (P := (· = st.currentProcedures)) ?_ fun st₂ hst₂ hprocs => ?_
    · refine (passes_startType h typeSymbol attrs).append fun st₁ hst₁ hprocs => ?_
      rw [← hprocs]
      exact passes_components hst₁ htbl hne stmts
    · rw [← hprocs]
      exact passes_endType hst₂ fun hnil => hne (List.prefix_nil.mp (hnil ▸ declares_types _ _))
  | stmtFunction name parts =>
    rw [ParseTree.chunks]
    refine passes_procedure (passes_openStmtFunction h htbl name) (fun p st₁ hst₁ hp => ?_) fun p st₂ hst₂ hp => ?_
    · rw [← hp]
      exact passes_chunksOf htbl parts hst₁
    · exact .other hst₂ rfl fun hb _ => handleEndFuncSubStmt_total hst₂.toKept hb hp
  | interfaceBody isFunction name args parts =>
    rw [ParseTree.chunks]
    refine passes_procedure (passes_open h htbl isFunction name args) (fun p st₁ hst₁ hp => ?_) fun p st₂ hst₂ hp =>
      passes_close hst₂ hp isFunction
    rw [← hp]
    exact passes_chunksOf htbl parts hst₁
  | subprogram isFunction header name args parts internal =>
    rw [ParseTree.chunks]
    have hprocedure : ∀ {d : Declared σ} {st : State σ}, Ready tbl d st → Passes tbl opts d st
        (openProcedure isFunction name args :: (chunksOf parts ++ .one .postExecutionPart rfl :: chunksOf internal) ++
          [closeProcedure isFunction]) (· = st.currentProcedures) := by
      intro d st h
      refine passes_procedure (passes_open h htbl isFunction name args) (fun p st₁ hst₁ hp => ?_) fun p st₂ hst₂ hp =>
        passes_close hst₂ hp isFunction
      refine (passes_chunksOf htbl parts hst₁).append fun st₂ hst₂ hprocs => ?_
      exact passes_body hst₂ (hprocs.trans hp) fun _ hst₃ => passes_chunksOf htbl internal hst₃
    have hshape : enterSubprogram isFunction :: headerChunks header ++ openProcedure isFunction name args :: chunksOf parts ++
        .one .postExecutionPart rfl :: chunksOf internal ++ [closeProcedure isFunction, leaveSubprogram isFunction] =
          [enterSubprogram isFunction] ++ headerChunks header ++
            (openProcedure isFunction name args :: (chunksOf parts ++ .one .postExecutionPart rfl :: chunksOf internal) ++
              [closeProcedure isFunction]) ++ [leaveSubprogram isFunction] := by
      simp
    rw [hshape]
    refine Passes.append (P := (· = st.currentProcedures)) ?_ fun st₃ hst₃ hp => ?_
    · refine Passes.append (P := (· = st.currentProcedures)) ?_ fun st₂ hst₂ hp => ?_
      · refine (passes_enter h isFunction).append fun st₁ hst₁ hp => ?_
        rw [← hp]
        exact passes_header hst₁ htbl header
      · rw [← hp]
        exact hprocedure hst₂
    · rw [← hp]
      exact passes_leave hst₃ isFunction

theorem passes_chunksOf (htbl : tbl.Complete) (ts : List (ParseTree σ)) {d : Declared σ} {st : State σ} (h : Ready tbl d st) :
    Passes tbl opts d st (chunksOf ts) (· = st.currentProcedures) := by
  cases ts with
  | nil => exact .nil h rfl
  | cons t ts =>
    rw [chunksOf]
    refine (t.passes htbl h).append fun st₁ hst₁ hprocs => ?_
    rw [← hprocs]
    exact passes_chunksOf htbl ts hst₁

end

/-! ## The file -/

omit [DecidableEq σ] [Fintype σ] in
theorem Kept.start (cg : Callgraph) : Kept tbl (State.start cg) :=
  ⟨fun _ h => absurd h List.not_mem_nil, fun _ h => absurd h List.not_mem_nil, fun _ h => absurd h List.not_mem_nil⟩

omit [DecidableEq σ] [Fintype σ] in
theorem Ready.start : Ready tbl .none (State.start .empty) :=
  ⟨.start _, Callgraph.Wf.empty, rfl, fun _ h => absurd h List.not_mem_nil⟩

theorem passes_mainProgram (h : Ready tbl d st) (htbl : tbl.Complete) (name : σ) (parts internal : List (ParseTree σ)) :
    Passes tbl opts d st (ProgramUnit.mainProgram (some (some name)) parts internal).chunks (· = st.currentProcedures) := by
  have hopen : Passes tbl opts d st [.one (.preMainProgram (some (some name))) rfl] (∃ p, · = p :: st.currentProcedures) := by
    refine .other h rfl fun _ _ => ?_
    obtain ⟨g, i, hg, -⟩ := h.wf.getOrInsertNode_extends (htbl.mangled name) (some opts.currentFileName) false false
    refine ⟨{ st with inMainProgram := true, currentProcedures := ⟨name, []⟩ :: st.currentProcedures, cg := g }, ?_,
      ⟨h.operators, h.edges, h.finalizerEdges⟩, _, rfl⟩
    rw [visit, preMainProgram, hg]
    rfl
  have hshape : (ProgramUnit.mainProgram (some (some name)) parts internal).chunks =
      .one (.preMainProgram (some (some name))) rfl ::
        (chunksOf parts ++ .one .postExecutionPart rfl :: chunksOf internal) ++ [.one .postMainProgram rfl] := by
    rw [ProgramUnit.chunks]
    simp
  rw [hshape]
  refine passes_procedure hopen (fun p st₁ hst₁ hp => ?_) fun p st₂ hst₂ hp => ?_
  · refine (passes_chunksOf htbl parts hst₁).append fun st₂ hst₂ hprocs => ?_
    exact passes_body hst₂ (hprocs.trans hp) fun _ hst₃ => passes_chunksOf htbl internal hst₃
  · refine .other hst₂ rfl fun hb _ => ?_
    obtain ⟨st₃, hst₃, hkept, hcur⟩ := handleEndFuncSubStmt_total hst₂.toKept hb hp
    refine ⟨{ st₃ with inMainProgram := false }, ?_, ⟨hkept.operators, hkept.edges, hkept.finalizerEdges⟩, hcur⟩
    rw [visit, hst₃]
    rfl

/-- The execution part of a separate module procedure is in no subprogram that the visitor knows of. -/
theorem passes_separate (h : Ready tbl d st) (htbl : tbl.Complete) (hflags : st.flags = (false, false))
    (parts internal : List (ParseTree σ)) :
    Passes tbl opts d st (ProgramUnit.separateModuleSubprogram parts internal).chunks (· = st.currentProcedures) := by
  rw [ProgramUnit.chunks]
  intro hac hres
  rw [List.foldl_append] at hac ⊢
  obtain ⟨st₁, hst₁, hready, hprocs⟩ := passes_chunksOf htbl parts h (hac.of_prefix (declares_types _ _)) fun ch hch =>
    hres ch (List.mem_append_left _ hch)
  have hflags₁ : st₁.flags = (false, false) := by
    rw [walk_flags hst₁, hflags]
    exact (chunksOf_flags parts).outside false
  have hexecution : Passes tbl opts (List.foldl (Declared.declare tbl) d (chunksOf parts)) st₁ [.one .postExecutionPart rfl]
      (· = st₁.currentProcedures) := by
    refine .other hready rfl fun _ _ => ⟨st₁, ?_, hready.toKept, rfl⟩
    obtain ⟨hsub, hmain⟩ := Prod.ext_iff.mp hflags₁
    change st₁.inFunctionOrSubroutineSubProgram = false at hsub
    change st₁.inMainProgram = false at hmain
    rw [visit, postExecutionPart, hsub, hmain]
    rfl
  have hrest : Passes tbl opts (List.foldl (Declared.declare tbl) d (chunksOf parts)) st₁
      (.one .postExecutionPart rfl :: chunksOf internal) (· = st₁.currentProcedures) := by
    refine hexecution.append fun st₂ hst₂ hsame => ?_
    rw [← hsame]
    exact passes_chunksOf htbl internal hst₂
  obtain ⟨st₂, hst₂, hready₂, hprocs₂⟩ := hrest hac fun ch hch => hres ch (List.mem_append_right _ hch)
  refine ⟨st₂, ?_, hready₂, hprocs₂.trans hprocs⟩
  rw [List.flatMap_append, walk, List.foldlM_append]
  exact (congrArg (· >>= _) hst₁).trans hst₂

theorem ProgramUnit.passes (htbl : tbl.Complete) {u : ProgramUnit σ} (hnamed : u.isNamed = true) (h : Ready tbl d st)
    (hflags : st.flags = (false, false)) : Passes tbl opts d st u.chunks (· = st.currentProcedures) := by
  cases u with
  | mainProgram programStmt parts internal =>
    obtain ⟨name, rfl⟩ : ∃ name, programStmt = some (some name) := by
      cases programStmt with
      | none => cases hnamed
      | some name =>
        cases name with
        | none => cases hnamed
        | some name => exact ⟨name, rfl⟩
    exact passes_mainProgram h htbl name parts internal
  | other parts => exact passes_chunksOf htbl parts h
  | separateModuleSubprogram parts internal => exact passes_separate h htbl hflags parts internal

theorem passes_units (htbl : tbl.Complete) {file : List (ProgramUnit σ)} (hnamed : ∀ u ∈ file, u.isNamed = true)
    (h : Ready tbl d st) (hflags : st.flags = (false, false)) :
    Passes tbl opts d st (file.flatMap ProgramUnit.chunks) (· = st.currentProcedures) := by
  induction file generalizing d st with
  | nil => exact .nil h rfl
  | cons u file ih =>
    intro hac hres
    rw [List.flatMap_cons] at hac hres ⊢
    rw [List.foldl_append] at hac ⊢
    obtain ⟨st₁, hst₁, hready, hprocs⟩ := ProgramUnit.passes htbl (hnamed u (List.mem_cons_self ..)) h hflags
      (hac.of_prefix (declares_types _ _)) fun ch hch => hres ch (List.mem_append_left _ hch)
    have hflags₁ : st₁.flags = (false, false) := by
      rw [walk_flags hst₁, hflags]
      exact u.flags
    obtain ⟨st₂, hst₂, hready₂, hprocs₂⟩ := ih (fun u hu => hnamed u (List.mem_cons_of_mem _ hu)) hready hflags₁ hac fun ch hch =>
      hres ch (List.mem_append_right _ hch)
    refine ⟨st₂, ?_, hready₂, hprocs₂.trans hprocs⟩
    rw [List.flatMap_append, walk, List.foldlM_append]
    exact (congrArg (· >>= _) hst₁).trans hst₂

/-- Without a `PROGRAM` statement nothing is put on the stack, and its top is looked at in the execution part or at the end of the
main program. -/
theorem mainProgram_fails (htbl : tbl.Complete) {programStmt : Option (Option σ)} {parts internal : List (ParseTree σ)}
    (hnot : (ProgramUnit.mainProgram programStmt parts internal).isNamed = false) (h : Ready tbl d st)
    (hcur : st.currentProcedures = [])
    (hac : Acyclic ((ProgramUnit.mainProgram programStmt parts internal).chunks.foldl (Declared.declare tbl) d).types)
    (hres : ∀ ch ∈ (ProgramUnit.mainProgram programStmt parts internal).chunks, ∀ c ∈ ch.callbacks, c.isResolved = true) :
    walk tbl opts st ((ProgramUnit.mainProgram programStmt parts internal).chunks.flatMap Chunk.callbacks) =
      .error .undefined := by
  have hopen : Passes tbl opts d st [.one (.preMainProgram programStmt) rfl] (· = []) := by
    refine .other h rfl fun _ _ => ⟨{ st with inMainProgram := true }, ?_, ⟨h.operators, h.edges, h.finalizerEdges⟩, hcur⟩
    cases programStmt with
    | none => rfl
    | some name =>
      cases name with
      | none => rfl
      | some name => cases hnot
  have hbefore : Passes tbl opts d st (.one (.preMainProgram programStmt) rfl :: chunksOf parts) (· = []) := by
    refine hopen.append fun st₁ hst₁ hempty => ?_
    rw [← hempty]
    exact passes_chunksOf htbl parts hst₁
  have hshape : (ProgramUnit.mainProgram programStmt parts internal).chunks =
      (.one (.preMainProgram programStmt) rfl :: chunksOf parts) ++
        (.one .postExecutionPart rfl :: chunksOf internal ++ [.one .postMainProgram rfl]) := by
    rw [ProgramUnit.chunks]
    simp
  rw [hshape] at hac hres ⊢
  rw [List.foldl_append] at hac
  obtain ⟨st₁, hst₁, hready, hempty⟩ := hbefore (hac.of_prefix (declares_types _ _)) fun ch hch =>
    hres ch (List.mem_append_left _ hch)
  have hrest : (.one .postExecutionPart rfl :: chunksOf internal ++ [.one .postMainProgram rfl] : List (Chunk σ)).flatMap
      Chunk.callbacks = .postExecutionPart :: (chunksOf internal).flatMap Chunk.callbacks ++ [.postMainProgram] := by
    simp [Chunk.callbacks]
  rw [List.flatMap_append, walk, List.foldlM_append, hrest]
  refine (congrArg (· >>= _) hst₁).trans ?_
  rw [ok_bind, List.cons_append, List.foldlM_cons, visit, postExecutionPart]
  split_ifs
  · rw [ok_bind, List.foldlM_append]
    rw [List.foldl_append] at hac
    obtain ⟨st₂, hst₂, -, hempty₂⟩ := passes_chunksOf htbl internal hready (hac.of_prefix (declares_types _ _)) fun ch hch =>
      hres ch (List.mem_append_right _ (List.mem_append_left _ (List.mem_cons_of_mem _ hch)))
    refine (congrArg (· >>= _) hst₂).trans ?_
    rw [ok_bind, List.foldlM_cons, visit, handleEndFuncSubStmt, currentProcedure, hempty₂, hempty]
    rfl
  · rw [setBody, currentProcedure, hempty]
    rfl

theorem walk_fails (htbl : tbl.Complete) {file : List (ProgramUnit σ)} (hnot : ∃ u ∈ file, u.isNamed = false)
    (h : Ready tbl d st) (hflags : st.flags = (false, false)) (hcur : st.currentProcedures = [])
    (hac : Acyclic ((file.flatMap ProgramUnit.chunks).foldl (Declared.declare tbl) d).types)
    (hres : ∀ ch ∈ file.flatMap ProgramUnit.chunks, ∀ c ∈ ch.callbacks, c.isResolved = true) :
    walk tbl opts st ((file.flatMap ProgramUnit.chunks).flatMap Chunk.callbacks) = .error .undefined := by
  induction file generalizing d st with
  | nil =>
    obtain ⟨u, hu, -⟩ := hnot
    exact absurd hu List.not_mem_nil
  | cons u file ih =>
    rw [List.flatMap_cons] at hac hres ⊢
    rw [List.foldl_append] at hac
    have hfirst := hac.of_prefix (declares_types _ _)
    have hresolved : ∀ ch ∈ u.chunks, ∀ c ∈ ch.callbacks, c.isResolved = true := fun ch hch =>
      hres ch (List.mem_append_left _ hch)
    rw [List.flatMap_append, walk, List.foldlM_append]
    cases hu : u.isNamed with
    | true =>
      obtain ⟨st₁, hst₁, hready, hprocs⟩ := ProgramUnit.passes htbl hu h hflags hfirst hresolved
      have hflags₁ : st₁.flags = (false, false) := by
        rw [walk_flags hst₁, hflags]
        exact u.flags
      refine (congrArg (· >>= _) hst₁).trans ?_
      refine ih ?_ hready hflags₁ (hprocs.trans hcur) hac fun ch hch => hres ch (List.mem_append_right _ hch)
      obtain ⟨v, hv, hnot⟩ := hnot
      rcases List.mem_cons.mp hv with rfl | hv
      · rw [hu] at hnot
        cases hnot
      · exact ⟨v, hv, hnot⟩
    | false =>
      cases u with
      | other parts => cases hu
      | separateModuleSubprogram parts internal => cases hu
      | mainProgram programStmt parts internal =>
        exact congrArg (· >>= _) (mainProgram_fails htbl hu h hcur hfirst hresolved)

theorem addCollectedEdges_total {g : Callgraph} (h : g.Wf) {edges : List Edge}
    (hedges : ∀ e ∈ edges, e.caller ≠ "" ∧ e.callee ≠ "") : ∃ g', edges.foldlM addCollectedEdge g = .ok g' := by
  obtain ⟨g', hg', -⟩ := foldlM_total (f := addCollectedEdge) (l := edges) (J := fun _ (t : Callgraph) => t.Wf) h
    fun pre e t hpre ht => by
      obtain ⟨hcaller, hcallee⟩ := hedges e (hpre.subset (List.mem_append_right _ (List.mem_singleton_self e)))
      obtain ⟨g₁, u, hu, -, hext₁⟩ := ht.getOrInsertNode_extends hcaller none false false
      obtain ⟨g₂, v, hv, -, hext₂⟩ := hext₁.wf.getOrInsertNode_extends hcallee none false false
      have hrun : addCollectedEdge t e = .ok (Callgraph.addEdgeRef 0 g₂ ⟨0, u⟩ ⟨0, v⟩).2 := by
        rw [addCollectedEdge, hu, ok_bind]
        dsimp only
        rw [hv, ok_bind]
        rfl
      exact ⟨_, hrun, (addCollectedEdge_eq_ok ht hrun).wf⟩
  exact ⟨g', hg'⟩

omit [DecidableEq σ] [Fintype σ] in
theorem Ready.postProcess (h : Ready tbl d st) (htbl : tbl.Complete) : ∃ g, postProcess tbl st = .ok g := by
  refine addCollectedEdges_total h.wf fun e he => ?_
  have hedge : IsEdge tbl e := by
    rcases List.mem_append.mp ((mem_uniquifyEdges _ e).mp he) with he | he
    · exact h.edges e he
    · obtain ⟨pf, hpf, he⟩ := List.mem_flatMap.mp he
      exact h.finalizerEdges pf (List.mem_of_mem_filter hpf) e he
  obtain ⟨a, b, rfl⟩ := hedge
  exact ⟨htbl.mangled a, htbl.mangled b⟩

theorem collect_of_named (htbl : tbl.Complete) {file : List (ProgramUnit σ)}
    (hac : Acyclic (declaredBy tbl (file.flatMap ProgramUnit.chunks)).types)
    (hres : ∀ c ∈ callbacksOf file, c.isResolved = true) (hnamed : ∀ u ∈ file, u.isNamed = true) :
    ∃ st g, walk tbl opts (.start .empty) (callbacksOf file) = .ok st ∧ st.currentProcedures = [] ∧
      collect tbl opts (callbacksOf file) = .ok g := by
  obtain ⟨st, hst, hready, hempty⟩ := passes_units htbl hnamed .start rfl hac fun ch hch c hc =>
    hres c (List.mem_flatMap.mpr ⟨ch, hch, hc⟩)
  obtain ⟨g, hg⟩ := hready.postProcess htbl
  exact ⟨st, g, hst, hempty, by rw [collect, callbacksOf, hst, ok_bind, hg]⟩

/-- The collector returns a graph, with no procedure left on its stack, unless a main program has no `PROGRAM` statement; then
what it does is undefined. -/
theorem collect_returns (htbl : tbl.Complete) {file : List (ProgramUnit σ)}
    (hac : Acyclic (declaredBy tbl (file.flatMap ProgramUnit.chunks)).types)
    (hres : ∀ c ∈ callbacksOf file, c.isResolved = true) :
    ((∀ u ∈ file, u.isNamed = true) → ∃ st g, walk tbl opts (.start .empty) (callbacksOf file) = .ok st ∧
      st.currentProcedures = [] ∧ collect tbl opts (callbacksOf file) = .ok g) ∧
    ((∃ u ∈ file, u.isNamed = false) → collect tbl opts (callbacksOf file) = .error .undefined) := by
  refine ⟨collect_of_named htbl hac hres, fun hnot => ?_⟩
  rw [collect, callbacksOf, walk_fails htbl hnot .start rfl rfl hac fun ch hch c hc => hres c (List.mem_flatMap.mpr ⟨ch, hch, hc⟩)]
  rfl

end

/-- A shape and a circle that extends it are drawn by different procedures, and `v` is a shape. -/
def shapes : SymbolTable (Fin 8) where
  name s := ["shape", "circle", "draw", "draw_shape", "draw", "draw_circle", "main", "v"].getD s ""
  details s := [.derivedType [] none, .derivedType [] none, .procBinding 3, .subprogram none false [], .procBinding 5,
    .subprogram none false [], .other, .objectEntity].getD s .other
  getTypeAsDerivedTypeSymbol s := if s = 7 then some 0 else none
  isIntrinsic _ := false
  scope s := [some [2], some [4]].getD s none
  mangleSymbol s := ["_QMmT", "_QMmTcircle", "_QMmPdraw", "draw_shape_", "_QMmPdraw", "draw_circle_", "_QQmain", "_QFEv"].getD s "_"
  depth _ := 0
  host_lt s _ h := by
    match s with
    | 0 | 1 | 2 | 3 | 4 | 5 | 6 | 7 => cases h
  use_lt s _ h := by
    match s with
    | 0 | 1 | 2 | 3 | 4 | 5 | 6 | 7 => cases h

/-- The types and a main program that calls `v%draw()`. -/
def shapesFile (programStmt : Option (Option (Fin 8))) : List (ProgramUnit (Fin 8)) :=
  [.other
    [.derivedType 0 [] [⟨.postTypeBoundProcedureStmt (.withoutInterface [⟨some 2, some (some 3)⟩]), rfl⟩],
      .derivedType 1 [some 0] [⟨.postTypeBoundProcedureStmt (.withoutInterface [⟨some 4, some (some 5)⟩]), rfl⟩]],
    .mainProgram programStmt [.statement ⟨.postProcedureDesignator (.procComponentRef (some 2) (some 7)), rfl⟩] []]

theorem shapes_complete : shapes.Complete := ⟨by decide, fun s finals parentComponent h => by
  match s with
  | 0 | 1 => rfl
  | 2 | 3 | 4 | 5 | 6 | 7 => cases h⟩

theorem shapesFile_types (programStmt : Option (Option (Fin 8))) :
    (declaredBy shapes ((shapesFile programStmt).flatMap ProgramUnit.chunks)).types = [⟨some 0, none⟩, ⟨some 1, some 0⟩] := rfl

theorem shapesFile_acyclic (programStmt : Option (Option (Fin 8))) :
    Acyclic (declaredBy shapes ((shapesFile programStmt).flatMap ProgramUnit.chunks)).types := by
  rw [shapesFile_types]
  exact ⟨Fin.val, by decide⟩

theorem collect_returns_shapes :
    (∃ st g, walk shapes ⟨"shapes.f90", false⟩ (.start .empty) (callbacksOf (shapesFile (some (some 6)))) = .ok st ∧
      st.currentProcedures = [] ∧ collect shapes ⟨"shapes.f90", false⟩ (callbacksOf (shapesFile (some (some 6)))) = .ok g) ∧
    collect shapes ⟨"shapes.f90", false⟩ (callbacksOf (shapesFile none)) = .error .undefined :=
  ⟨(collect_returns shapes_complete (shapesFile_acyclic _) (by decide)).1 (by decide),
    (collect_returns shapes_complete (shapesFile_acyclic _) (by decide)).2 (by decide)⟩

section
variable {σ : Type} [DecidableEq σ] [Fintype σ] {tbl : SymbolTable σ} {opts : Settings}

/-- The graph of a file: one node for each procedure that is met and each end of a call, and the calls that were kept, with those of
the finalizers of an argument if the first argument of the called procedure has been initialized, wherever the argument stands. -/
theorem collect_calls {callbacks : List (Callback σ)} {g : Callgraph} (hrun : collect tbl opts callbacks = .ok g) :
    ∃ st, walk tbl opts (.start .empty) callbacks = .ok st ∧ g.Wf ∧ (∀ name, (g.getNodesNamed name).length ≤ 1) ∧
      (∀ name, g.getNodesNamed name ≠ [] ↔ name ∈ nodesOf tbl callbacks ∨ ∃ p ∈ g.callsNamed, name = p.1 ∨ name = p.2) ∧
      ∀ p, p ∈ g.callsNamed ↔ p ∈ callsOf st.edges ∨
        ∃ pf ∈ st.potentialFinalizers, firstInitialized tbl st pf.procedureCalled = true ∧ p ∈ callsOf pf.finalizerEdges := by
  obtain ⟨st, hwalk, hwf, hcalls, hnodes, hone⟩ := collect_eq_ok hrun
  have hpos := walk_argPos hwalk
  refine ⟨st, hwalk, hwf, hone, fun name => ?_, fun p => ?_⟩
  · rw [hnodes name, Set.mem_union, hcalls]
    refine or_congr_right ⟨?_, ?_⟩
    · rintro ⟨e, he, hname⟩
      exact ⟨(e.caller, e.callee), ⟨e, he, rfl⟩, hname⟩
    · rintro ⟨p, ⟨e, he, rfl⟩, hname⟩
      exact ⟨e, he, hname⟩
  · rw [hcalls]
    constructor
    · rintro ⟨e, he, rfl⟩
      rcases List.mem_append.mp he with he | he
      · exact .inl ⟨e, he, rfl⟩
      · obtain ⟨pf, hpf, he⟩ := List.mem_flatMap.mp he
        obtain ⟨hpf, hinit⟩ := List.mem_filter.mp hpf
        exact .inr ⟨pf, hpf, isInitialized_eq (hpos pf hpf) ▸ hinit, e, he, rfl⟩
    · rintro (⟨e, he, rfl⟩ | ⟨pf, hpf, hinit, e, he, rfl⟩)
      · exact ⟨e, List.mem_append_left _ he, rfl⟩
      · refine ⟨e, List.mem_append_right _ (List.mem_flatMap.mpr ⟨pf, List.mem_filter.mpr ⟨hpf, ?_⟩, he⟩), rfl⟩
        rw [isInitialized_eq (hpos pf hpf)]
        exact hinit

end

/-- A shape with a finalizer, a subroutine `fill` that assigns its first argument and one that passes it the allocatable `v` as
the second. -/
def fillShapes : SymbolTable (Fin 7) where
  name s := ["shape", "free_shape", "fill", "a", "use_shape", "v", "b"].getD s ""
  details s := [.derivedType [1] none, .subprogram none false [], .subprogram none false [some 3, some 6],
    .objectEntity, .subprogram none false [], .objectEntity, .objectEntity].getD s .other
  getTypeAsDerivedTypeSymbol s := if s = 5 then some 0 else none
  isIntrinsic _ := false
  scope s := [some []].getD s none
  mangleSymbol s := ["_QTshape", "free_shape_", "fill_", "_QFfillEa", "use_shape_", "_QFuse_shapeEv", "_QFfillEb"].getD s "_"
  depth _ := 0
  host_lt s _ h := by
    match s with
    | 0 | 1 | 2 | 3 | 4 | 5 | 6 => cases h
  use_lt s _ h := by
    match s with
    | 0 | 1 | 2 | 3 | 4 | 5 | 6 => cases h

def fillFile : List (ProgramUnit (Fin 7)) :=
  [.other
    [.derivedType 0 [] [], .subprogram false [] 2 [some 3, some 6] [.statement ⟨.postAssignmentStmt (some 3), rfl⟩] [],
      .subprogram false [] 4 []
        [.statement ⟨.postTypeDeclarationStmt [.allocatable] [some 5], rfl⟩,
          .statement ⟨.postCall (some 2) [none, some 5], rfl⟩] []]]

/-- The finalizer of `v` is called, and its node is the only one with its name. -/
theorem collect_calls_fill : ∃ g, collect fillShapes ⟨"fill.f90", false⟩ (callbacksOf fillFile) = .ok g ∧
    ("use_shape_", "free_shape_") ∈ g.callsNamed ∧ (g.getNodesNamed "free_shape_").length = 1 := by
  have hcomplete : fillShapes.Complete := ⟨by decide, fun s finals parentComponent h => by
    match s with
    | 0 => rfl
    | 1 | 2 | 3 | 4 | 5 | 6 => cases h⟩
  have hacyclic : Acyclic [⟨some (0 : Fin 7), none⟩] := ⟨Fin.val, by decide⟩
  obtain ⟨-, g, -, -, hg⟩ := @collect_of_named (Fin 7) _ _ fillShapes ⟨"fill.f90", false⟩ hcomplete fillFile hacyclic (by decide)
    (by decide)
  obtain ⟨st, hwalk, -, hone, hnodes, hcalls⟩ := collect_calls hg
  have hcheck : (walk fillShapes ⟨"fill.f90", false⟩ (.start .empty) (callbacksOf fillFile)).toOption.map (fun st =>
      st.potentialFinalizers.map fun pf => (firstInitialized fillShapes st pf.procedureCalled, pf.finalizerEdges)) =
        some [(true, [⟨"use_shape_", "free_shape_"⟩])] := by
    decide +kernel
  rw [hwalk] at hcheck
  obtain ⟨pf, l, hpf, hfirst, -⟩ := List.map_eq_cons_iff.mp (Option.some.inj hcheck)
  obtain ⟨hinit, hedges⟩ := Prod.mk.inj hfirst
  have hcall : ("use_shape_", "free_shape_") ∈ g.callsNamed :=
    (hcalls _).mpr (.inr ⟨pf, hpf ▸ List.mem_cons_self .., hinit, _, hedges ▸ List.mem_singleton_self _, rfl⟩)
  have hfree : g.getNodesNamed "free_shape_" ≠ [] := (hnodes _).mpr (.inr ⟨_, hcall, .inr rfl⟩)
  exact ⟨g, hg, hcall, le_antisymm (hone _) (List.length_pos_of_ne_nil hfree)⟩

end MetaCG.Fortran
