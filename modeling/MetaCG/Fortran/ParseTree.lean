import MetaCG.Fortran.CollectedGraph
import MetaCG.Fortran.DeclaredTypes

/-! The parse tree of a file, as far as the collector looks at it, and the callbacks of a walk over it. -/
namespace MetaCG.Fortran
open Foundations
set_option autoImplicit false
set_option maxHeartbeats 250000
set_option maxRecDepth 120000

section
variable {σ : Type}

/-- Of a statement of a specification or an execution part, and of what stands in it. -/
def Callback.isStatement : Callback σ → Bool
  | .postEntryStmt _ | .postProcedureDesignator _ | .postAssignmentStmt _ | .postAllocateStmt _ | .postCall _ _
  | .postTypeDeclarationStmt _ _ | .preInterfaceStmt | .preEndInterfaceStmt | .postDefinedOperator _ | .postProcedureStmt _
  | .preExpr _ | .postExpr _ | .postUseStmt _ => true
  | _ => false

/-- Of an expression and what stands in it. -/
def Callback.isExpression : Callback σ → Bool
  | .postProcedureDesignator _ | .postCall _ _ | .preExpr _ | .postExpr _ => true
  | _ => false

/-- Of a statement that binds procedures to a derived type. -/
def Callback.isBinding : Callback σ → Bool
  | .postTypeBoundProcedureStmt _ | .postTypeBoundGenericStmt _ _ => true
  | _ => false

/-- Of a statement of a derived type: a binding, with its operator, or a component, with what it is initialized with. -/
def Callback.isComponent (c : Callback σ) : Bool :=
  c.isBinding || c.isExpression || match c with | .postDefinedOperator _ => true | _ => false

theorem Callback.startsType_of_isStatement {c : Callback σ} (h : c.isStatement = true) : c.startsType = false := by
  cases c <;> first | rfl | cases h

theorem Callback.isStatement_of_isExpression {c : Callback σ} (h : c.isExpression = true) : c.isStatement = true := by
  cases c <;> first | rfl | cases h

theorem Callback.isComponent_cases {c : Callback σ} (h : c.isComponent = true) : c.isBinding = true ∨ c.isStatement = true := by
  cases c <;> first | exact .inl rfl | exact .inr rfl | cases h

theorem Callback.startsType_of_isComponent {c : Callback σ} (h : c.isComponent = true) : c.startsType = false := by
  cases c <;> first | rfl | cases h

end

/-- The parts of a program unit. The execution part of a subprogram stands between its parts and its internal subprograms, and the
expressions in its first statement come before the statement itself. Those of an interface body are statements in front of it. -/
inductive ParseTree (σ : Type) where
  | statement (c : { c : Callback σ // c.isStatement = true })
  | derivedType (typeSymbol : σ) (attrs : List (Option σ)) (stmts : List { c : Callback σ // c.isComponent = true })
  | stmtFunction (name : σ) (parts : List (ParseTree σ))
  | interfaceBody (isFunction : Bool) (name : σ) (args : List (Option σ)) (parts : List (ParseTree σ))
  | subprogram (isFunction : Bool) (header : List { c : Callback σ // c.isExpression = true }) (name : σ) (args : List (Option σ))
      (parts internal : List (ParseTree σ))

/-- A module is the list of its parts, with a unit of its own for each separate module procedure; an external subprogram is a list
of one. -/
inductive ProgramUnit (σ : Type) where
  | mainProgram (programStmt : Option (Option σ)) (parts internal : List (ParseTree σ))
  | other (parts : List (ParseTree σ))
  | separateModuleSubprogram (parts internal : List (ParseTree σ))

section
variable {σ : Type}

def openProcedure (isFunction : Bool) (name : σ) (args : List (Option σ)) : Chunk σ :=
  if isFunction then .one (.postFunctionStmt (some name) args) rfl else .one (.postSubroutineStmt (some name) args) rfl

def closeProcedure (isFunction : Bool) : Chunk σ :=
  if isFunction then .one .postEndFunctionStmt rfl else .one .postEndSubroutineStmt rfl

def enterSubprogram (isFunction : Bool) : Chunk σ :=
  if isFunction then .one .preFunctionSubprogram rfl else .one .preSubroutineSubprogram rfl

def leaveSubprogram (isFunction : Bool) : Chunk σ :=
  if isFunction then .one .postFunctionSubprogram rfl else .one .postSubroutineSubprogram rfl

def headerChunks (header : List { c : Callback σ // c.isExpression = true }) : List (Chunk σ) :=
  header.map fun c => .one c.1 (Callback.startsType_of_isStatement (Callback.isStatement_of_isExpression c.2))

mutual

def ParseTree.chunks : ParseTree σ → List (Chunk σ)
  | .statement c => [.one c.1 (Callback.startsType_of_isStatement c.2)]
  | .derivedType typeSymbol attrs stmts =>
    .typeStart typeSymbol attrs :: stmts.map (fun c => .one c.1 (Callback.startsType_of_isComponent c.2)) ++
      [.one .postDerivedTypeDef rfl]
  | .stmtFunction name parts => .one (.preStmtFunctionStmt (some name)) rfl :: chunksOf parts ++ [.one .postStmtFunctionStmt rfl]
  | .interfaceBody isFunction name args parts =>
    openProcedure isFunction name args :: chunksOf parts ++ [closeProcedure isFunction]
  | .subprogram isFunction header name args parts internal =>
    enterSubprogram isFunction :: headerChunks header ++ openProcedure isFunction name args :: chunksOf parts ++
      .one .postExecutionPart rfl :: chunksOf internal ++ [closeProcedure isFunction, leaveSubprogram isFunction]

def chunksOf : List (ParseTree σ) → List (Chunk σ)
  | [] => []
  | t :: ts => t.chunks ++ chunksOf ts

end

def ProgramUnit.chunks : ProgramUnit σ → List (Chunk σ)
  | .mainProgram programStmt parts internal =>
    .one (.preMainProgram programStmt) rfl :: chunksOf parts ++ .one .postExecutionPart rfl :: chunksOf internal ++
      [.one .postMainProgram rfl]
  | .other parts => chunksOf parts
  | .separateModuleSubprogram parts internal => chunksOf parts ++ .one .postExecutionPart rfl :: chunksOf internal

/-- The callbacks of a walk over a file. -/
def callbacksOf (file : List (ProgramUnit σ)) : List (Callback σ) := (file.flatMap ProgramUnit.chunks).flatMap Chunk.callbacks

/-- The unit is not a main program without a `PROGRAM` statement. -/
def ProgramUnit.isNamed : ProgramUnit σ → Bool
  | .mainProgram (some (some _)) _ _ | .other _ | .separateModuleSubprogram .. => true
  | _ => false

/-- The operator has a symbol, unless it is intrinsic. -/
def ExprOperator.isResolved : ExprOperator σ → Bool
  | .DefinedUnary name | .DefinedBinary name => name.symbol.isSome
  | _ => true

/-- The front end has found the symbols that the visitor takes for granted. -/
def Callback.isResolved : Callback σ → Bool
  | .postTypeBoundProcedureStmt (.withoutInterface declarations) =>
    declarations.all fun d => d.name.isNone || d.procedure.all Option.isSome
  | .postTypeBoundGenericStmt (some _) names => names.all Option.isSome
  | .preExpr (.operator op) => op.isResolved
  | .postUseStmt moduleName => moduleName.isSome
  | _ => true

/-- Every name is mangled to something, and a derived type has a scope. -/
structure SymbolTable.Complete (tbl : SymbolTable σ) : Prop where
  mangled : ∀ s, tbl.mangleSymbol s ≠ ""
  scopes : ∀ s finals parentComponent, tbl.details s = .derivedType finals parentComponent → (tbl.scope s).isSome = true

end

/-! ## Flags -/

section
variable {σ : Type}

/-- The flags after some chunks. -/
def chunkFlags (chunks : List (Chunk σ)) (flags : Bool × Bool) : Bool × Bool :=
  (chunks.flatMap Chunk.callbacks).foldl flagsAfter flags

theorem chunkFlags_append (a b : List (Chunk σ)) (flags : Bool × Bool) :
    chunkFlags (a ++ b) flags = chunkFlags b (chunkFlags a flags) := by
  rw [chunkFlags, List.flatMap_append, List.foldl_append, ← chunkFlags, ← chunkFlags]

/-- Chunks that are in no subprogram of their own. -/
theorem chunkFlags_eq {l : List (Chunk σ)} {flags : Bool × Bool}
    (h : ∀ ch ∈ l, ∀ c ∈ ch.callbacks, flagsAfter flags c = flags) : chunkFlags l flags = flags := by
  induction l with
  | nil => rfl
  | cons ch l ih =>
    have hfirst : ch.callbacks.foldl flagsAfter flags = flags := by
      refine List.foldlRecOn (motive := (· = flags)) ch.callbacks flagsAfter rfl fun f hf c hc => ?_
      rw [hf]
      exact h ch (List.mem_cons_self ..) c hc
    rw [chunkFlags, List.flatMap_cons, List.foldl_append, hfirst]
    exact ih fun ch hch => h ch (List.mem_cons_of_mem _ hch)

theorem flagsAfter_component {c : Callback σ} (hc : c.isComponent = true) (flags : Bool × Bool) : flagsAfter flags c = flags := by
  cases c <;> first | rfl | cases hc

theorem typeStart_flags {typeSymbol : σ} {attrs : List (Option σ)} {c : Callback σ}
    (hc : c ∈ (Chunk.typeStart typeSymbol attrs).callbacks) (flags : Bool × Bool) : flagsAfter flags c = flags := by
  rcases List.mem_append.mp hc with hc | hc
  · simp only [List.mem_cons, List.not_mem_nil, or_false] at hc
    rcases hc with rfl | rfl <;> rfl
  · obtain ⟨a, -, rfl⟩ := List.mem_map.mp hc
    rfl

theorem headerChunks_flags (header : List { c : Callback σ // c.isExpression = true }) (flags : Bool × Bool) :
    chunkFlags (headerChunks header) flags = flags := by
  refine chunkFlags_eq fun ch hch c hc => ?_
  obtain ⟨⟨x, hx⟩, -, rfl⟩ := List.mem_map.mp hch
  obtain rfl : c = x := List.mem_singleton.mp hc
  cases c <;> first | rfl | cases hx

theorem derivedType_flags (typeSymbol : σ) (attrs : List (Option σ)) (stmts : List { c : Callback σ // c.isComponent = true })
    (flags : Bool × Bool) : chunkFlags (ParseTree.derivedType typeSymbol attrs stmts).chunks flags = flags := by
  rw [ParseTree.chunks]
  refine chunkFlags_eq fun ch hch c hc => ?_
  rcases List.mem_append.mp hch with hch | hch
  · rcases List.mem_cons.mp hch with rfl | hch
    · exact typeStart_flags hc flags
    · obtain ⟨⟨x, hx⟩, -, rfl⟩ := List.mem_map.mp hch
      cases List.mem_singleton.mp hc
      exact flagsAfter_component hx flags
  · cases List.mem_singleton.mp hch
    cases List.mem_singleton.mp hc
    rfl

/-- A walk over the chunks stays in the main program or out of it, and outside all subprograms if it was there before. -/
structure KeepsFlags (chunks : List (Chunk σ)) : Prop where
  inMain : ∀ flags, (chunkFlags chunks flags).2 = flags.2
  outside : ∀ inMain, chunkFlags chunks (false, inMain) = (false, inMain)

theorem KeepsFlags.of_eq {l : List (Chunk σ)} (h : ∀ flags, chunkFlags l flags = flags) : KeepsFlags l :=
  ⟨fun flags => congrArg Prod.snd (h flags), fun inMain => h (false, inMain)⟩

theorem KeepsFlags.append {a b : List (Chunk σ)} (ha : KeepsFlags a) (hb : KeepsFlags b) : KeepsFlags (a ++ b) := by
  refine ⟨fun flags => ?_, fun inMain => ?_⟩
  · rw [chunkFlags_append, hb.inMain, ha.inMain]
  · rw [chunkFlags_append, ha.outside, hb.outside]

theorem openProcedure_flags (isFunction : Bool) (name : σ) (args : List (Option σ)) :
    KeepsFlags [openProcedure isFunction name args] := .of_eq fun _ => by cases isFunction <;> rfl

theorem closeProcedure_flags (isFunction : Bool) : KeepsFlags [(closeProcedure isFunction : Chunk σ)] :=
  .of_eq fun _ => by cases isFunction <;> rfl

theorem subprogram_flags (isFunction : Bool) {inside : List (Chunk σ)} (h : KeepsFlags inside) :
    KeepsFlags (enterSubprogram isFunction :: inside ++ [leaveSubprogram isFunction]) := by
  have hflags : ∀ flags, chunkFlags (enterSubprogram isFunction :: inside ++ [leaveSubprogram isFunction]) flags =
      (false, flags.2) := by
    intro flags
    rw [chunkFlags_append, ← List.singleton_append, chunkFlags_append]
    have hinside := h.inMain (true, flags.2)
    cases isFunction <;> exact Prod.ext rfl hinside
  exact ⟨fun flags => by rw [hflags], fun inMain => hflags (false, inMain)⟩

mutual

theorem ParseTree.flags (t : ParseTree σ) : KeepsFlags t.chunks := by
  cases t with
  | statement c =>
    obtain ⟨c, hc⟩ := c
    refine .of_eq fun flags => ?_
    cases c <;> first | rfl | cases hc
  | derivedType typeSymbol attrs stmts => exact .of_eq (derivedType_flags typeSymbol attrs stmts)
  | stmtFunction name parts =>
    have hopen : KeepsFlags [Chunk.one (.preStmtFunctionStmt (some name)) rfl] := .of_eq fun _ => rfl
    exact (hopen.append (chunksOf_flags parts)).append (.of_eq fun _ => rfl)
  | interfaceBody isFunction name args parts =>
    exact ((openProcedure_flags isFunction name args).append (chunksOf_flags parts)).append (closeProcedure_flags isFunction)
  | subprogram isFunction header name args parts internal =>
    have hexecution : KeepsFlags [Chunk.one (.postExecutionPart : Callback σ) rfl] := .of_eq fun _ => rfl
    have hinside := ((((KeepsFlags.of_eq (headerChunks_flags header)).append (openProcedure_flags isFunction name args)).append
      (chunksOf_flags parts)).append (hexecution.append (chunksOf_flags internal))).append (closeProcedure_flags isFunction)
    rw [ParseTree.chunks]
    simpa using subprogram_flags isFunction hinside

theorem chunksOf_flags (ts : List (ParseTree σ)) : KeepsFlags (chunksOf ts) := by
  cases ts with
  | nil => exact .of_eq fun _ => rfl
  | cons t ts => exact t.flags.append (chunksOf_flags ts)

end

theorem body_flags (parts internal : List (ParseTree σ)) :
    KeepsFlags (chunksOf parts ++ .one .postExecutionPart rfl :: chunksOf internal) := by
  have hexecution : KeepsFlags [Chunk.one (.postExecutionPart : Callback σ) rfl] := .of_eq fun _ => rfl
  exact (chunksOf_flags parts).append (hexecution.append (chunksOf_flags internal))

/-- After a unit the walk is in no subprogram and in no main program. -/
theorem ProgramUnit.flags (u : ProgramUnit σ) : chunkFlags u.chunks (false, false) = (false, false) := by
  cases u with
  | mainProgram programStmt parts internal =>
    have hshape : (ProgramUnit.mainProgram programStmt parts internal).chunks = [.one (.preMainProgram programStmt) rfl] ++
        (chunksOf parts ++ .one .postExecutionPart rfl :: chunksOf internal) ++ [.one .postMainProgram rfl] := by
      rw [ProgramUnit.chunks]
      simp
    have hopen : chunkFlags [Chunk.one (.preMainProgram programStmt) rfl] (false, false) = (false, true) := rfl
    rw [hshape, chunkFlags_append, chunkFlags_append, hopen, (body_flags parts internal).outside]
    rfl
  | other parts => exact (chunksOf_flags parts).outside false
  | separateModuleSubprogram parts internal => exact (body_flags parts internal).outside false

end
end MetaCG.Fortran
