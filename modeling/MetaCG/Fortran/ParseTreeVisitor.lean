import MetaCG.Fortran.Operators
import MetaCG.Fortran.VariableTracking
import MetaCG.Tools.CGPatchRuntime

/-! The visitor that collects the call graph of a Fortran file (`ParseTreeVisitor.cpp`).

The front end walks over the parse tree and calls `Pre` before and `Post` after the children of a node. Each call for which the
visitor has a body is a `Callback` with what the body reads. The stack of current procedures has its top first. -/
namespace MetaCG.Fortran
open Foundations
set_option autoImplicit false
set_option maxHeartbeats 250000
set_option maxRecDepth 120000

/-- A call by name, or of a component of a variable. Names may be without a symbol. -/
inductive ProcedureDesignator (σ : Type) where
  | name (symbol : Option σ)
  | procComponentRef (component base : Option σ)

inductive Intent where
  | In | Out | InOut
deriving DecidableEq

inductive AttrSpec where
  | allocatable
  | intent (v : Intent)
  | save
  | other

/-- A binding, and the procedure if it has another name. -/
structure TypeBoundProcDecl (σ : Type) where
  name : Option σ
  procedure : Option (Option σ)

inductive TypeBoundProcedureStmt (σ : Type) where
  | withoutInterface (declarations : List (TypeBoundProcDecl σ))
  | withInterface (bindingNames : List (Option σ))

inductive Callback (σ : Type) where
  | preMainProgram (programStmt : Option (Option σ))
  | postMainProgram
  | preFunctionSubprogram
  | postFunctionSubprogram
  | preSubroutineSubprogram
  | postSubroutineSubprogram
  | postExecutionPart
  | postEntryStmt (name : Option σ)
  | postFunctionStmt (name : Option σ) (args : List (Option σ))
  | postEndFunctionStmt
  | postSubroutineStmt (name : Option σ) (args : List (Option σ))
  | postEndSubroutineStmt
  | postProcedureDesignator (p : ProcedureDesignator σ)
  | postAssignmentStmt (name : Option σ)
  | postAllocateStmt (names : List (Option σ))
  | postCall (procName : Option σ) (args : List (Option σ))
  | postTypeDeclarationStmt (attrs : List AttrSpec) (entities : List (Option σ))
  | preDerivedTypeDef
  | postDerivedTypeDef
  | preDerivedTypeStmt (name : Option σ)
  /-- An attribute that is not `extends` carries nothing. -/
  | postTypeAttrSpec (parent : Option (Option σ))
  | postTypeBoundProcedureStmt (s : TypeBoundProcedureStmt σ)
  | postTypeBoundGenericStmt (genericSpec : Option (DefinedOperator σ)) (names : List (Option σ))
  | preInterfaceStmt
  | preEndInterfaceStmt
  | postDefinedOperator (op : DefinedOperator σ)
  | postProcedureStmt (names : List (Option σ))
  | preExpr (e : Expr σ)
  | postExpr (e : Expr σ)
  | postUseStmt (moduleName : Option σ)
  | preStmtFunctionStmt (name : Option σ)
  | postStmtFunctionStmt

/-- The options of a run and the file. -/
structure Settings where
  currentFileName : String
  includeIntrinsics : Bool

structure State (σ : Type) where
  cg : Callgraph
  inFunctionOrSubroutineSubProgram : Bool
  inMainProgram : Bool
  inDerivedTypeDef : Bool
  inInterfaceStmt : Bool
  inInterfaceStmtDefinedOperator : Bool
  edges : List Edge
  procedures : List (Procedure σ)
  currentProcedures : List (Procedure σ)
  types : List (TypeEntry σ)
  interfaceOperators : List ((σ ⊕ IntrinsicOperator) × List σ)
  exprStmtWithOps : List (ExprOperator σ)
  trackedVars : List (TrackedVar σ)
  potentialFinalizers : List PotentialFinalizer
  procedureOverwrites : UMap (Option σ × String) (List σ)
  finalizers : UMap (Option σ) (List σ)
  typeOperators : UMap (Option σ × String) (List String)

/-- The visitor before the walk. -/
def State.start {σ : Type} (cg : Callgraph) : State σ where
  cg := cg
  inFunctionOrSubroutineSubProgram := false
  inMainProgram := false
  inDerivedTypeDef := false
  inInterfaceStmt := false
  inInterfaceStmtDefinedOperator := false
  edges := []
  procedures := []
  currentProcedures := []
  types := []
  interfaceOperators := []
  exprStmtWithOps := []
  trackedVars := []
  potentialFinalizers := []
  procedureOverwrites := ∅
  finalizers := ∅
  typeOperators := ∅

section
variable {σ : Type} [DecidableEq σ] [Fintype σ] (tbl : SymbolTable σ) (opts : Settings) (st : State σ)

/-! ## Procedures -/

/-- `currentProcedures.back().symbol` -/
def currentProcedure : Except Exn σ :=
  match st.currentProcedures with
  | p :: _ => .ok p.symbol
  | [] => .error .undefined

def handleFuncSubStmt (sym : σ) : Except Exn (State σ) := do
  let (cg, _) ← st.cg.getOrInsertNode (tbl.mangleSymbol sym) (some opts.currentFileName) false false
  return { st with
    currentProcedures := ⟨sym, []⟩ :: st.currentProcedures, procedures := st.procedures ++ [⟨sym, []⟩], cg }

/-- One round of the loop of `handleDummyArgs`; `i` is the place of the procedure in the list of all procedures. -/
def handleDummyArg (currentProcedureSymbol : σ) (i : ℕ) (st : State σ) (item : Option σ) : State σ :=
  match item with
  | none => st
  | some symbol =>
    let add (p : Procedure σ) : Procedure σ := { p with dummyArgs := p.dummyArgs ++ [⟨some symbol, false⟩] }
    { st with
      currentProcedures := st.currentProcedures.modify 0 add
      procedures := st.procedures.modify i add
      trackedVars := addTrackedVar tbl st.trackedVars ⟨symbol, currentProcedureSymbol, false, false⟩ }

def handleDummyArgs (items : List (Option σ)) : Except Exn (State σ) := do
  let current ← currentProcedure st
  match st.procedures.findIdx? fun f => decide (f.symbol = current) with
  | none => return st
  | some i => return items.foldl (handleDummyArg tbl current i) st

def handleTrackedVars (current : σ) : Except Exn (State σ) :=
  if tbl.mangleSymbol current = "_QQmain" then .ok st
  else do
    let (edges, procedures) ←
      st.trackedVars.foldlM (handleTrackedVar tbl st.types st.finalizers current) (st.edges, st.procedures)
    return { st with edges, procedures, trackedVars := removeTrackedVars tbl st.trackedVars current }

def handleEndFuncSubStmt : Except Exn (State σ) := do
  let st ← handleTrackedVars tbl st (← currentProcedure st)
  return { st with currentProcedures := st.currentProcedures.tail }

/-- `mangleSymbol` of a symbol that may be missing. -/
def named (name : Option σ) : Except Exn σ :=
  match name with
  | some sym => .ok sym
  | none => .error (.assertion "sym && \"mangleSymbol called with nullptr\"")

def postFunctionStmt (name : Option σ) (args : List (Option σ)) : Except Exn (State σ) := do
  handleDummyArgs tbl (← handleFuncSubStmt tbl opts st (← named name)) args

/-- Sets the flag of the node of the current procedure, if there is one. -/
def setBody : Except Exn (State σ) := do
  let current ← currentProcedure st
  match ← st.cg.getFirstNode (tbl.mangleSymbol current) with
  | none => return st
  | some node => return { st with cg := st.cg.setHasBody node.id true }

def preMainProgram (programStmt : Option (Option σ)) : Except Exn (State σ) :=
  match programStmt with
  | some (some mainProgramSymbol) => do
    let (cg, _) ← st.cg.getOrInsertNode (tbl.mangleSymbol mainProgramSymbol) (some opts.currentFileName) false false
    return { st with inMainProgram := true, currentProcedures := ⟨mainProgramSymbol, []⟩ :: st.currentProcedures, cg }
  | _ => .ok { st with inMainProgram := true }

def postExecutionPart : Except Exn (State σ) :=
  if !st.inFunctionOrSubroutineSubProgram && !st.inMainProgram then .ok st else setBody tbl st

def postEntryStmt (name : Option σ) : Except Exn (State σ) :=
  match name with
  | none => .ok st
  | some sym => do
    let (cg, _) ← st.cg.getOrInsertNode (tbl.mangleSymbol sym) (some opts.currentFileName) false true
    return { st with cg }

def preStmtFunctionStmt (name : Option σ) : Except Exn (State σ) := do
  setBody tbl (← handleFuncSubStmt tbl opts st (← named name))

/-! ## Calls and variables -/

def postProcedureDesignator (p : ProcedureDesignator σ) : Except Exn (State σ) :=
  match st.currentProcedures with
  | [] => .ok st
  | current :: _ =>
    match p with
    | .name none => .ok st
    | .name (some symbol) =>
      if !opts.includeIntrinsics && tbl.isIntrinsic symbol then .ok st
      else .ok { st with edges := st.edges ++ [edgeOf tbl current.symbol symbol] }
    | .procComponentRef none _ => .ok st
    | .procComponentRef (some symbolComp) base => do
      let st := { st with edges := st.edges ++ [edgeOf tbl current.symbol symbolComp] }
      match base.bind (findType tbl st.types) with
      | none => return st
      | some baseType =>
        let key := (← getAbsoluteBaseSymbol tbl st.types baseType, tbl.name symbolComp)
        return { st with edges := st.edges ++ (UMap.getD st.procedureOverwrites key []).map (edgeOf tbl current.symbol) }

/-- The variable is assigned, if it is tracked. -/
def assigned (current : σ) (st : State σ) (name : Option σ) : State σ :=
  match name with
  | none => st
  | some sym => { st with trackedVars := handleTrackedVarAssignment tbl st.trackedVars current (tbl.name sym) }

/-- `AssignmentStmt` has one name, `AllocateStmt` has several. -/
def postAssignment (names : List (Option σ)) : State σ :=
  match st.currentProcedures with
  | [] => st
  | current :: _ => names.foldl (assigned tbl current.symbol) st

/-- One round of the loop over the arguments of a call. The position is never counted up. -/
def handleActualArg (procSymbol current : σ) (st : State σ) (arg : Option σ) : Except Exn (State σ) :=
  match arg with
  | none => .ok st
  | some sym =>
    if tbl.isIntrinsic procSymbol && decide (tbl.name procSymbol = "move_alloc") then .ok (assigned tbl current st arg)
    else
      match getTrackedVarFromSourceName tbl st.trackedVars current (tbl.name sym) with
      | none => .ok st
      | some _ => do
        let finalizerEdges ← addEdgesForFinalizers tbl st.types st.finalizers current sym
        return { st with
          potentialFinalizers := st.potentialFinalizers ++ [⟨0, tbl.mangleSymbol procSymbol, finalizerEdges⟩] }

def postCall (procName : Option σ) (args : List (Option σ)) : Except Exn (State σ) :=
  match st.currentProcedures, procName with
  | current :: _, some procSymbol => args.foldlM (handleActualArg tbl procSymbol current.symbol) st
  | _, _ => .ok st

def holdsAllocatable (attrs : List AttrSpec) : Bool := attrs.any fun | .allocatable => true | _ => false

def holdsSave (attrs : List AttrSpec) : Bool := attrs.any fun | .save => true | _ => false

/-- The last intent that is given. -/
def holdsIntent (attrs : List AttrSpec) : Option Intent :=
  attrs.foldl (fun holds attr => match attr with | .intent v => some v | _ => holds) none

/-- One round of the loop over the entities of a declaration. -/
def declareEntity (attrs : List AttrSpec) (current : Procedure σ) (st : State σ) (name : Option σ) : Except Exn (State σ) :=
  match name with
  | none => .ok st
  | some sym =>
    let isProcedureArg := current.dummyArgs.any fun dummyArg => decide (dummyArg.symbol = some sym)
    let track := { st with trackedVars := addTrackedVar tbl st.trackedVars ⟨sym, current.symbol, false, true⟩ }
    let finalize : Except Exn (State σ) := do
      return { st with edges := st.edges ++ (← addEdgesForFinalizers tbl st.types st.finalizers current.symbol sym) }
    if holdsSave attrs then .ok st
    else if isProcedureArg then
      if holdsAllocatable attrs then .ok st
      else
        match holdsIntent attrs with
        | none => .ok track
        | some .Out => finalize
        | some .InOut => .ok track
        | some .In => .ok st
    else if holdsAllocatable attrs then .ok track
    else finalize

def postTypeDeclarationStmt (attrs : List AttrSpec) (entities : List (Option σ)) : Except Exn (State σ) :=
  match st.currentProcedures with
  | [] => .ok st
  | current :: _ => entities.foldlM (declareEntity tbl attrs current) st

/-! ## Types -/

/-- `types.back()` -/
def currentType : Except Exn (TypeEntry σ) :=
  match st.types.getLast? with
  | some t => .ok t
  | none => .error .undefined

def setCurrentType (t : TypeEntry σ) : State σ := { st with types := st.types.dropLast ++ [t] }

/-- Files a procedure under a binding name of the type. -/
def addOverwrite (t : TypeEntry σ) (st : State σ) (bindingName : String) (value : σ) : Except Exn (State σ) := do
  let base ← getAbsoluteBaseSymbol tbl st.types t
  return { st with procedureOverwrites := pushAt st.procedureOverwrites (base, bindingName) value }

def addFinalizer (t : TypeEntry σ) (st : State σ) (final : σ) : Except Exn (State σ) := do
  let base ← getAbsoluteBaseSymbol tbl st.types t
  return { st with finalizers := pushAt st.finalizers base final }

def addTypeOperator (t : TypeEntry σ) (operator : String) (st : State σ) (bindingName : String) : Except Exn (State σ) := do
  let base ← getAbsoluteBaseSymbol tbl st.types t
  return { st with typeOperators := pushAt st.typeOperators (base, operator) bindingName }

/-- The finalizers of the symbol itself, or none if it is no derived type. -/
def finals (sym : σ) : List σ :=
  match tbl.details sym with
  | .derivedType finals _ => finals
  | _ => []

def postDerivedTypeDef : Except Exn (State σ) := do
  let t ← currentType st
  match (tbl.canonicalizeSymbol t.typeSymbol .Identity).symbol with
  | none => throw .nullDereference
  | some canon => (finals tbl canon).foldlM (addFinalizer tbl t) { st with inDerivedTypeDef := false }

def preDerivedTypeStmt (name : Option σ) : Except Exn (State σ) :=
  if !st.inDerivedTypeDef then .ok st
  else do
    let t ← currentType st
    match name with
    | none => throw .nullDereference
    | some sym => return setCurrentType st { t with typeSymbol := some sym }

def postTypeAttrSpec (parent : Option (Option σ)) : Except Exn (State σ) :=
  if !st.inDerivedTypeDef then .ok st
  else do
    let t ← currentType st
    match parent with
    | none => return st
    | some none => throw .nullDereference
    | some (some sym) => return setCurrentType st { t with extendsFrom := some sym }

/-- The binding name and the procedure of a declaration without an interface. -/
def addDeclaration (t : TypeEntry σ) (st : State σ) (d : TypeBoundProcDecl σ) : Except Exn (State σ) :=
  match d.name with
  | none => .ok st
  | some name =>
    match d.procedure.getD (some name) with
    | none => .error .nullDereference
    | some value => addOverwrite tbl t st (tbl.name name) value

def addBindingName (t : TypeEntry σ) (st : State σ) (n : Option σ) : Except Exn (State σ) :=
  match n with
  | none => .ok st
  | some sym =>
    match tbl.details sym with
    | .procBinding procedure => addOverwrite tbl t st (tbl.name sym) procedure
    | _ => .ok st

def postTypeBoundProcedureStmt (s : TypeBoundProcedureStmt σ) : Except Exn (State σ) :=
  if !st.inDerivedTypeDef then .ok st
  else
    match s with
    | .withoutInterface declarations => do declarations.foldlM (addDeclaration tbl (← currentType st)) st
    | .withInterface bindingNames => do bindingNames.foldlM (addBindingName tbl (← currentType st)) st

/-- A binding name of an operator of the type. -/
def addOperatorName (t : TypeEntry σ) (op : DefinedOperator σ) (st : State σ) (n : Option σ) : Except Exn (State σ) :=
  match n with
  | none => .error .nullDereference
  | some sym => addTypeOperator tbl t (getOperatorStringFromDefinedOperator op) st (tbl.name sym)

def postTypeBoundGenericStmt (genericSpec : Option (DefinedOperator σ)) (names : List (Option σ)) : Except Exn (State σ) :=
  if !st.inDerivedTypeDef then .ok st
  else do
    let t ← currentType st
    match genericSpec with
    | none => return st
    | some op => names.foldlM (addOperatorName tbl t op) st

/-! ## Interfaces and expressions -/

def postDefinedOperator (op : DefinedOperator σ) : State σ :=
  if !st.inInterfaceStmt then st
  else
    let st := { st with inInterfaceStmtDefinedOperator := true }
    match op with
    | .intrinsicOperator op => { st with interfaceOperators := st.interfaceOperators ++ [(.inr op, [])] }
    | .definedOpName ⟨_, none⟩ => st
    | .definedOpName ⟨_, some sym⟩ => { st with interfaceOperators := st.interfaceOperators ++ [(.inl sym, [])] }

def postProcedureStmt (names : List (Option σ)) : State σ :=
  if !st.inInterfaceStmtDefinedOperator then st
  else
    let add (op : (σ ⊕ IntrinsicOperator) × List σ) := (op.1, op.2 ++ names.reduceOption)
    { st with interfaceOperators := st.interfaceOperators.modify (st.interfaceOperators.length - 1) add }

/-- Whether an operator of an interface statement is the one of the expression. -/
def isInterfaceOperator (e : ExprOperator σ) (op : (σ ⊕ IntrinsicOperator) × List σ) : Except Exn Bool :=
  match op.1, e with
  | .inr intrinsicOp, e => .ok (compareExprIntrinsicOperator e intrinsicOp)
  | .inl definedOpNameSym, .DefinedUnary exprOpName | .inl definedOpNameSym, .DefinedBinary exprOpName =>
    match exprOpName.symbol with
    | some sym => .ok (decide (tbl.name definedOpNameSym = tbl.name sym))
    | none => .error .nullDereference
  | .inl _, _ => .ok false

/-- Whether a procedure of an interface operator is taken: not the current one, and with as many arguments as the operator has
operands if they are known. -/
def takesOperands (e : ExprOperator σ) (current sym : σ) : Bool :=
  decide (tbl.mangleSymbol sym ≠ tbl.mangleSymbol current) &&
    match st.procedures.find? fun f => decide (f.symbol = sym) with
    | none => true
    | some procedure =>
      (isUnaryOperator e && decide (procedure.dummyArgs.length = 1)) ||
        (isBinaryOperator e && decide (procedure.dummyArgs.length = 2))

/-- The procedures that are bound to a binding name of a type operator; none if one is the current procedure. -/
def operatorProcedures (base : Option σ) (current : σ) (opBindingName : String) : List σ :=
  let procedures := UMap.getD st.procedureOverwrites (base, opBindingName) []
  if opBindingName = tbl.name current || procedures.any fun sym => decide (tbl.name sym = tbl.name current) then []
  else procedures

/-- One round of the loop over the operators around a name. -/
def overloads (current sym : σ) (e : ExprOperator σ) : Except Exn (List Edge) := do
  let interfaceOp ← st.interfaceOperators.findM? (isInterfaceOperator tbl e)
  let ofInterface := (interfaceOp.elim [] Prod.snd).filter (takesOperands tbl st e current)
  match findType tbl st.types sym with
  | none => return ofInterface.map (edgeOf tbl current)
  | some type =>
    let base ← getAbsoluteBaseSymbol tbl st.types type
    let ofType := (UMap.getD st.typeOperators (base, getOperatorStringFromExpr e) []).flatMap
      (operatorProcedures tbl st base current)
    return (ofInterface ++ ofType).map (edgeOf tbl current)

def preExpr (e : Expr σ) : Except Exn (State σ) :=
  match e with
  | .operator op => .ok { st with exprStmtWithOps := st.exprStmtWithOps ++ [op] }
  | .designator (some sym) =>
    match st.currentProcedures with
    | [] => .ok st
    | current :: _ => do
      return { st with edges := st.edges ++ (← st.exprStmtWithOps.mapM (overloads tbl st current.symbol sym)).flatten }
  | _ => .ok st

def postExpr (e : Expr σ) : State σ :=
  match e with
  | .operator _ => { st with exprStmtWithOps := st.exprStmtWithOps.dropLast }
  | _ => st

/-! ## Modules -/

/-- What a derived type of a module extends. -/
def parentOf (parentComponent : Option σ) : Option σ :=
  parentComponent.bind fun extendsSymbol =>
    match tbl.details extendsSymbol with
    | .objectEntity => tbl.getTypeAsDerivedTypeSymbol extendsSymbol
    | _ => none

/-- A procedure or an operator of a derived type of a module. -/
def useComponent (t : TypeEntry σ) (st : State σ) (component : σ) : Except Exn (State σ) :=
  match tbl.details component with
  | .procBinding procedure => addOverwrite tbl t st (tbl.name component) procedure
  | .generic kind specificProcs => (specificProcs.map tbl.name).foldlM
      (addTypeOperator tbl t (getOperatorStringFromGenericDetails tbl component kind)) st
  | _ => .ok st

def useDerivedType (st : State σ) (symbol : σ) (finals : List σ) (parentComponent : Option σ) : Except Exn (State σ) :=
  match tbl.scope symbol with
  | none => .error .nullDereference
  | some components => do
    let t := ⟨some symbol, parentOf tbl parentComponent⟩
    let st ← finals.foldlM (addFinalizer tbl t) { st with types := st.types ++ [t] }
    components.foldlM (useComponent tbl t) st

/-- One round of the loop over the symbols of a module. -/
def useSymbol (st : State σ) (symbol : σ) : Except Exn (State σ) :=
  match tbl.details symbol with
  | .derivedType finals parentComponent => useDerivedType tbl st symbol finals parentComponent
  | .generic kind specificProcs =>
    if kind.isIntrinsicOperator then
      .ok { st with interfaceOperators := st.interfaceOperators ++ [(.inr kind.variantGetIntrinsicOperator, specificProcs)] }
    else if kind.isDefinedOperator then
      .ok { st with interfaceOperators := st.interfaceOperators ++ [(.inl symbol, specificProcs)] }
    else .ok st
  | .subprogram result isInterface dummyArgs =>
    if !result.isSome && !isInterface then .ok st
    else .ok { st with procedures := st.procedures ++ [⟨symbol, dummyArgs.map fun arg => ⟨arg, false⟩⟩] }
  | _ => .ok st

def postUseStmt (moduleName : Option σ) : Except Exn (State σ) :=
  match moduleName with
  | none => .error .nullDereference
  | some sym => ((tbl.scope sym).getD []).foldlM (useSymbol tbl) st

/-! ## The walk -/

def visit : Callback σ → Except Exn (State σ)
  | .preMainProgram programStmt => preMainProgram tbl opts st programStmt
  | .postMainProgram => do return { ← handleEndFuncSubStmt tbl st with inMainProgram := false }
  | .preFunctionSubprogram => .ok { st with inFunctionOrSubroutineSubProgram := true }
  | .postFunctionSubprogram => .ok { st with inFunctionOrSubroutineSubProgram := false }
  | .preSubroutineSubprogram => .ok { st with inFunctionOrSubroutineSubProgram := true }
  | .postSubroutineSubprogram => .ok { st with inFunctionOrSubroutineSubProgram := false }
  | .postExecutionPart => postExecutionPart tbl st
  | .postEntryStmt name => postEntryStmt tbl opts st name
  | .postFunctionStmt name args => postFunctionStmt tbl opts st name args
  | .postEndFunctionStmt => handleEndFuncSubStmt tbl st
  | .postSubroutineStmt name args => postFunctionStmt tbl opts st name args
  | .postEndSubroutineStmt => handleEndFuncSubStmt tbl st
  | .postProcedureDesignator p => postProcedureDesignator tbl opts st p
  | .postAssignmentStmt name => .ok (postAssignment tbl st [name])
  | .postAllocateStmt names => .ok (postAssignment tbl st names)
  | .postCall procName args => postCall tbl st procName args
  | .postTypeDeclarationStmt attrs entities => postTypeDeclarationStmt tbl st attrs entities
  | .preDerivedTypeDef => .ok { st with inDerivedTypeDef := true, types := st.types ++ [⟨none, none⟩] }
  | .postDerivedTypeDef => postDerivedTypeDef tbl st
  | .preDerivedTypeStmt name => preDerivedTypeStmt st name
  | .postTypeAttrSpec parent => postTypeAttrSpec st parent
  | .postTypeBoundProcedureStmt s => postTypeBoundProcedureStmt tbl st s
  | .postTypeBoundGenericStmt genericSpec names => postTypeBoundGenericStmt tbl st genericSpec names
  | .preInterfaceStmt => .ok { st with inInterfaceStmt := true }
  | .preEndInterfaceStmt => .ok { st with inInterfaceStmt := false, inInterfaceStmtDefinedOperator := false }
  | .postDefinedOperator op => .ok (postDefinedOperator st op)
  | .postProcedureStmt names => .ok (postProcedureStmt st names)
  | .preExpr e => preExpr tbl st e
  | .postExpr e => .ok (postExpr st e)
  | .postUseStmt moduleName => postUseStmt tbl st moduleName
  | .preStmtFunctionStmt name => preStmtFunctionStmt tbl opts st name
  | .postStmtFunctionStmt => handleEndFuncSubStmt tbl st

def walk (callbacks : List (Callback σ)) : Except Exn (State σ) := callbacks.foldlM (visit tbl opts) st

/-- Whether the argument that the called procedure takes at the position has been initialized. -/
def isInitialized (pf : PotentialFinalizer) : Bool :=
  match st.procedures.find? fun f => decide (tbl.mangleSymbol f.symbol = pf.procedureCalled) with
  | none => false
  | some called => (called.dummyArgs[pf.argPos]?).any (·.hasBeenInitialized)

/-- The edges before they are sorted. -/
def allEdges : List Edge :=
  st.edges ++ (st.potentialFinalizers.filter (isInitialized tbl st)).flatMap PotentialFinalizer.finalizerEdges

/-- `std::unique` -/
def uniqueEdges : List Edge → List Edge
  | [] => []
  | [e] => [e]
  | e :: e' :: edges => if e = e' then uniqueEdges (e' :: edges) else e :: uniqueEdges (e' :: edges)

def uniquifyEdges (edges : List Edge) : List Edge :=
  uniqueEdges (edges.mergeSort fun e e' => decide (e.caller < e'.caller ∨ e.caller = e'.caller ∧ e.callee ≤ e'.callee))

/-- One round of the last loop of `postProcess`. -/
def addCollectedEdge (cg : Callgraph) (edge : Edge) : Except Exn Callgraph := do
  let (cg, callerNode) ← cg.getOrInsertNode edge.caller none false false
  let (cg, calleeNode) ← cg.getOrInsertNode edge.callee none false false
  return (Callgraph.addEdgeRef 0 cg ⟨0, callerNode⟩ ⟨0, calleeNode⟩).2

def postProcess : Except Exn Callgraph := (uniquifyEdges (allEdges tbl st)).foldlM addCollectedEdge st.cg

/-- The call graph of a file. -/
def collect (callbacks : List (Callback σ)) : Except Exn Callgraph := do
  postProcess tbl (← walk tbl opts (State.start Callgraph.empty) callbacks)

end
end MetaCG.Fortran
