import MetaCG.Fortran.Symbols

/-! Edges to finalizers and the variables that need them (`Edge.cpp`, `VariableTracking.cpp`). -/
namespace MetaCG.Fortran
open Foundations
set_option autoImplicit false
set_option maxHeartbeats 250000
set_option maxRecDepth 120000

structure Edge where
  caller : String
  callee : String
deriving DecidableEq

structure DummyArg (σ : Type) where
  symbol : Option σ
  hasBeenInitialized : Bool

structure Procedure (σ : Type) where
  symbol : σ
  dummyArgs : List (DummyArg σ)

structure TrackedVar (σ : Type) where
  var : σ
  procedure : σ
  hasBeenInitialized : Bool
  addFinalizers : Bool

structure PotentialFinalizer where
  argPos : ℕ
  procedureCalled : String
  finalizerEdges : List Edge

/-- `map[key].emplace_back(value)` -/
def pushAt {κ β : Type} [DecidableEq κ] (map : UMap κ (List β)) (key : κ) (value : β) : UMap κ (List β) :=
  map.insert key (UMap.getD map key [] ++ [value])

section
variable {σ : Type} [DecidableEq σ] [Fintype σ] (tbl : SymbolTable σ)

def edgeOf (caller callee : σ) : Edge := ⟨tbl.mangleSymbol caller, tbl.mangleSymbol callee⟩

/-- The finalizers of the type of a symbol; none if the map throws. -/
def finalizersOf (types : List (TypeEntry σ)) (finalizers : UMap (Option σ) (List σ)) (symbol : σ) : Except Exn (List σ) :=
  match findType tbl types symbol with
  | none => .ok []
  | some baseType => do return UMap.getD finalizers (← getAbsoluteBaseSymbol tbl types baseType) []

/-- The edges that `addEdgesForFinalizers` adds. -/
def addEdgesForFinalizers (types : List (TypeEntry σ)) (finalizers : UMap (Option σ) (List σ))
    (currentProcedureSymbol symbol : σ) : Except Exn (List Edge) := do
  return (← finalizersOf tbl types finalizers symbol).map (edgeOf tbl currentProcedureSymbol)

/-- The place of the variable in the list. One of the current procedure is preferred. -/
def getTrackedVarFromSourceName (trackedVars : List (TrackedVar σ)) (currentProcedureSymbol : σ) (sourceName : String) :
    Option ℕ :=
  match trackedVars.findIdx? fun t => decide (tbl.name t.var = sourceName) with
  | none => none
  | some anyTrackedVar =>
    some ((trackedVars.findIdx? fun t => decide (tbl.name t.var = sourceName) &&
      tbl.compareSymbols (some t.procedure) (some currentProcedureSymbol) .Identity).getD anyTrackedVar)

def handleTrackedVarAssignment (trackedVars : List (TrackedVar σ)) (currentProcedureSymbol : σ) (sourceName : String) :
    List (TrackedVar σ) :=
  match getTrackedVarFromSourceName tbl trackedVars currentProcedureSymbol sourceName with
  | none => trackedVars
  | some i => trackedVars.modify i fun t => { t with hasBeenInitialized := true }

/-- An entry for the same symbol is updated. -/
def addTrackedVar (trackedVars : List (TrackedVar σ)) (var : TrackedVar σ) : List (TrackedVar σ) :=
  match trackedVars.findIdx? fun t => tbl.compareSymbols (some t.var) (some var.var) .Identity with
  | some i => trackedVars.modify i fun t =>
      { t with addFinalizers := var.addFinalizers, hasBeenInitialized := var.hasBeenInitialized }
  | none => trackedVars ++ [var]

def removeTrackedVars (trackedVars : List (TrackedVar σ)) (procedureSymbol : σ) : List (TrackedVar σ) :=
  trackedVars.filter fun t => !tbl.compareSymbols (some t.procedure) (some procedureSymbol) .Identity

/-- Marks the dummy argument that the variable is; the first procedure and the first argument count. -/
def initializeDummyArg (procedures : List (Procedure σ)) (currentProcedureSymbol var : σ) : List (Procedure σ) :=
  match procedures.findIdx? fun f => tbl.compareSymbols (some f.symbol) (some currentProcedureSymbol) .Identity with
  | none => procedures
  | some i => procedures.modify i fun f =>
      match f.dummyArgs.findIdx? fun d => tbl.compareSymbols d.symbol (some var) .Identity with
      | none => f
      | some j => { f with dummyArgs := f.dummyArgs.modify j fun d => { d with hasBeenInitialized := true } }

/-- One round of the loop of `handleTrackedVars`, on the edges and the procedures. -/
def handleTrackedVar (types : List (TypeEntry σ)) (finalizers : UMap (Option σ) (List σ)) (currentProcedureSymbol : σ)
    (acc : List Edge × List (Procedure σ)) (trackedVar : TrackedVar σ) : Except Exn (List Edge × List (Procedure σ)) := do
  if !trackedVar.hasBeenInitialized then return acc
  if trackedVar.procedure ≠ currentProcedureSymbol then return acc
  let added ←
    if trackedVar.addFinalizers then addEdgesForFinalizers tbl types finalizers currentProcedureSymbol trackedVar.var else .ok []
  return (acc.1 ++ added, initializeDummyArg tbl acc.2 currentProcedureSymbol trackedVar.var)

end
end MetaCG.Fortran
