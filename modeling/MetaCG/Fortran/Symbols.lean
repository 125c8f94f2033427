import Mathlib.Data.Finset.BooleanAlgebra
import MetaCG.Foundations.Forest
import MetaCG.Graph.MetaData

/-! The symbols of a Fortran program as the collector sees them (`FortranUtil.cpp` of cgfcollector).

A symbol is the address of an entry in the table that the front end has built, so a use of a symbol in another scope is
another symbol that refers to the first one. Of an entry only what the collector reads is kept. -/
namespace MetaCG.Fortran
open Foundations
set_option autoImplicit false
set_option maxHeartbeats 250000
set_option maxRecDepth 120000

/-- `DefinedOperator::IntrinsicOperator` -/
inductive IntrinsicOperator where
  | Power | Multiply | Divide | Add | Subtract | Concat | LT | LE | EQ | NE | GE | GT | NOT | AND | OR | EQV | NEQV
deriving DecidableEq, Repr

/-- `GenericKind`; the other kinds are names and assignments, formatted input and output. -/
inductive GenericKind where
  | power | multiply | divide | add | subtract
  | lt | le | eq | ne | ge | gt
  | not | and | or | eqv | neqv
  | concat
  | definedOperator
  | other
deriving DecidableEq, Repr

inductive Details (σ : Type) where
  | hostAssoc (symbol : σ)
  | use (symbol : σ)
  | derivedType (finals : List σ) (parentComponent : Option σ)
  | generic (kind : GenericKind) (specificProcs : List σ)
  /-- A function has a result; a dummy argument without a name is an alternate return. -/
  | subprogram (result : Option σ) (isInterface : Bool) (dummyArgs : List (Option σ))
  | procBinding (symbol : σ)
  | objectEntity
  | other

structure SymbolTable (σ : Type) where
  name : σ → String
  details : σ → Details σ
  /-- `getTypeAsDerivedTypeSymbol` -/
  getTypeAsDerivedTypeSymbol : σ → Option σ
  isIntrinsic : σ → Bool
  /-- The symbols of the scope that belongs to a module or a derived type. -/
  scope : σ → Option (List σ)
  mangleSymbol : σ → String
  /-- How many associations lead to the symbol itself. -/
  depth : σ → ℕ
  host_lt : ∀ s t, details s = .hostAssoc t → depth t < depth s
  use_lt : ∀ s t, details s = .use t → depth t < depth s

inductive CanonicalMode where
  | Identity
  | ByType
deriving DecidableEq

inductive CanonicalKind where
  | DerivedType
  | Procedure
  | Other
deriving DecidableEq

/-- `CanonicalSymbol`; no symbol is the null pointer. -/
structure CanonicalSymbol (σ : Type) where
  symbol : Option σ
  kind : CanonicalKind
deriving DecidableEq

/-- `Type`, one that the collector has come across. -/
structure TypeEntry (σ : Type) where
  typeSymbol : Option σ
  extendsFrom : Option σ
deriving DecidableEq

namespace SymbolTable
variable {σ : Type} (tbl : SymbolTable σ)

def resolveUseHostSymbol (sym : σ) : σ :=
  match _hd : tbl.details sym with
  | .hostAssoc symbol => resolveUseHostSymbol symbol
  | .use symbol => resolveUseHostSymbol symbol
  | _ => sym
termination_by tbl.depth sym
decreasing_by
  · exact tbl.host_lt _ _ _hd
  · exact tbl.use_lt _ _ _hd

/-- What one round of `canonicalizeSymbol` makes of a resolved symbol: the symbol to go on with, or its kind. -/
def unpack (mode : CanonicalMode) (sym : σ) : σ ⊕ CanonicalKind :=
  let other : σ ⊕ CanonicalKind :=
    match mode, tbl.getTypeAsDerivedTypeSymbol sym with
    | .ByType, some typeSym => .inl typeSym
    | _, _ => .inr .Other
  match tbl.details sym with
  | .derivedType .. => .inr .DerivedType
  | .generic _ (proc :: _) => .inl proc
  | .subprogram result .. =>
    match result.bind tbl.getTypeAsDerivedTypeSymbol with
    | some typeSym => .inl typeSym
    | none => .inr .Procedure
  | _ => other

variable [DecidableEq σ]

/-- The loop of `canonicalizeSymbol`, which ends at a symbol that it has seen. -/
def canonicalizeFrom [Fintype σ] (mode : CanonicalMode) (visited : Finset σ) (sym : σ) : CanonicalSymbol σ :=
  if _hseen : sym ∈ visited then ⟨some sym, .Other⟩
  else
    match tbl.unpack mode (tbl.resolveUseHostSymbol sym) with
    | .inl next => canonicalizeFrom mode (insert sym visited) next
    | .inr kind => ⟨some (tbl.resolveUseHostSymbol sym), kind⟩
termination_by visitedᶜ.card
decreasing_by
  refine Finset.card_lt_card ((Finset.ssubset_iff_of_subset ?_).mpr ⟨sym, Finset.mem_compl.mpr _hseen, ?_⟩)
  · exact Finset.compl_subset_compl.mpr (Finset.subset_insert _ _)
  · exact fun h => Finset.mem_compl.mp h (Finset.mem_insert_self ..)

variable [Fintype σ]

def canonicalizeSymbol (input : Option σ) (mode : CanonicalMode) : CanonicalSymbol σ :=
  match input with
  | some sym => tbl.canonicalizeFrom mode ∅ sym
  | none => ⟨none, .Other⟩

def compareSymbols (a b : Option σ) (mode : CanonicalMode) : Bool :=
  decide (tbl.canonicalizeSymbol a mode = tbl.canonicalizeSymbol b mode)

end SymbolTable

/-! ## The extension of types -/

section
variable {σ : Type} [DecidableEq σ]

/-- What a symbol extends, if it is the symbol of a type; the first entry counts. -/
def extendsOf (types : List (TypeEntry σ)) (sym : σ) : Option (Option σ) :=
  (types.find? fun t => decide (t.typeSymbol = some sym)).map TypeEntry.extendsFrom

/-- The loop of `getAbsoluteBaseSymbol`. One that runs in a circle never ends, which is undefined. -/
def getAbsoluteBase (types : List (TypeEntry σ)) (type : TypeEntry σ) : Except Exn (Option σ) :=
  match type.extendsFrom with
  | none => .ok type.typeSymbol
  | some current =>
    match Forest.climb (extendsOf types) types.length current with
    | some base => .ok (some base)
    | none => .error .undefined

def getAbsoluteBaseSymbol [Fintype σ] (tbl : SymbolTable σ) (types : List (TypeEntry σ)) (type : TypeEntry σ) :
    Except Exn (Option σ) := do
  return (tbl.canonicalizeSymbol (← getAbsoluteBase types type) .Identity).symbol

/-- The first type that a variable may have. -/
def findType [Fintype σ] (tbl : SymbolTable σ) (types : List (TypeEntry σ)) (symbol : σ) : Option (TypeEntry σ) :=
  types.find? fun t => tbl.compareSymbols t.typeSymbol (some symbol) .ByType

end
end MetaCG.Fortran
