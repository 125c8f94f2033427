import MetaCG.Fortran.Symbols

/-! Operators in expressions, in interface statements and of types (`FortranUtil.cpp`). -/
namespace MetaCG.Fortran
open Foundations
set_option autoImplicit false
set_option maxHeartbeats 250000
set_option maxRecDepth 120000

/-- The name of an operator as it is written, and its symbol. -/
structure DefinedOpName (σ : Type) where
  source : String
  symbol : Option σ

inductive DefinedOperator (σ : Type) where
  | intrinsicOperator (op : IntrinsicOperator)
  | definedOpName (name : DefinedOpName σ)

/-- The operator at the top of an expression. -/
inductive ExprOperator (σ : Type) where
  | UnaryPlus | Negate | NOT | Power | Multiply | Divide | Add | Subtract | Concat
  | LT | LE | EQ | NE | GE | GT | AND | OR | EQV | NEQV
  | DefinedUnary (name : DefinedOpName σ)
  | DefinedBinary (name : DefinedOpName σ)

/-- An expression is a name, an operator with its operands, or something else. -/
inductive Expr (σ : Type) where
  | designator (symbol : Option σ)
  | operator (op : ExprOperator σ)
  | other

def IntrinsicOperator.enumToString : IntrinsicOperator → String
  | .Power => "Power"
  | .Multiply => "Multiply"
  | .Divide => "Divide"
  | .Add => "Add"
  | .Subtract => "Subtract"
  | .Concat => "Concat"
  | .LT => "LT"
  | .LE => "LE"
  | .EQ => "EQ"
  | .NE => "NE"
  | .GE => "GE"
  | .GT => "GT"
  | .NOT => "NOT"
  | .AND => "AND"
  | .OR => "OR"
  | .EQV => "EQV"
  | .NEQV => "NEQV"

/-- `std::transform` with `toupper` -/
def upper (s : String) : String := String.ofList (s.toList.map Char.toUpper)

section
variable {σ : Type}

def getOperatorStringFromExpr : ExprOperator σ → String
  | .UnaryPlus => "ADD"
  | .Negate => "SUBTRACT"
  | .NOT => "NOT"
  | .Power => "POWER"
  | .Multiply => "MULTIPLY"
  | .Divide => "DIVIDE"
  | .Add => "ADD"
  | .Subtract => "SUBTRACT"
  | .Concat => "CONCAT"
  | .LT => "LT"
  | .LE => "LE"
  | .EQ => "EQ"
  | .NE => "NE"
  | .GE => "GE"
  | .GT => "GT"
  | .AND => "AND"
  | .OR => "OR"
  | .EQV => "EQV"
  | .NEQV => "NEQV"
  | .DefinedUnary name => upper name.source
  | .DefinedBinary name => upper name.source

def getOperatorStringFromDefinedOperator : DefinedOperator σ → String
  | .intrinsicOperator op => upper op.enumToString
  | .definedOpName name => upper name.source

def compareExprIntrinsicOperator (expr : ExprOperator σ) (op : IntrinsicOperator) : Bool :=
  match expr with
  | .UnaryPlus => decide (op = .Add)
  | .Negate => decide (op = .Subtract)
  | .NOT => decide (op = .NOT)
  | .Power => decide (op = .Power)
  | .Multiply => decide (op = .Multiply)
  | .Divide => decide (op = .Divide)
  | .Add => decide (op = .Add)
  | .Subtract => decide (op = .Subtract)
  | .Concat => decide (op = .Concat)
  | .LT => decide (op = .LT)
  | .LE => decide (op = .LE)
  | .EQ => decide (op = .EQ)
  | .NE => decide (op = .NE)
  | .GE => decide (op = .GE)
  | .GT => decide (op = .GT)
  | .AND => decide (op = .AND)
  | .OR => decide (op = .OR)
  | .EQV => decide (op = .EQV)
  | .NEQV => decide (op = .NEQV)
  | .DefinedUnary _ => false
  | .DefinedBinary _ => false

def isUnaryOperator : ExprOperator σ → Bool
  | .UnaryPlus | .Negate | .NOT | .DefinedUnary _ => true
  | _ => false

def isBinaryOperator (e : ExprOperator σ) : Bool := !isUnaryOperator e

end

namespace GenericKind

def isIntrinsicOperator : GenericKind → Bool
  | .definedOperator | .other => false
  | _ => true

def isDefinedOperator (gk : GenericKind) : Bool := decide (gk = .definedOperator)

/-- `variantGetIntrinsicOperator`. It has no case for the concatenation, which comes out as an addition. -/
def variantGetIntrinsicOperator : GenericKind → IntrinsicOperator
  | .lt => .LT
  | .le => .LE
  | .eq => .EQ
  | .ne => .NE
  | .ge => .GE
  | .gt => .GT
  | .and => .AND
  | .or => .OR
  | .eqv => .EQV
  | .neqv => .NEQV
  | .not => .NOT
  | .power => .Power
  | .multiply => .Multiply
  | .divide => .Divide
  | .add => .Add
  | .subtract => .Subtract
  | .concat | .definedOperator | .other => .Add

end GenericKind

def getOperatorStringFromGenericDetails {σ : Type} (tbl : SymbolTable σ) (symbol : σ) (gk : GenericKind) : String :=
  upper (if gk.isDefinedOperator then tbl.name symbol
    else if gk.isIntrinsicOperator then gk.variantGetIntrinsicOperator.enumToString
    else "UNKNOWN_GENERIC_KIND")

end MetaCG.Fortran
