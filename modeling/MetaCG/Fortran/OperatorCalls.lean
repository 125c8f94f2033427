import MetaCG.Fortran.Dispatch

/-! Calls of operators.

At a name in an expression the collector looks at every operator around it. Of the interface statements it takes the procedures of
the first one for the operator; of the type of the name, what its family binds to the names that the family has for the operator.
It leaves out what could be a call of the current procedure by itself. -/
namespace MetaCG.Fortran
open Foundations
set_option autoImplicit false
set_option maxHeartbeats 250000
set_option maxRecDepth 120000

section
variable {σ : Type} [DecidableEq σ] [Fintype σ] (tbl : SymbolTable σ)

/-- The first interface statement for the operator has the procedure, and it takes the operands. -/
def OfInterface (st : State σ) (c : σ) (op : ExprOperator σ) (p : σ) : Prop :=
  ∃ interfaceOp, st.interfaceOperators.findM? (isInterfaceOperator tbl op) = .ok (some interfaceOp) ∧ p ∈ interfaceOp.2 ∧
    takesOperands tbl st op c p = true

namespace Declared
variable (d : Declared σ)

/-- A type in the family of `t` binds the procedure to the name. -/
def BoundInFamily (t : TypeEntry σ) (n : String) (p : σ) : Prop := ∃ u, d.Related tbl t u ∧ (u, n, p) ∈ d.bindings

/-- A type in the family of `t` has the binding name for the operator. -/
def NamedInFamily (t : TypeEntry σ) (op : ExprOperator σ) (n : String) : Prop :=
  ∃ u, d.Related tbl t u ∧ (u, getOperatorStringFromExpr op, n) ∈ d.operators

/-- The binding name is the one of `c`, or a procedure that the family binds to it has the name of `c`. -/
def IsSelf (t : TypeEntry σ) (c : σ) (n : String) : Prop :=
  n = tbl.name c ∨ ∃ p, d.BoundInFamily tbl t n p ∧ tbl.name p = tbl.name c

/-- The family of `t` has the procedure for the operator, seen from `c`. -/
def OfFamily (t : TypeEntry σ) (c : σ) (op : ExprOperator σ) (p : σ) : Prop :=
  ∃ n, d.NamedInFamily tbl t op n ∧ ¬d.IsSelf tbl t c n ∧ d.BoundInFamily tbl t n p

end Declared
end

section
variable {σ : Type} [DecidableEq σ] [Fintype σ] {tbl : SymbolTable σ} {opts : Settings} {st st' : State σ} {d : Declared σ}
  {c v : σ} {t : TypeEntry σ} {op : ExprOperator σ}

/-- The procedures under a binding name, if none of them can be the current one. -/
theorem Describes.operatorProcedures (h : Describes tbl d st.classes) {r : σ} (hr : BaseOf d.types t r) (c : σ)
    (n : String) (p : σ) : p ∈ operatorProcedures tbl st (baseKey tbl r) c n ↔
      ¬d.IsSelf tbl t c n ∧ d.BoundInFamily tbl t n p := by
  have hbound : ∀ q, q ∈ UMap.getD st.procedureOverwrites (baseKey tbl r, n) [] ↔ d.BoundInFamily tbl t n q :=
    h.overwrites.family hr n
  have hself : (decide (n = tbl.name c) || (UMap.getD st.procedureOverwrites (baseKey tbl r, n) []).any fun sym =>
      decide (tbl.name sym = tbl.name c)) = true ↔ d.IsSelf tbl t c n := by
    rw [Bool.or_eq_true, decide_eq_true_iff, List.any_eq_true]
    refine or_congr_right (exists_congr fun q => ?_)
    rw [hbound, decide_eq_true_iff]
  unfold Fortran.operatorProcedures
  dsimp only
  split_ifs with hif
  · exact iff_of_false List.not_mem_nil fun hp => hp.1 (hself.mp hif)
  · rw [hbound]
    exact ⟨fun hp => ⟨fun hs => hif (hself.mpr hs), hp⟩, And.right⟩

/-- The edges of one operator around a name. -/
theorem Describes.overloads (h : Describes tbl d st.classes) (hord : Ordered d.types)
    (htype : findType tbl st.types v = some t) {edges : List Edge} (hrun : overloads tbl st c v op = .ok edges) (e : Edge) :
    e ∈ edges ↔ ∃ p, (OfInterface tbl st c op p ∨ d.OfFamily tbl t c op p) ∧ e = edgeOf tbl c p := by
  have htypes : st.types = d.types := h.types
  obtain ⟨r, hr, hbase⟩ := h.base hord (htypes ▸ List.mem_of_find?_eq_some htype)
  obtain ⟨interfaceOp, hfind, hrun⟩ := bind_eq_ok.mp hrun
  dsimp only at hrun
  rw [htype] at hrun
  dsimp only at hrun
  rw [hbase, ok_bind] at hrun
  cases hrun
  have hinterface : ∀ p, p ∈ (interfaceOp.elim [] Prod.snd).filter (takesOperands tbl st op c) ↔ OfInterface tbl st c op p := by
    intro p
    rw [OfInterface, hfind, List.mem_filter]
    cases interfaceOp with
    | none => simp
    | some interfaceOp => simp
  have hfamily : ∀ p, p ∈ (UMap.getD st.typeOperators (baseKey tbl r, getOperatorStringFromExpr op) []).flatMap
      (Fortran.operatorProcedures tbl st (baseKey tbl r) c) ↔ d.OfFamily tbl t c op p := by
    intro p
    rw [List.mem_flatMap]
    exact exists_congr fun n => and_congr (h.operators.family hr _ n) (h.operatorProcedures hr c n p)
  rw [List.mem_map]
  refine exists_congr fun p => ?_
  rw [List.mem_append, hinterface, hfamily, eq_comm]

end

/-! ## The operators around a name -/

section
variable {σ : Type} [DecidableEq σ] [Fintype σ] {tbl : SymbolTable σ} {opts : Settings} {st st' : State σ}

end

end MetaCG.Fortran
