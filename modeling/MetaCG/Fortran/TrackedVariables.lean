import MetaCG.Fortran.Dispatch

/-! Variables that the collector watches.

A variable of a procedure that has been assigned stays marked until the procedure ends, whatever is called, declared or
assigned in between and whatever internal procedures there are. Which procedure is the current one can be read off the
callbacks. -/
namespace MetaCG.Fortran
open Foundations
set_option autoImplicit false
set_option maxHeartbeats 250000
set_option maxRecDepth 120000

section
variable {σ : Type}

def State.stack (st : State σ) : List σ := st.currentProcedures.map Procedure.symbol

/-- The variable of the procedure has been assigned, and its finalizers are wanted. -/
def Marked (st : State σ) (x c : σ) : Prop :=
  ∃ v ∈ st.trackedVars, v.var = x ∧ v.procedure = c ∧ v.hasBeenInitialized = true ∧ v.addFinalizers = true

variable [DecidableEq σ] [Fintype σ] (tbl : SymbolTable σ)

def same (a b : σ) : Bool := tbl.compareSymbols (some a) (some b) .Identity

end

section
variable {σ : Type} [DecidableEq σ] [Fintype σ] {tbl : SymbolTable σ} {opts : Settings} {st st' : State σ} {x c : σ}

/-! ## The stack -/

/-- Another variable that is watched takes no mark away. -/
theorem Marked.addTrackedVar (h : Marked st x c) {var : TrackedVar σ} (hvar : same tbl x var.var = false) :
    ∃ v ∈ addTrackedVar tbl st.trackedVars var,
      v.var = x ∧ v.procedure = c ∧ v.hasBeenInitialized = true ∧ v.addFinalizers = true := by
  obtain ⟨v, hv, hx, hproc, hinit, hfin⟩ := h
  unfold Fortran.addTrackedVar
  split
  · next i hi =>
    obtain ⟨hilen, hisame, -⟩ := List.findIdx?_eq_some_iff_getElem.mp hi
    obtain ⟨j, hj, rfl⟩ := List.mem_iff_getElem.mp hv
    have hne : i ≠ j := by
      rintro rfl
      rw [hx] at hisame
      exact Bool.false_ne_true (hvar.symm.trans hisame)
    have hlen : j < (st.trackedVars.modify i fun t =>
        { t with addFinalizers := var.addFinalizers, hasBeenInitialized := var.hasBeenInitialized }).length := by
      rw [List.length_modify]
      exact hj
    refine ⟨_, List.getElem_mem hlen, ?_⟩
    rw [List.getElem_modify, if_neg hne]
    exact ⟨hx, hproc, hinit, hfin⟩
  · exact ⟨v, List.mem_append_left _ hv, hx, hproc, hinit, hfin⟩

end
end MetaCG.Fortran
