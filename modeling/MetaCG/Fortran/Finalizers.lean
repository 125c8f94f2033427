import MetaCG.Fortran.TrackedVariables

/-! Calls of finalizers.

A variable of a derived type is finalized when its procedure ends. Its dynamic type may extend the declared one, so that the
finalizers of the whole family are called. An allocatable variable has to have been assigned. -/
namespace MetaCG.Fortran
open Foundations
set_option autoImplicit false
set_option maxHeartbeats 250000
set_option maxRecDepth 120000

section
variable {σ : Type} [DecidableEq σ] [Fintype σ] (tbl : SymbolTable σ)

/-- A type in the family of the type of `x` declares the finalizer. -/
def Declared.Finalizes (d : Declared σ) (x f : σ) : Prop :=
  ∃ t u, findType tbl d.types x = some t ∧ d.Related tbl t u ∧ (u, (), f) ∈ d.finals

end

section
variable {σ : Type} [DecidableEq σ] [Fintype σ] {tbl : SymbolTable σ} {opts : Settings} {st st' : State σ} {d : Declared σ}

theorem Describes.finalizersOf (h : Describes tbl d st.classes) (hord : Ordered d.types) (x : σ) :
    ∃ l, finalizersOf tbl st.types st.finalizers x = .ok l ∧ ∀ f, f ∈ l ↔ d.Finalizes tbl x f := by
  have htypes : st.types = d.types := h.types
  unfold Fortran.finalizersOf
  cases hfind : findType tbl st.types x with
  | none =>
    refine ⟨[], rfl, fun f => ?_⟩
    constructor
    · exact fun hf => absurd hf List.not_mem_nil
    · rintro ⟨t, u, ht, -⟩
      rw [← htypes, hfind] at ht
      cases ht
  | some t =>
    have ht : t ∈ d.types := htypes ▸ List.mem_of_find?_eq_some hfind
    obtain ⟨r, hr, hbase⟩ := h.base hord ht
    dsimp only
    rw [hbase, ok_bind]
    refine ⟨_, rfl, fun f => (h.finalizers.family hr () f).trans ?_⟩
    constructor
    · rintro ⟨u, hrel, hfinal⟩
      exact ⟨t, u, htypes ▸ hfind, hrel, hfinal⟩
    · rintro ⟨t', u, hfind', hrel, hfinal⟩
      rw [← htypes, hfind] at hfind'
      cases hfind'
      exact ⟨u, hrel, hfinal⟩

theorem Describes.addEdgesForFinalizers (h : Describes tbl d st.classes) (hord : Ordered d.types) (c x : σ) :
    ∃ l, addEdgesForFinalizers tbl st.types st.finalizers c x = .ok l ∧
      ∀ e, e ∈ l ↔ ∃ f, d.Finalizes tbl x f ∧ e = edgeOf tbl c f := by
  obtain ⟨l, hl, hmem⟩ := h.finalizersOf hord x
  refine ⟨l.map (edgeOf tbl c), by rw [Fortran.addEdgesForFinalizers, hl]; rfl, fun e => ?_⟩
  rw [List.mem_map]
  exact exists_congr fun f => by rw [hmem, eq_comm]

/-- The variable has been assigned in the procedure, and its finalizers are wanted. -/
def TrackedVar.isDue (v : TrackedVar σ) (c : σ) : Prop := v.procedure = c ∧ v.hasBeenInitialized = true ∧ v.addFinalizers = true

theorem Describes.handleTrackedVar (h : Describes tbl d st.classes) (hord : Ordered d.types) (c : σ)
    (acc : List Edge × List (Procedure σ)) (v : TrackedVar σ) :
    ∃ acc', handleTrackedVar tbl st.types st.finalizers c acc v = .ok acc' ∧
      ∀ e, e ∈ acc'.1 ↔ e ∈ acc.1 ∨ v.isDue c ∧ ∃ f, d.Finalizes tbl v.var f ∧ e = edgeOf tbl c f := by
  have hskip : ¬v.isDue c → ∀ e, e ∈ acc.1 ↔ e ∈ acc.1 ∨ v.isDue c ∧ ∃ f, d.Finalizes tbl v.var f ∧ e = edgeOf tbl c f :=
    fun hnot e => (or_iff_left fun hdue => hnot hdue.1).symm
  unfold Fortran.handleTrackedVar
  split_ifs with hinit hproc hfin
  · refine ⟨acc, rfl, hskip fun hdue => ?_⟩
    rw [hdue.2.1] at hinit
    cases hinit
  · exact ⟨acc, rfl, hskip fun hdue => hproc hdue.1⟩
  · obtain ⟨l, hl, hedges⟩ := h.addEdgesForFinalizers hord c v.var
    have hdue : v.isDue c := ⟨not_not.mp hproc, by simpa using hinit, hfin⟩
    rw [hl]
    refine ⟨_, rfl, fun e => ?_⟩
    rw [List.mem_append, hedges e]
    exact or_congr_right (and_iff_right hdue).symm
  · refine ⟨_, rfl, fun e => ?_⟩
    rw [List.append_nil]
    exact hskip (fun hdue => hfin hdue.2.2) e

/-- The variables of a procedure at its end. -/
theorem Describes.handleTrackedVars (h : Describes tbl d st.classes) (hord : Ordered d.types) {c : σ}
    (hmain : tbl.mangleSymbol c ≠ "_QQmain") :
    ∃ st', handleTrackedVars tbl st c = .ok st' ∧
      ∀ e, e ∈ st'.edges ↔ e ∈ st.edges ∨ ∃ x f, Marked st x c ∧ d.Finalizes tbl x f ∧ e = edgeOf tbl c f := by
  obtain ⟨acc, hacc, hedges⟩ := foldlM_total (f := Fortran.handleTrackedVar tbl st.types st.finalizers c) (l := st.trackedVars)
    (s := (st.edges, st.procedures))
    (J := fun pre (acc : List Edge × List (Procedure σ)) => ∀ e, e ∈ acc.1 ↔
      e ∈ st.edges ∨ ∃ v ∈ pre, v.isDue c ∧ ∃ f, d.Finalizes tbl v.var f ∧ e = edgeOf tbl c f)
    (fun e => by simp) fun pre v acc _ hacc => by
      obtain ⟨acc', hacc', hedges⟩ := h.handleTrackedVar hord c acc v
      refine ⟨acc', hacc', fun e => ?_⟩
      rw [hedges e, hacc e, or_assoc]
      simp only [List.mem_append, List.mem_singleton, or_and_right, exists_or, exists_eq_left]
  refine ⟨{ st with edges := acc.1, procedures := acc.2, trackedVars := removeTrackedVars tbl st.trackedVars c }, ?_, fun e => ?_⟩
  · rw [Fortran.handleTrackedVars, if_neg hmain, hacc]
    rfl
  · refine (hedges e).trans (or_congr_right ?_)
    constructor
    · rintro ⟨v, hv, ⟨hproc, hinit, hfin⟩, f, hf, he⟩
      exact ⟨v.var, f, ⟨v, hv, rfl, hproc, hinit, hfin⟩, hf, he⟩
    · rintro ⟨x, f, ⟨v, hv, rfl, hdue⟩, hf, he⟩
      exact ⟨v, hv, hdue, f, hf, he⟩

end

end MetaCG.Fortran
