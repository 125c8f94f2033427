import Mathlib.Data.List.Infix

/-! Runs of a deterministic machine: a state, changed by one action after the other. -/
namespace MetaCG.Foundations
set_option autoImplicit false
set_option maxHeartbeats 250000
set_option maxRecDepth 120000

namespace Run
variable {σ α : Type} {f : σ → α → σ}

/-- If every step of a run keeps the invariant exactly when it meets `K`, then the invariant holds
throughout the run exactly when every step meets `K`. -/
theorem inv_iff {I : σ → Prop} {K : σ → α → Prop} {s : σ} {l : List α} (h0 : I s)
    (hstep : ∀ pre a, pre ++ [a] <+: l → I (pre.foldl f s) →
      (I (f (pre.foldl f s) a) ↔ K (pre.foldl f s) a)) :
    (∀ pre, pre <+: l → I (pre.foldl f s)) ↔ ∀ pre a, pre ++ [a] <+: l → K (pre.foldl f s) a := by
  have hconcat : ∀ (pre : List α) (a : α), (pre ++ [a]).foldl f s = f (pre.foldl f s) a := by simp
  have hinit : ∀ {pre : List α} {a : α}, pre ++ [a] <+: l → pre <+: l := fun h => (List.prefix_append _ _).trans h
  constructor
  · intro hall pre a hpre
    have hafter := hall (pre ++ [a]) hpre
    rw [hconcat] at hafter
    exact (hstep pre a hpre (hall pre (hinit hpre))).mp hafter
  · intro hkeep pre
    induction pre using List.reverseRecOn with
    | nil => exact fun _ => h0
    | append_singleton pre a ih =>
      intro hpre
      rw [hconcat]
      exact (hstep pre a hpre (ih (hinit hpre))).mpr (hkeep pre a hpre)

/-- `P` holds of every action in the state it is taken in. -/
def EachStep (f : σ → α → σ) (P : σ → α → Prop) (s : σ) : List α → Prop
  | [] => True
  | a :: l => P s a ∧ EachStep f P (f s a) l

theorem EachStep.at_prefix {P : σ → α → Prop} {s : σ} {l : List α} (h : EachStep f P s l) :
    ∀ pre a, pre ++ [a] <+: l → P (pre.foldl f s) a := by
  induction l generalizing s with
  | nil => exact fun pre a hpre => absurd hpre (by simp)
  | cons b l ih =>
    intro pre a hpre
    cases pre with
    | nil =>
      obtain ⟨rest, hrest⟩ := hpre
      cases hrest
      exact h.1
    | cons b' pre =>
      obtain ⟨rfl, hrest⟩ := List.cons_prefix_cons.mp hpre
      exact ih h.2 pre a hrest

end Run
end MetaCG.Foundations
