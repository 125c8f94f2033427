import MetaCG.Foundations.Outcome

/-! Loops that scatter their items over independent cells.

Every item of the loop changes one cell of the state, in a way that depends on that cell and the item
only. Then the loop can be read cell by cell: each cell absorbs its own items in order, and the loop
succeeds iff every cell can (`scatter_ok`, `scatter_ok_iff`). -/
namespace MetaCG.Foundations
set_option autoImplicit false
set_option maxHeartbeats 250000
set_option maxRecDepth 120000

section
variable {σ ι α F ε δ : Type} [DecidableEq ι]

/-- A step `step s a` absorbs `a` into the cell `target a`, keeps `I`, and leaves the other cells. -/
def Scatters (I : σ → Prop) (view : σ → ι → F) (target : α → ι) (absorb : F → α → Except ε F)
    (step : σ → α → Except δ σ) (l : List α) : Prop :=
  ∀ s a, a ∈ l → I s →
    match absorb (view s (target a)) a with
    | .ok f => ∃ s', step s a = .ok s' ∧ I s' ∧ ∀ i, view s' i = if i = target a then f else view s i
    | .error _ => ∃ x, step s a = .error x

variable {I : σ → Prop} {view : σ → ι → F} {target : α → ι} {absorb : F → α → Except ε F}
  {step : σ → α → Except δ σ}

/-- The items of one cell, in order. -/
def itemsOf (target : α → ι) (l : List α) (i : ι) : List α := l.filter fun a => decide (target a = i)

theorem itemsOf_cons (a : α) (l : List α) (i : ι) :
    itemsOf target (a :: l) i = if i = target a then a :: itemsOf target l i else itemsOf target l i := by
  rw [itemsOf, List.filter_cons, itemsOf]
  by_cases h : target a = i
  · rw [if_pos (by simpa using h), if_pos h.symm]
  · rw [if_neg (by simpa using h), if_neg (fun he => h he.symm)]

theorem scatter_run (l : List α) (s : σ) (hl : Scatters I view target absorb step l) (hs : I s) :
    match l.foldlM step s with
    | .ok s' => I s' ∧ ∀ i, (itemsOf target l i).foldlM absorb (view s i) = .ok (view s' i)
    | .error _ => ∃ i x, (itemsOf target l i).foldlM absorb (view s i) = .error x := by
  induction l generalizing s with
  | nil => exact ⟨hs, fun i => rfl⟩
  | cons a l ih =>
    have ha := hl s a (List.mem_cons_self ..) hs
    have hl' : Scatters I view target absorb step l := fun s b hb => hl s b (List.mem_cons_of_mem a hb)
    rw [List.foldlM_cons]
    cases hf : absorb (view s (target a)) a with
    | error x =>
      rw [hf] at ha
      obtain ⟨y, hy⟩ := ha
      rw [hy]
      refine ⟨target a, x, ?_⟩
      rw [itemsOf_cons, if_pos rfl, List.foldlM_cons, hf]
      rfl
    | ok f =>
      rw [hf] at ha
      obtain ⟨s₁, hs₁, hI₁, hv₁⟩ := ha
      have hrun := ih s₁ hl' hI₁
      -- the head item moves only its own cell, so each cell's fold starts from the new view
      have hcell : ∀ i, (itemsOf target (a :: l) i).foldlM absorb (view s i) =
          (itemsOf target l i).foldlM absorb (view s₁ i) := by
        intro i
        rw [itemsOf_cons, hv₁ i]
        split_ifs with hi
        · rw [hi, List.foldlM_cons, hf]
          rfl
        · rfl
      rw [hs₁]
      simp only [bind, Except.bind]
      cases hr : l.foldlM step s₁ with
      | error y =>
        rw [hr] at hrun
        obtain ⟨i, x, hx⟩ := hrun
        exact ⟨i, x, by rw [hcell, hx]⟩
      | ok s' =>
        rw [hr] at hrun
        exact ⟨hrun.1, fun i => by rw [hcell, hrun.2 i]⟩

theorem scatter_ok {l : List α} {s s' : σ} (hl : Scatters I view target absorb step l) (hs : I s)
    (h : l.foldlM step s = .ok s') :
    I s' ∧ ∀ i, (itemsOf target l i).foldlM absorb (view s i) = .ok (view s' i) := by
  have hrun := scatter_run l s hl hs
  rw [h] at hrun
  exact hrun

theorem scatter_ok_iff {l : List α} {s : σ} (hl : Scatters I view target absorb step l) (hs : I s) :
    (∃ s', l.foldlM step s = .ok s') ↔
      ∀ i, ∃ f, (itemsOf target l i).foldlM absorb (view s i) = .ok f := by
  have hrun := scatter_run l s hl hs
  cases h : l.foldlM step s with
  | error x =>
    rw [h] at hrun
    obtain ⟨i, y, hy⟩ := hrun
    constructor
    · rintro ⟨s', hs'⟩
      cases hs'
    · intro hall
      obtain ⟨f, hf⟩ := hall i
      rw [hf] at hy
      cases hy
  | ok s' =>
    rw [h] at hrun
    exact ⟨fun _ i => ⟨_, hrun.2 i⟩, fun _ => ⟨s', rfl⟩⟩

end
end MetaCG.Foundations
