import Mathlib.Data.Finset.Card
import Mathlib.Data.Finset.Lattice.Basic
import Mathlib.Algebra.BigOperators.Group.Finset.Basic
import Mathlib.Algebra.Order.BigOperators.Group.Finset
import Mathlib.Logic.Relation

/-! Paths, dominators and bounded runs over arbitrary types.

A node dominates another one if it lies on every path to it from the start. `dominates_of_edge` and
`subset_of_equations` are the two halves of the usual characterisation by equations over the
predecessors: dominators satisfy them, and whatever satisfies them consists of dominators. -/
namespace MetaCG.Foundations
set_option autoImplicit false
set_option maxHeartbeats 250000
set_option maxRecDepth 120000

section Paths
variable {α : Type} {E : α → α → Prop} {s : α}

/-- `l` lists the nodes of a path from `s` to `n`, last node first. -/
inductive PathTo (E : α → α → Prop) (s : α) : α → List α → Prop
  | start : PathTo E s s [s]
  | edge {p n : α} {l : List α} : PathTo E s p l → E p n → PathTo E s n (n :: l)

def Reaches (E : α → α → Prop) (s n : α) : Prop := ∃ l, PathTo E s n l

/-- `m` lies on every path from `s` to `n`. -/
def Dominates (E : α → α → Prop) (s m n : α) : Prop := ∀ l, PathTo E s n l → m ∈ l

theorem Reaches.start : Reaches E s s := ⟨[s], PathTo.start⟩

theorem Reaches.edge {p n : α} (h : Reaches E s p) (he : E p n) : Reaches E s n := by
  obtain ⟨l, hl⟩ := h
  exact ⟨n :: l, hl.edge he⟩

/-- Whatever holds at the start and passes along edges holds of all reachable nodes. -/
theorem Reaches.invariant {P : α → Prop} (h0 : P s) (hstep : ∀ p n, Reaches E s p → P p → E p n → P n) {n : α}
    (h : Reaches E s n) : P n := by
  obtain ⟨l, hl⟩ := h
  induction hl with
  | start => exact h0
  | edge hp he ih => exact hstep _ _ ⟨_, hp⟩ ih he

theorem dominates_start {m : α} (h : Dominates E s m s) : m = s := by
  have := h [s] PathTo.start
  rwa [List.mem_singleton] at this

/-- A dominator of a node, other than the node, dominates its predecessors. -/
theorem dominates_of_edge {m p n : α} (h : Dominates E s m n) (hne : m ≠ n) (he : E p n) : Dominates E s m p := by
  intro l hl
  rcases List.mem_cons.mp (h (n :: l) (hl.edge he)) with hm | hm
  · exact absurd hm hne
  · exact hm

/-- A solution of the dominator equations that pins the start consists of dominators. -/
theorem subset_of_equations {D : α → Set α} (h0 : D s ⊆ {s})
    (heq : ∀ p n, n ≠ s → Reaches E s p → E p n → D n ⊆ insert n (D p)) {n m : α} (hm : m ∈ D n) :
    Dominates E s m n := by
  intro l hl
  induction hl generalizing m with
  | start => exact List.mem_singleton.mpr (h0 hm)
  | @edge p n l hp he ih =>
    by_cases hn : n = s
    · subst hn
      have hms : m = n := h0 hm
      rw [hms]
      exact List.mem_cons_self ..
    · rcases heq p n hn ⟨_, hp⟩ he hm with hmn | hmp
      · have hmn' : m = n := hmn
        rw [hmn']
        exact List.mem_cons_self ..
      · exact List.mem_cons_of_mem _ (ih hmp)

end Paths

section Runs
variable {σ : Type}

/-- Runs of a relation under which a measure decreases are no longer than the measure. -/
theorem run_length_le {R : σ → σ → Prop} {J : σ → Prop} {μ : σ → ℕ}
    (hstep : ∀ a b, J a → R a b → J b ∧ μ b < μ a) {f : ℕ → σ} {k : ℕ} (h0 : J (f 0))
    (hrun : ∀ i < k, R (f i) (f (i + 1))) : k ≤ μ (f 0) := by
  have key : ∀ i ≤ k, J (f i) ∧ μ (f i) + i ≤ μ (f 0) := by
    intro i
    induction i with
    | zero => exact fun _ => ⟨h0, le_rfl⟩
    | succ i ih =>
      intro hi
      obtain ⟨hJ, hle⟩ := ih (by omega)
      obtain ⟨hJ', hlt⟩ := hstep _ _ hJ (hrun i (by omega))
      exact ⟨hJ', by omega⟩
  have := (key k le_rfl).2
  omega

/-- What holds initially and is preserved by every step holds of every state that is reached. -/
theorem reached_invariant {R : σ → σ → Prop} {J : σ → Prop} {a b : σ} (h0 : J a)
    (hstep : ∀ x y, J x → R x y → J y) (h : Relation.ReflTransGen R a b) : J b := by
  induction h with
  | refl => exact h0
  | tail _ hxy ih => exact hstep _ _ ih hxy

end Runs

section Meet
variable {α : Type} [DecidableEq α]

/-- The intersection of a list of sets; nothing for the empty list. -/
def meet : List (Finset α) → Finset α
  | [] => ∅
  | a :: l => l.foldl (· ∩ ·) a

theorem mem_foldl_inter (l : List (Finset α)) (a : Finset α) (x : α) :
    x ∈ l.foldl (· ∩ ·) a ↔ x ∈ a ∧ ∀ b ∈ l, x ∈ b := by
  induction l generalizing a with
  | nil => simp
  | cons b l ih =>
    rw [List.foldl_cons, ih, Finset.mem_inter, List.forall_mem_cons, and_assoc]

theorem mem_meet {l : List (Finset α)} (h : l ≠ []) (x : α) : x ∈ meet l ↔ ∀ a ∈ l, x ∈ a := by
  cases l with
  | nil => exact absurd rfl h
  | cons a l => rw [meet, mem_foldl_inter, List.forall_mem_cons]

end Meet
end MetaCG.Foundations
