import Mathlib.Algebra.Order.Ring.Int
import Mathlib.Logic.Equiv.Defs
import MetaCG.Foundations.Search

/-! Searching a graph breadth first for the nodes within a number of steps.

The queue holds every node with the steps that are left for it, and a node that has been visited is skipped. The
search forgets nothing because the queue is sorted: a node is first taken with the most steps it is ever given. -/
namespace MetaCG.Foundations
set_option autoImplicit false
set_option maxHeartbeats 250000
set_option maxRecDepth 120000

/-- There is a path of `k` edges. -/
inductive PathOf {α : Type} (E : α → α → Prop) : ℕ → α → α → Prop where
  | refl (a : α) : PathOf E 0 a a
  | tail {k : ℕ} {a b c : α} : PathOf E k a b → E b c → PathOf E (k + 1) a c

section
variable {α β : Type} (e : α ≃ β) (E : β → β → Prop)

/-- Paths of a relation under other names. -/
theorem pathOf_relabel (k : ℕ) (a b : α) : PathOf (fun u v => E (e u) (e v)) k a b ↔ PathOf E k (e a) (e b) := by
  constructor
  · intro h
    induction h with
    | refl => exact .refl _
    | tail _ hstep ih => exact .tail ih hstep
  · -- every node of the path is the image of a node
    have key : ∀ {k : ℕ} {x y : β}, PathOf E k x y → PathOf (fun u v => E (e u) (e v)) k (e.symm x) (e.symm y) := by
      intro k x y h
      induction h with
      | refl => exact .refl _
      | tail _ hstep ih => exact .tail ih (by rwa [e.apply_symm_apply, e.apply_symm_apply])
    intro h
    have hpath := key h
    rwa [e.symm_apply_apply, e.symm_apply_apply] at hpath

theorem pathOf_of_reflTransGen {a b : β} (h : Relation.ReflTransGen E a b) : ∃ k, PathOf E k a b := by
  induction h with
  | refl => exact ⟨0, .refl a⟩
  | tail _ hstep ih =>
    obtain ⟨k, hk⟩ := ih
    exact ⟨k + 1, .tail hk hstep⟩

variable {E} in
theorem PathOf.reflTransGen {k : ℕ} {a b : β} (h : PathOf E k a b) : Relation.ReflTransGen E a b := by
  induction h with
  | refl => exact .refl
  | tail _ hstep ih => exact ih.tail hstep

theorem reflTransGen_relabel (a b : α) :
    Relation.ReflTransGen (fun u v => E (e u) (e v)) a b ↔ Relation.ReflTransGen E (e a) (e b) := by
  constructor
  · intro h
    obtain ⟨k, hk⟩ := pathOf_of_reflTransGen _ h
    exact ((pathOf_relabel e E k a b).mp hk).reflTransGen
  · intro h
    obtain ⟨k, hk⟩ := pathOf_of_reflTransGen _ h
    exact ((pathOf_relabel e E k a b).mpr hk).reflTransGen

end

namespace BoundedSearch
variable {α : Type} {E : α → α → Prop} {s u : α} {n r : ℤ} {V : Finset α} {R : α → ℤ} {Q : List (α × ℤ)}

/-- `V` is visited and `Q` is still queued in a search of `n` steps from `s`; `R` tells with how many steps left a node
was visited. -/
structure Frontier (E : α → α → Prop) (s : α) (n : ℤ) (V : Finset α) (R : α → ℤ) (Q : List (α × ℤ)) : Prop where
  start : (s ∈ V ∧ n ≤ R s) ∨ (s, n) ∈ Q
  sound : ∀ v r, (v, r) ∈ Q → ∃ k : ℕ, PathOf E k s v ∧ k + r = n
  sorted : Q.Pairwise fun x y => y.2 ≤ x.2
  window : ∀ x ∈ Q, ∀ y ∈ Q, x.2 ≤ y.2 + 1
  earlier : ∀ v ∈ V, ∀ x ∈ Q, x.2 ≤ R v
  closed : ∀ u ∈ V, 0 < R u → ∀ v, E u v → (v ∈ V ∧ R u ≤ R v + 1) ∨ ∃ r, (v, r) ∈ Q ∧ R u ≤ r + 1

theorem Frontier.initial (E : α → α → Prop) (s : α) (n : ℤ) (R : α → ℤ) : Frontier E s n ∅ R [(s, n)] where
  start := .inr (List.mem_singleton_self _)
  sound := by
    intro v r hv
    cases List.mem_singleton.mp hv
    exact ⟨0, .refl s, by simp⟩
  sorted := List.pairwise_singleton ..
  window := by
    intro x hx y hy
    rw [List.mem_singleton.mp hx, List.mem_singleton.mp hy]
    omega
  earlier := fun v hv => absurd hv (Finset.notMem_empty v)
  closed := fun u hu => absurd hu (Finset.notMem_empty u)

/-- An empty queue leaves every node within `n` steps visited. -/
theorem Frontier.done (h : Frontier E s n V R []) {k : ℕ} {v : α} (hpath : PathOf E k s v) (hk : k ≤ n) : v ∈ V := by
  suffices hleft : v ∈ V ∧ n ≤ R v + k from hleft.1
  induction hpath with
  | refl =>
    obtain ⟨hs, hR⟩ := h.start.resolve_right List.not_mem_nil
    exact ⟨hs, by omega⟩
  | @tail k s u v _ he ih =>
    push_cast at hk
    obtain ⟨hu, hleft⟩ := ih h (by omega)
    rcases h.closed u hu (by omega) v he with ⟨hv, hR⟩ | ⟨r, hr, -⟩
    · refine ⟨hv, ?_⟩
      push_cast
      omega
    · exact absurd hr List.not_mem_nil

theorem Frontier.skip (h : Frontier E s n V R ((u, r) :: Q)) (hu : u ∈ V) : Frontier E s n V R Q := by
  have hR : r ≤ R u := h.earlier u hu _ (List.mem_cons_self ..)
  refine ⟨?_, fun v r hv => h.sound v r (List.mem_cons_of_mem _ hv), h.sorted.of_cons,
    fun x hx y hy => h.window x (List.mem_cons_of_mem _ hx) y (List.mem_cons_of_mem _ hy),
    fun v hv x hx => h.earlier v hv x (List.mem_cons_of_mem _ hx), fun w hw hpos v he => ?_⟩
  · rcases h.start with hs | hs
    · exact .inl hs
    · rcases List.mem_cons.mp hs with heq | hs
      · cases heq
        exact .inl ⟨hu, hR⟩
      · exact .inr hs
  · rcases h.closed w hw hpos v he with hv | ⟨r', hr', hle⟩
    · exact .inl hv
    · rcases List.mem_cons.mp hr' with heq | hr'
      · cases heq
        exact .inl ⟨hu, by omega⟩
      · exact .inr ⟨r', hr', hle⟩

/-- What the order of the queue says about a node that is taken for the first time. -/
theorem Frontier.take [DecidableEq α] (h : Frontier E s n V R ((u, r) :: Q)) (hu : u ∉ V) :
    (∀ x ∈ Q, x.2 ≤ r) ∧ (∀ v ∈ V, r ≤ R v) ∧ (∀ v ∈ V, Function.update R u r v = R v) := by
  refine ⟨fun x hx => (List.pairwise_cons.mp h.sorted).1 x hx, fun v hv => h.earlier v hv _ (List.mem_cons_self ..), fun v hv => ?_⟩
  refine Function.update_of_ne ?_ ..
  rintro rfl
  exact hu hv

/-- The neighbours are queued with one step less, if there is a step left. -/
theorem Frontier.visit [DecidableEq α] (h : Frontier E s n V R ((u, r) :: Q)) (next : List α) (hu : u ∉ V)
    (hnext : 0 < r → ∀ v, v ∈ next ↔ E u v) (hnone : ¬0 < r → next = []) :
    Frontier E s n (insert u V) (Function.update R u r) (Q ++ next.map fun v => (v, r - 1)) := by
  obtain ⟨hQ, hV, hkeep⟩ := h.take hu
  have hself : Function.update R u r u = r := Function.update_self ..
  have hmove : ∀ v r', (v, r') ∈ (u, r) :: Q → (v ∈ insert u V ∧ r' ≤ Function.update R u r v) ∨
      (v, r') ∈ Q ++ next.map fun v => (v, r - 1) := by
    intro v r' hv
    rcases List.mem_cons.mp hv with heq | hv
    · cases heq
      exact .inl ⟨Finset.mem_insert_self .., hself.ge⟩
    · exact .inr (List.mem_append_left _ hv)
  have hqueued : ∀ x ∈ Q ++ next.map (fun v => (v, r - 1)), x ∈ Q ∨ (0 < r ∧ E u x.1 ∧ x.2 = r - 1) := by
    intro x hx
    rcases List.mem_append.mp hx with hx | hx
    · exact .inl hx
    · obtain ⟨v, hv, rfl⟩ := List.mem_map.mp hx
      by_cases hpos : 0 < r
      · exact .inr ⟨hpos, (hnext hpos v).mp hv, rfl⟩
      · rw [hnone hpos] at hv
        cases hv
  have hnear : ∀ x ∈ Q, r ≤ x.2 + 1 := fun x hx => h.window _ (List.mem_cons_self ..) x (List.mem_cons_of_mem _ hx)
  refine ⟨?_, fun v r' hv => ?_, ?_, fun x hx y hy => ?_, fun v hv x hx => ?_, fun w hw hpos v he => ?_⟩
  · rcases h.start with ⟨hs, hR⟩ | hs
    · exact .inl ⟨Finset.mem_insert_of_mem hs, by rw [hkeep s hs]; exact hR⟩
    · exact hmove s n hs
  · rcases hqueued _ hv with hv | ⟨-, he, hr'⟩
    · exact h.sound v r' (List.mem_cons_of_mem _ hv)
    · obtain ⟨k, hk, hsum⟩ := h.sound u r (List.mem_cons_self ..)
      refine ⟨k + 1, hk.tail he, ?_⟩
      simp only at hr'
      push_cast
      omega
  · refine List.pairwise_append.mpr ⟨h.sorted.of_cons, ?_, fun x hx y hy => ?_⟩
    · exact List.pairwise_map.mpr (List.pairwise_of_forall fun _ _ => le_rfl)
    · obtain ⟨v, -, rfl⟩ := List.mem_map.mp hy
      have := hnear x hx
      show r - 1 ≤ x.2
      omega
  · rcases hqueued x hx with hx | ⟨-, -, hx⟩ <;> rcases hqueued y hy with hy | ⟨-, -, hy⟩
    · exact h.window x (List.mem_cons_of_mem _ hx) y (List.mem_cons_of_mem _ hy)
    · have := hQ x hx
      omega
    · have := hnear y hy
      omega
    · omega
  · have hvr : r ≤ Function.update R u r v := by
      rcases Finset.mem_insert.mp hv with rfl | hv
      · exact hself.ge
      · rw [hkeep v hv]
        exact hV v hv
    rcases hqueued x hx with hx | ⟨-, -, hx⟩
    · exact (hQ x hx).trans hvr
    · omega
  · rcases Finset.mem_insert.mp hw with rfl | hw
    · rw [hself] at hpos ⊢
      exact .inr ⟨r - 1, List.mem_append_right _ (List.mem_map.mpr ⟨v, (hnext hpos v).mpr he, rfl⟩), by omega⟩
    · rw [hkeep w hw] at hpos ⊢
      rcases h.closed w hw hpos v he with ⟨hv, hle⟩ | ⟨r', hr', hle⟩
      · exact .inl ⟨Finset.mem_insert_of_mem hv, by rw [hkeep v hv]; exact hle⟩
      · rcases hmove v r' hr' with ⟨hv, hle'⟩ | hv
        · exact .inl ⟨hv, by omega⟩
        · exact .inr ⟨r', hv, hle⟩

end BoundedSearch
end MetaCG.Foundations
