import Mathlib.Data.List.Nodup
import Mathlib.Data.List.TakeWhile
import Mathlib.Order.Basic

/-! Sets that are kept in the order of their own comparison.

Two elements are the same to the set if neither comes before the other. What a set holds after an insertion or a removal
needs nothing of the comparison but that no element comes before itself; `lexLess` is the comparison of tuples. -/
namespace MetaCG.Foundations
set_option autoImplicit false
set_option maxHeartbeats 250000
set_option maxRecDepth 120000

namespace CompareSet
variable {α : Type} (less : α → α → Bool)

/-- Neither comes before the other. -/
def equivalent (x y : α) : Bool := !less x y && !less y x

/-- An element that is the same as one of the set is not inserted. -/
def insert (x : α) (l : List α) : List α :=
  if l.any (equivalent less x) then l else l.takeWhile (fun y => less y x) ++ x :: l.dropWhile fun y => less y x

def erase (x : α) (l : List α) : List α := l.filter fun y => !equivalent less x y

variable {less} {l : List α} {x y : α}

theorem mem_of_insert (h : y ∈ insert less x l) : y = x ∨ y ∈ l := by
  unfold insert at h
  split_ifs at h
  · exact .inr h
  · rw [List.mem_append, List.mem_cons] at h
    rcases h with h | h | h
    · exact .inr ((List.takeWhile_prefix _).subset h)
    · exact .inl h
    · exact .inr ((List.dropWhile_suffix _).subset h)

theorem equivalent_self (hirrefl : ∀ x, less x x = false) (x : α) : equivalent less x x = true := by
  rw [equivalent, hirrefl]
  rfl

theorem nodup_insert (hirrefl : ∀ x, less x x = false) (h : l.Nodup) : (insert less x l).Nodup := by
  unfold insert
  split_ifs with hany
  · exact h
  · have hx : x ∉ l := fun hmem => hany (List.any_eq_true.mpr ⟨x, hmem, equivalent_self hirrefl x⟩)
    refine List.nodup_middle.mpr ?_
    rw [List.takeWhile_append_dropWhile]
    exact List.nodup_cons.mpr ⟨hx, h⟩

theorem mem_of_erase (h : y ∈ erase less x l) : y ∈ l := List.mem_of_mem_filter h

theorem nodup_erase (h : l.Nodup) : (erase less x l).Nodup := h.filter _

theorem notMem_erase (hirrefl : ∀ x, less x x = false) : x ∉ erase less x l := by
  intro h
  have hkept := (List.mem_filter.mp h).2
  rw [equivalent_self hirrefl] at hkept
  cases hkept

/-- What is left after the elements of a list are removed. -/
theorem mem_of_foldl_erase (hirrefl : ∀ x, less x x = false) {xs : List α} (h : y ∈ xs.foldl (fun l x => erase less x l) l) :
    y ∈ l ∧ y ∉ xs := by
  induction xs generalizing l with
  | nil => exact ⟨h, List.not_mem_nil⟩
  | cons x xs ih =>
    obtain ⟨hy, hxs⟩ := ih h
    refine ⟨mem_of_erase hy, fun hmem => ?_⟩
    rcases List.mem_cons.mp hmem with rfl | hmem
    · exact notMem_erase hirrefl hy
    · exact hxs hmem

theorem nodup_foldl_erase {xs : List α} (h : l.Nodup) : (xs.foldl (fun l x => erase less x l) l).Nodup := by
  induction xs generalizing l with
  | nil => exact h
  | cons x xs ih => exact ih (nodup_erase h)

end CompareSet

/-! ## Tuples -/

/-- Both comparisons of one component. -/
def compared {α : Type} [LT α] [DecidableLT α] (a b : α) : Bool × Bool := (decide (a < b), decide (b < a))

/-- `operator<` of tuples, from the comparisons of their components. -/
def lexLess : List (Bool × Bool) → Bool
  | [] => false
  | (less, greater) :: rest => less || (!greater && lexLess rest)

theorem lexLess_irrefl {l : List (Bool × Bool)} (h : ∀ c ∈ l, c.1 = false) : lexLess l = false := by
  induction l with
  | nil => rfl
  | cons c l ih =>
    rw [lexLess, h c (List.mem_cons_self ..), ih fun c' hc => h c' (List.mem_cons_of_mem c hc)]
    simp

theorem compared_self {α : Type} [Preorder α] [DecidableLT α] (a : α) : (compared a a).1 = false :=
  decide_eq_false (lt_irrefl a)

end MetaCG.Foundations
