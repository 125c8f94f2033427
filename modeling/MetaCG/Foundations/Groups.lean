import Mathlib.Data.List.Basic
import Mathlib.Order.Basic

/-! Lists that consist of groups of one size, and the middle elements of a list.

A list with an even number of elements has two of them. In a sorted list the element behind the middle ones is one of them
only where the values agree. -/
namespace MetaCG.Foundations
set_option autoImplicit false
set_option maxHeartbeats 250000
set_option maxRecDepth 120000

section
variable {α : Type} {l : List α} {r i j : ℕ} {v : α}

/-- The group with number `i`, where a group has `r` elements. -/
def group (l : List α) (r i : ℕ) : List α := (l.drop (i * r)).take r

theorem getElem?_group (hj : j < r) : (group l r i)[j]? = l[i * r + j]? := by
  rw [group, List.getElem?_take_of_lt hj, List.getElem?_drop]

theorem length_group (h : (i + 1) * r ≤ l.length) : (group l r i).length = r := by
  rw [Nat.succ_mul] at h
  rw [group, List.length_take, List.length_drop]
  omega

def IsMiddle (l : List α) (v : α) : Prop :=
  l[l.length / 2]? = some v ∨ (l.length % 2 = 0 ∧ l[l.length / 2 - 1]? = some v)

theorem le_of_sorted [PartialOrder α] (hsorted : l.Pairwise (· ≤ ·)) {a b : ℕ} {x y : α} (hab : a < b) (hx : l[a]? = some x)
    (hy : l[b]? = some y) : x ≤ y := by
  obtain ⟨ha, rfl⟩ := List.getElem?_eq_some_iff.mp hx
  obtain ⟨hb, rfl⟩ := List.getElem?_eq_some_iff.mp hy
  exact List.pairwise_iff_getElem.mp hsorted a b ha hb hab

/-- The element behind the middle ones is a middle one if it is not greater. -/
theorem isMiddle_behind_iff [PartialOrder α] (hsorted : l.Pairwise (· ≤ ·)) (hv : l[l.length / 2 + 1]? = some v) :
    IsMiddle l v ↔ l[l.length / 2 + 1]? = l[l.length / 2]? := by
  rw [hv]
  refine ⟨?_, fun hmiddle => .inl hmiddle.symm⟩
  rintro (hmiddle | ⟨heven, hlower⟩)
  · exact hmiddle.symm
  · have hlong : l.length / 2 + 1 < l.length := (List.getElem?_eq_some_iff.mp hv).1
    have hupper : l[l.length / 2]? = some l[l.length / 2] := List.getElem?_eq_getElem (by omega)
    -- the upper middle one lies between two elements with the value `v`
    have hle : v ≤ l[l.length / 2] := le_of_sorted hsorted (by omega) hlower hupper
    have hge : l[l.length / 2] ≤ v := le_of_sorted hsorted (by omega) hupper hv
    rw [hupper, le_antisymm hle hge]

end

end MetaCG.Foundations
