import Mathlib.Data.Finset.Basic
import Mathlib.Order.Defs.LinearOrder

/-! `std::set_intersection` and `std::set_difference` on two ranges.

Both walk the ranges side by side and leave the smaller of the two front elements behind. That finds the common elements
of sorted ranges; the definitions say what happens on any range. -/
namespace MetaCG.Foundations
set_option autoImplicit false
set_option maxHeartbeats 250000
set_option maxRecDepth 120000

namespace SetAlgorithms
variable {α : Type} [LinearOrder α] {x y c : α} {xs ys : List α}

def setIntersection : List α → List α → List α
  | [], _ => []
  | _ :: _, [] => []
  | x :: xs, y :: ys =>
    if x < y then setIntersection xs (y :: ys)
    else if y < x then setIntersection (x :: xs) ys
    else x :: setIntersection xs ys
termination_by xs ys => xs.length + ys.length

def setDifference : List α → List α → List α
  | [], _ => []
  | x :: xs, [] => x :: xs
  | x :: xs, y :: ys =>
    if x < y then x :: setDifference xs (y :: ys)
    else if y < x then setDifference (x :: xs) ys
    else setDifference xs ys
termination_by xs ys => xs.length + ys.length

theorem setIntersection_left (h : x < y) : setIntersection (x :: xs) (y :: ys) = setIntersection xs (y :: ys) := by
  rw [setIntersection, if_pos h]

theorem setIntersection_right (h : y < x) : setIntersection (x :: xs) (y :: ys) = setIntersection (x :: xs) ys := by
  rw [setIntersection, if_neg (not_lt_of_gt h), if_pos h]

/-- What is found is common to the two ranges. -/
theorem mem_of_setIntersection {z : α} (h : z ∈ setIntersection xs ys) : z ∈ xs ∧ z ∈ ys := by
  fun_induction setIntersection xs ys with
  | case1 ys => exact absurd h List.not_mem_nil
  | case2 x xs => exact absurd h List.not_mem_nil
  | case3 x xs y ys hlt ih => exact (ih h).imp_left (List.mem_cons_of_mem x)
  | case4 x xs y ys hge hlt ih => exact (ih h).imp_right (List.mem_cons_of_mem y)
  | case5 x xs y ys hge hle ih =>
    have heq : x = y := le_antisymm (not_lt.mp hle) (not_lt.mp hge)
    subst heq
    rcases List.mem_cons.mp h with rfl | h
    · exact ⟨List.mem_cons_self .., List.mem_cons_self ..⟩
    · exact (ih h).imp (List.mem_cons_of_mem x) (List.mem_cons_of_mem x)

/-- The greatest element is never left behind. -/
theorem mem_setIntersection_greatest (hxs : ∀ x ∈ xs, x ≤ c) (hys : ∀ y ∈ ys, y ≤ c) (hcx : c ∈ xs) (hcy : c ∈ ys) :
    c ∈ setIntersection xs ys := by
  fun_induction setIntersection xs ys with
  | case1 ys => exact absurd hcx List.not_mem_nil
  | case2 x xs => exact absurd hcy List.not_mem_nil
  | case3 x xs y ys hlt ih =>
    have hne : c ≠ x := fun he => absurd (hys y (List.mem_cons_self ..)) (not_le_of_gt (he ▸ hlt))
    exact ih (fun x hx => hxs x (List.mem_cons_of_mem _ hx)) hys ((List.mem_cons.mp hcx).resolve_left hne) hcy
  | case4 x xs y ys hge hlt ih =>
    have hne : c ≠ y := fun he => absurd (hxs x (List.mem_cons_self ..)) (not_le_of_gt (he ▸ hlt))
    exact ih hxs (fun y hy => hys y (List.mem_cons_of_mem _ hy)) hcx ((List.mem_cons.mp hcy).resolve_left hne)
  | case5 x xs y ys hge hle ih =>
    have heq : x = y := le_antisymm (not_lt.mp hle) (not_lt.mp hge)
    subst heq
    rcases List.mem_cons.mp hcx with rfl | hcx
    · exact List.mem_cons_self ..
    · rcases List.mem_cons.mp hcy with rfl | hcy
      · exact List.mem_cons_self ..
      · exact List.mem_cons_of_mem _ (ih (fun x hx => hxs x (List.mem_cons_of_mem _ hx))
          (fun y hy => hys y (List.mem_cons_of_mem _ hy)) hcx hcy)

/-- The difference keeps what the intersection of the same ranges does not find. -/
theorem mem_setDifference (hxs : xs.Nodup) (z : α) : z ∈ setDifference xs ys ↔ z ∈ xs ∧ z ∉ setIntersection xs ys := by
  fun_induction setDifference xs ys with
  | case1 ys => simp
  | case2 x xs => simp [setIntersection]
  | case3 x xs y ys hlt ih =>
    obtain ⟨hx, hxs⟩ := List.nodup_cons.mp hxs
    rw [setIntersection_left hlt, List.mem_cons, List.mem_cons, ih hxs]
    constructor
    · rintro (rfl | ⟨hz, hnot⟩)
      · exact ⟨.inl rfl, fun hfound => hx (mem_of_setIntersection hfound).1⟩
      · exact ⟨.inr hz, hnot⟩
    · exact fun ⟨hz, hnot⟩ => hz.imp_right fun hz => ⟨hz, hnot⟩
  | case4 x xs y ys hge hlt ih => rw [setIntersection_right hlt, ih hxs]
  | case5 x xs y ys hge hle ih =>
    obtain ⟨hx, hxs⟩ := List.nodup_cons.mp hxs
    rw [setIntersection, if_neg hge, if_neg hle, List.mem_cons, List.mem_cons, ih hxs, not_or]
    constructor
    · rintro ⟨hz, hnot⟩
      exact ⟨.inr hz, fun he => hx (he ▸ hz), hnot⟩
    · exact fun ⟨hz, hne, hnot⟩ => ⟨hz.resolve_left hne, hnot⟩

end SetAlgorithms
end MetaCG.Foundations
