import Mathlib.Data.Finset.Lattice.Lemmas
import MetaCG.Foundations.SetAlgorithms

/-! The set helpers of `CgHelper.h`.

They hand hash sets to algorithms for sorted ranges. Nodes are compared by their addresses, of which only the order is
known, and a set is given by the order in which it is iterated. -/
namespace MetaCG.Pgis
open Foundations
set_option autoImplicit false
set_option maxHeartbeats 250000
set_option maxRecDepth 120000

/-- An unordered set, its elements in the order of the iteration. -/
structure CgNodeRawPtrUSet (α : Type) where
  elems : List α
  nodup : elems.Nodup

namespace CgHelper
variable {α : Type} [LinearOrder α]

def toFinset (s : CgNodeRawPtrUSet α) : Finset α := s.elems.toFinset

def setIntersect (a b : CgNodeRawPtrUSet α) : Finset α := (SetAlgorithms.setIntersection a.elems b.elems).toFinset

def setDifference (a b : CgNodeRawPtrUSet α) : Finset α := (SetAlgorithms.setDifference a.elems b.elems).toFinset

-- The difference equals the small set when the two sets are disjoint.
def isSubsetOf (smallSet largeSet : CgNodeRawPtrUSet α) : Bool := decide (setDifference smallSet largeSet = toFinset smallSet)

def intersects (a b : CgNodeRawPtrUSet α) : Bool := !decide (setIntersect a b = ∅)

/-- The four helpers are right on `a` and `b`, however these are iterated. -/
def ComputeSetOperations (a b : Finset α) : Prop :=
  ∀ s t : CgNodeRawPtrUSet α, toFinset s = a → toFinset t = b →
    setIntersect s t = a ∩ b ∧ setDifference s t = a \ b ∧ (intersects s t = true ↔ ¬Disjoint a b) ∧
      (isSubsetOf s t = true ↔ a ⊆ b)

section
variable {s t : CgNodeRawPtrUSet α} {a b : Finset α} {c x : α}

theorem mem_toFinset : x ∈ toFinset s ↔ x ∈ s.elems := List.mem_toFinset

theorem setIntersect_subset (s t : CgNodeRawPtrUSet α) : setIntersect s t ⊆ toFinset s ∩ toFinset t := by
  intro x hx
  obtain ⟨hs, ht⟩ := SetAlgorithms.mem_of_setIntersection (List.mem_toFinset.mp hx)
  exact Finset.mem_inter.mpr ⟨mem_toFinset.mpr hs, mem_toFinset.mpr ht⟩

theorem setDifference_eq (s t : CgNodeRawPtrUSet α) : setDifference s t = toFinset s \ setIntersect s t := by
  ext x
  rw [setDifference, List.mem_toFinset, SetAlgorithms.mem_setDifference s.nodup, Finset.mem_sdiff, mem_toFinset, setIntersect,
    List.mem_toFinset]

theorem isSubsetOf_iff : isSubsetOf s t = true ↔ setIntersect s t = ∅ := by
  have hsub : setIntersect s t ⊆ toFinset s := (setIntersect_subset s t).trans Finset.inter_subset_left
  rw [isSubsetOf, decide_eq_true_iff, setDifference_eq, Finset.sdiff_eq_self_iff_disjoint]
  constructor
  · intro hdisjoint
    exact Finset.disjoint_self_iff_empty _ |>.mp (hdisjoint.mono_left hsub)
  · intro hempty
    rw [hempty]
    exact Finset.disjoint_empty_right _

theorem intersects_iff : intersects s t = true ↔ setIntersect s t ≠ ∅ := by
  rw [intersects, Bool.not_eq_true', decide_eq_false_iff_not]

/-- All is decided by the intersection, since `isSubsetOf` tests whether it is empty. -/
theorem computeSetOperations_iff : ComputeSetOperations a b ↔
    (∀ s t : CgNodeRawPtrUSet α, toFinset s = a → toFinset t = b → setIntersect s t = a ∩ b) ∧ (a ∩ b = ∅ ↔ a ⊆ b) := by
  constructor
  · intro h
    refine ⟨fun s t hs ht => (h s t hs ht).1, ?_⟩
    have hex : ∀ u : Finset α, ∃ s : CgNodeRawPtrUSet α, toFinset s = u := fun u => ⟨⟨u.toList, u.nodup_toList⟩, u.toList_toFinset⟩
    obtain ⟨s, hs⟩ := hex a
    obtain ⟨t, ht⟩ := hex b
    obtain ⟨hinter, -, -, hsub⟩ := h s t hs ht
    rw [← hsub, isSubsetOf_iff, hinter]
  · rintro ⟨hinter, hsub⟩ s t rfl rfl
    have heq := hinter s t rfl rfl
    refine ⟨heq, ?_, ?_, ?_⟩
    · rw [setDifference_eq, heq, Finset.sdiff_inter_self_left]
    · rw [intersects_iff, heq, Finset.disjoint_iff_inter_eq_empty]
    · rw [isSubsetOf_iff, heq, hsub]

/-- The set `a` iterated from `x`. -/
noncomputable def iterateFrom (x : α) (a : Finset α) : CgNodeRawPtrUSet α where
  elems := x :: (a.erase x).toList
  nodup := List.nodup_cons.mpr ⟨fun hx => (Finset.mem_erase.mp (Finset.mem_toList.mp hx)).1 rfl, Finset.nodup_toList _⟩

theorem toFinset_iterateFrom (h : x ∈ a) : toFinset (iterateFrom x a) = a := by
  rw [toFinset, iterateFrom, List.toFinset_cons, Finset.toList_toFinset, Finset.insert_erase h]

/-- An element of both sets is lost when a greater one stands in front of the other set. -/
theorem notMem_setIntersect_left (h : c < x) : c ∉ setIntersect (iterateFrom x a) (iterateFrom c b) := by
  intro hc
  rw [setIntersect, iterateFrom, iterateFrom, SetAlgorithms.setIntersection_right h, List.mem_toFinset] at hc
  exact (Finset.mem_erase.mp (Finset.mem_toList.mp (SetAlgorithms.mem_of_setIntersection hc).2)).1 rfl

theorem notMem_setIntersect_right (h : c < x) : c ∉ setIntersect (iterateFrom c a) (iterateFrom x b) := by
  intro hc
  rw [setIntersect, iterateFrom, iterateFrom, SetAlgorithms.setIntersection_left h, List.mem_toFinset] at hc
  exact (Finset.mem_erase.mp (Finset.mem_toList.mp (SetAlgorithms.mem_of_setIntersection hc).1)).1 rfl

/-- A common element that no order of the iteration loses is the greatest element of both sets. -/
theorem greatest_of_setIntersect (h : ∀ s t : CgNodeRawPtrUSet α, toFinset s = a → toFinset t = b → setIntersect s t = a ∩ b)
    (hc : c ∈ a ∩ b) : ∀ x ∈ a ∪ b, x ≤ c := by
  obtain ⟨hca, hcb⟩ := Finset.mem_inter.mp hc
  intro x hx
  by_contra hlt
  rw [not_le] at hlt
  rcases Finset.mem_union.mp hx with hx | hx
  · have heq := h _ _ (toFinset_iterateFrom hx) (toFinset_iterateFrom hcb)
    exact notMem_setIntersect_left hlt (heq ▸ hc)
  · have heq := h _ _ (toFinset_iterateFrom hca) (toFinset_iterateFrom hx)
    exact notMem_setIntersect_right hlt (heq ▸ hc)

theorem setIntersect_of_greatest (hinter : a ∩ b = {c}) (hgreatest : ∀ x ∈ a ∪ b, x ≤ c) (hs : toFinset s = a) (ht : toFinset t = b) :
    setIntersect s t = a ∩ b := by
  subst hs ht
  have hc : c ∈ toFinset s ∩ toFinset t := by
    rw [hinter]
    exact Finset.mem_singleton_self c
  obtain ⟨hcs, hct⟩ := Finset.mem_inter.mp hc
  refine Finset.Subset.antisymm (setIntersect_subset s t) ?_
  rw [hinter, Finset.singleton_subset_iff, setIntersect, List.mem_toFinset]
  exact SetAlgorithms.mem_setIntersection_greatest
    (fun x hx => hgreatest x (Finset.mem_union_left _ (mem_toFinset.mpr hx)))
    (fun y hy => hgreatest y (Finset.mem_union_right _ (mem_toFinset.mpr hy))) (mem_toFinset.mp hcs) (mem_toFinset.mp hct)

end

/-- The helpers are right in two cases only: the first set is empty, or the greatest of all elements is the one element in
common and not the only one of the first set. -/
theorem computeSetOperations_iff_greatest (a b : Finset α) :
    ComputeSetOperations a b ↔ a = ∅ ∨ (¬a ⊆ b ∧ ∃ c, a ∩ b = {c} ∧ ∀ x ∈ a ∪ b, x ≤ c) := by
  rw [computeSetOperations_iff]
  constructor
  · rintro ⟨hinter, hsub⟩
    rcases (a ∩ b).eq_empty_or_nonempty with hempty | ⟨c, hc⟩
    · exact .inl (Finset.inter_eq_left.mpr (hsub.mp hempty) ▸ hempty)
    · refine .inr ⟨fun hle => ?_, c, ?_, greatest_of_setIntersect hinter hc⟩
      · rw [hsub.mpr hle] at hc
        exact Finset.notMem_empty c hc
      · refine Finset.eq_singleton_iff_unique_mem.mpr ⟨hc, fun d hd => ?_⟩
        have hunion : ∀ y ∈ a ∩ b, y ∈ a ∪ b := fun y hy => Finset.mem_union_left _ (Finset.mem_inter.mp hy).1
        exact le_antisymm (greatest_of_setIntersect hinter hc d (hunion d hd)) (greatest_of_setIntersect hinter hd c (hunion c hc))
  · rintro (rfl | ⟨hnot, c, hinter, hgreatest⟩)
    · refine ⟨fun s t hs _ => ?_, by simp⟩
      have hnone := (setIntersect_subset s t).trans Finset.inter_subset_left
      rw [hs] at hnone
      rw [Finset.empty_inter, Finset.subset_empty.mp hnone]
    · refine ⟨fun s t hs ht => setIntersect_of_greatest hinter hgreatest hs ht, iff_of_false (fun hempty => ?_) hnot⟩
      rw [hinter] at hempty
      exact Finset.singleton_ne_empty c hempty

/-- Two orders of one set lose an element, and disjoint sets are taken for a set and its superset. -/
theorem setHelpers_wrong :
    setIntersect (⟨[1, 0], by decide⟩ : CgNodeRawPtrUSet ℕ) ⟨[0, 1], by decide⟩ = {1} ∧
      setDifference (⟨[1, 0], by decide⟩ : CgNodeRawPtrUSet ℕ) ⟨[0, 1], by decide⟩ = {0} ∧
      intersects (⟨[1, 0], by decide⟩ : CgNodeRawPtrUSet ℕ) ⟨[0, 2], by decide⟩ = false ∧
      isSubsetOf (⟨[0], by decide⟩ : CgNodeRawPtrUSet ℕ) ⟨[1], by decide⟩ = true ∧ ¬ComputeSetOperations ({0} : Finset ℕ) {1} := by
  have hsub : isSubsetOf (⟨[0], by decide⟩ : CgNodeRawPtrUSet ℕ) ⟨[1], by decide⟩ = true := by
    simp [isSubsetOf, setDifference, toFinset, SetAlgorithms.setDifference]
  refine ⟨?_, ?_, ?_, hsub, fun h => ?_⟩
  · simp [setIntersect, SetAlgorithms.setIntersection]
  · simp [setDifference, SetAlgorithms.setDifference]
  · simp [intersects, setIntersect, SetAlgorithms.setIntersection]
  · have hle : ({0} : Finset ℕ) ⊆ {1} := (h _ _ rfl rfl).2.2.2.mp hsub
    exact absurd hle (by decide)

end CgHelper
end MetaCG.Pgis
