import Mathlib.Data.Multiset.Dedup
import MetaCG.Foundations.OrderedMap

/-! Histograms and the elements that they count.

A histogram maps each element to the number of its occurrences. Walking it in the order of its keys gives the elements in
sorted order, where `AtRank` says which element stands at an index without naming the order. -/
namespace MetaCG.Foundations
set_option autoImplicit false
set_option maxHeartbeats 250000
set_option maxRecDepth 120000

namespace Histogram
variable {κ : Type} [LinearOrder κ]

/-- `hist[k]++` -/
def count (hist : OMap κ ℤ) (k : κ) : OMap κ ℤ := hist.insertWith (· + ·) k 1

/-- Each element as often as it is counted. -/
def elements (hist : OMap κ ℤ) : List κ := hist.entries.flatMap fun e => List.replicate e.2.toNat e.1

/-- Each element once. -/
def keys (hist : OMap κ ℤ) : List κ := hist.entries.map Prod.fst

/-- `hist` counts the elements of `s`. -/
def Counts (hist : OMap κ ℤ) (s : Multiset κ) : Prop := ∀ k, hist.find k = if k ∈ s then some (s.count k : ℤ) else none

/-- `v` stands at index `k` of the sorted elements of `s`. -/
def AtRank (s : Multiset κ) (k : ℕ) (v : κ) : Prop := s.countP (· < v) ≤ k ∧ k < s.countP (· ≤ v)

section
variable {hist : OMap κ ℤ} {s : Multiset κ}

theorem Counts.empty : Counts (OMap.empty : OMap κ ℤ) 0 := fun _ => rfl

theorem Counts.count (h : Counts hist s) (k : κ) : Counts (Histogram.count hist k) (k ::ₘ s) := by
  intro k'
  rw [Histogram.count, OMap.find_insertWith, h k']
  by_cases hk : k' = k
  · subst hk
    rw [if_pos rfl, if_pos (Multiset.mem_cons_self k' s), Multiset.count_cons_self]
    split_ifs with hmem
    · rfl
    · rw [Multiset.count_eq_zero_of_notMem hmem]
      rfl
  · rw [if_neg hk, Multiset.count_cons_of_ne hk]
    simp only [Multiset.mem_cons, hk, false_or]

theorem keys_sorted (hist : OMap κ ℤ) : (keys hist).Pairwise (· < ·) := List.pairwise_map.mpr hist.sorted

theorem mem_keys {k : κ} : k ∈ keys hist ↔ (hist.find k).isSome = true := by
  unfold keys OMap.find
  rw [Option.isSome_iff_ne_none, Ne, Ordered.find_eq_none_iff, not_not]

theorem count_flatMap {l : List (κ × ℤ)} (hn : (l.map Prod.fst).Nodup) (k : κ) :
    (l.flatMap fun e => List.replicate e.2.toNat e.1).count k = ((Ordered.find k l).getD 0).toNat := by
  induction l with
  | nil => rfl
  | cons e l ih =>
    obtain ⟨k', v⟩ := e
    obtain ⟨hhead, htail⟩ := List.nodup_cons.mp hn
    rw [List.flatMap_cons, List.count_append, ih htail, List.count_replicate]
    by_cases hk : k = k'
    · subst hk
      rw [Ordered.find_same, Ordered.find_eq_none_iff.mpr hhead]
      simp
    · rw [Ordered.find_other hk]
      simp [Ne.symm hk]

/-- The elements of the histogram are what it counts. -/
theorem Counts.elements (h : Counts hist s) : (Histogram.elements hist : Multiset κ) = s := by
  refine Multiset.ext.mpr fun k => ?_
  have hcount := count_flatMap hist.sorted.keys_nodup k
  have hfind : Ordered.find k hist.entries = _ := h k
  rw [Multiset.coe_count, Histogram.elements, hcount, hfind]
  split_ifs with hk
  · exact Int.toNat_natCast _
  · exact (Multiset.count_eq_zero_of_notMem hk).symm

theorem Counts.keys (h : Counts hist s) : (Histogram.keys hist : Multiset κ) = s.dedup := by
  refine (Multiset.Nodup.ext ?_ (Multiset.nodup_dedup s)).mpr fun k => ?_
  · exact Multiset.coe_nodup.mpr ((keys_sorted hist).imp ne_of_lt)
  · rw [Multiset.mem_coe, mem_keys, h k, Multiset.mem_dedup]
    split_ifs with hk <;> simp [hk]

end

/-- The element at index `k` of a sorted list. -/
theorem atRank_of_sorted {l : List κ} (hl : l.Pairwise (· ≤ ·)) {k : ℕ} {v : κ} (hv : l[k]? = some v) :
    AtRank (l : Multiset κ) k v := by
  induction l generalizing k with
  | nil => cases hv
  | cons a l ih =>
    obtain ⟨ha, hl⟩ := List.pairwise_cons.mp hl
    unfold AtRank
    rw [Multiset.coe_countP, Multiset.coe_countP]
    cases k with
    | zero =>
      cases hv
      refine ⟨le_of_eq (List.countP_eq_zero.mpr fun x hx => ?_), List.countP_pos_iff.mpr ⟨v, List.mem_cons_self .., by simp⟩⟩
      rcases List.mem_cons.mp hx with rfl | hx
      · simp
      · simpa using ha x hx
    | succ k =>
      rw [List.getElem?_cons_succ] at hv
      have hrank := ih hl hv
      unfold AtRank at hrank
      rw [Multiset.coe_countP, Multiset.coe_countP] at hrank
      have hle : a ≤ v := ha v (List.mem_of_getElem? hv)
      rw [List.countP_cons, List.countP_cons, if_pos (decide_eq_true hle)]
      split_ifs <;> omega

end Histogram
end MetaCG.Foundations
