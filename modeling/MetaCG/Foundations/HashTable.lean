import Mathlib.Data.Set.Card
import MetaCG.Foundations.UnorderedMap

/-! Hash tables with the number of their buckets.

While a loop runs over a hash table it holds an iterator. Inserting keeps it valid as long as the elements fit
into the buckets (a maximal load factor of one); otherwise the table is rehashed and the iterator is lost. -/
namespace MetaCG.Foundations
set_option autoImplicit false
set_option maxHeartbeats 250000
set_option maxRecDepth 120000

/-- The order in which the iterators of an unordered set run through its elements. -/
structure SetOrder (α : Type) where
  run : Finset α → List α
  mem_run : ∀ s a, a ∈ run s ↔ a ∈ s

structure HashTable (κ ν : Type) [DecidableEq κ] where
  toMap : UMap κ ν
  bucketCount : ℕ
  load : toMap.keys.toFinset.card ≤ bucketCount

namespace HashTable
variable {κ ν : Type} [DecidableEq κ]

def keys (t : HashTable κ ν) : Finset κ := t.toMap.keys.toFinset

def lookup (t : HashTable κ ν) (k : κ) : Option ν := t.toMap.lookup k

theorem mem_keys {t : HashTable κ ν} {k : κ} : k ∈ t.keys ↔ k ∈ t.toMap := by
  rw [keys, List.mem_toFinset, AList.mem_keys]

theorem lookup_eq_none {t : HashTable κ ν} {k : κ} : t.lookup k = none ↔ k ∉ t.keys := by
  rw [mem_keys]
  exact AList.lookup_eq_none

theorem keys_insert (m : UMap κ ν) (k : κ) (v : ν) :
    (AList.insert k v m : UMap κ ν).keys.toFinset = insert k m.keys.toFinset := by
  refine Finset.ext fun a => ?_
  rw [List.mem_toFinset, ← AList.mem_keys, AList.mem_insert, Finset.mem_insert, List.mem_toFinset, ← AList.mem_keys]

/-- `operator[]` inside a loop over the table: a missing key is inserted with the value `d`, and there is no result
when this rehashes the table. -/
def subscript (t : HashTable κ ν) (d : ν) (k : κ) : Option (HashTable κ ν) :=
  if k ∈ t.toMap then some t
  else if hroom : t.keys.card < t.bucketCount then
    some { t with
      toMap := t.toMap.insert k d
      load := by
        rw [keys_insert]
        exact (Finset.card_insert_le ..).trans hroom }
  else none

section
variable {t t' : HashTable κ ν} {d : ν} {k : κ}

theorem subscript_cases (h : t.subscript d k = some t') :
    t'.bucketCount = t.bucketCount ∧ t'.keys = insert k t.keys ∧
      ∀ a, t'.lookup a = if a = k then some ((t.lookup k).getD d) else t.lookup a := by
  unfold subscript at h
  split_ifs at h with hk hroom
  · cases h
    obtain ⟨v, hv⟩ := (UMap.mem_iff_lookup k _).mp hk
    refine ⟨rfl, (Finset.insert_eq_of_mem (mem_keys.mpr hk)).symm, fun a => ?_⟩
    split_ifs with ha
    · rw [ha, lookup, hv]
      rfl
    · rfl
  · cases h
    refine ⟨rfl, keys_insert t.toMap k d, fun a => ?_⟩
    have hnone : t.lookup k = none := lookup_eq_none.mpr fun hmem => hk (mem_keys.mp hmem)
    rw [hnone, lookup, UMap.lookup_insert_ite]
    rfl

theorem subscript_eq_none (h : t.subscript d k = none) : k ∉ t.keys ∧ t.bucketCount ≤ t.keys.card := by
  unfold subscript at h
  split_ifs at h with hk hroom
  exact ⟨fun hmem => hk (mem_keys.mp hmem), Nat.le_of_not_lt hroom⟩

end

/-- More keys than buckets do not fit. -/
theorem lt_encard_of_subscript {t : HashTable κ ν} {d : ν} {k : κ} (h : t.subscript d k = none) {names : Set κ}
    (hkeys : (t.keys : Set κ) ⊆ names) (hk : k ∈ names) : (t.bucketCount : ℕ∞) < names.encard := by
  obtain ⟨hnew, hfull⟩ := subscript_eq_none h
  have hsub : ((insert k t.keys : Finset κ) : Set κ) ⊆ names := by
    rw [Finset.coe_insert]
    exact Set.insert_subset hk hkeys
  have hcard := Set.encard_le_encard hsub
  rw [Set.encard_coe_eq_coe_finsetCard, Finset.card_insert_of_notMem hnew] at hcard
  refine lt_of_lt_of_le ?_ hcard
  exact_mod_cast Nat.lt_succ_of_le hfull

theorem encard_keys_le (t : HashTable κ ν) : (t.keys : Set κ).encard ≤ t.bucketCount := by
  rw [Set.encard_coe_eq_coe_finsetCard]
  exact_mod_cast t.load

end HashTable
end MetaCG.Foundations
