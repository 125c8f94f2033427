import Mathlib.Data.List.AList

/-! Unordered maps as duplicate-free association lists.

`AList` carries the uniqueness of its keys. The order of its entries stands for the iteration
order of the container, so a statement over all maps is a statement over all iteration orders. -/
namespace MetaCG.Foundations
set_option autoImplicit false
set_option maxHeartbeats 250000
set_option maxRecDepth 120000

/-- An unordered map from `κ` to `ν`. -/
abbrev UMap (κ ν : Type) := AList (fun _ : κ => ν)

namespace UMap
variable {κ ν : Type} [DecidableEq κ]

theorem lookup_insert_ite (a k : κ) (b : ν) (m : UMap κ ν) :
    (AList.insert a b m : UMap κ ν).lookup k = if k = a then some b else m.lookup k := by
  by_cases h : k = a
  · subst h
    rw [if_pos rfl]
    exact AList.lookup_insert m
  · rw [if_neg h]
    exact AList.lookup_insert_ne h

theorem lookup_erase_ite (a k : κ) (m : UMap κ ν) :
    (AList.erase a m : UMap κ ν).lookup k = if k = a then none else m.lookup k := by
  by_cases h : k = a
  · subst h
    rw [if_pos rfl]
    exact AList.lookup_erase k m
  · rw [if_neg h]
    exact AList.lookup_erase_ne h

theorem mem_iff_lookup (k : κ) (m : UMap κ ν) : k ∈ m ↔ ∃ v, m.lookup k = some v := by
  rw [← AList.lookup_isSome, Option.isSome_iff_exists]

theorem mem_of_lookup {k : κ} {v : ν} {m : UMap κ ν} (h : m.lookup k = some v) : k ∈ m :=
  (mem_iff_lookup k m).mpr ⟨v, h⟩

theorem eq_empty_of_lookup {m : UMap κ ν} (h : ∀ k, m.lookup k = none) : m = ∅ := by
  refine AList.ext (List.eq_nil_iff_forall_not_mem.mpr fun e he => ?_)
  have hmem := AList.mem_lookup_iff.mpr he
  rw [h e.1] at hmem
  cases hmem

/-- The entries in iteration order. -/
def toPairs (m : UMap κ ν) : List (κ × ν) := m.entries.map fun e => (e.1, e.2)

theorem mem_toPairs (k : κ) (v : ν) (m : UMap κ ν) : (k, v) ∈ toPairs m ↔ m.lookup k = some v := by
  rw [← Option.mem_def, AList.mem_lookup_iff, toPairs, List.mem_map]
  constructor
  · rintro ⟨e, he, heq⟩
    obtain ⟨rfl, rfl⟩ := Prod.mk.inj heq
    exact he
  · intro h
    exact ⟨⟨k, v⟩, h, rfl⟩

omit [DecidableEq κ] in
theorem toPairs_keys (m : UMap κ ν) : (toPairs m).map Prod.fst = m.keys := by
  simp only [toPairs, List.map_map, AList.keys, List.keys]
  rfl

omit [DecidableEq κ] in
theorem toPairs_keys_nodup (m : UMap κ ν) : ((toPairs m).map Prod.fst).Nodup := by
  rw [toPairs_keys]
  exact m.keys_nodup

theorem filter_key_of_mem (l : List (κ × ν)) (h : (l.map Prod.fst).Nodup) {k : κ} {v : ν} (hm : (k, v) ∈ l) :
    l.filter (fun e => decide (e.1 = k)) = [(k, v)] := by
  induction l with
  | nil => cases hm
  | cons e l ih =>
    rw [List.map_cons, List.nodup_cons] at h
    rcases List.mem_cons.mp hm with rfl | hm
    · have hrest : l.filter (fun e => decide (e.1 = k)) = [] := by
        rw [List.filter_eq_nil_iff]
        intro e he hk
        exact h.1 (List.mem_map.mpr ⟨e, he, of_decide_eq_true hk⟩)
      rw [List.filter_cons_of_pos (by simp), hrest]
    · have hne : e.1 ≠ k := fun he => h.1 (List.mem_map.mpr ⟨(k, v), hm, he.symm⟩)
      rw [List.filter_cons_of_neg (by simpa using hne)]
      exact ih h.2 hm

/-- At most one entry has a given key. -/
theorem toPairs_filter (m : UMap κ ν) (k : κ) :
    (toPairs m).filter (fun e => decide (e.1 = k)) = ((m.lookup k).map fun v => (k, v)).toList := by
  cases hl : m.lookup k with
  | none =>
    rw [Option.map_none, Option.toList_none, List.filter_eq_nil_iff]
    rintro ⟨k', v⟩ he hk
    have hk' : k' = k := of_decide_eq_true hk
    rw [mem_toPairs, hk', hl] at he
    cases he
  | some v =>
    exact filter_key_of_mem _ (toPairs_keys_nodup m) ((mem_toPairs k v m).mpr hl)

/-- `operator[]` read: a missing key reads as the default. -/
def getD (m : UMap κ ν) (k : κ) (d : ν) : ν := (m.lookup k).getD d

theorem getD_insert (m : UMap κ ν) (a k : κ) (b d : ν) :
    getD (AList.insert a b m : UMap κ ν) k d = if k = a then b else getD m k d := by
  rw [getD, lookup_insert_ite]
  split_ifs <;> rfl

theorem getD_erase (m : UMap κ ν) (a k : κ) (d : ν) :
    getD (AList.erase a m : UMap κ ν) k d = if k = a then d else getD m k d := by
  rw [getD, lookup_erase_ite]
  split_ifs <;> rfl

@[simp] theorem getD_empty (k : κ) (d : ν) : getD (∅ : UMap κ ν) k d = d := rfl

/-- The map with the given entries, in their order; of several entries with one key the first stays. -/
def ofPairs (l : List (κ × ν)) : UMap κ ν := l.foldr (fun e m => AList.insert e.1 e.2 m) ∅

theorem mem_ofPairs (l : List (κ × ν)) (k : κ) : k ∈ ofPairs l ↔ k ∈ l.map Prod.fst := by
  induction l with
  | nil => exact iff_of_false (AList.notMem_empty k) List.not_mem_nil
  | cons e l ih =>
    change k ∈ (AList.insert e.1 e.2 (ofPairs l) : UMap κ ν) ↔ _
    rw [AList.mem_insert, ih, List.map_cons, List.mem_cons]

theorem ofPairs_toPairs (m : UMap κ ν) : ofPairs (toPairs m) = m := by
  have key : ∀ l : List (Sigma fun _ : κ => ν), l.NodupKeys →
      (ofPairs (l.map fun e => (e.1, e.2)) : UMap κ ν).entries = l := by
    intro l
    induction l with
    | nil => exact fun _ => rfl
    | cons e l ih =>
      intro hl
      obtain ⟨hnot, hrest⟩ := List.nodupKeys_cons.mp hl
      have htail := ih hrest
      have hnew : e.1 ∉ ofPairs (l.map fun e => (e.1, e.2)) := by
        intro hmem
        have hkeys : e.1 ∈ (ofPairs (l.map fun e => (e.1, e.2)) : UMap κ ν).entries.keys := hmem
        rw [htail] at hkeys
        exact hnot hkeys
      change (AList.insert e.1 e.2 (ofPairs (l.map fun e => (e.1, e.2))) : UMap κ ν).entries = _
      rw [AList.entries_insert_of_notMem hnew, htail]
  exact AList.ext (key m.entries m.nodupKeys)

/-- Change every value, keeping the order of the entries. -/
def mapValues {ρ : Type} (f : ν → ρ) (m : UMap κ ν) : UMap κ ρ := ofPairs ((toPairs m).map fun e => (e.1, f e.2))

theorem mem_of_mem_ofPairs {l : List (κ × ν)} {e : κ × ν} (h : e ∈ toPairs (ofPairs l)) : e ∈ l := by
  induction l with
  | nil => exact absurd h List.not_mem_nil
  | cons a l ih =>
    have hlook : (AList.insert a.1 a.2 (ofPairs l) : UMap κ ν).lookup e.1 = some e.2 := (mem_toPairs e.1 e.2 _).mp h
    rw [lookup_insert_ite] at hlook
    split_ifs at hlook with hk
    · rw [show e = a from Prod.ext hk (Option.some.inj hlook).symm]
      exact List.mem_cons_self ..
    · exact List.mem_cons_of_mem a (ih ((mem_toPairs e.1 e.2 _).mpr hlook))

theorem mem_mapValues {ρ : Type} (f : ν → ρ) (m : UMap κ ν) (k : κ) : k ∈ mapValues f m ↔ k ∈ m := by
  rw [mapValues, mem_ofPairs, List.map_map, AList.mem_keys, ← toPairs_keys]
  rfl

theorem mapValues_eq_self {f : ν → ν} (hf : ∀ v, f v = v) (m : UMap κ ν) : mapValues f m = m := by
  have hid : (fun e : κ × ν => (e.1, f e.2)) = id := funext fun e => by rw [hf]; rfl
  rw [mapValues, hid, List.map_id, ofPairs_toPairs]

theorem lookup_ofPairs {l : List (κ × ν)} (h : (l.map Prod.fst).Nodup) (k : κ) (v : ν) : (ofPairs l).lookup k = some v ↔ (k, v) ∈ l := by
  constructor
  · exact fun hv => mem_of_mem_ofPairs ((mem_toPairs k v _).mpr hv)
  · intro hmem
    obtain ⟨w, hw⟩ := (mem_iff_lookup k _).mp ((mem_ofPairs l k).mpr (List.mem_map_of_mem hmem))
    have hpair := mem_of_mem_ofPairs ((mem_toPairs k w _).mpr hw)
    have heq : (k, w) = (k, v) := List.inj_on_of_nodup_map h hpair hmem rfl
    rw [hw, (Prod.mk.inj heq).2]

/-- Renaming the keys and changing the values. -/
theorem lookup_ofPairs_map {κ' ρ : Type} [DecidableEq κ'] {f : κ → κ'} (hf : Function.Injective f) (F : ν → ρ) (m : UMap κ ν) (k : κ) :
    (ofPairs ((toPairs m).map fun e => (f e.1, F e.2))).lookup (f k) = (m.lookup k).map F := by
  have hnodup : (((toPairs m).map fun e => (f e.1, F e.2)).map Prod.fst).Nodup := by
    rw [List.map_map]
    have hkeys := (toPairs_keys_nodup m).map hf
    rwa [List.map_map] at hkeys
  refine Option.ext fun v => ?_
  rw [lookup_ofPairs hnodup, List.mem_map, Option.map_eq_some_iff]
  constructor
  · rintro ⟨⟨k', w⟩, hmem, he⟩
    obtain ⟨hk, hv⟩ := Prod.mk.inj he
    exact ⟨w, hf hk ▸ (mem_toPairs k' w m).mp hmem, hv⟩
  · rintro ⟨w, hw, rfl⟩
    exact ⟨(k, w), (mem_toPairs k w m).mpr hw, rfl⟩

end UMap
end MetaCG.Foundations
