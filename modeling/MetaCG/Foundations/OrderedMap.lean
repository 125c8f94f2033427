import Mathlib.Data.List.Induction
import Mathlib.Data.List.Sort
import Mathlib.Data.String.Basic
import Mathlib.Logic.Function.Basic

/-! Ordered maps as strictly sorted association lists.

The raw functions work on plain lists, so that they can be used under a nested inductive type;
`OMap` bundles a list with its sortedness. Two sorted lists with the same look-ups are equal
(`ext_find`), which is how a map built in any order is compared with another. -/
namespace MetaCG.Foundations
set_option autoImplicit false
set_option maxHeartbeats 250000
set_option maxRecDepth 120000

namespace Ordered
variable {κ ν ρ : Type} [LinearOrder κ]

def Sorted (l : List (κ × ν)) : Prop := l.Pairwise fun a b => a.1 < b.1

/-- Insert or overwrite, keeping the keys in increasing order. -/
def insert (k : κ) (v : ν) : List (κ × ν) → List (κ × ν)
  | [] => [(k, v)]
  | (k', v') :: t =>
    if k < k' then (k, v) :: (k', v') :: t
    else if k = k' then (k, v) :: t
    else (k', v') :: insert k v t

def find (k : κ) : List (κ × ν) → Option ν
  | [] => none
  | (k', v') :: t => if k = k' then some v' else find k t

/-- The map with the given entries; later entries overwrite earlier ones. -/
def ofList (l : List (κ × ν)) : List (κ × ν) := l.foldl (fun m e => insert e.1 e.2 m) []

def erase (k : κ) (l : List (κ × ν)) : List (κ × ν) := l.filter fun e => decide (e.1 ≠ k)

section Compute
variable {k k' : κ} {v v' : ν} {t : List (κ × ν)}

theorem insert_before (h : k < k') : insert k v ((k', v') :: t) = (k, v) :: (k', v') :: t := if_pos h

theorem insert_same : insert k v ((k, v') :: t) = (k, v) :: t := by
  rw [insert, if_neg (lt_irrefl k), if_pos rfl]

theorem insert_after (h : k' < k) : insert k v ((k', v') :: t) = (k', v') :: insert k v t := by
  rw [insert, if_neg h.not_gt, if_neg h.ne']

theorem insert_nil : insert k v [] = [(k, v)] := rfl

theorem find_same : find k ((k, v) :: t) = some v := if_pos rfl

theorem find_other (h : k ≠ k') : find k ((k', v') :: t) = find k t := if_neg h

theorem erase_same : erase k ((k, v) :: t) = erase k t := List.filter_cons_of_neg (by simp)

theorem erase_other (h : k' ≠ k) : erase k ((k', v') :: t) = (k', v') :: erase k t :=
  List.filter_cons_of_pos (by simpa using h)

theorem erase_nil : erase k ([] : List (κ × ν)) = [] := rfl

end Compute

theorem find_insert (k k' : κ) (v : ν) (l : List (κ × ν)) :
    find k (insert k' v l) = if k = k' then some v else find k l := by
  induction l with
  | nil => rfl
  | cons e t ih =>
    obtain ⟨k1, v1⟩ := e
    simp only [insert]
    split_ifs with h1 h2 h3 h4 h5
    · simp [find, h2]
    · simp [find, h2]
    · subst h3
      simp [find, h4]
    · subst h3
      simp [find, h4]
    · subst h5
      simp only [find, if_neg h3]
      rw [ih, if_pos rfl]
    · simp only [find]
      rw [ih, if_neg h5]

theorem find_erase (k k' : κ) (l : List (κ × ν)) : find k (erase k' l) = if k = k' then none else find k l := by
  induction l with
  | nil => simp [erase, find]
  | cons e t ih =>
    obtain ⟨k1, v1⟩ := e
    by_cases h1 : k1 = k'
    · have hskip : erase k' ((k1, v1) :: t) = erase k' t := List.filter_cons_of_neg (by simpa using h1)
      rw [hskip, ih]
      split_ifs with hk
      · rfl
      · rw [find, if_neg fun he => hk (he.trans h1)]
    · have hkeep : erase k' ((k1, v1) :: t) = (k1, v1) :: erase k' t := List.filter_cons_of_pos (by simpa using h1)
      rw [hkeep, find, find, ih]
      split_ifs with hk hk'
      · exact absurd (hk.symm.trans hk') h1
      · rfl
      · rfl
      · rfl

theorem mem_of_find {k : κ} {v : ν} {l : List (κ × ν)} (h : find k l = some v) : (k, v) ∈ l := by
  induction l with
  | nil => cases h
  | cons e t ih =>
    obtain ⟨k1, v1⟩ := e
    simp only [find] at h
    split_ifs at h with hk
    · cases h
      subst hk
      exact List.mem_cons_self ..
    · exact List.mem_cons_of_mem _ (ih h)

theorem find_of_mem {k : κ} {v : ν} {l : List (κ × ν)} (hs : Sorted l) (h : (k, v) ∈ l) :
    find k l = some v := by
  induction l with
  | nil => cases h
  | cons e t ih =>
    obtain ⟨k1, v1⟩ := e
    obtain ⟨hhd, htl⟩ := List.pairwise_cons.mp hs
    rcases List.mem_cons.mp h with he | he
    · cases he
      simp [find]
    · have hlt : k1 < k := hhd (k, v) he
      simp only [find, if_neg (ne_of_gt hlt)]
      exact ih htl he

theorem mem_iff_find {k : κ} {v : ν} {l : List (κ × ν)} (hs : Sorted l) :
    (k, v) ∈ l ↔ find k l = some v := ⟨find_of_mem hs, mem_of_find⟩

theorem mem_insert_cases {k : κ} {v : ν} {l : List (κ × ν)} {e : κ × ν} (h : e ∈ insert k v l) :
    e = (k, v) ∨ e ∈ l := by
  induction l with
  | nil => exact .inl (List.mem_singleton.mp h)
  | cons e1 t ih =>
    obtain ⟨k1, v1⟩ := e1
    simp only [insert] at h
    split_ifs at h with h1 h2
    · exact List.mem_cons.mp h
    · rcases List.mem_cons.mp h with he | he
      · exact .inl he
      · exact .inr (List.mem_cons_of_mem _ he)
    · rcases List.mem_cons.mp h with he | he
      · exact .inr (he ▸ List.mem_cons_self ..)
      · rcases ih he with he | he
        · exact .inl he
        · exact .inr (List.mem_cons_of_mem _ he)

theorem sorted_insert (k : κ) (v : ν) {l : List (κ × ν)} (hs : Sorted l) : Sorted (insert k v l) := by
  induction l with
  | nil => exact List.pairwise_singleton _ _
  | cons e t ih =>
    obtain ⟨k1, v1⟩ := e
    obtain ⟨hhd, htl⟩ := List.pairwise_cons.mp hs
    simp only [insert]
    split_ifs with h1 h2
    · refine List.pairwise_cons.mpr ⟨?_, hs⟩
      intro e he
      rcases List.mem_cons.mp he with he | he
      · subst he
        exact h1
      · exact h1.trans (hhd e he)
    · subst h2
      exact List.pairwise_cons.mpr ⟨hhd, htl⟩
    · refine List.pairwise_cons.mpr ⟨?_, ih htl⟩
      intro e he
      rcases mem_insert_cases he with he | he
      · subst he
        exact lt_of_le_of_ne (not_lt.mp h1) (Ne.symm h2)
      · exact hhd e he

theorem sorted_erase (k : κ) {l : List (κ × ν)} (hs : Sorted l) : Sorted (erase k l) :=
  hs.sublist List.filter_sublist

theorem ext_mem {l₁ l₂ : List (κ × ν)} (h₁ : Sorted l₁) (h₂ : Sorted l₂) (h : ∀ e, e ∈ l₁ ↔ e ∈ l₂) : l₁ = l₂ := by
  have hn : ∀ {l : List (κ × ν)}, Sorted l → l.Nodup := fun hs =>
    hs.imp (fun hlt he => absurd (congrArg Prod.fst he) (ne_of_lt hlt))
  have hp : l₁.Perm l₂ := (List.perm_ext_iff_of_nodup (hn h₁) (hn h₂)).mpr h
  exact hp.eq_of_pairwise (fun a b _ _ hab hba => absurd (lt_trans hab hba) (lt_irrefl _)) h₁ h₂

theorem ext_find {l₁ l₂ : List (κ × ν)} (h₁ : Sorted l₁) (h₂ : Sorted l₂)
    (h : ∀ k, find k l₁ = find k l₂) : l₁ = l₂ := by
  refine ext_mem h₁ h₂ ?_
  rintro ⟨k, v⟩
  rw [mem_iff_find h₁, mem_iff_find h₂, h k]

theorem erase_of_find_none {k : κ} {l : List (κ × ν)} (hs : Sorted l) (h : find k l = none) : erase k l = l := by
  refine ext_find (sorted_erase k hs) hs fun k' => ?_
  rw [find_erase]
  split_ifs with hk
  · rw [hk, h]
  · rfl

theorem insert_of_find {k : κ} {v : ν} {l : List (κ × ν)} (hs : Sorted l) (h : find k l = some v) : insert k v l = l := by
  refine ext_find (sorted_insert k v hs) hs fun k' => ?_
  rw [find_insert]
  split_ifs with hk
  · rw [hk, h]
  · rfl

/-- Overwriting an entry leaves the keys as they are. -/
theorem forall₂_insert {R : κ → ν → ν → Prop} (hrefl : ∀ k v, R k v v) {k : κ} {v v' : ν} {l : List (κ × ν)} (hs : Sorted l)
    (h : find k l = some v) (hv : R k v v') : List.Forall₂ (fun e e' => e'.1 = e.1 ∧ R e.1 e.2 e'.2) l (insert k v' l) := by
  induction l with
  | nil => cases h
  | cons e t ih =>
    obtain ⟨k1, v1⟩ := e
    obtain ⟨hhd, htl⟩ := List.pairwise_cons.mp hs
    by_cases hk : k = k1
    · subst hk
      rw [find_same] at h
      cases h
      rw [insert_same]
      exact .cons ⟨rfl, hv⟩ (List.forall₂_same.mpr fun e _ => ⟨rfl, hrefl e.1 e.2⟩)
    · rw [find_other hk] at h
      have hlt : k1 < k := hhd (k, v) (mem_of_find h)
      rw [insert_after hlt]
      exact .cons ⟨rfl, hrefl k1 v1⟩ (ih htl h)

theorem sorted_nil : Sorted ([] : List (κ × ν)) := List.Pairwise.nil

theorem sorted_foldl_insert (f : ρ → κ) (g : ρ → ν) (l : List ρ) {m : List (κ × ν)} (hm : Sorted m) :
    Sorted (l.foldl (fun m e => insert (f e) (g e) m) m) := by
  induction l generalizing m with
  | nil => exact hm
  | cons e l ih => exact ih (sorted_insert (f e) (g e) hm)

theorem sorted_ofList (l : List (κ × ν)) : Sorted (ofList l) :=
  sorted_foldl_insert Prod.fst Prod.snd l sorted_nil

theorem Sorted.keys_nodup {l : List (κ × ν)} (h : Sorted l) : (l.map Prod.fst).Nodup := by
  rw [List.Nodup, List.pairwise_map]
  exact h.imp ne_of_lt

theorem find_eq_none_iff {k : κ} {l : List (κ × ν)} : find k l = none ↔ k ∉ l.map Prod.fst := by
  induction l with
  | nil => simp [find]
  | cons e t ih =>
    simp only [find]
    split_ifs with hk
    · simp [hk]
    · rw [ih, List.map_cons, List.mem_cons, not_or]
      exact ⟨fun h => ⟨hk, h⟩, fun h => h.2⟩

theorem find_append (k : κ) (l l' : List (κ × ν)) : find k (l ++ l') = (find k l).or (find k l') := by
  induction l with
  | nil => rfl
  | cons e l ih =>
    simp only [List.cons_append, find]
    split_ifs
    · rfl
    · exact ih

theorem find_map_entry (f : κ → ν → ν) (l : List (κ × ν)) (k : κ) :
    find k (l.map fun e => (e.1, f e.1 e.2)) = (find k l).map (f k) := by
  induction l with
  | nil => rfl
  | cons e l ih =>
    simp only [List.map_cons, find]
    split_ifs with hk
    · rw [hk]
      rfl
    · exact ih

theorem mem_iff_find_of_nodup {l : List (κ × ν)} (hn : (l.map Prod.fst).Nodup) {k : κ} {v : ν} :
    (k, v) ∈ l ↔ find k l = some v := by
  refine ⟨fun h => ?_, mem_of_find⟩
  induction l with
  | nil => cases h
  | cons e l ih =>
    rw [List.map_cons, List.nodup_cons] at hn
    rcases List.mem_cons.mp h with rfl | h
    · exact find_same
    · have hne : k ≠ e.1 := fun he => hn.1 (he ▸ List.mem_map_of_mem h)
      exact (find_other hne).trans (ih hn.2 h)

theorem length_erase {l : List (κ × ν)} (hn : (l.map Prod.fst).Nodup) {k : κ} {v : ν} (h : find k l = some v) :
    (erase k l).length + 1 = l.length := by
  induction l with
  | nil => cases h
  | cons e l ih =>
    rw [List.map_cons, List.nodup_cons] at hn
    by_cases hk : k = e.1
    · have hnone : ∀ e' ∈ l, e'.1 ≠ k := fun e' he' he => hn.1 (hk ▸ he ▸ List.mem_map_of_mem he')
      have herase : erase k (e :: l) = l := by
        rw [hk, erase_same, erase, List.filter_eq_self]
        intro e' he'
        exact decide_eq_true (hk ▸ hnone e' he')
      rw [herase, List.length_cons]
    · rw [find_other hk] at h
      rw [erase_other (Ne.symm hk), List.length_cons, List.length_cons, ih hn.2 h]

/-- Entries with different keys are all found. -/
theorem find_foldl_insert {l : List (κ × ν)} (hn : (l.map Prod.fst).Nodup) (m : List (κ × ν)) (k : κ) :
    find k (l.foldl (fun m e => insert e.1 e.2 m) m) = (find k l).or (find k m) := by
  induction l generalizing m with
  | nil => rfl
  | cons e l ih =>
    obtain ⟨k1, v1⟩ := e
    rw [List.map_cons, List.nodup_cons] at hn
    rw [List.foldl_cons, ih hn.2, find_insert]
    by_cases hk : k = k1
    · subst hk
      rw [find_eq_none_iff.mpr hn.1]
      simp [find]
    · simp [find, hk]

theorem find_ofList {l : List (κ × ν)} (hn : (l.map Prod.fst).Nodup) (k : κ) : find k (ofList l) = find k l := by
  rw [ofList, find_foldl_insert hn]
  exact Option.or_none

theorem ofList_of_sorted {l : List (κ × ν)} (h : Sorted l) : ofList l = l :=
  ext_find (sorted_ofList l) h (find_ofList h.keys_nodup)

theorem mem_ofList {l : List (κ × ν)} (hn : (l.map Prod.fst).Nodup) (e : κ × ν) : e ∈ ofList l ↔ e ∈ l := by
  rw [show e = (e.1, e.2) from rfl, mem_iff_find (sorted_ofList l), find_ofList hn, mem_iff_find_of_nodup hn]

theorem ofList_concat (l : List (κ × ν)) (k : κ) (v : ν) : ofList (l ++ [(k, v)]) = insert k v (ofList l) := by
  rw [ofList, List.foldl_append]
  rfl

theorem mem_keys_insert (k k' : κ) (v : ν) (l : List (κ × ν)) :
    k' ∈ (insert k v l).map Prod.fst ↔ k' = k ∨ k' ∈ l.map Prod.fst := by
  have hkey : ∀ m : List (κ × ν), k' ∈ m.map Prod.fst ↔ find k' m ≠ none := fun m => by
    rw [Ne, find_eq_none_iff, not_not]
  rw [hkey, hkey, find_insert]
  split_ifs with hk
  · simp [hk]
  · simp [hk]

theorem mem_keys_ofList (l : List (κ × ν)) (k : κ) : k ∈ (ofList l).map Prod.fst ↔ k ∈ l.map Prod.fst := by
  induction l using List.reverseRecOn with
  | nil => exact Iff.rfl
  | append_singleton l e ih =>
    rw [ofList_concat, mem_keys_insert, ih, List.map_append, List.mem_append, List.map_singleton, List.mem_singleton]
    exact Or.comm

theorem find_map_value (f : ν → ρ) (l : List (κ × ν)) (k : κ) :
    find k (l.map fun e => (e.1, f e.2)) = (find k l).map f := by
  induction l with
  | nil => rfl
  | cons e l ih =>
    simp only [List.map_cons, find]
    split_ifs
    · rfl
    · exact ih

section Keyed
variable {α : Type} {f : α → κ} {l : List α}

/-- The entry of an element under its key. -/
theorem find_map_self (hn : (l.map f).Nodup) {a : α} (ha : a ∈ l) (F : α → ν) :
    find (f a) (l.map fun x => (f x, F x)) = some (F a) := by
  induction l with
  | nil => cases ha
  | cons b l ih =>
    rw [List.map_cons, List.nodup_cons] at hn
    simp only [List.map_cons, find]
    rcases List.mem_cons.mp ha with rfl | ha
    · rw [if_pos rfl]
    · rw [if_neg (fun he => hn.1 (List.mem_map.mpr ⟨a, ha, he⟩)), ih hn.2 ha]

theorem find_map_congr {F G : α → ν} {k : κ} (h : ∀ x ∈ l, f x = k → F x = G x) :
    find k (l.map fun x => (f x, F x)) = find k (l.map fun x => (f x, G x)) := by
  induction l with
  | nil => rfl
  | cons b l ih =>
    simp only [List.map_cons, find]
    rw [ih fun x hx => h x (List.mem_cons_of_mem b hx)]
    split_ifs with hk
    · rw [h b (List.mem_cons_self ..) hk.symm]
    · rfl

/-- Overwriting the entry of one element. -/
theorem insert_ofList_map [DecidableEq α] (hn : (l.map f).Nodup) {a : α} (ha : a ∈ l) (F : α → ν) (v : ν) :
    insert (f a) v (ofList (l.map fun x => (f x, F x))) =
      ofList (l.map fun x => (f x, Function.update F a v x)) := by
  have hkeys : ∀ F : α → ν, ((l.map fun x => (f x, F x)).map Prod.fst).Nodup := by
    intro F
    rw [List.map_map]
    exact hn
  refine ext_find (sorted_insert _ _ (sorted_ofList _)) (sorted_ofList _) fun k => ?_
  rw [find_insert, find_ofList (hkeys _), find_ofList (hkeys _)]
  split_ifs with hk
  · rw [hk, find_map_self hn ha, Function.update_self]
  · refine find_map_congr fun x _ hx => ?_
    rw [Function.update_of_ne (fun he => hk (by rw [← hx, he]))]

/-- Overwriting the entries of a map one by one. -/
theorem foldl_insert_map {F : α → ν} (hs : Sorted (l.map fun x => (f x, F x))) (G : α → ν) :
    l.foldl (fun m x => insert (f x) (G x) m) (l.map fun x => (f x, F x)) = l.map fun x => (f x, G x) := by
  have hsG : Sorted (l.map fun x => (f x, G x)) := by
    rw [Sorted, List.pairwise_map] at hs ⊢
    exact hs
  have hfold : l.foldl (fun m x => insert (f x) (G x) m) (l.map fun x => (f x, F x)) =
      (l.map fun x => (f x, G x)).foldl (fun m e => insert e.1 e.2 m) (l.map fun x => (f x, F x)) := by
    rw [List.foldl_map]
  refine ext_find (sorted_foldl_insert _ _ _ hs) hsG fun k => ?_
  rw [hfold, find_foldl_insert hsG.keys_nodup]
  cases hG : find k (l.map fun x => (f x, G x)) with
  | some v => rfl
  | none =>
    have hnone : k ∉ l.map f := by
      rw [find_eq_none_iff, List.map_map] at hG
      exact hG
    rw [Option.none_or, find_eq_none_iff, List.map_map]
    exact hnone

/-- The elements in the order of their keys. -/
def sortBy (f : α → κ) (l : List α) : List α := (ofList (l.map fun x => (f x, x))).map Prod.snd

theorem ofList_map_eq (hn : (l.map f).Nodup) (F : α → ν) :
    ofList (l.map fun x => (f x, F x)) = (sortBy f l).map fun x => (f x, F x) := by
  have hkeys : ((l.map fun x => (f x, x)).map Prod.fst).Nodup := by
    rw [List.map_map]
    exact hn
  have hkeysF : ((l.map fun x => (f x, F x)).map Prod.fst).Nodup := by
    rw [List.map_map]
    exact hn
  have hmap : (sortBy f l).map (fun x => (f x, F x)) = (ofList (l.map fun x => (f x, x))).map fun e => (e.1, F e.2) := by
    rw [sortBy, List.map_map]
    refine List.map_congr_left fun e he => ?_
    obtain ⟨x, -, rfl⟩ := List.mem_map.mp ((mem_ofList hkeys e).mp he)
    rfl
  have hsorted : Sorted ((sortBy f l).map fun x => (f x, F x)) := by
    rw [hmap, Sorted, List.pairwise_map]
    exact sorted_ofList _
  refine ext_find (sorted_ofList _) hsorted fun k => ?_
  rw [hmap, find_map_value, find_ofList hkeys, find_ofList hkeysF, ← find_map_value, List.map_map]
  rfl

theorem mem_sortBy (hn : (l.map f).Nodup) (x : α) : x ∈ sortBy f l ↔ x ∈ l := by
  have hkeys : ((l.map fun x => (f x, x)).map Prod.fst).Nodup := by
    rw [List.map_map]
    exact hn
  rw [sortBy, List.mem_map]
  constructor
  · rintro ⟨e, he, rfl⟩
    obtain ⟨y, hy, rfl⟩ := List.mem_map.mp ((mem_ofList hkeys e).mp he)
    exact hy
  · intro hx
    exact ⟨(f x, x), (mem_ofList hkeys _).mpr (List.mem_map.mpr ⟨x, hx, rfl⟩), rfl⟩

theorem sortBy_sorted (hn : (l.map f).Nodup) : (sortBy f l).Pairwise fun x y => f x < f y := by
  have hsorted := sorted_ofList (l.map fun x => (f x, x))
  rw [ofList_map_eq hn, Sorted, List.pairwise_map] at hsorted
  exact hsorted

end Keyed

end Ordered

/-- A sorted association list: `std::map`. -/
structure OMap (κ ν : Type) [LinearOrder κ] where
  entries : List (κ × ν)
  sorted : Ordered.Sorted entries

namespace OMap
variable {κ ν : Type} [LinearOrder κ]

instance [DecidableEq ν] : DecidableEq (OMap κ ν) := fun a b =>
  decidable_of_iff (a.entries = b.entries) (by cases a; cases b; simp)

theorem ext_entries {a b : OMap κ ν} (h : a.entries = b.entries) : a = b := by
  cases a; cases b; cases h; rfl

def empty : OMap κ ν := ⟨[], Ordered.sorted_nil⟩

def insert (k : κ) (v : ν) (m : OMap κ ν) : OMap κ ν :=
  ⟨Ordered.insert k v m.entries, Ordered.sorted_insert k v m.sorted⟩

def find (k : κ) (m : OMap κ ν) : Option ν := Ordered.find k m.entries

/-- Rewrite every value in place, as a loop over references to the mapped values does. -/
def mapValues (f : κ → ν → ν) (m : OMap κ ν) : OMap κ ν :=
  ⟨m.entries.map fun e => (e.1, f e.1 e.2), by
    have h := m.sorted
    rw [Ordered.Sorted, List.pairwise_map]
    exact h⟩

/-- The map with other values under the same keys. -/
def map {ρ : Type} (f : κ → ν → ρ) (m : OMap κ ν) : OMap κ ρ :=
  ⟨m.entries.map fun e => (e.1, f e.1 e.2), by
    have h := m.sorted
    rw [Ordered.Sorted, List.pairwise_map]
    exact h⟩

theorem find_insert (k k' : κ) (v : ν) (m : OMap κ ν) : (m.insert k' v).find k = if k = k' then some v else m.find k :=
  Ordered.find_insert k k' v m.entries

theorem find_mapValues (f : κ → ν → ν) (k : κ) (m : OMap κ ν) : (m.mapValues f).find k = (m.find k).map (f k) :=
  Ordered.find_map_entry f m.entries k

@[simp] theorem find_empty (k : κ) : (empty : OMap κ ν).find k = none := rfl

theorem mem_entries {m : OMap κ ν} {k : κ} {v : ν} : (k, v) ∈ m.entries ↔ m.find k = some v := Ordered.mem_iff_find m.sorted

theorem find_foldl_insert_const (l : List κ) (v : ν) (m : OMap κ ν) (k : κ) :
    (l.foldl (fun m e => m.insert e v) m).find k = if k ∈ l then some v else m.find k := by
  induction l generalizing m with
  | nil => rw [List.foldl_nil, if_neg List.not_mem_nil]
  | cons e l ih =>
    rw [List.foldl_cons, ih, find_insert]
    by_cases hl : k ∈ l
    · rw [if_pos hl, if_pos (List.mem_cons_of_mem e hl)]
    · simp only [List.mem_cons, hl, or_false]
      rfl

/-- `emplace`: an entry that is there stays. -/
def emplace (k : κ) (v : ν) (m : OMap κ ν) : OMap κ ν := if (m.find k).isSome then m else m.insert k v

theorem find_emplace (k k' : κ) (v : ν) (m : OMap κ ν) :
    (m.emplace k' v).find k = (m.find k).or (if k = k' then some v else none) := by
  unfold emplace
  cases h : m.find k' with
  | some w =>
    rw [Option.isSome_some, if_pos rfl]
    split_ifs with hk
    · rw [hk, h]
      rfl
    · exact Option.or_none.symm
  | none =>
    rw [Option.isSome_none, if_neg Bool.false_ne_true, find_insert]
    split_ifs with hk
    · rw [hk, h]
      rfl
    · exact Option.or_none.symm

theorem find_foldl_emplace {α : Type} (f : α → κ) (g : α → ν) (l : List α) (m : OMap κ ν) (k : κ) :
    (l.foldl (fun m e => m.emplace (f e) (g e)) m).find k = (m.find k).or (Ordered.find k (l.map fun e => (f e, g e))) := by
  induction l generalizing m with
  | nil => exact Option.or_none.symm
  | cons e l ih =>
    rw [List.foldl_cons, ih, find_emplace, Option.or_assoc, List.map_cons, Ordered.find]
    split_ifs with hk
    · rfl
    · rw [Option.none_or]

/-- The entries of `m'` are added to those of `m`. -/
def union (m m' : OMap κ ν) : OMap κ ν := m'.entries.foldl (fun m e => m.emplace e.1 e.2) m

theorem find_union (m m' : OMap κ ν) (k : κ) : (m.union m').find k = (m.find k).or (m'.find k) := by
  have h := find_foldl_emplace Prod.fst Prod.snd m'.entries m k
  rw [List.map_id'] at h
  exact h

/-- Inserting the entries of a map one by one gives the map. -/
theorem foldl_insert_entries (m : OMap κ ν) : m.entries.foldl (fun m e => m.insert e.1 e.2) empty = m := by
  have key : ∀ (l : List (κ × ν)) (a : OMap κ ν),
      (l.foldl (fun m e => m.insert e.1 e.2) a).entries = l.foldl (fun m e => Ordered.insert e.1 e.2 m) a.entries := by
    intro l
    induction l with
    | nil => exact fun a => rfl
    | cons e l ih => exact fun a => ih (a.insert e.1 e.2)
  refine ext_entries ?_
  rw [key]
  exact Ordered.ofList_of_sorted m.sorted

theorem find_foldl_insert {ρ : Type} (F : κ → ν → ρ) {l : List (κ × ν)} (hn : (l.map Prod.fst).Nodup) (m : OMap κ ρ) (k : κ) :
    (l.foldl (fun m e => m.insert e.1 (F e.1 e.2)) m).find k = ((Ordered.find k l).map (F k)).or (m.find k) := by
  induction l generalizing m with
  | nil => rfl
  | cons e l ih =>
    rw [List.map_cons, List.nodup_cons] at hn
    rw [List.foldl_cons, ih hn.2, find_insert, Ordered.find]
    split_ifs with hk
    · rw [hk, Ordered.find_eq_none_iff.mpr hn.1]
      rfl
    · rfl

/-- A loop that updates the entry of each key from what is there. -/
theorem find_foldl_update {ρ : Type} (g : κ → Option ρ → ν → ρ) {l : List (κ × ν)} (hn : (l.map Prod.fst).Nodup) (m : OMap κ ρ)
    (k : κ) : (l.foldl (fun m e => m.insert e.1 (g e.1 (m.find e.1) e.2)) m).find k =
      ((Ordered.find k l).map (g k (m.find k))).or (m.find k) := by
  induction l generalizing m with
  | nil => rfl
  | cons e l ih =>
    rw [List.map_cons, List.nodup_cons] at hn
    rw [List.foldl_cons, ih hn.2, find_insert, Ordered.find]
    split_ifs with hk
    · rw [hk, Ordered.find_eq_none_iff.mpr hn.1]
      rfl
    · rfl

theorem ext_find {a b : OMap κ ν} (h : ∀ k, a.find k = b.find k) : a = b :=
  ext_entries (Ordered.ext_find a.sorted b.sorted h)

/-- An entry that is there is combined with the new value. -/
def insertWith (f : ν → ν → ν) (k : κ) (v : ν) (m : OMap κ ν) : OMap κ ν :=
  m.insert k (match m.find k with
    | some old => f old v
    | none => v)

theorem find_insertWith (f : ν → ν → ν) (k k' : κ) (v : ν) (m : OMap κ ν) :
    (m.insertWith f k' v).find k = if k = k' then Option.merge f (m.find k) (some v) else m.find k := by
  rw [insertWith, find_insert]
  split_ifs with hk
  · rw [hk]
    cases m.find k' <;> rfl
  · rfl

/-- The entries of `m'` are combined with those of `m`. -/
def unionWith (f : ν → ν → ν) (m m' : OMap κ ν) : OMap κ ν := m'.entries.foldl (fun m e => m.insertWith f e.1 e.2) m

theorem find_unionWith (f : ν → ν → ν) (m m' : OMap κ ν) (k : κ) :
    (m.unionWith f m').find k = Option.merge f (m.find k) (m'.find k) := by
  have key : ∀ (l : List (κ × ν)), (l.map Prod.fst).Nodup → ∀ m : OMap κ ν,
      (l.foldl (fun m e => m.insertWith f e.1 e.2) m).find k = Option.merge f (m.find k) (Ordered.find k l) := by
    intro l
    induction l with
    | nil => exact fun _ m => Option.merge_none_right.symm
    | cons e l ih =>
      intro hn m
      rw [List.map_cons, List.nodup_cons] at hn
      rw [List.foldl_cons, ih hn.2, find_insertWith, Ordered.find]
      split_ifs with hk
      · rw [hk, Ordered.find_eq_none_iff.mpr hn.1, Option.merge_none_right]
      · rfl
  exact key m'.entries m'.sorted.keys_nodup m

end OMap
end MetaCG.Foundations
