import MetaCG.AliasAnalysis.MergeRecurisve

/-! Whether a class lists a prefix twice after `merge`.

The list that is stored never had its duplicates removed, so a prefix of both classes is listed twice unless the first
class has another prefix under the same member, which makes `GetPrefixesToMerge` drop the second one. -/
namespace MetaCG.AliasAnalysis
open Foundations
set_option autoImplicit false
set_option maxHeartbeats 250000
set_option maxRecDepth 120000

/-- A prefix of both classes meets another prefix in the first class that stands for it. -/
def Separated (c1 c2 : EquivClass) : Prop :=
  ∀ p ∈ c2.prefixes, p ∈ c1.prefixes → ∃ q ∈ c1.prefixes, q.member = p.member ∧ q.object ≠ p.object

theorem prefixes_prefixToMerge (state : EquivClass × List (String × String)) (p : Prefix) :
    state.1.prefixes <+: (prefixToMerge state p).1.prefixes := by
  unfold prefixToMerge
  cases state.1.prefixes.find? (mergesWith p) with
  | some q => exact List.prefix_refl _
  | none => exact List.prefix_append ..

theorem prefixes_getPrefixesToMerge (ps : List Prefix) (c : EquivClass) (otm : List (String × String)) :
    c.prefixes <+: (getPrefixesToMerge c ps otm).1.prefixes := by
  unfold getPrefixesToMerge
  induction ps generalizing c otm with
  | nil => exact List.prefix_refl _
  | cons p ps ih => exact (prefixes_prefixToMerge (c, otm) p).trans (ih _ _)

/-- The list is free of duplicates if and only if each prefix found again is dropped. -/
theorem nodup_getPrefixesToMerge (ps : List Prefix) (c : EquivClass) (otm : List (String × String)) (hc : c.prefixes.Nodup)
    (hps : ps.Nodup) : (getPrefixesToMerge c ps otm).1.prefixes.Nodup ↔
      ∀ p ∈ ps, p ∈ c.prefixes → ∃ q ∈ c.prefixes, q.member = p.member ∧ q.object ≠ p.object := by
  induction ps generalizing c otm with
  | nil => exact iff_of_true hc fun p hp => absurd hp List.not_mem_nil
  | cons p ps ih =>
    obtain ⟨hp, hps⟩ := List.nodup_cons.mp hps
    have hstep : getPrefixesToMerge c (p :: ps) otm =
        getPrefixesToMerge (prefixToMerge (c, otm) p).1 ps (prefixToMerge (c, otm) p).2 := rfl
    rw [List.forall_mem_cons, hstep]
    unfold prefixToMerge
    cases hfind : c.prefixes.find? (mergesWith p) with
    | some q =>
      have hq := (mergesWith_iff p q).mp (List.find?_some hfind)
      have hdropped : p ∈ c.prefixes → ∃ q ∈ c.prefixes, q.member = p.member ∧ q.object ≠ p.object :=
        fun _ => ⟨q, List.mem_of_find?_eq_some hfind, hq.2.symm, Ne.symm hq.1⟩
      rw [and_iff_right hdropped]
      exact ih c _ hc hps
    | none =>
      have hnone : ∀ q ∈ c.prefixes, q.member = p.member → q.object = p.object := by
        intro q hq hmember
        by_contra hne
        exact List.find?_eq_none.mp hfind q hq ((mergesWith_iff p q).mpr ⟨Ne.symm hne, hmember.symm⟩)
      by_cases hpc : p ∈ c.prefixes
      · -- the same prefix stands in the list twice, and nothing removes it
        refine iff_of_false (fun hnodup => ?_) fun hall => ?_
        · have hpre := prefixes_getPrefixesToMerge ps { c with prefixes := c.prefixes ++ [p] } otm
          have htwice := (List.nodup_append.mp (hnodup.sublist hpre.sublist)).2.2
          exact htwice p hpc p (List.mem_singleton_self p) rfl
        · obtain ⟨q, hq, hmember, hne⟩ := hall.1 hpc
          exact hne (hnone q hq hmember)
      · have hc' : (c.prefixes ++ [p]).Nodup := by
          refine List.nodup_append.mpr ⟨hc, List.nodup_singleton p, fun a ha b hb => ?_⟩
          rw [List.mem_singleton.mp hb]
          rintro rfl
          exact hpc ha
        rw [and_iff_right fun hin => absurd hin hpc]
        refine (ih { c with prefixes := c.prefixes ++ [p] } otm hc' hps).trans ?_
        refine forall₂_congr fun p' hp' => ?_
        have hne : p' ≠ p := fun he => hp (he ▸ hp')
        simp only [List.mem_append, List.mem_singleton, hne, or_false]
        refine forall_congr' fun hp'c => ⟨?_, fun ⟨q, hq, hmatch⟩ => ⟨q, .inl hq, hmatch⟩⟩
        rintro ⟨q, hq | rfl, hmember, hobject⟩
        · exact ⟨q, hq, hmember, hobject⟩
        · exact absurd (hnone p' hp'c hmember.symm).symm hobject

namespace EquivClassContainer
variable {data data' : EquivClassContainer} {e1 e2 : EquivClassesIterator} {c1 c2 : EquivClass}

/-- No class lists a prefix twice. -/
def DuplicateFree (data : EquivClassContainer) : Prop := ∀ it c, data.equivClasses.get it = some c → c.prefixes.Nodup

instance : Decidable (DuplicateFree data) :=
  decidable_of_iff (∀ e ∈ data.equivClasses.cells, e.2.prefixes.Nodup)
    ⟨fun h it c hc => h (it, c) (StableList.mem_cells.mpr hc), fun h e he => h e.1 e.2 (StableList.mem_cells.mp he)⟩

/-- What a merge that returns has done. -/
structure Merged (data : EquivClassContainer) (e1 e2 : EquivClassesIterator) (c1 c2 : EquivClass) (result : MergeResult)
    (data' : EquivClassContainer) : Prop where
  get1 : data.equivClasses.get e1 = some c1
  get2 : data.equivClasses.get e2 = some c2
  front : result.iter ∈ c1.objects
  replaced : data' = replaceClasses data e1 e2 c1 c2 (getPrefixesToMerge ⟨c1.objects ++ c2.objects, c1.prefixes⟩ c2.prefixes []).1

theorem merged_of_merge {result : MergeResult} (h : merge data e1 e2 = .ok (result, data')) :
    ∃ c1 c2, Merged data e1 e2 c1 c2 result data' := by
  unfold merge deref at h
  split_ifs at h with hne
  cases h1 : data.equivClasses.get e1 with
  | none => rw [h1] at h; cases h
  | some c1 =>
    cases h2 : data.equivClasses.get e2 with
    | none => rw [h1, h2] at h; cases h
    | some c2 =>
      rw [h1, h2] at h
      simp only [ok_bind] at h
      cases ho1 : c1.objects with
      | nil => simp [ho1] at h
      | cons front rest =>
        cases ho2 : c2.objects with
        | nil => simp [ho1, ho2] at h
        | cons _ _ =>
          simp only [ho1, ho2] at h
          cases h
          refine ⟨c1, c2, h1, h2, ?_, ?_⟩
          · rw [ho1]
            exact List.mem_cons_self ..
          · rw [ho1, ho2]

namespace Merged
variable {result : MergeResult}

/-- The class that `findMap` points to after the merge. -/
theorem stored (h : Merged data e1 e2 c1 c2 result data') :
    ∃ it, data'.findMap.find result.iter = some it ∧ data'.equivClasses.get it =
      some (getPrefixesToMerge ⟨c1.objects ++ c2.objects, c1.prefixes⟩ c2.prefixes []).1 := by
  refine ⟨data.equivClasses.next, ?_, ?_⟩
  · rw [h.replaced, replaceClasses, OMap.find_foldl_insert_const, if_pos (List.mem_append_left _ h.front)]
  · rw [h.replaced, get_replaceClasses h.get1 h.get2, if_pos rfl]

theorem get_other (h : Merged data e1 e2 c1 c2 result data') {it : EquivClassesIterator} {c : EquivClass}
    (hc : data'.equivClasses.get it = some c) :
    c = (getPrefixesToMerge ⟨c1.objects ++ c2.objects, c1.prefixes⟩ c2.prefixes []).1 ∨ data.equivClasses.get it = some c := by
  rw [h.replaced, get_replaceClasses h.get1 h.get2] at hc
  split_ifs at hc with hnext hold
  · exact .inl (Option.some.inj hc).symm
  · exact .inr hc

theorem nodup_iff (h : Merged data e1 e2 c1 c2 result data') (hdup : DuplicateFree data) :
    (getPrefixesToMerge ⟨c1.objects ++ c2.objects, c1.prefixes⟩ c2.prefixes []).1.prefixes.Nodup ↔ Separated c1 c2 :=
  nodup_getPrefixesToMerge c2.prefixes ⟨c1.objects ++ c2.objects, c1.prefixes⟩ [] (hdup e1 c1 h.get1) (hdup e2 c2 h.get2)

theorem duplicateFree_iff (h : Merged data e1 e2 c1 c2 result data') (hdup : DuplicateFree data) :
    DuplicateFree data' ↔ Separated c1 c2 := by
  rw [← h.nodup_iff hdup]
  constructor
  · intro hfree
    obtain ⟨it, -, hget⟩ := h.stored
    exact hfree it _ hget
  · intro hnodup it c hc
    rcases h.get_other hc with rfl | hc
    · exact hnodup
    · exact hdup it c hc

end Merged

/-! ## Sequences of merges -/

/-- The merges of a list of pairs of classes. -/
def mergeAll (data : EquivClassContainer) (merges : List (EquivClassesIterator × EquivClassesIterator)) :
    Except Fault EquivClassContainer :=
  merges.foldlM (fun data e => do return (← merge data e.1 e.2).2) data

variable {pre rest merges : List (EquivClassesIterator × EquivClassesIterator)} {e : EquivClassesIterator × EquivClassesIterator}

theorem mergeAll_append (pre rest : List (EquivClassesIterator × EquivClassesIterator)) :
    mergeAll data (pre ++ rest) = (mergeAll data pre >>= fun data => mergeAll data rest) := List.foldlM_append ..

theorem mergeAll_snoc (h : mergeAll data (pre ++ [e]) = .ok data') :
    ∃ d result, mergeAll data pre = .ok d ∧ merge d e.1 e.2 = .ok (result, data') := by
  rw [mergeAll_append] at h
  obtain ⟨d, hd, hlast⟩ := bind_eq_ok.mp h
  unfold mergeAll at hlast
  rw [List.foldlM_cons] at hlast
  obtain ⟨d', hd', hnil⟩ := bind_eq_ok.mp hlast
  obtain ⟨⟨result, d''⟩, hmerge, hret⟩ := bind_eq_ok.mp hd'
  cases hnil
  cases hret
  exact ⟨d, result, hd, hmerge⟩

theorem mergeAll_prefix (hpre : pre <+: merges) (h : mergeAll data merges = .ok data') : ∃ d, mergeAll data pre = .ok d := by
  obtain ⟨rest, rfl⟩ := hpre
  rw [mergeAll_append] at h
  obtain ⟨d, hd, -⟩ := bind_eq_ok.mp h
  exact ⟨d, hd⟩

/-- The class that a merge stores lists no prefix twice if and only if the prefixes of both classes meet others in the
first class, and the states of a run are free of duplicates if and only if all its merges are so. -/
theorem merge_duplicateFree_iff (hdup : DuplicateFree data) :
    (∀ e1 e2 c1 c2 result data', merge data e1 e2 = .ok (result, data') → data.equivClasses.get e1 = some c1 →
      data.equivClasses.get e2 = some c2 →
      ((∃ it c, data'.findMap.find result.iter = some it ∧ data'.equivClasses.get it = some c ∧ c.prefixes.Nodup) ↔
        Separated c1 c2)) ∧
    ∀ merges data', mergeAll data merges = .ok data' →
      ((∀ pre d, pre <+: merges → mergeAll data pre = .ok d → DuplicateFree d) ↔
        ∀ pre e d c1 c2, pre ++ [e] <+: merges → mergeAll data pre = .ok d → d.equivClasses.get e.1 = some c1 →
          d.equivClasses.get e.2 = some c2 → Separated c1 c2) := by
  refine ⟨fun e1 e2 c1 c2 result data' hmerge h1 h2 => ?_, fun merges data' hrun => ⟨fun hfree => ?_, fun hsep => ?_⟩⟩
  · obtain ⟨c1', c2', hm⟩ := merged_of_merge hmerge
    cases h1.symm.trans hm.get1
    cases h2.symm.trans hm.get2
    obtain ⟨it, hfind, hget⟩ := hm.stored
    rw [← hm.nodup_iff hdup]
    refine ⟨fun ⟨it', c, hfind', hget', hnodup⟩ => ?_, fun hnodup => ⟨it, _, hfind, hget, hnodup⟩⟩
    cases hfind.symm.trans hfind'
    cases hget.symm.trans hget'
    exact hnodup
  · intro pre e d c1 c2 hpre hd h1 h2
    obtain ⟨d', hd'⟩ := mergeAll_prefix hpre hrun
    obtain ⟨d₁, result, hd₁, hmerge⟩ := mergeAll_snoc hd'
    cases hd.symm.trans hd₁
    obtain ⟨c1', c2', hm⟩ := merged_of_merge hmerge
    cases h1.symm.trans hm.get1
    cases h2.symm.trans hm.get2
    exact (hm.duplicateFree_iff (hfree pre d ((List.prefix_append pre [e]).trans hpre) hd)).mp (hfree _ d' hpre hd')
  · intro pre d hpre hd
    induction pre using List.reverseRecOn generalizing d with
    | nil =>
      cases hd
      exact hdup
    | append_singleton pre e ih =>
      obtain ⟨d₁, result, hd₁, hmerge⟩ := mergeAll_snoc hd
      obtain ⟨c1, c2, hm⟩ := merged_of_merge hmerge
      have hfree := ih d₁ ((List.prefix_append pre [e]).trans hpre) hd₁
      exact (hm.duplicateFree_iff hfree).mpr (hsep pre e d₁ c1 c2 hpre hd₁ hm.get1 hm.get2)

/-- Two pointers to one object. -/
def twoAliases : EquivClassContainer :=
  { empty with
    equivClasses := ((StableList.empty.emplace_front ⟨["a"], []⟩).emplace_front ⟨["p"], [⟨"a", ""⟩]⟩).emplace_front
      ⟨["q"], [⟨"a", ""⟩]⟩
    findMap := ((OMap.empty.insert "a" 0).insert "p" 1).insert "q" 2 }

theorem merge_duplicateFree_iff_twoPointers :
    (∀ e1 e2 c1 c2 result data', merge twoPointers e1 e2 = .ok (result, data') → twoPointers.equivClasses.get e1 = some c1 →
      twoPointers.equivClasses.get e2 = some c2 →
      ((∃ it c, data'.findMap.find result.iter = some it ∧ data'.equivClasses.get it = some c ∧ c.prefixes.Nodup) ↔
        Separated c1 c2)) ∧
    ∀ merges data', mergeAll twoPointers merges = .ok data' →
      ((∀ pre d, pre <+: merges → mergeAll twoPointers pre = .ok d → DuplicateFree d) ↔
        ∀ pre e d c1 c2, pre ++ [e] <+: merges → mergeAll twoPointers pre = .ok d → d.equivClasses.get e.1 = some c1 →
          d.equivClasses.get e.2 = some c2 → Separated c1 c2) :=
  merge_duplicateFree_iff (by decide)

/-- The merge of the two pointers lists their common object twice. -/
theorem merge_lists_twice : ∃ result data' it c, WellFormed twoAliases ∧ DuplicateFree twoAliases ∧
    merge twoAliases 1 2 = .ok (result, data') ∧ data'.findMap.find result.iter = some it ∧
    data'.equivClasses.get it = some c ∧ ¬c.prefixes.Nodup :=
  ⟨_, _, 3, ⟨["p", "q"], [⟨"a", ""⟩, ⟨"a", ""⟩]⟩, by decide, by decide, rfl, by decide, by decide, by decide⟩

end EquivClassContainer
end MetaCG.AliasAnalysis
