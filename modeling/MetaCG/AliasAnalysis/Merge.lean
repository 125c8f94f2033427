import MetaCG.AliasAnalysis.Classes
import MetaCG.Foundations.Outcome

/-! `merge` unites two classes and leaves the equations behind that its dropped prefixes stand for. -/
namespace MetaCG.AliasAnalysis
open Foundations Congruence
set_option autoImplicit false
set_option maxHeartbeats 250000
set_option maxRecDepth 120000

/-! ## The prefixes of the united class -/

theorem mergesWith_iff (p q : Prefix) : mergesWith p q = true ↔ p.object ≠ q.object ∧ p.member = q.member := by
  unfold mergesWith
  rw [Bool.and_eq_true, decide_eq_true_iff]
  refine and_congr_right fun _ => ?_
  simp only [Bool.or_eq_true, Bool.and_eq_true, Bool.not_eq_true', String.isEmpty_iff, decide_eq_true_iff, Bool.eq_false_iff,
    Ne]
  constructor
  · rintro (⟨hp, hq⟩ | ⟨-, h⟩)
    · rw [hp, hq]
    · exact h
  · intro h
    by_cases hp : p.member = ""
    · exact .inl ⟨hp, h ▸ hp⟩
    · exact .inr ⟨⟨hp, h ▸ hp⟩, h⟩

/-- The class `c'` has the prefixes of `c` and those of `ps`, except for the ones that an equation of
`otm'` stands for. -/
structure PrefixesMerged (c c' : EquivClass) (ps : List Prefix) (otm otm' : List (String × String)) : Prop where
  objects : c'.objects = c.objects
  kept : ∀ {p}, p ∈ c.prefixes → p ∈ c'.prefixes
  origin : ∀ {p}, p ∈ c'.prefixes → p ∈ c.prefixes ∨ (p ∈ ps ∧ ∀ q ∈ c.prefixes, q.member = p.member → q.object = p.object)
  covered : ∀ {p}, p ∈ ps → p ∈ c'.prefixes ∨ ∃ q ∈ c'.prefixes, q.member = p.member ∧ (p.object, q.object) ∈ otm'
  earlier : ∀ {e}, e ∈ otm → e ∈ otm'
  equations : ∀ {e}, e ∈ otm' → e ∈ otm ∨ ∃ p ∈ ps, ∃ q ∈ c'.prefixes, q.member = p.member ∧ e = (p.object, q.object)

namespace PrefixesMerged
variable {c c' c'' : EquivClass} {p : Prefix} {ps : List Prefix} {otm otm' otm'' : List (String × String)}

theorem nil : PrefixesMerged c c [] otm otm :=
  ⟨rfl, id, .inl, fun h => absurd h List.not_mem_nil, id, .inl⟩

theorem step (c : EquivClass) (p : Prefix) (otm : List (String × String)) :
    PrefixesMerged c (prefixToMerge (c, otm) p).1 [p] otm (prefixToMerge (c, otm) p).2 := by
  unfold prefixToMerge
  cases hfind : c.prefixes.find? (mergesWith p) with
  | some q =>
    have hq : q ∈ c.prefixes := List.mem_of_find?_eq_some hfind
    have hmember : p.member = q.member := ((mergesWith_iff p q).mp (List.find?_some hfind)).2
    refine ⟨rfl, id, .inl, ?_, List.mem_append_left _, ?_⟩
    · intro p' hp'
      rw [List.mem_singleton.mp hp']
      exact .inr ⟨q, hq, hmember.symm, List.mem_append_right _ (List.mem_singleton_self _)⟩
    · intro e he
      rcases List.mem_append.mp he with he | he
      · exact .inl he
      · exact .inr ⟨p, List.mem_singleton_self p, q, hq, hmember.symm, List.mem_singleton.mp he⟩
  | none =>
    refine ⟨rfl, List.mem_append_left _, ?_, ?_, id, .inl⟩
    · intro p' hp'
      rcases List.mem_append.mp hp' with hp' | hp'
      · exact .inl hp'
      · refine .inr ⟨hp', fun q hq hmember => ?_⟩
        rw [List.mem_singleton.mp hp'] at hmember ⊢
        have hno : ¬mergesWith p q = true := List.find?_eq_none.mp hfind q hq
        by_contra hne
        exact hno ((mergesWith_iff p q).mpr ⟨Ne.symm hne, hmember.symm⟩)
    · intro p' hp'
      exact .inl (List.mem_append_right _ hp')

theorem cons (h : PrefixesMerged c c' [p] otm otm') (h' : PrefixesMerged c' c'' ps otm' otm'') :
    PrefixesMerged c c'' (p :: ps) otm otm'' where
  objects := h'.objects.trans h.objects
  kept hp := h'.kept (h.kept hp)
  origin := by
    intro q hq
    rcases h'.origin hq with hq | ⟨hq, hsame⟩
    · exact (h.origin hq).imp_right fun ho => ⟨List.mem_cons.mpr (.inl (List.mem_singleton.mp ho.1)), ho.2⟩
    · exact .inr ⟨List.mem_cons_of_mem p hq, fun q' hq' => hsame q' (h.kept hq')⟩
  covered := by
    intro q hq
    rcases List.mem_cons.mp hq with rfl | hq
    · rcases h.covered (List.mem_singleton_self q) with hq | ⟨q', hq', hmember, he⟩
      · exact .inl (h'.kept hq)
      · exact .inr ⟨q', h'.kept hq', hmember, h'.earlier he⟩
    · exact h'.covered hq
  earlier he := h'.earlier (h.earlier he)
  equations := by
    intro e he
    rcases h'.equations he with he | ⟨p', hp', q, hq, heq⟩
    · refine (h.equations he).imp_right ?_
      rintro ⟨p', hp', q, hq, heq⟩
      exact ⟨p', List.mem_cons.mpr (.inl (List.mem_singleton.mp hp')), q, h'.kept hq, heq⟩
    · exact .inr ⟨p', List.mem_cons_of_mem p hp', q, hq, heq⟩

/-- Prefixes under one member stay equal up to a relation that has the equations between the two lists. -/
theorem agree (h : PrefixesMerged c c' ps otm otm') {e : String → String → Prop} (hrefl : ∀ x, e x x)
    (hc : ∀ p ∈ c.prefixes, ∀ q ∈ c.prefixes, p.member = q.member → e p.object q.object)
    (hps : ∀ p ∈ ps, ∀ q ∈ ps, p.member = q.member → e p.object q.object) :
    ∀ p ∈ c'.prefixes, ∀ q ∈ c'.prefixes, p.member = q.member → e p.object q.object := by
  intro p hp q hq hmember
  rcases h.origin hp with hp | ⟨hp, hpc⟩
  · rcases h.origin hq with hq | ⟨-, hqc⟩
    · exact hc p hp q hq hmember
    · rw [hqc p hp hmember]
      exact hrefl _
  · rcases h.origin hq with hq | ⟨hq, -⟩
    · rw [hpc q hq hmember.symm]
      exact hrefl _
    · exact hps p hp q hq hmember

end PrefixesMerged

theorem getPrefixesToMerge_spec (ps : List Prefix) (c : EquivClass) (otm : List (String × String)) :
    PrefixesMerged c (getPrefixesToMerge c ps otm).1 ps otm (getPrefixesToMerge c ps otm).2 := by
  unfold getPrefixesToMerge
  induction ps generalizing c otm with
  | nil => exact .nil
  | cons p ps ih => exact (PrefixesMerged.step c p otm).cons (ih _ _)

/-! ## Two classes become one -/

namespace EquivClassContainer
variable {data : EquivClassContainer} {K : String → Prop} {e1 e2 : EquivClassesIterator} {c1 c2 c : EquivClass}

theorem get_replaceClasses (h1 : data.equivClasses.get e1 = some c1) (h2 : data.equivClasses.get e2 = some c2)
    (i : EquivClassesIterator) : (replaceClasses data e1 e2 c1 c2 c).equivClasses.get i =
      if i = data.equivClasses.next then some c else if i = e1 ∨ i = e2 then none else data.equivClasses.get i := by
  unfold replaceClasses
  rw [StableList.get_erase, StableList.get_erase, StableList.get_insert_end]
  by_cases hi : i = data.equivClasses.next
  · have hi1 : i ≠ e1 := hi ▸ (StableList.get_lt h1).ne'
    have hi2 : i ≠ e2 := hi ▸ (StableList.get_lt h2).ne'
    rw [if_neg hi2, if_neg hi1, if_pos hi, if_pos hi]
  · rw [if_neg hi, if_neg hi]
    split_ifs with hi2 hor hi1 hor hor
    · rfl
    · exact absurd (.inr hi2) hor
    · rfl
    · exact absurd (.inl hi1) hor
    · exact absurd (hor.resolve_left hi1) hi2
    · rfl

theorem size_replaceClasses (h1 : data.equivClasses.get e1 = some c1) (h2 : data.equivClasses.get e2 = some c2) (hne : e1 ≠ e2) :
    (replaceClasses data e1 e2 c1 c2 c).equivClasses.size + 1 = data.equivClasses.size := by
  have hget1 : (data.equivClasses.insert_end c).get e1 = some c1 := by
    rw [StableList.get_insert_end, if_neg (StableList.get_lt h1).ne, h1]
  have hget2 : ((data.equivClasses.insert_end c).erase e1).get e2 = some c2 := by
    rw [StableList.get_erase, if_neg (Ne.symm hne), StableList.get_insert_end, if_neg (StableList.get_lt h2).ne, h2]
  have hs1 := StableList.size_erase hget1
  have hs2 := StableList.size_erase hget2
  have hs := StableList.size_insert_end data.equivClasses c
  change (((data.equivClasses.insert_end c).erase e1).erase e2).size + 1 = _
  omega

theorem setsClass_replaceClasses (h : Partition K data) (h1 : data.equivClasses.get e1 = some c1)
    (h2 : data.equivClasses.get e2 = some c2) (hobjects : c.objects = c1.objects ++ c2.objects) :
    SetsClass data (replaceClasses data e1 e2 c1 c2 c) data.equivClasses.next c where
  find := by
    intro x
    rw [hobjects]
    exact OMap.find_foldl_insert_const _ _ _ x
  get := by rw [get_replaceClasses h1 h2, if_pos rfl]
  kept := by
    intro x i hx hi
    obtain ⟨c', hc', hxc'⟩ := h.find.mp hi
    have hnext : i ≠ data.equivClasses.next := (StableList.get_lt hc').ne
    have hi1 : i ≠ e1 := by
      rintro rfl
      cases h1.symm.trans hc'
      exact hx (hobjects ▸ List.mem_append_left _ hxc')
    have hi2 : i ≠ e2 := by
      rintro rfl
      cases h2.symm.trans hc'
      exact hx (hobjects ▸ List.mem_append_right _ hxc')
    refine ⟨hnext, ?_⟩
    rw [get_replaceClasses h1 h2, if_neg hnext, if_neg (not_or.mpr ⟨hi1, hi2⟩)]
  other := by
    intro i c' hi hc'
    rw [get_replaceClasses h1 h2, if_neg hi] at hc'
    split_ifs at hc' with hor
    rw [not_or] at hor
    refine ⟨hc', fun x hx hxc => ?_⟩
    rw [hobjects] at hxc
    rcases List.mem_append.mp hxc with hx1 | hx2
    · exact hor.1 (h.disjoint hc' h1 hx hx1)
    · exact hor.2 (h.disjoint hc' h2 hx hx2)
  whole := by
    rintro x y ⟨i, hx, hy⟩ hmem
    rw [hobjects] at hmem ⊢
    obtain ⟨c', hc', hyc'⟩ := h.find.mp hy
    rcases List.mem_append.mp hmem with hx1 | hx2
    · cases hx.symm.trans (h.find.mpr ⟨c1, h1, hx1⟩)
      cases h1.symm.trans hc'
      exact List.mem_append_left _ hyc'
    · cases hx.symm.trans (h.find.mpr ⟨c2, h2, hx2⟩)
      cases h2.symm.trans hc'
      exact List.mem_append_right _ hyc'


/-- `data'` has the classes of `x1` and `x2` united. -/
structure Unites (K : String → Prop) (data : EquivClassContainer) (x1 x2 : String) (result : MergeResult)
    (data' : EquivClassContainer) : Prop where
  partition : Partition K data'
  size : data'.equivClasses.size + 1 = data.equivClasses.size
  frame : Frame data data'
  front : data'.Rel result.iter x1
  united : data'.Rel x1 x2
  rel : ∀ {x y}, data'.Rel x y → data.Rel x y ∨ (data'.Rel result.iter x ∧ data'.Rel result.iter y)
  known : ∀ e ∈ result.objectsToMerge, K e.1 ∧ K e.2
  reduces : Reduces [(x1, x2)] result.objectsToMerge data.table data'.table

section
variable {x1 x2 : String} {otm : List (String × String)}

/-- The dropped prefixes are paid for by the equations that `getPrefixesToMerge` returns. -/
theorem reduces_replaceClasses (h : Partition K data) (h1 : data.equivClasses.get e1 = some c1)
    (h2 : data.equivClasses.get e2 = some c2) (hx1 : x1 ∈ c1.objects) (hx2 : x2 ∈ c2.objects)
    (hp : PrefixesMerged ⟨c1.objects ++ c2.objects, c1.prefixes⟩ c c2.prefixes [] otm) :
    Reduces [(x1, x2)] otm data.table (replaceClasses data e1 e2 c1 c2 c).table := by
  have s := setsClass_replaceClasses h h1 h2 hp.objects
  have hin1 : ∀ {x}, x ∈ c1.objects → x ∈ c.objects := fun hx => hp.objects ▸ List.mem_append_left _ hx
  have hin2 : ∀ {x}, x ∈ c2.objects → x ∈ c.objects := fun hx => hp.objects ▸ List.mem_append_right _ hx
  have hcases : ∀ {x}, x ∈ c.objects → x ∈ c1.objects ∨ x ∈ c2.objects := by
    intro x hx
    rw [hp.objects] at hx
    exact List.mem_append.mp hx
  constructor
  · intro base pre pending hh
    have hpending : ∀ x y, (x, y) ∈ [(x1, x2)] ∨ pending x y →
        Joined (replaceClasses data e1 e2 c1 c2 c).table (fun x y => (x, y) ∈ otm ∨ pending x y) x y := by
      rintro x y (he | hq)
      · cases List.mem_singleton.mp he
        exact .of_rel (s.rel_iff.mpr (.inr ⟨hin1 hx1, hin2 hx2⟩))
      · exact .of_pending (.inr hq)
    have hj : ∀ {x y}, Joined data.table (fun x y => (x, y) ∈ [(x1, x2)] ∨ pending x y) x y →
        Joined (replaceClasses data e1 e2 c1 c2 c).table (fun x y => (x, y) ∈ otm ∨ pending x y) x y :=
      Joined.of_joined (fun x y hxy => .of_rel (s.rel_iff.mpr (.inl hxy))) hpending
    refine s.half hh hpending ?_ ?_
    · intro x hx m o hs
      rcases hcases hx with hx | hx
      · exact ⟨o, hp.kept ((h.stored_iff h1 hx).mp hs), .refl o⟩
      · rcases hp.covered ((h.stored_iff h2 hx).mp hs) with hin | ⟨q, hq, hmember, he⟩
        · exact ⟨o, hin, .refl o⟩
        · cases hmember
          exact ⟨q.object, hq, (Joined.of_pending (.inl he)).symm⟩
    · refine hp.agree Congruence.Joined.refl ?_ ?_
      · intro p hp1 q hq1 hmember
        refine hj (hh.agree ((h.stored_iff h1 hx1).mpr hp1) ((h.stored_iff h1 hx1).mpr ?_))
        exact hmember ▸ hq1
      · intro p hp2 q hq2 hmember
        refine hj (hh.agree ((h.stored_iff h2 hx2).mpr hp2) ((h.stored_iff h2 hx2).mpr ?_))
        exact hmember ▸ hq2
  · intro r pre pending hr hj
    have h12 : r x1 x2 := hj.pending (.inl (List.mem_singleton_self _))
    have hrep : ∀ x ∈ c.objects, r x x1 := by
      intro x hx
      rcases hcases hx with hx | hx
      · exact hj.rel (h.rel_of_mem h1 hx hx1)
      · exact hr.trans (hj.rel (h.rel_of_mem h2 hx hx2)) (hr.symm h12)
    have hprefixes : ∀ x ∈ c.objects, ∀ p ∈ c.prefixes, ∃ y, r x y ∧ pre y p.member p.object := by
      intro x hx p hpc
      rcases hp.origin hpc with hp1 | ⟨hp2, -⟩
      · obtain ⟨y, hy, hpre⟩ := hj.stored ((h.stored_iff h1 hx1).mpr hp1)
        exact ⟨y, hr.trans (hrep x hx) hy, hpre⟩
      · obtain ⟨y, hy, hpre⟩ := hj.stored ((h.stored_iff h2 hx2).mpr hp2)
        exact ⟨y, hr.trans (hrep x hx) (hr.trans h12 hy), hpre⟩
    refine s.justified hj ?_ (fun x hx y hy => hr.trans (hrep x hx) (hr.symm (hrep y hy))) hprefixes
    rintro x y (he | hq)
    · rcases hp.equations he with he | ⟨p, hp2, q, hq, hmember, heq⟩
      · exact absurd he List.not_mem_nil
      · cases heq
        obtain ⟨y, hy, hpre⟩ := hj.stored ((h.stored_iff h2 hx2).mpr hp2)
        obtain ⟨z, hz, hqre⟩ := hprefixes x2 (hin2 hx2) q hq
        exact hr.imp (hr.trans (hr.symm hy) hz) ⟨p.member, hpre, hmember ▸ hqre⟩
    · exact hj.pending (.inr hq)

end

theorem merge_spec (h : Partition K data) (h1 : data.equivClasses.get e1 = some c1) (h2 : data.equivClasses.get e2 = some c2)
    (hne : e1 ≠ e2) {x1 x2 : String} (hx1 : x1 ∈ c1.objects) (hx2 : x2 ∈ c2.objects) :
    ∃ result data', merge data e1 e2 = .ok (result, data') ∧ Unites K data x1 x2 result data' := by
  obtain ⟨front, rest1, ho1⟩ := List.exists_cons_of_ne_nil (h.nonempty h1)
  obtain ⟨_, _, ho2⟩ := List.exists_cons_of_ne_nil (h.nonempty h2)
  have hp := getPrefixesToMerge_spec c2.prefixes ⟨c1.objects ++ c2.objects, c1.prefixes⟩ []
  have hrun : merge data e1 e2 = .ok (⟨front, (getPrefixesToMerge ⟨c1.objects ++ c2.objects, c1.prefixes⟩ c2.prefixes []).2⟩,
      replaceClasses data e1 e2 c1 c2 (getPrefixesToMerge ⟨c1.objects ++ c2.objects, c1.prefixes⟩ c2.prefixes []).1) := by
    unfold merge deref
    rw [if_neg hne, h1, h2]
    simp only [ok_bind]
    rw [ho1, ho2]
  generalize getPrefixesToMerge ⟨c1.objects ++ c2.objects, c1.prefixes⟩ c2.prefixes [] = merged at hp hrun
  have s := setsClass_replaceClasses h h1 h2 hp.objects
  have hfront : front ∈ c1.objects := ho1 ▸ List.mem_cons_self ..
  have hin1 : ∀ {x}, x ∈ c1.objects → x ∈ merged.1.objects := fun hx => hp.objects ▸ List.mem_append_left _ hx
  have hin2 : ∀ {x}, x ∈ c2.objects → x ∈ merged.1.objects := fun hx => hp.objects ▸ List.mem_append_right _ hx
  have hknown : ∀ p ∈ merged.1.prefixes, K p.object := by
    intro p hpm
    rcases hp.origin hpm with hp1 | ⟨hp2, -⟩
    · exact h.prefixes h1 hp1
    · exact h.prefixes h2 hp2
  refine ⟨_, _, hrun, ?_⟩
  exact
    { partition := s.partition h (List.ne_nil_of_mem (hin1 hx1)) hknown
      size := size_replaceClasses h1 h2 hne
      frame :=
        { functionMap := rfl
          functionInfoMap := rfl
          callInfoMap := rfl
          callExprParentMap := rfl
          referencedInCalls := rfl
          known := by
            intro x
            rw [s.known_iff, or_iff_left_iff_imp, hp.objects]
            intro hx
            rcases List.mem_append.mp hx with hx | hx
            · exact (h.rel_of_mem h1 hx hx).left
            · exact (h.rel_of_mem h2 hx hx).left
          rel := fun hxy => s.rel_iff.mpr (.inl hxy) }
      front := s.rel_iff.mpr (.inr ⟨hin1 hfront, hin1 hx1⟩)
      united := s.rel_iff.mpr (.inr ⟨hin1 hx1, hin2 hx2⟩)
      rel := fun hxy => (s.rel_iff.mp hxy).imp_right fun hc =>
        ⟨s.rel_iff.mpr (.inr ⟨hin1 hfront, hc.1⟩), s.rel_iff.mpr (.inr ⟨hin1 hfront, hc.2⟩)⟩
      known := by
        intro e he
        rcases hp.equations he with he | ⟨p, hp2, q, hq, -, rfl⟩
        · exact absurd he List.not_mem_nil
        · exact ⟨h.prefixes h2 hp2, hknown q hq⟩
      reduces := reduces_replaceClasses h h1 h2 hx1 hx2 hp }

end EquivClassContainer
end MetaCG.AliasAnalysis
