import MetaCG.Tools.ImportClasses
import MetaCG.AliasAnalysis.MergeRecurisve

/-! All classes of the second file: the scan over the objects of one class, then the loop over the classes. -/
namespace MetaCG.CGMerge
open Foundations Congruence AliasAnalysis EquivClassContainer
set_option autoImplicit false
set_option maxHeartbeats 250000
set_option maxRecDepth 120000

variable {K : String → Prop} {rel2 : String → String → Prop} {cs : List EquivClass} {s s' : ImportState} {equiv : EquivClass}
  {x1 x2 : String}

/-- Case 3: two classes of the first file hold objects of one class of the second. -/
theorem merge_imports {result : MergeResult} {data' : EquivClassContainer} (hu : Unites K s.1 x1 x2 result data')
    (h12 : rel2 x1 x2) : Imports K rel2 [] s (data', s.2 ++ result.objectsToMerge) where
  partition := hu.partition
  maps := hu.frame.toSameMaps
  known := by
    intro x
    rw [hu.frame.known]
    simp
  rel := hu.frame.rel
  united := by simp
  size := by
    have hsize := hu.size
    simp only [List.length_nil, Nat.add_zero]
    omega
  equations := by
    intro hold e he
    rcases List.mem_append.mp he with he | he
    · exact hold e he
    · exact hu.known e he
  half := by
    intro base pre hh
    have hmerged := hu.reduces.half (hh.weaken fun x y hp => .of_pending (.inr hp))
    have hreordered : HalfClosed base pre data'.table (Pending (data', s.2 ++ result.objectsToMerge) rel2) := by
      refine hmerged.weaken fun x y hp => .of_pending ?_
      rcases hp with he | he | hp
      · exact .inl (List.mem_append_right _ he)
      · exact .inl (List.mem_append_left _ he)
      · exact .inr hp
    exact hreordered.extend (fun _ _ => hreordered.base) fun x m o hp => .inl (by simpa [Listed] using hp)
  just := by
    intro r pre hr hrel _ hj
    have hpending : Justified r pre s.1.table (fun x y => (x, y) ∈ [(x1, x2)] ∨ Pending s rel2 x y) := by
      refine hj.weaken fun x y hp => ?_
      rcases hp with he | hp
      · cases List.mem_singleton.mp he
        exact hrel x1 x2 h12
      · exact hj.pending hp
    have hmerged := hu.reduces.just hr hpending
    refine hmerged.weaken fun x y hp => ?_
    rcases hp with he | hp
    · rcases List.mem_append.mp he with he | he
      · exact hj.pending (.inl he)
      · exact hmerged.pending (.inl he)
    · exact hrel x y hp

/-- After the objects `seen` of one class: those that are known are in the class at the inner iterator. -/
structure Scanned (K : String → Prop) (rel2 : String → String → Prop) (s : ImportState) (seen : List String)
    (state : Option EquivClassesIterator × ImportState) : Prop where
  imports : Imports K rel2 [] s state.2
  fresh : state.1 = none → ∀ x ∈ seen, state.2.1.findMap.find x = none
  inner : ∀ {it}, state.1 = some it →
    (∀ x ∈ seen, ∀ i, state.2.1.findMap.find x = some i → i = it) ∧ ∃ z ∈ seen, state.2.1.findMap.find z = some it

theorem scanned_first (h : Partition K s.1) (obj : String) : Scanned K rel2 s [obj] (s.1.findMap.find obj, s) where
  imports := .nil h
  fresh := by
    intro hnone x hx
    rw [List.mem_singleton.mp hx]
    exact hnone
  inner := by
    intro it hit
    refine ⟨fun x hx i hi => ?_, obj, List.mem_singleton_self _, hit⟩
    rw [List.mem_singleton.mp hx] at hi
    exact Option.some.inj (hi.symm.trans hit)

theorem unifyObject_scans {seen : List String} {state : Option EquivClassesIterator × ImportState} (obj : String)
    (h : Scanned K rel2 s seen state) (hrel : ∀ x ∈ seen, rel2 x obj) :
    ∃ state', unifyObject state obj = .ok state' ∧ Scanned K rel2 s (seen ++ [obj]) state' := by
  obtain ⟨inner, data, otm⟩ := state
  cases inner with
  | none =>
    have hfresh := h.fresh rfl
    refine ⟨(data.findMap.find obj, data, otm), rfl, h.imports, ?_, ?_⟩
    · intro hnone x hx
      rcases List.mem_append.mp hx with hx | hx
      · exact hfresh x hx
      · rw [List.mem_singleton.mp hx]
        exact hnone
    · intro it hit
      refine ⟨fun x hx i hi => ?_, obj, List.mem_append_right _ (List.mem_singleton_self _), hit⟩
      rcases List.mem_append.mp hx with hx | hx
      · cases (hfresh x hx).symm.trans hi
      · rw [List.mem_singleton.mp hx] at hi
        exact Option.some.inj (hi.symm.trans hit)
  | some it =>
    obtain ⟨hall, z, hz, hzit⟩ := h.inner rfl
    simp only at hall hzit
    have hsame : ∀ {i}, (∀ j, data.findMap.find obj = some j → j = i) → i = it →
        Scanned K rel2 s (seen ++ [obj]) (some it, data, otm) := by
      intro i hobj hi
      refine ⟨h.imports, nofun, fun {it'} hit' => ?_⟩
      cases hit'
      refine ⟨fun x hx j hj => ?_, z, List.mem_append_left _ hz, hzit⟩
      rcases List.mem_append.mp hx with hx | hx
      · exact hall x hx j hj
      · rw [List.mem_singleton.mp hx] at hj
        exact (hobj j hj).trans hi
    cases hobj : data.findMap.find obj with
    | none =>
      refine ⟨(some it, data, otm), by simp [unifyObject, hobj], hsame (fun j hj => ?_) rfl⟩
      cases hobj.symm.trans hj
    | some i =>
      by_cases hi : i = it
      · refine ⟨(some it, data, otm), by simp [unifyObject, hobj, hi], hsame (fun j hj => ?_) hi⟩
        exact Option.some.inj (hj.symm.trans hobj)
      · obtain ⟨c1, hc1, hz1⟩ := h.imports.partition.find.mp hzit
        obtain ⟨c2, hc2, ho2⟩ := h.imports.partition.find.mp hobj
        obtain ⟨result, data', hmerge, hu⟩ := merge_spec h.imports.partition hc1 hc2 (Ne.symm hi) hz1 ho2
        obtain ⟨it', hfront, hz'⟩ := hu.front
        obtain ⟨it2, hz2, hobj'⟩ := hu.united
        cases hz'.symm.trans hz2
        have himports := h.imports.append (merge_imports (s := (data, otm)) hu (hrel z hz))
        refine ⟨(some it', data', otm ++ result.objectsToMerge), ?_, himports, nofun, fun {it3} hit3 => ?_⟩
        · simp only [unifyObject, hobj]
          rw [if_pos hi, hmerge, ok_bind]
          simp only [hfront]
          rfl
        · cases hit3
          refine ⟨fun x hx j hj => ?_, z, List.mem_append_left _ hz, hz'⟩
          rcases List.mem_append.mp hx with hx | hx
          · obtain ⟨k, hk⟩ := hu.frame.known.mp ⟨j, hj⟩
            obtain ⟨l, hxl, hzl⟩ := hu.frame.rel (x := x) (y := z) ⟨it, hall x hx k hk ▸ hk, hzit⟩
            cases hz'.symm.trans hzl
            exact Option.some.inj (hj.symm.trans hxl)
          · rw [List.mem_singleton.mp hx] at hj
            exact Option.some.inj (hj.symm.trans hobj')

theorem unifyObjects_scan {seen : List String} (objs : List String) {state : Option EquivClassesIterator × ImportState}
    (h : Scanned K rel2 s seen state) (hrel : ∀ x ∈ seen ++ objs, ∀ y ∈ seen ++ objs, rel2 x y) :
    ∃ state', objs.foldlM unifyObject state = .ok state' ∧ Scanned K rel2 s (seen ++ objs) state' := by
  induction objs generalizing seen state with
  | nil => exact ⟨state, rfl, by rwa [List.append_nil]⟩
  | cons obj objs ih =>
    obtain ⟨state1, hrun1, h1⟩ := unifyObject_scans obj h fun x hx =>
      hrel x (List.mem_append_left _ hx) obj (List.mem_append_right _ (List.mem_cons_self ..))
    have happend : seen ++ obj :: objs = (seen ++ [obj]) ++ objs := by simp
    rw [happend] at hrel ⊢
    obtain ⟨state2, hrun2, h2⟩ := ih h1 hrel
    refine ⟨state2, ?_, h2⟩
    rw [List.foldlM_cons, hrun1]
    exact hrun2

theorem extendPrefixes_imports (h : Partition K s.1) (hc : Importable K rel2 equiv) {obj : String} (hobj : equiv.objects = [obj])
    {it : EquivClassesIterator} (hit : s.1.findMap.find obj = some it) :
    ∃ s', extendPrefixes s equiv it = .ok s' ∧ Imports K rel2 [equiv] s s' := by
  obtain ⟨c, hget, hzc⟩ := h.find.mp hit
  have hp := getPrefixesToMerge_spec equiv.prefixes c s.2
  refine ⟨_, by rw [extendPrefixes, deref, hget]; rfl, extend_imports h hc hget ?_ ?_ hzc hp rfl ?_ ?_ ?_⟩
  · intro x hx i hi
    rw [hobj, List.mem_singleton] at hx
    exact Option.some.inj (hi.symm.trans (hx ▸ hit))
  · rw [hobj]
    exact List.mem_singleton_self _
  · intro x
    rw [hobj, List.mem_singleton]
    have hobjects := hp.objects
    constructor
    · exact fun hx => .inl (hobjects ▸ hx)
    · rintro (hx | rfl)
      · exact hobjects.symm ▸ hx
      · exact hobjects.symm ▸ hzc
  · exact fun p => mem_sortedPrefixes
  · intro x
    rw [hobj]
    split_ifs with hx
    · rw [List.mem_singleton.mp hx, hit, Option.some_or]
    · exact Option.or_none.symm

theorem extendClass_imports (h : Partition K s.1) (hc : Importable K rel2 equiv) {it : EquivClassesIterator}
    (hall : ∀ x ∈ equiv.objects, ∀ i, s.1.findMap.find x = some i → i = it) {z : String} (hz : z ∈ equiv.objects)
    (hit : s.1.findMap.find z = some it) : ∃ s', extendClass s equiv it = .ok s' ∧ Imports K rel2 [equiv] s s' := by
  obtain ⟨c, hget, hzc⟩ := h.find.mp hit
  have hp := getPrefixesToMerge_spec equiv.prefixes { c with objects := sortedObjects (c.objects ++ equiv.objects) } s.2
  refine ⟨_, by rw [extendClass, deref, hget]; rfl, extend_imports h hc hget hall hz hzc hp rfl ?_ ?_ ?_⟩
  · intro x
    have hobjects := hp.objects
    simp only at hobjects ⊢
    rw [hobjects, mem_sortedObjects, List.mem_append]
  · exact fun p => mem_sortedPrefixes
  · exact find_emplace_objects _ _ _

theorem importClass_imports (h : Partition K s.1) (hc : Importable K rel2 equiv) :
    ∃ s', importClass s equiv = .ok s' ∧ Imports K rel2 [equiv] s s' := by
  unfold importClass
  cases ho : equiv.objects with
  | nil => exact absurd ho hc.nonempty
  | cons obj objs =>
    cases objs with
    | nil =>
      simp only
      cases hit : s.1.findMap.find obj with
      | some it => exact extendPrefixes_imports h hc ho hit
      | none =>
        refine ⟨_, rfl, newClass_imports h hc fun x hx => ?_⟩
        rw [ho, List.mem_singleton] at hx
        rw [hx, hit]
    | cons obj' objs =>
      have hmem : ∀ {x}, x ∈ equiv.objects ↔ x ∈ [obj] ++ obj' :: objs := by
        intro x
        rw [ho, List.singleton_append]
      have hrel : ∀ x ∈ [obj] ++ obj' :: objs, ∀ y ∈ [obj] ++ obj' :: objs, rel2 x y := by
        intro x hx y hy
        exact hc.rel x (hmem.mpr hx) y (hmem.mpr hy)
      obtain ⟨⟨inner, data, otm⟩, hrun, hscan⟩ := unifyObjects_scan (obj' :: objs) (scanned_first h obj) hrel
      simp only
      rw [hrun, ok_bind]
      cases inner with
      | none =>
        have hnew := newClass_imports hscan.imports.partition hc fun x hx => hscan.fresh rfl x (hmem.mp hx)
        exact ⟨_, rfl, hscan.imports.append hnew⟩
      | some it =>
        obtain ⟨hall, z, hz, hzit⟩ := hscan.inner rfl
        obtain ⟨s', hs', himports⟩ := extendClass_imports hscan.imports.partition hc (fun x hx => hall x (hmem.mp hx))
          (hmem.mpr hz) hzit
        exact ⟨s', hs', hscan.imports.append himports⟩

theorem importClasses_imports (cs : List EquivClass) (h : Partition K s.1) (hcs : ∀ c ∈ cs, Importable K rel2 c) :
    ∃ s', cs.foldlM importClass s = .ok s' ∧ Imports K rel2 cs s s' := by
  induction cs generalizing s with
  | nil => exact ⟨s, rfl, .nil h⟩
  | cons c cs ih =>
    obtain ⟨s1, hrun1, h1⟩ := importClass_imports h (hcs c (List.mem_cons_self ..))
    obtain ⟨s2, hrun2, h2⟩ := ih h1.partition fun c' hc' => hcs c' (List.mem_cons_of_mem c hc')
    refine ⟨s2, ?_, h1.append h2⟩
    rw [List.foldlM_cons, hrun1]
    exact hrun2

end MetaCG.CGMerge
