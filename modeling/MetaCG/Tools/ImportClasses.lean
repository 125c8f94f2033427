import MetaCG.AliasAnalysis.Merge
import MetaCG.Tools.CGMerge

/-! The classes of the second file, added one by one.

Prefixes may name objects whose class is still to come, and prefixes are dropped on the promise of an
equation in `ObjectsToMerge`. While the classes are added, these equations and the whole relation of
the second file are pending. -/
namespace MetaCG.CGMerge
open Foundations Congruence AliasAnalysis EquivClassContainer
set_option autoImplicit false
set_option maxHeartbeats 250000
set_option maxRecDepth 120000

section
variable {α : Type} [DecidableEq α]

theorem mem_unique {a : α} {l : List α} : a ∈ unique l ↔ a ∈ l := by
  fun_induction unique l with
  | case1 => exact Iff.rfl
  | case2 b => exact Iff.rfl
  | case3 b l ih =>
    rw [ih]
    simp
  | case4 b c l hne ih =>
    rw [List.mem_cons, ih]
    exact List.mem_cons.symm

end

theorem mem_sortedObjects {x : String} {l : List String} : x ∈ sortedObjects l ↔ x ∈ l :=
  mem_unique.trans (List.mem_insertionSort _)

theorem mem_sortedPrefixes {p : Prefix} {l : List Prefix} : p ∈ sortedPrefixes l ↔ p ∈ l :=
  mem_unique.trans (List.mem_insertionSort _)

variable {K : String → Prop} {rel2 : String → String → Prop} {cs cs' : List EquivClass} {s s' s'' : ImportState}
  {equiv : EquivClass} {x y z : String}

/-- The prefixes that the classes list for their objects. -/
def Listed (cs : List EquivClass) (x m o : String) : Prop := ∃ c ∈ cs, x ∈ c.objects ∧ ⟨o, m⟩ ∈ c.prefixes

/-- Equations to merge, and those of the second file. -/
def Pending (s : ImportState) (rel2 : String → String → Prop) (x y : String) : Prop := (x, y) ∈ s.2 ∨ rel2 x y

/-- From `s` to `s'` the classes `cs` of a file with the relation `rel2` are added. -/
structure Imports (K : String → Prop) (rel2 : String → String → Prop) (cs : List EquivClass) (s s' : ImportState) : Prop where
  partition : Partition K s'.1
  maps : SameMaps s.1 s'.1
  known : ∀ {x}, s'.1.Known x ↔ s.1.Known x ∨ ∃ c ∈ cs, x ∈ c.objects
  rel : ∀ {x y}, s.1.Rel x y → s'.1.Rel x y
  united : ∀ c ∈ cs, ∀ x ∈ c.objects, ∀ y ∈ c.objects, s'.1.Rel x y
  size : s'.1.equivClasses.size ≤ s.1.equivClasses.size + cs.length
  equations : (∀ e ∈ s.2, K e.1 ∧ K e.2) → ∀ e ∈ s'.2, K e.1 ∧ K e.2
  half : ∀ {base} {pre : String → String → String → Prop}, HalfClosed base pre s.1.table (Pending s rel2) →
    HalfClosed base (fun x m o => pre x m o ∨ Listed cs x m o) s'.1.table (Pending s' rel2)
  just : ∀ {r} {pre : String → String → String → Prop}, ClosedUnder (SharedMember pre) r → (∀ x y, rel2 x y → r x y) →
    (∀ x m o, Listed cs x m o → pre x m o) → Justified r pre s.1.table (Pending s rel2) →
    Justified r pre s'.1.table (Pending s' rel2)

namespace Imports

theorem nil (h : Partition K s.1) : Imports K rel2 [] s s where
  partition := h
  maps := .refl s.1
  known := by simp
  rel := id
  united := by simp
  size := le_refl _
  equations := id
  half hh := hh.extend (fun _ _ => hh.base) fun x m o hp => .inl (by simpa [Listed] using hp)
  just _ _ _ := id

theorem append (h : Imports K rel2 cs s s') (h' : Imports K rel2 cs' s' s'') : Imports K rel2 (cs ++ cs') s s'' where
  partition := h'.partition
  maps := h.maps.trans h'.maps
  known := by
    intro x
    rw [h'.known, h.known, or_assoc]
    refine or_congr_right ?_
    simp only [List.mem_append, or_and_right, exists_or]
  rel hxy := h'.rel (h.rel hxy)
  united := by
    intro c hc x hx y hy
    rcases List.mem_append.mp hc with hc | hc
    · exact h'.rel (h.united c hc x hx y hy)
    · exact h'.united c hc x hx y hy
  size := by
    have h1 := h.size
    have h2 := h'.size
    rw [List.length_append]
    omega
  equations he := h'.equations (h.equations he)
  half hh := by
    have hboth := h'.half (h.half hh)
    refine hboth.extend (fun _ _ => hboth.base) fun x m o hp => .inl ?_
    simpa [Listed, or_and_right, exists_or, or_assoc] using hp
  just hr hrel hpre hj := by
    refine h'.just hr hrel (fun x m o hp => hpre x m o ?_) (h.just hr hrel (fun x m o hp => hpre x m o ?_) hj)
    · obtain ⟨c, hc, hx⟩ := hp
      exact ⟨c, List.mem_append_right _ hc, hx⟩
    · obtain ⟨c, hc, hx⟩ := hp
      exact ⟨c, List.mem_append_left _ hc, hx⟩

end Imports

/-- What a class of a well-formed file satisfies. -/
structure Importable (K : String → Prop) (rel2 : String → String → Prop) (c : EquivClass) : Prop where
  nonempty : c.objects ≠ []
  rel : ∀ x ∈ c.objects, ∀ y ∈ c.objects, rel2 x y
  agree : ∀ p ∈ c.prefixes, ∀ q ∈ c.prefixes, p.member = q.member → rel2 p.object q.object
  prefixes : ∀ p ∈ c.prefixes, K p.object

/-! ## Case 1 -/

theorem find_emplace_objects (objects : List String) (it : EquivClassesIterator) (m : OMap String EquivClassesIterator) (x : String) :
    (objects.foldl (fun m e => m.emplace e it) m).find x = (m.find x).or (if x ∈ objects then some it else none) := by
  induction objects generalizing m with
  | nil => simp
  | cons e objects ih =>
    rw [List.foldl_cons, ih, OMap.find_emplace, Option.or_assoc]
    by_cases hx : x = e
    · simp [hx]
    · simp [hx]

theorem setsClass_newClass (h : Partition K s.1) (hnew : ∀ x ∈ equiv.objects, s.1.findMap.find x = none) :
    SetsClass s.1 (newClass s equiv).1 s.1.equivClasses.next equiv where
  find := by
    intro x
    have hfind : (newClass s equiv).1.findMap.find x =
        (s.1.findMap.find x).or (if x ∈ equiv.objects then some s.1.equivClasses.next else none) :=
      find_emplace_objects _ _ _ x
    rw [hfind]
    split_ifs with hx
    · rw [hnew x hx, Option.none_or]
    · exact Option.or_none
  get := by
    change (s.1.equivClasses.emplace_front equiv).get _ = _
    rw [StableList.get_emplace_front, if_pos rfl]
  kept := by
    intro x i _ hi
    obtain ⟨c, hc, -⟩ := h.find.mp hi
    have hne : i ≠ s.1.equivClasses.next := (StableList.get_lt hc).ne
    refine ⟨hne, ?_⟩
    change (s.1.equivClasses.emplace_front equiv).get i = _
    rw [StableList.get_emplace_front, if_neg hne]
  other := by
    intro i c hi hc
    change (s.1.equivClasses.emplace_front equiv).get i = some c at hc
    rw [StableList.get_emplace_front, if_neg hi] at hc
    refine ⟨hc, fun x hx hxe => ?_⟩
    have hfind := h.find.mpr ⟨c, hc, hx⟩
    rw [hnew x hxe] at hfind
    cases hfind
  whole := by
    rintro x y ⟨i, hx, -⟩ hxe
    rw [hnew x hxe] at hx
    cases hx

theorem newClass_imports (h : Partition K s.1) (hc : Importable K rel2 equiv)
    (hnew : ∀ x ∈ equiv.objects, s.1.findMap.find x = none) : Imports K rel2 [equiv] s (newClass s equiv) := by
  have hs := setsClass_newClass h hnew
  have hunknown : ∀ x ∈ equiv.objects, ∀ m o, ¬s.1.Stored x m o := by
    intro x hx m o hst
    obtain ⟨it, hit⟩ := hst.known
    rw [hnew x hx] at hit
    cases hit
  exact
    { partition := hs.partition h hc.nonempty hc.prefixes
      maps := ⟨rfl, rfl, rfl, rfl, rfl⟩
      known := by
        intro x
        rw [hs.known_iff]
        simp
      rel := fun hxy => hs.rel_iff.mpr (.inl hxy)
      united := by
        intro c hc' x hx y hy
        cases List.mem_singleton.mp hc'
        exact hs.rel_iff.mpr (.inr ⟨hx, hy⟩)
      size := le_refl _
      equations := id
      half := by
        intro base pre hh
        have hhalf : HalfClosed base pre (newClass s equiv).1.table (Pending (newClass s equiv) rel2) :=
          hs.half hh (fun x y hp => .of_pending hp) (fun x hx m o hst => absurd hst (hunknown x hx m o))
            fun p hp q hq hmember => .of_pending (.inr (hc.agree p hp q hq hmember))
        refine hhalf.extend (fun _ _ => hhalf.base) ?_
        rintro x m o (hp | ⟨c, hcm, hx, hp⟩)
        · exact .inl hp
        · cases List.mem_singleton.mp hcm
          exact .inr ⟨o, (hs.stored_mem hx).mpr hp, .refl o⟩
      just := by
        intro r pre hr hrel hpre hj
        refine hs.justified hj (fun x y hp => hj.pending hp) (fun x hx y hy => hrel x y (hc.rel x hx y hy)) ?_
        intro x hx p hp
        exact ⟨x, hrel x x (hc.rel x hx x hx), hpre _ _ _ ⟨equiv, List.mem_singleton_self _, hx, hp⟩⟩ }

/-! ## Cases 2 and 3 -/

section
variable {it : EquivClassesIterator} {c c1 c2 c' : EquivClass} {otm' : List (String × String)} {m : OMap String EquivClassesIterator}

theorem setsClass_extend (h : Partition K s.1) (hget : s.1.equivClasses.get it = some c)
    (hall : ∀ x ∈ equiv.objects, ∀ i, s.1.findMap.find x = some i → i = it)
    (hobjects : ∀ x, x ∈ c'.objects ↔ x ∈ c.objects ∨ x ∈ equiv.objects)
    (hfind : ∀ x, m.find x = (s.1.findMap.find x).or (if x ∈ equiv.objects then some it else none)) :
    SetsClass s.1 { s.1 with equivClasses := s.1.equivClasses.modify it fun _ => c', findMap := m } it c' := by
  have hmodify : ∀ i, (s.1.equivClasses.modify it fun _ => c').get i = if i = it then some c' else s.1.equivClasses.get i := by
    intro i
    rw [StableList.get_modify]
    split_ifs with hi
    · rw [hi, hget]
      rfl
    · rfl
  refine ⟨?_, (hmodify it).trans (if_pos rfl), ?_, ?_, ?_⟩
  · intro x
    change m.find x = _
    rw [hfind]
    by_cases hx : x ∈ c'.objects
    · rw [if_pos hx]
      rcases (hobjects x).mp hx with hxc | hxe
      · rw [h.find.mpr ⟨c, hget, hxc⟩, Option.some_or]
      · cases hold : s.1.findMap.find x with
        | none => rw [Option.none_or, if_pos hxe]
        | some i => rw [Option.some_or, hall x hxe i hold]
    · rw [if_neg hx, if_neg fun hxe => hx ((hobjects x).mpr (.inr hxe)), Option.or_none]
  · intro x i hx hi
    have hne : i ≠ it := by
      rintro rfl
      obtain ⟨c0, hc0, hxc0⟩ := h.find.mp hi
      cases hget.symm.trans hc0
      exact hx ((hobjects x).mpr (.inl hxc0))
    exact ⟨hne, (hmodify i).trans (if_neg hne)⟩
  · intro i c0 hi hc0
    change (s.1.equivClasses.modify it fun _ => c').get i = some c0 at hc0
    rw [hmodify, if_neg hi] at hc0
    refine ⟨hc0, fun x hx hxc' => ?_⟩
    rcases (hobjects x).mp hxc' with hxc | hxe
    · exact hi (h.disjoint hc0 hget hx hxc)
    · exact hi (hall x hxe i (h.find.mpr ⟨c0, hc0, hx⟩))
  · rintro x y ⟨i, hx, hy⟩ hxc'
    have hi : i = it := by
      rcases (hobjects x).mp hxc' with hxc | hxe
      · exact Option.some.inj (hx.symm.trans (h.find.mpr ⟨c, hget, hxc⟩))
      · exact hall x hxe i hx
    obtain ⟨c0, hc0, hyc0⟩ := h.find.mp hy
    cases (hi ▸ hc0).symm.trans hget
    exact (hobjects y).mpr (.inl hyc0)

/-- The class at `it` takes over the objects of `equiv` and the prefixes it does not merge. -/
theorem extend_imports (h : Partition K s.1) (hc : Importable K rel2 equiv) (hget : s.1.equivClasses.get it = some c)
    (hall : ∀ x ∈ equiv.objects, ∀ i, s.1.findMap.find x = some i → i = it) (hz : z ∈ equiv.objects) (hzc : z ∈ c.objects)
    (hp : PrefixesMerged c1 c2 equiv.prefixes s.2 otm') (hc1 : c1.prefixes = c.prefixes)
    (hobjects : ∀ x, x ∈ c'.objects ↔ x ∈ c.objects ∨ x ∈ equiv.objects) (hprefixes : ∀ p, p ∈ c'.prefixes ↔ p ∈ c2.prefixes)
    (hfind : ∀ x, m.find x = (s.1.findMap.find x).or (if x ∈ equiv.objects then some it else none)) :
    Imports K rel2 [equiv] s
      ({ s.1 with equivClasses := s.1.equivClasses.modify it fun _ => c', findMap := m }, otm') := by
  have hs := setsClass_extend h hget hall hobjects hfind
  generalize hs' : ({ s.1 with equivClasses := s.1.equivClasses.modify it fun _ => c', findMap := m } : EquivClassContainer) = data' at hs
  have hmaps : SameMaps s.1 data' := by
    subst hs'
    exact ⟨rfl, rfl, rfl, rfl, rfl⟩
  have hsize : data'.equivClasses.size = s.1.equivClasses.size := by
    subst hs'
    exact StableList.size_modify _ _ _
  have hstored : ∀ {x m o}, x ∈ c'.objects → s.1.Stored x m o → ⟨o, m⟩ ∈ c.prefixes := by
    intro x m o hx hst
    obtain ⟨i, c0, hi, hc0, hpc⟩ := hst
    have hit : i = it := by
      rcases (hobjects x).mp hx with hxc | hxe
      · exact Option.some.inj (hi.symm.trans (h.find.mpr ⟨c, hget, hxc⟩))
      · exact hall x hxe i hi
    cases (hit ▸ hc0).symm.trans hget
    exact hpc
  have hknown : ∀ p ∈ c'.prefixes, K p.object := by
    intro p hpc'
    rcases hp.origin ((hprefixes p).mp hpc') with hpc | ⟨hpe, -⟩
    · exact h.prefixes hget (hc1 ▸ hpc)
    · exact hc.prefixes p hpe
  exact
    { partition := hs.partition h (List.ne_nil_of_mem ((hobjects z).mpr (.inl hzc))) hknown
      maps := hmaps
      known := by
        intro x
        rw [hs.known_iff, hobjects]
        simp only [List.mem_singleton, exists_eq_left]
        constructor
        · rintro (hx | hxc | hxe)
          · exact .inl hx
          · exact .inl (h.rel_of_mem hget hxc hxc).left
          · exact .inr hxe
        · rintro (hx | hxe)
          · exact .inl hx
          · exact .inr (.inr hxe)
      rel := fun hxy => hs.rel_iff.mpr (.inl hxy)
      united := by
        intro c0 hc0 x hx y hy
        cases List.mem_singleton.mp hc0
        exact hs.rel_iff.mpr (.inr ⟨(hobjects x).mpr (.inr hx), (hobjects y).mpr (.inr hy)⟩)
      size := by
        change data'.equivClasses.size ≤ _
        omega
      equations := by
        intro hold e he
        rcases hp.equations he with he | ⟨p, hpe, q, hq, -, rfl⟩
        · exact hold e he
        · exact ⟨hc.prefixes p hpe, hknown q ((hprefixes q).mpr hq)⟩
      half := by
        intro base pre hh
        have hpending : ∀ x y, Pending s rel2 x y → Joined data'.table (Pending (data', otm') rel2) x y := fun x y hxy =>
          .of_pending (hxy.imp_left hp.earlier)
        have hj : ∀ {x y}, Joined s.1.table (Pending s rel2) x y → Joined data'.table (Pending (data', otm') rel2) x y :=
          Joined.of_joined (fun x y hxy => .of_rel (hs.rel_iff.mpr (.inl hxy))) hpending
        have hagree := hp.agree (e := Joined data'.table (Pending (data', otm') rel2)) Congruence.Joined.refl
          (fun p hpc q hqc hmember => hj (hh.agree ((h.stored_iff hget hzc).mpr (hc1 ▸ hpc))
            ((h.stored_iff hget hzc).mpr (hmember ▸ hc1 ▸ hqc))))
          fun p hpe q hqe hmember => .of_pending (.inr (hc.agree p hpe q hqe hmember))
        have hhalf : HalfClosed base pre data'.table (Pending (data', otm') rel2) := by
          refine hs.half hh hpending ?_ ?_
          · intro x hx m o hst
            exact ⟨o, (hprefixes _).mpr (hp.kept (hc1.symm ▸ hstored hx hst)), .refl o⟩
          · intro p hpc q hqc hmember
            exact hagree p ((hprefixes p).mp hpc) q ((hprefixes q).mp hqc) hmember
        refine hhalf.extend (fun _ _ => hhalf.base) ?_
        rintro x m o (hold | ⟨c0, hc0, hx, hpe⟩)
        · exact .inl hold
        · cases List.mem_singleton.mp hc0
          have hxc' := (hobjects x).mpr (.inr hx)
          rcases hp.covered hpe with hin | ⟨q, hq, hmember, he⟩
          · exact .inr ⟨o, (hs.stored_mem hxc').mpr ((hprefixes _).mpr hin), .refl o⟩
          · cases hmember
            exact .inr ⟨q.object, (hs.stored_mem hxc').mpr ((hprefixes q).mpr hq), (Joined.of_pending (.inl he)).symm⟩
      just := by
        intro r pre hr hrel hpre hj
        have hrep : ∀ x ∈ c'.objects, r x z := by
          intro x hx
          rcases (hobjects x).mp hx with hxc | hxe
          · exact hj.rel (h.rel_of_mem hget hxc hzc)
          · exact hrel x z (hc.rel x hxe z hz)
        have hjust : ∀ p ∈ c2.prefixes, ∃ y, r z y ∧ pre y p.member p.object := by
          intro p hpc
          rcases hp.origin hpc with hpc | ⟨hpe, -⟩
          · exact hj.stored ((h.stored_iff hget hzc).mpr (hc1 ▸ hpc))
          · exact ⟨z, hrel z z (hc.rel z hz z hz), hpre _ _ _ ⟨equiv, List.mem_singleton_self _, hz, hpe⟩⟩
        refine hs.justified hj ?_ (fun x hx y hy => hr.trans (hrep x hx) (hr.symm (hrep y hy))) ?_
        · rintro x y (he | hp2)
          · rcases hp.equations he with he | ⟨p, hpe, q, hq, hmember, heq⟩
            · exact hj.pending (.inl he)
            · cases heq
              obtain ⟨w, hw, hqre⟩ := hjust q hq
              have hpz : pre z p.member p.object := hpre _ _ _ ⟨equiv, List.mem_singleton_self _, hz, hpe⟩
              exact hr.imp hw ⟨p.member, hpz, hmember ▸ hqre⟩
          · exact hrel x y hp2
        · intro x hx p hpc
          obtain ⟨w, hw, hpre'⟩ := hjust p ((hprefixes p).mp hpc)
          exact ⟨w, hr.trans (hrep x hx) hw, hpre'⟩ }

end
end MetaCG.CGMerge
