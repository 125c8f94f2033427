import MetaCG.AliasAnalysis.Merge

/-! `mergeRecurisve` resolves the equations that `merge` leaves behind.

Each merge removes a class, so the number of classes bounds the depth of the recursion. The equations
that outer calls still iterate over are pending in `HalfClosed`; a nested call may destroy the classes
they were found in, but never the equations. -/
namespace MetaCG.AliasAnalysis
open Foundations Congruence
set_option autoImplicit false
set_option maxHeartbeats 250000
set_option maxRecDepth 120000

namespace EquivClassContainer
variable {data data' data'' : EquivClassContainer} {K : String → Prop} {ret ret' : FunctionCalls}
  {eqs eqs' : List (String × String)}

/-- The function object `f` is in one class with an object that the call `c` calls. -/
def Meets (data : EquivClassContainer) (f : String) (c : CallInfoConstIter) : Prop :=
  (data.functionMap.find f).isSome ∧ ∃ y, data.Rel f y ∧ c ∈ (data.referencedInCalls.find y).getD []

theorem Meets.mono (hf : Frame data data') {f : String} {c : CallInfoConstIter} (h : data.Meets f c) : data'.Meets f c := by
  obtain ⟨hfun, y, hrel, hc⟩ := h
  refine ⟨hf.functionMap ▸ hfun, y, hf.rel hrel, ?_⟩
  rw [hf.referencedInCalls]
  exact hc

/-- `ret` lists the functions and calls that met, all of them and no others. -/
structure Reported (data data' : EquivClassContainer) (ret : FunctionCalls) : Prop where
  complete : ∀ {f c}, data'.Meets f c → data.Meets f c ∨ (f, c) ∈ ret
  sound : ∀ {f c}, (f, c) ∈ ret → data'.Meets f c

theorem Reported.append (h : Reported data data' ret) (h' : Reported data' data'' ret') (hf : Frame data' data'') :
    Reported data data'' (ret ++ ret') where
  complete := by
    intro f c hmeet
    rcases h'.complete hmeet with hmeet | hin
    · exact (h.complete hmeet).imp_right (List.mem_append_left _)
    · exact .inr (List.mem_append_right _ hin)
  sound := by
    intro f c hin
    rcases List.mem_append.mp hin with hin | hin
    · exact (h.sound hin).mono hf
    · exact h'.sound hin

theorem mem_getFunctionsToMerge (ret : FunctionCalls) (h : Partition K data) {it : EquivClassesIterator} {e : EquivClass}
    (he : data.equivClasses.get it = some e) (f : String) (c : CallInfoConstIter) :
    (f, c) ∈ getFunctionsToMerge data ret e ↔ (f, c) ∈ ret ∨ (f ∈ e.objects ∧ data.Meets f c) := by
  unfold getFunctionsToMerge usedInCall Meets
  rw [List.mem_append]
  refine or_congr_right ?_
  rw [List.mem_flatMap]
  constructor
  · rintro ⟨f', hf', hmem⟩
    obtain ⟨c', hc', heq⟩ := List.mem_map.mp hmem
    cases heq
    obtain ⟨y, hy, hcy⟩ := List.mem_flatMap.mp hc'
    obtain ⟨hfe, hfun⟩ := List.mem_filter.mp hf'
    exact ⟨hfe, hfun, y, h.rel_of_mem he hfe hy, hcy⟩
  · rintro ⟨hfe, hfun, y, ⟨it', hf', hy⟩, hcy⟩
    cases hf'.symm.trans (h.find.mpr ⟨e, he, hfe⟩)
    obtain ⟨e', he', hye⟩ := h.find.mp hy
    cases he.symm.trans he'
    exact ⟨f, List.mem_filter.mpr ⟨hfe, hfun⟩, List.mem_map.mpr ⟨c, List.mem_flatMap.mpr ⟨y, hye, hcy⟩, rfl⟩⟩

/-- From `data` to `data'` the equations `eqs` are resolved, and `ret` is what that made meet. -/
structure Unifies (K : String → Prop) (eqs : List (String × String)) (data data' : EquivClassContainer) (ret : FunctionCalls) :
    Prop where
  partition : Partition K data'
  frame : Frame data data'
  size : data'.equivClasses.size ≤ data.equivClasses.size
  shrinks : ret = [] ∨ data'.equivClasses.size < data.equivClasses.size
  united : ∀ e ∈ eqs, data'.Rel e.1 e.2
  reported : Reported data data' ret
  reduces : Reduces eqs [] data.table data'.table

namespace Unifies

theorem of_rel (h : Partition K data) {e : String × String} (he : data.Rel e.1 e.2) : Unifies K [e] data data [] where
  partition := h
  frame := .refl data
  size := le_refl _
  shrinks := .inl rfl
  united := by
    intro e' he'
    rw [List.mem_singleton.mp he']
    exact he
  reported := ⟨.inl, fun h => absurd h List.not_mem_nil⟩
  reduces := .drop he []

theorem nil (h : Partition K data) : Unifies K [] data data [] where
  partition := h
  frame := .refl data
  size := le_refl _
  shrinks := .inl rfl
  united := by simp
  reported := ⟨.inl, fun h => absurd h List.not_mem_nil⟩
  reduces := .refl [] _

theorem append (h : Unifies K eqs data data' ret) (h' : Unifies K eqs' data' data'' ret') :
    Unifies K (eqs ++ eqs') data data'' (ret ++ ret') where
  partition := h'.partition
  frame := h.frame.trans h'.frame
  size := h'.size.trans h.size
  shrinks := by
    rcases h.shrinks with he | hlt
    · rcases h'.shrinks with he' | hlt'
      · left
        rw [he, he', List.append_nil]
      · exact .inr (hlt'.trans_le h.size)
    · exact .inr (h'.size.trans_lt hlt)
  united := by
    intro e he
    rcases List.mem_append.mp he with he | he
    · exact h'.frame.rel (h.united e he)
    · exact h'.united e he
  reported := h.reported.append h'.reported h'.frame
  reduces := (h.reduces.append eqs').trans h'.reduces

end Unifies

/-! ## The recursion -/

section
variable {mergeClasses mergeClasses' : EquivClassContainer → EquivClassesIterator → EquivClassesIterator →
  Except Fault ((FunctionCalls × EquivClassesIterator) × EquivClassContainer)} {bound : ℕ}

/-- `mergeClasses` unites two classes of any container with at most `bound` of them. -/
def MergesClasses (K : String → Prop) (bound : ℕ)
    (mergeClasses : EquivClassContainer → EquivClassesIterator → EquivClassesIterator →
      Except Fault ((FunctionCalls × EquivClassesIterator) × EquivClassContainer)) : Prop :=
  ∀ {data : EquivClassContainer} {e1 e2 : EquivClassesIterator} {c1 c2 : EquivClass} {x1 x2 : String}, Partition K data →
    (∀ x, K x → data.Known x) → data.equivClasses.size ≤ bound → data.equivClasses.get e1 = some c1 →
    data.equivClasses.get e2 = some c2 → e1 ≠ e2 → x1 ∈ c1.objects → x2 ∈ c2.objects →
    ∃ ret it data', mergeClasses data e1 e2 = .ok ((ret, it), data') ∧ Unifies K [(x1, x2)] data data' ret ∧
      data'.equivClasses.size < data.equivClasses.size

theorem mergeObjects_spec (hm : MergesClasses K bound mergeClasses) (h : Partition K data) (hK : ∀ x, K x → data.Known x)
    (hsize : data.equivClasses.size ≤ bound) (missing : Fault) (ret : FunctionCalls) {e : String × String}
    (h1 : data.Known e.1) (h2 : data.Known e.2) :
    ∃ ret' data', mergeObjects mergeClasses missing (ret, data) e = .ok (ret ++ ret', data') ∧
      Unifies K [e] data data' ret' := by
  obtain ⟨i1, hi1⟩ := h1
  obtain ⟨i2, hi2⟩ := h2
  unfold mergeObjects
  simp only [hi1, hi2]
  split_ifs with hi
  · refine ⟨[], data, by rw [List.append_nil], .of_rel h ⟨i1, hi1, hi ▸ hi2⟩⟩
  · obtain ⟨c1, hc1, hx1⟩ := h.find.mp hi1
    obtain ⟨c2, hc2, hx2⟩ := h.find.mp hi2
    obtain ⟨ret', it, data', hrun, hu, -⟩ := hm h hK hsize hc1 hc2 hi hx1 hx2
    refine ⟨ret', data', ?_, hu⟩
    rw [hrun]
    rfl

/-- The loop over a list of equations. -/
theorem mergeObjects_foldlM (hm : MergesClasses K bound mergeClasses) (missing : Fault) (eqs : List (String × String))
    (h : Partition K data) (hK : ∀ x, K x → data.Known x) (hsize : data.equivClasses.size ≤ bound) (ret : FunctionCalls)
    (hknown : ∀ e ∈ eqs, data.Known e.1 ∧ data.Known e.2) :
    ∃ ret' data', eqs.foldlM (mergeObjects mergeClasses missing) (ret, data) = .ok (ret ++ ret', data') ∧
      Unifies K eqs data data' ret' := by
  induction eqs generalizing data ret with
  | nil => exact ⟨[], data, by rw [List.append_nil]; rfl, .nil h⟩
  | cons e eqs ih =>
    obtain ⟨h1, h2⟩ := hknown e (List.mem_cons_self ..)
    obtain ⟨ret1, data1, hrun1, hu1⟩ := mergeObjects_spec hm h hK hsize missing ret h1 h2
    obtain ⟨ret2, data2, hrun2, hu2⟩ := ih hu1.partition (fun x hx => hu1.frame.known.mpr (hK x hx)) (hu1.size.trans hsize)
      (ret ++ ret1) fun e' he' =>
        (hknown e' (List.mem_cons_of_mem e he')).imp hu1.frame.known.mpr hu1.frame.known.mpr
    refine ⟨ret1 ++ ret2, data2, ?_, hu1.append hu2⟩
    rw [List.foldlM_cons, hrun1, ← List.append_assoc]
    exact hrun2

theorem mergeObjects_mono (hm : ∀ {data e1 e2 r}, mergeClasses data e1 e2 = .ok r → mergeClasses' data e1 e2 = .ok r)
    {missing : Fault} {state state' : FunctionCalls × EquivClassContainer} {e : String × String}
    (h : mergeObjects mergeClasses missing state e = .ok state') : mergeObjects mergeClasses' missing state e = .ok state' := by
  unfold mergeObjects at h ⊢
  cases h1 : state.2.findMap.find e.1 with
  | none => simp [h1] at h
  | some i1 =>
    cases h2 : state.2.findMap.find e.2 with
    | none => simp [h1, h2] at h
    | some i2 =>
      simp only [h1, h2] at h ⊢
      split_ifs at h ⊢ with hi
      · exact h
      · obtain ⟨tmp, htmp, hret⟩ := bind_eq_ok.mp h
        rw [hm htmp]
        exact hret

end

theorem size_pos {it : EquivClassesIterator} {c : EquivClass} (h : data.equivClasses.get it = some c) : 0 < data.equivClasses.size :=
  List.length_pos_of_mem (StableList.mem_cells.mpr h)

/-- Enough fuel is the number of classes. -/
theorem mergeRecurisve_merges (K : String → Prop) (fuel : ℕ) : MergesClasses K fuel (mergeRecurisve fuel) := by
  induction fuel with
  | zero =>
    intro data e1 e2 c1 c2 x1 x2 _ _ hsize hc1
    have hpos := size_pos hc1
    omega
  | succ fuel ih =>
    intro data e1 e2 c1 c2 x1 x2 h hK hsize hc1 hc2 hne hx1 hx2
    obtain ⟨result, data1, hmerge, hu⟩ := merge_spec h hc1 hc2 hne hx1 hx2
    have hsize1 := hu.size
    have hK1 : ∀ x, K x → data1.Known x := fun x hx => hu.frame.known.mpr (hK x hx)
    obtain ⟨ret, data2, hloop, hl⟩ := mergeObjects_foldlM ih (.assertion "F != Data.FindMap.end()") result.objectsToMerge
      hu.partition hK1 (by omega) [] fun e he => (hu.known e he).imp (hK1 _) (hK1 _)
    obtain ⟨it, hit⟩ := (hl.frame.rel hu.front).left
    obtain ⟨e, he, hfront⟩ := hl.partition.find.mp hit
    have hmem := mem_getFunctionsToMerge ret hl.partition he
    have hsize2 := hl.size
    refine ⟨getFunctionsToMerge data2 ret e, it, data2, ?_, ?_, by omega⟩
    · rw [mergeRecurisve, hmerge, ok_bind]
      simp only
      rw [hloop, ok_bind]
      simp only [List.nil_append]
      rw [hit]
      simp only [deref, he, ok_bind]
      rfl
    · exact
        { partition := hl.partition
          frame := hu.frame.trans hl.frame
          size := by omega
          shrinks := .inr (by omega)
          united := by
            intro e' he'
            rw [List.mem_singleton.mp he']
            exact hl.frame.rel hu.united
          reported :=
            { complete := by
                intro f c hmeet
                rw [hmem]
                rcases hl.reported.complete hmeet with hmeet1 | hin
                · obtain ⟨hfun, y, hrel, hc⟩ := hmeet1
                  rcases hu.rel hrel with hold | ⟨hf, hy⟩
                  · refine .inl ⟨hu.frame.functionMap ▸ hfun, y, hold, ?_⟩
                    rw [← hu.frame.referencedInCalls]
                    exact hc
                  · obtain ⟨it', hit', hf'⟩ := hl.frame.rel hf
                    cases hit.symm.trans hit'
                    obtain ⟨e', he', hfe⟩ := hl.partition.find.mp hf'
                    cases he.symm.trans he'
                    exact .inr (.inr ⟨hfe, hmeet⟩)
                · exact .inr (.inl hin)
              sound := by
                intro f c hin
                rcases (hmem f c).mp hin with hin | ⟨-, hmeet⟩
                · exact hl.reported.sound hin
                · exact hmeet }
          reduces := hu.reduces.trans hl.reduces }

/-- More fuel does not change a result. -/
theorem mergeRecurisve_mono {fuel fuel' : ℕ} (hle : fuel ≤ fuel') {e1 e2 : EquivClassesIterator}
    {r : (FunctionCalls × EquivClassesIterator) × EquivClassContainer} (h : mergeRecurisve fuel data e1 e2 = .ok r) :
    mergeRecurisve fuel' data e1 e2 = .ok r := by
  induction fuel generalizing fuel' data e1 e2 r with
  | zero => cases h
  | succ fuel ih =>
    cases fuel' with
    | zero => omega
    | succ fuel' =>
      rw [mergeRecurisve] at h ⊢
      obtain ⟨⟨result, data1⟩, hmerge, h⟩ := bind_eq_ok.mp h
      obtain ⟨⟨ret, data2⟩, hloop, h⟩ := bind_eq_ok.mp h
      rw [hmerge, ok_bind]
      simp only
      rw [foldlM_mono (mergeObjects_mono (ih (by omega))) hloop]
      exact h

/-! ## Well-formed containers -/

/-- The classes are non-empty and disjoint, `findMap` sends the objects to their classes, prefixes are known
objects, and the prefixes of a class under one member are in one class. -/
structure WellFormed (data : EquivClassContainer) : Prop where
  nonempty : ∀ {it c}, data.equivClasses.get it = some c → c.objects ≠ []
  disjoint : ∀ {it it' c c' x}, data.equivClasses.get it = some c → data.equivClasses.get it' = some c' → x ∈ c.objects →
    x ∈ c'.objects → it = it'
  find : ∀ {x it}, data.findMap.find x = some it ↔ ∃ c, data.equivClasses.get it = some c ∧ x ∈ c.objects
  prefixes : ∀ {it c p}, data.equivClasses.get it = some c → p ∈ c.prefixes → data.Known p.object
  agree : ∀ {it c p q}, data.equivClasses.get it = some c → p ∈ c.prefixes → q ∈ c.prefixes → p.member = q.member →
    data.Rel p.object q.object

theorem wellFormed_iff : WellFormed data ↔
    (∀ e ∈ data.equivClasses.cells, e.2.objects ≠ [] ∧ (∀ x ∈ e.2.objects, data.findMap.find x = some e.1) ∧
      ∀ p ∈ e.2.prefixes, (data.findMap.find p.object).isSome ∧
        ∀ q ∈ e.2.prefixes, p.member = q.member → data.findMap.find p.object = data.findMap.find q.object) ∧
    ∀ e ∈ data.findMap.entries, ∃ c ∈ data.equivClasses.cells, c.1 = e.2 ∧ e.1 ∈ c.2.objects := by
  constructor
  · intro h
    refine ⟨fun e he => ?_, fun e he => ?_⟩
    · have hget : data.equivClasses.get e.1 = some e.2 := StableList.mem_cells.mp he
      refine ⟨h.nonempty hget, fun x hx => h.find.mpr ⟨e.2, hget, hx⟩, fun p hp => ?_⟩
      refine ⟨Option.isSome_iff_exists.mpr (h.prefixes hget hp), fun q hq hmember => ?_⟩
      obtain ⟨it, hpit, hqit⟩ := h.agree hget hp hq hmember
      exact hpit.trans hqit.symm
    · obtain ⟨c, hc, hx⟩ := h.find.mp (OMap.mem_entries.mp he)
      exact ⟨(e.2, c), StableList.mem_cells.mpr hc, rfl, hx⟩
  · rintro ⟨hclass, hfind⟩
    have hcell : ∀ {it c}, data.equivClasses.get it = some c → (it, c) ∈ data.equivClasses.cells := StableList.mem_cells.mpr
    refine ⟨fun hc => (hclass _ (hcell hc)).1, ?_, ?_, ?_, ?_⟩
    · intro it it' c c' x hc hc' hx hx'
      have hit := (hclass _ (hcell hc)).2.1 x hx
      have hit' := (hclass _ (hcell hc')).2.1 x hx'
      exact Option.some.inj (hit.symm.trans hit')
    · intro x it
      constructor
      · intro hx
        obtain ⟨⟨_, c⟩, hc, rfl, hxc⟩ := hfind (x, it) (OMap.mem_entries.mpr hx)
        exact ⟨c, StableList.mem_cells.mp hc, hxc⟩
      · rintro ⟨c, hc, hx⟩
        exact (hclass _ (hcell hc)).2.1 x hx
    · intro it c p hc hp
      exact Option.isSome_iff_exists.mp ((hclass _ (hcell hc)).2.2 p hp).1
    · intro it c p q hc hp hq hmember
      obtain ⟨hknown, hsame⟩ := (hclass _ (hcell hc)).2.2 p hp
      obtain ⟨it', hp'⟩ := Option.isSome_iff_exists.mp hknown
      exact ⟨it', hp', (hsame q hq hmember) ▸ hp'⟩

instance : Decidable (WellFormed data) := decidable_of_iff _ wellFormed_iff.symm

theorem WellFormed.partition (h : WellFormed data) : Partition data.Known data := ⟨h.nonempty, h.find, h.prefixes⟩

/-- A well-formed container owes nothing to itself. -/
theorem WellFormed.half (h : WellFormed data) {pending : String → String → Prop} :
    HalfClosed data.Rel data.Stored data.table pending where
  base hb := .of_rel hb
  cover hp := ⟨_, hp, .refl _⟩
  agree := by
    rintro x m o o' ⟨it, c, hx, hc, hp⟩ ⟨it', c', hx', hc', hp'⟩
    cases hx.symm.trans hx'
    cases hc.symm.trans hc'
    exact .of_rel (h.agree hc hp hp' rfl)

theorem Joined.rel {pending : String → String → Prop} (hnone : ∀ x y, pending x y → False) {x y : String}
    (hx : data.Known x) (h : Joined data.table pending x y) : data.Rel x y := by
  rcases h.eq_or_rel Rel.symm Rel.trans hnone with he | hrel
  · exact he ▸ hx.rel
  · exact hrel

/-- A container to which nothing is owed is well formed. -/
theorem wellFormed_of_half {base : String → String → Prop} {pre : String → String → String → Prop}
    {pending : String → String → Prop} (h : Partition K data) (hK : ∀ x, K x → data.Known x)
    (hh : HalfClosed base pre data.table pending) (hnone : ∀ x y, pending x y → False) : WellFormed data where
  nonempty := h.nonempty
  disjoint := h.disjoint
  find := h.find
  prefixes hc hp := hK _ (h.prefixes hc hp)
  agree := by
    intro it c p q hc hp hq hmember
    obtain ⟨x, hx⟩ := List.exists_mem_of_ne_nil _ (h.nonempty hc)
    have hsp : data.Stored x p.member p.object := (h.stored_iff hc hx).mpr hp
    have hsq : data.Stored x p.member q.object := (h.stored_iff hc hx).mpr (hmember ▸ hq)
    exact Joined.rel hnone (hK _ (h.prefixes hc hp)) (hh.agree hsp hsq)

/-- What `mergeRecurisve` has to relate: what was related, and the objects of the two classes. -/
def Equations (data : EquivClassContainer) (c1 c2 : EquivClass) (x y : String) : Prop :=
  data.Rel x y ∨ (x ∈ c1.objects ∧ y ∈ c2.objects)

/-- `mergeRecurisve` computes the congruence closure. -/
theorem mergeRecurisve_congruence (h : WellFormed data) {e1 e2 : EquivClassesIterator} {c1 c2 : EquivClass}
    (h1 : data.equivClasses.get e1 = some c1) (h2 : data.equivClasses.get e2 = some c2) (hne : e1 ≠ e2) :
    ∃ r data', (∀ fuel, data.equivClasses.size ≤ fuel → mergeRecurisve fuel data e1 e2 = .ok (r, data')) ∧
      WellFormed data' ∧ (∀ x, data'.Known x ↔ data.Known x) ∧
      IsLeast {r | Closed (data.Equations c1 c2) (SharedMember data.Stored) r} data'.Rel := by
  obtain ⟨x1, hx1⟩ := List.exists_mem_of_ne_nil _ (h.nonempty h1)
  obtain ⟨x2, hx2⟩ := List.exists_mem_of_ne_nil _ (h.nonempty h2)
  obtain ⟨ret, it, data', hrun, hu, -⟩ := mergeRecurisve_merges data.Known data.equivClasses.size h.partition (fun x => id)
    (le_refl _) h1 h2 hne hx1 hx2
  have hK : ∀ x, data.Known x → data'.Known x := fun x hx => hu.frame.known.mpr hx
  have hhalf : HalfClosed data.Rel data.Stored data'.table (fun x y => (x, y) ∈ ([] : List (String × String)) ∨ False) :=
    hu.reduces.half h.half
  have hnone : ∀ x y, (x, y) ∈ ([] : List (String × String)) ∨ False → False := by simp
  have hwf := wellFormed_of_half hu.partition hK hhalf hnone
  have hclosed := hhalf.closed hnone Rel.symm Rel.trans (fun x y hb => hu.frame.rel hb.left.rel)
    (fun x m o hs => (hK o (h.partition.known_of_stored hs)).rel) (fun x y m o hxy hs => Stored.of_rel hs hxy)
  refine ⟨(ret, it), data', fun fuel hfuel => mergeRecurisve_mono hfuel hrun, hwf, fun x => hu.frame.known, ?_, ?_⟩
  · refine ⟨hclosed.toClosedUnder, ?_⟩
    rintro x y (hrel | ⟨hx, hy⟩)
    · exact hu.frame.rel hrel
    · have hx1' : data'.Rel x x1 := hu.frame.rel (h.partition.rel_of_mem h1 hx hx1)
      have hx2' : data'.Rel x2 y := hu.frame.rel (h.partition.rel_of_mem h2 hx2 hy)
      exact hx1'.trans ((hu.united (x1, x2) (List.mem_singleton_self _)).trans hx2')
  · intro r hr x y hxy
    have hjust : Justified r data.Stored data.table (fun x y => (x, y) ∈ [(x1, x2)] ∨ False) :=
      { rel := fun hxy => hr.base (.inl hxy)
        pending := by
          rintro x y (he | hf)
          · cases List.mem_singleton.mp he
            exact hr.base (.inr ⟨hx1, hx2⟩)
          · exact hf.elim
        stored := fun hs => ⟨_, hr.base (.inl hs.known.rel), hs⟩ }
    exact (hu.reduces.just hr.toClosedUnder hjust).rel hxy

/-- Two pointers, each with the object it points to. -/
def twoPointers : EquivClassContainer :=
  { empty with
    equivClasses := ((((StableList.empty.emplace_front ⟨["a"], []⟩).emplace_front ⟨["b"], []⟩).emplace_front
      ⟨["p"], [⟨"a", ""⟩]⟩).emplace_front ⟨["q"], [⟨"b", ""⟩]⟩)
    findMap := (((OMap.empty.insert "a" 0).insert "b" 1).insert "p" 2).insert "q" 3 }

theorem twoPointers_congruence : ∃ r data',
    (∀ fuel, twoPointers.equivClasses.size ≤ fuel → mergeRecurisve fuel twoPointers 2 3 = .ok (r, data')) ∧
    WellFormed data' ∧ (∀ x, data'.Known x ↔ twoPointers.Known x) ∧
    IsLeast {r | Closed (twoPointers.Equations ⟨["p"], [⟨"a", ""⟩]⟩ ⟨["q"], [⟨"b", ""⟩]⟩) (SharedMember twoPointers.Stored) r}
      data'.Rel :=
  mergeRecurisve_congruence (by decide) (by decide) (by decide) (by decide)

end EquivClassContainer
end MetaCG.AliasAnalysis
