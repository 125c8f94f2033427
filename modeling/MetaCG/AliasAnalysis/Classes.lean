import MetaCG.AliasAnalysis.EquivClassContainer
import MetaCG.Foundations.CongruenceClosure

/-! The relation a container stands for, and what one merge of two classes does to it. -/
namespace MetaCG.AliasAnalysis
open Foundations Congruence
set_option autoImplicit false
set_option maxHeartbeats 250000
set_option maxRecDepth 120000

namespace EquivClassContainer

def Known (data : EquivClassContainer) (x : String) : Prop := ∃ it, data.findMap.find x = some it

def Rel (data : EquivClassContainer) (x y : String) : Prop := ∃ it, data.findMap.find x = some it ∧ data.findMap.find y = some it

/-- The class of `x` has the prefix `o` under `m`. -/
def Stored (data : EquivClassContainer) (x m o : String) : Prop :=
  ∃ it c, data.findMap.find x = some it ∧ data.equivClasses.get it = some c ∧ ⟨o, m⟩ ∈ c.prefixes

def table (data : EquivClassContainer) : Table String String := ⟨data.Rel, data.Stored⟩

/-- The classes are non-empty, `findMap` sends exactly their objects to them, and the objects of their
prefixes are in `K`. -/
structure Partition (K : String → Prop) (data : EquivClassContainer) : Prop where
  nonempty : ∀ {it c}, data.equivClasses.get it = some c → c.objects ≠ []
  find : ∀ {x it}, data.findMap.find x = some it ↔ ∃ c, data.equivClasses.get it = some c ∧ x ∈ c.objects
  prefixes : ∀ {it c p}, data.equivClasses.get it = some c → p ∈ c.prefixes → K p.object

variable {data data' : EquivClassContainer} {K : String → Prop} {x y z m o : String}

theorem Rel.symm (h : data.Rel x y) : data.Rel y x := by
  obtain ⟨it, hx, hy⟩ := h
  exact ⟨it, hy, hx⟩

theorem Rel.trans (h : data.Rel x y) (h' : data.Rel y z) : data.Rel x z := by
  obtain ⟨it, hx, hy⟩ := h
  obtain ⟨it', hy', hz⟩ := h'
  cases hy.symm.trans hy'
  exact ⟨it, hx, hz⟩

theorem Rel.left (h : data.Rel x y) : data.Known x := by
  obtain ⟨it, hx, -⟩ := h
  exact ⟨it, hx⟩

theorem Known.rel (h : data.Known x) : data.Rel x x := by
  obtain ⟨it, hx⟩ := h
  exact ⟨it, hx, hx⟩

theorem Stored.of_rel (h : data.Stored x m o) (hxy : data.Rel x y) : data.Stored y m o := by
  obtain ⟨it, c, hx, hc, hp⟩ := h
  obtain ⟨it', hx', hy⟩ := hxy
  cases hx.symm.trans hx'
  exact ⟨it, c, hy, hc, hp⟩

theorem Stored.known (h : data.Stored x m o) : data.Known x := by
  obtain ⟨it, c, hx, -⟩ := h
  exact ⟨it, hx⟩

theorem Partition.rel_of_mem (h : Partition K data) {it : EquivClassesIterator} {c : EquivClass}
    (hc : data.equivClasses.get it = some c) (hx : x ∈ c.objects) (hy : y ∈ c.objects) : data.Rel x y :=
  ⟨it, h.find.mpr ⟨c, hc, hx⟩, h.find.mpr ⟨c, hc, hy⟩⟩

theorem Partition.disjoint (h : Partition K data) {it it' : EquivClassesIterator} {c c' : EquivClass}
    (hc : data.equivClasses.get it = some c) (hc' : data.equivClasses.get it' = some c') (hx : x ∈ c.objects)
    (hx' : x ∈ c'.objects) : it = it' :=
  Option.some.inj ((h.find.mpr ⟨c, hc, hx⟩).symm.trans (h.find.mpr ⟨c', hc', hx'⟩))

theorem Partition.stored_iff (h : Partition K data) {it : EquivClassesIterator} {c : EquivClass}
    (hc : data.equivClasses.get it = some c) (hx : x ∈ c.objects) : data.Stored x m o ↔ ⟨o, m⟩ ∈ c.prefixes := by
  have hfind : data.findMap.find x = some it := h.find.mpr ⟨c, hc, hx⟩
  constructor
  · rintro ⟨it', c', hx', hc', hp⟩
    cases hfind.symm.trans hx'
    cases hc.symm.trans hc'
    exact hp
  · exact fun hp => ⟨it, c, hfind, hc, hp⟩

theorem Partition.known_of_stored (h : Partition K data) (hs : data.Stored x m o) : K o := by
  obtain ⟨it, c, -, hc, hp⟩ := hs
  exact h.prefixes hc hp

theorem Partition.mono {K' : String → Prop} (h : Partition K data) (hK : ∀ x, K x → K' x) : Partition K' data :=
  ⟨h.nonempty, h.find, fun hc hp => hK _ (h.prefixes hc hp)⟩

theorem Partition.congr (h : Partition K data) (hc : data'.equivClasses = data.equivClasses) (hf : data'.findMap = data.findMap) :
    Partition K data' where
  nonempty h' := h.nonempty (hc ▸ h')
  find := by
    intro x it
    rw [hf, hc]
    exact h.find
  prefixes h' := h.prefixes (hc ▸ h')

/-! ## Giving some objects a class -/

/-- `data'` is `data` with the class `c` at `it`, in the place of all classes its objects had. -/
structure SetsClass (data data' : EquivClassContainer) (it : EquivClassesIterator) (c : EquivClass) : Prop where
  find : ∀ x, data'.findMap.find x = if x ∈ c.objects then some it else data.findMap.find x
  get : data'.equivClasses.get it = some c
  kept : ∀ {x i}, x ∉ c.objects → data.findMap.find x = some i → i ≠ it ∧ data'.equivClasses.get i = data.equivClasses.get i
  other : ∀ {i c'}, i ≠ it → data'.equivClasses.get i = some c' →
    data.equivClasses.get i = some c' ∧ ∀ x ∈ c'.objects, x ∉ c.objects
  whole : ∀ {x y}, data.Rel x y → x ∈ c.objects → y ∈ c.objects

namespace SetsClass
variable {it : EquivClassesIterator} {c : EquivClass}

theorem partition (s : SetsClass data data' it c) (h : Partition K data) (hne : c.objects ≠ [])
    (hp : ∀ p ∈ c.prefixes, K p.object) : Partition K data' where
  nonempty := by
    intro i c' hc'
    by_cases hi : i = it
    · subst hi
      cases s.get.symm.trans hc'
      exact hne
    · exact h.nonempty (s.other hi hc').1
  find := by
    intro x i
    rw [s.find]
    split_ifs with hx
    · constructor
      · rintro ⟨⟩
        exact ⟨c, s.get, hx⟩
      · rintro ⟨c', hc', hx'⟩
        by_cases hi : i = it
        · rw [hi]
        · exact absurd hx ((s.other hi hc').2 x hx')
    · constructor
      · intro hfind
        obtain ⟨c', hc', hx'⟩ := h.find.mp hfind
        exact ⟨c', (s.kept hx hfind).2.trans hc', hx'⟩
      · rintro ⟨c', hc', hx'⟩
        have hi : i ≠ it := by
          rintro rfl
          cases s.get.symm.trans hc'
          exact hx hx'
        exact h.find.mpr ⟨c', (s.other hi hc').1, hx'⟩
  prefixes := by
    intro i c' p hc' hp'
    by_cases hi : i = it
    · subst hi
      cases s.get.symm.trans hc'
      exact hp p hp'
    · exact h.prefixes (s.other hi hc').1 hp'

theorem rel_iff (s : SetsClass data data' it c) :
    data'.Rel x y ↔ data.Rel x y ∨ (x ∈ c.objects ∧ y ∈ c.objects) := by
  unfold Rel
  rw [s.find, s.find]
  by_cases hx : x ∈ c.objects
  · by_cases hy : y ∈ c.objects
    · simp [hx, hy]
    · rw [if_pos hx, if_neg hy]
      constructor
      · rintro ⟨i, hi, hfind⟩
        exact absurd (Option.some.inj hi).symm (s.kept hy hfind).1
      · rintro (hrel | h)
        · exact absurd (s.whole hrel hx) hy
        · exact absurd h.2 hy
  · by_cases hy : y ∈ c.objects
    · rw [if_neg hx, if_pos hy]
      constructor
      · rintro ⟨i, hfind, hi⟩
        exact absurd (Option.some.inj hi).symm (s.kept hx hfind).1
      · rintro (hrel | h)
        · exact absurd (s.whole (Rel.symm hrel) hy) hx
        · exact absurd h.1 hx
    · simp [hx, hy]

theorem known_iff (s : SetsClass data data' it c) : data'.Known x ↔ data.Known x ∨ x ∈ c.objects := by
  unfold Known
  rw [s.find]
  by_cases hx : x ∈ c.objects
  · simp [hx]
  · simp [hx]

theorem stored_iff (s : SetsClass data data' it c) (hx : x ∉ c.objects) : data'.Stored x m o ↔ data.Stored x m o := by
  unfold Stored
  rw [s.find, if_neg hx]
  constructor
  · rintro ⟨i, c', hi, hc', hp⟩
    exact ⟨i, c', hi, (s.kept hx hi).2 ▸ hc', hp⟩
  · rintro ⟨i, c', hi, hc', hp⟩
    exact ⟨i, c', hi, (s.kept hx hi).2.trans hc', hp⟩

theorem stored_mem (s : SetsClass data data' it c) (hx : x ∈ c.objects) : data'.Stored x m o ↔ ⟨o, m⟩ ∈ c.prefixes := by
  have hfind : data'.findMap.find x = some it := by rw [s.find, if_pos hx]
  constructor
  · rintro ⟨i, c', hi, hc', hp⟩
    cases hfind.symm.trans hi
    cases s.get.symm.trans hc'
    exact hp
  · exact fun hp => ⟨it, c, hfind, s.get, hp⟩

/-- The pending equations that pay for the prefixes the new class does not take over. -/
theorem half {base : String → String → Prop} {pre : String → String → String → Prop} {pending pending' : String → String → Prop}
    (s : SetsClass data data' it c) (h : HalfClosed base pre data.table pending)
    (hpending : ∀ x y, pending x y → Joined data'.table pending' x y)
    (hcover : ∀ x ∈ c.objects, ∀ m o, data.Stored x m o → ∃ o', ⟨o', m⟩ ∈ c.prefixes ∧ Joined data'.table pending' o' o)
    (hagree : ∀ p ∈ c.prefixes, ∀ q ∈ c.prefixes, p.member = q.member → Joined data'.table pending' p.object q.object) :
    HalfClosed base pre data'.table pending' := by
  have hj : ∀ x y, Joined data.table pending x y → Joined data'.table pending' x y := fun x y =>
    Joined.of_joined (fun x y hxy => .of_rel (s.rel_iff.mpr (.inl hxy))) hpending
  refine h.step hj ?_ ?_
  · intro x m o hs
    by_cases hx : x ∈ c.objects
    · obtain ⟨o', hp, ho'⟩ := hcover x hx m o hs
      exact ⟨o', (s.stored_mem hx).mpr hp, ho'⟩
    · exact ⟨o, (s.stored_iff hx).mpr hs, .refl o⟩
  · intro x m o o' ho ho'
    by_cases hx : x ∈ c.objects
    · exact hagree ⟨o, m⟩ ((s.stored_mem hx).mp ho) ⟨o', m⟩ ((s.stored_mem hx).mp ho') rfl
    · exact hj _ _ (h.agree ((s.stored_iff hx).mp ho) ((s.stored_iff hx).mp ho'))

theorem justified {r : String → String → Prop} {pre : String → String → String → Prop} {pending pending' : String → String → Prop}
    (s : SetsClass data data' it c) (h : Justified r pre data.table pending) (hpending : ∀ x y, pending' x y → r x y)
    (hclass : ∀ x ∈ c.objects, ∀ y ∈ c.objects, r x y)
    (hprefixes : ∀ x ∈ c.objects, ∀ p ∈ c.prefixes, ∃ y, r x y ∧ pre y p.member p.object) : Justified r pre data'.table pending' where
  rel hxy := (s.rel_iff.mp hxy).elim h.rel fun hc => hclass _ hc.1 _ hc.2
  pending := hpending _ _
  stored := by
    intro x m o hs
    by_cases hx : x ∈ c.objects
    · exact hprefixes x hx ⟨o, m⟩ ((s.stored_mem hx).mp hs)
    · exact h.stored ((s.stored_iff hx).mp hs)

end SetsClass

/-- Only `equivClasses` and `findMap` differ. -/
structure SameMaps (data data' : EquivClassContainer) : Prop where
  functionMap : data'.functionMap = data.functionMap
  functionInfoMap : data'.functionInfoMap = data.functionInfoMap
  callInfoMap : data'.callInfoMap = data.callInfoMap
  callExprParentMap : data'.callExprParentMap = data.callExprParentMap
  referencedInCalls : data'.referencedInCalls = data.referencedInCalls

theorem SameMaps.refl (data : EquivClassContainer) : SameMaps data data := ⟨rfl, rfl, rfl, rfl, rfl⟩

theorem SameMaps.trans {data'' : EquivClassContainer} (h : SameMaps data data') (h' : SameMaps data' data'') :
    SameMaps data data'' where
  functionMap := h'.functionMap.trans h.functionMap
  functionInfoMap := h'.functionInfoMap.trans h.functionInfoMap
  callInfoMap := h'.callInfoMap.trans h.callInfoMap
  callExprParentMap := h'.callExprParentMap.trans h.callExprParentMap
  referencedInCalls := h'.referencedInCalls.trans h.referencedInCalls

/-- The objects are the same as well, and related objects stay related. -/
structure Frame (data data' : EquivClassContainer) : Prop extends SameMaps data data' where
  known : ∀ {x}, data'.Known x ↔ data.Known x
  rel : ∀ {x y}, data.Rel x y → data'.Rel x y

theorem Frame.refl (data : EquivClassContainer) : Frame data data := ⟨.refl data, Iff.rfl, id⟩

theorem Frame.trans {data'' : EquivClassContainer} (h : Frame data data') (h' : Frame data' data'') : Frame data data'' where
  toSameMaps := h.toSameMaps.trans h'.toSameMaps
  known := h'.known.trans h.known
  rel hxy := h'.rel (h.rel hxy)

end EquivClassContainer
end MetaCG.AliasAnalysis
