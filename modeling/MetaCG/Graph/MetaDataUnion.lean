import MetaCG.Foundations.Unite
import MetaCG.Graph.MetaDataMerge

/-! The metadata kinds whose merge is a union of what the values say.

A loop depth or statement count says which depths it reaches, a loop call depth says so for every
called function, override metadata lists ids. Merging two values of one of these kinds gives a value
that says what either of them says. -/
namespace MetaCG
open Foundations
set_option autoImplicit false
set_option maxHeartbeats 250000
set_option maxRecDepth 120000

theorem int32_le_max (d a b : Int32) : d ≤ max a b ↔ d ≤ a ∨ d ≤ b := by
  have hmax : max a b = if a ≤ b then b else a := rfl
  rw [hmax]
  split_ifs with h <;> simp only [Int32.le_iff_toInt_le] at * <;> omega

theorem int32_ext_le {a b : Int32} (h : ∀ d, d ≤ a ↔ d ≤ b) : a = b := by
  have hab := (h a).mp (Int32.le_refl a)
  have hba := (h b).mpr (Int32.le_refl b)
  exact Int32.le_antisymm hab hba

/-! ## The maps of `LoopCallDepthMD` -/

/-- The larger of two optional depths; a missing one does not count. -/
def maxDepth : Option Int32 → Option Int32 → Option Int32
  | some v, some w => some (max v w)
  | some v, none => some v
  | none, w => w

theorem raise_eq_max (v w : Int32) : (if w > v then w else v) = max v w := by
  refine int32_ext_le fun d => ?_
  rw [int32_le_max]
  split_ifs with h
  · simp only [gt_iff_lt, Int32.lt_iff_toInt_lt, Int32.le_iff_toInt_le] at *
    omega
  · simp only [gt_iff_lt, Int32.lt_iff_toInt_lt, Int32.le_iff_toInt_le] at *
    omega

theorem find_mergeLoopFunctionMap (own other : OMap String Int32) (f : String) :
    (mergeLoopFunctionMap own other).find f = maxDepth (own.find f) (other.find f) := by
  have hemplace : ∀ (m : OMap String Int32) (e : String × Int32),
      (if (m.find e.1).isNone then m.insert e.1 e.2 else m) = m.emplace e.1 e.2 := by
    intro m e
    unfold OMap.emplace
    cases m.find e.1 <;> rfl
  unfold mergeLoopFunctionMap
  simp only [hemplace]
  change ((OMap.mapValues _ own).union other).find f = _
  rw [OMap.find_union, OMap.find_mapValues]
  cases own.find f with
  | none => rfl
  | some v =>
    cases other.find f with
    | none => rfl
    | some w => exact congrArg some (raise_eq_max v w)

namespace MetaData

/-- What a metadata value can say. -/
inductive Fact where
  | reaches (depth : Int32)
  | callReaches (calledFunction : String) (depth : Int32)
  | overrides (id : ℕ)
  | overriddenBy (id : ℕ)

def facts : MetaData → Set Fact
  | .override md => {x | (∃ id ∈ md.overrides, x = .overrides id) ∨ ∃ id ∈ md.overriddenBy, x = .overriddenBy id}
  | .numStatements n | .loopDepth n | .globalLoopDepth n => {x | ∃ d ≤ n, x = .reaches d}
  | .loopCallDepth m => {x | ∃ f v d, m.find f = some v ∧ d ≤ v ∧ x = .callReaches f d}
  | _ => ∅

/-- The keys of the kinds whose merge unites. -/
def unitedKeys : List String := ["loopDepth", "globalLoopDepth", "loopCallDepth", "numStatements", "overrideMD"]

/-- Equal stored values; the two lists of an `OverrideMD` are read as sets. -/
def SameValue : MetaData → MetaData → Prop
  | .override a, .override b => (∀ id, id ∈ a.overrides ↔ id ∈ b.overrides) ∧
      ∀ id, id ∈ a.overriddenBy ↔ id ∈ b.overriddenBy
  | a, b => a = b

/-- A value of the kind `key` whose ids the mapping maps to themselves. -/
structure OfKind (key : String) (mapping : GraphMapping) (md : MetaData) : Prop where
  kind : md.getKey = key
  identity : ∀ id ∈ md.refs, mapping.lookup id = some id

/-! ## One merge -/

theorem facts_loopDepth_max (a b : Int32) : {x | ∃ d ≤ max a b, x = Fact.reaches d} =
    {x | ∃ d ≤ a, x = Fact.reaches d} ∪ {x | ∃ d ≤ b, x = Fact.reaches d} := by
  ext x
  simp only [Set.mem_ofPred_eq, Set.mem_union, int32_le_max]
  rw [← exists_or]
  exact exists_congr fun d => or_and_right

theorem facts_mergeLoopFunctionMap (a b : OMap String Int32) :
    facts (.loopCallDepth (mergeLoopFunctionMap a b)) = facts (.loopCallDepth a) ∪ facts (.loopCallDepth b) := by
  ext x
  simp only [facts, Set.mem_ofPred_eq, Set.mem_union, find_mergeLoopFunctionMap]
  constructor
  · rintro ⟨f, v, d, hf, hd, rfl⟩
    cases ha : a.find f with
    | none =>
      rw [ha] at hf
      exact .inr ⟨f, v, d, hf, hd, rfl⟩
    | some va =>
      cases hb : b.find f with
      | none =>
        rw [ha, hb] at hf
        exact .inl ⟨f, v, d, ha.trans hf, hd, rfl⟩
      | some vb =>
        rw [ha, hb] at hf
        cases hf
        exact ((int32_le_max d va vb).mp hd).imp (fun h => ⟨f, va, d, ha, h, rfl⟩) (fun h => ⟨f, vb, d, hb, h, rfl⟩)
  · rintro (⟨f, v, d, hf, hd, rfl⟩ | ⟨f, v, d, hf, hd, rfl⟩)
    · cases hb : b.find f with
      | none => exact ⟨f, v, d, by rw [hf, hb]; rfl, hd, rfl⟩
      | some vb => exact ⟨f, max v vb, d, by rw [hf, hb]; rfl, (int32_le_max d v vb).mpr (.inl hd), rfl⟩
    · cases ha : a.find f with
      | none => exact ⟨f, v, d, by rw [hf, ha]; rfl, hd, rfl⟩
      | some va => exact ⟨f, max va v, d, by rw [hf, ha]; rfl, (int32_le_max d va v).mpr (.inr hd), rfl⟩

theorem OfKind.mapped {key : String} {mapping : GraphMapping} {md : MetaData} (h : OfKind key mapping md) :
    Mapped mapping md.refs := fun id hid => ⟨id, h.identity id hid⟩

theorem unite_override {a b : OverrideMD} {mapping : GraphMapping} (ha : OfKind "overrideMD" mapping (.override a))
    (hb : OfKind "overrideMD" mapping (.override b)) (action : Option MergeAction) :
    ∃ m, (MetaData.override a).merge (.override b) action mapping = .ok (.override m) ∧
      OfKind "overrideMD" mapping (.override m) ∧
      facts (.override m) = facts (.override a) ∪ facts (.override b) := by
  obtain ⟨m, hm, hover, hby⟩ := a.merge_spec b hb.mapped
  -- the mapping is the identity, so the merged lists hold the ids of both
  have hid₁ : ∀ x, x ∈ m.overrides ↔ x ∈ a.overrides ∨ x ∈ b.overrides := by
    intro x
    rw [hover]
    refine or_congr_right ⟨?_, fun hx => ⟨x, hx, hb.identity x (List.mem_append_left _ hx)⟩⟩
    rintro ⟨y, hy, hl⟩
    rw [hb.identity y (List.mem_append_left _ hy)] at hl
    cases hl
    exact hy
  have hid₂ : ∀ x, x ∈ m.overriddenBy ↔ x ∈ a.overriddenBy ∨ x ∈ b.overriddenBy := by
    intro x
    rw [hby]
    refine or_congr_right ⟨?_, fun hx => ⟨x, hx, hb.identity x (List.mem_append_right _ hx)⟩⟩
    rintro ⟨y, hy, hl⟩
    rw [hb.identity y (List.mem_append_right _ hy)] at hl
    cases hl
    exact hy
  refine ⟨m, by simp only [merge, hm]; rfl, ⟨rfl, fun id hx => ?_⟩, Set.ext fun x => ?_⟩
  · rcases List.mem_append.mp hx with hx | hx
    · exact ((hid₁ id).mp hx).elim (fun h => ha.identity id (List.mem_append_left _ h))
        (fun h => hb.identity id (List.mem_append_left _ h))
    · exact ((hid₂ id).mp hx).elim (fun h => ha.identity id (List.mem_append_right _ h))
        (fun h => hb.identity id (List.mem_append_right _ h))
  · simp only [facts, Set.mem_ofPred_eq, Set.mem_union, hid₁, hid₂, or_and_right, exists_or]
    exact or_or_or_comm

/-- The values of a united kind, by cases. -/
theorem OfKind.cases {key : String} {mapping : GraphMapping} {a b : MetaData} (hkey : key ∈ unitedKeys)
    (ha : OfKind key mapping a) (hb : OfKind key mapping b) :
    (∃ x y, a = .loopDepth x ∧ b = .loopDepth y) ∨ (∃ x y, a = .globalLoopDepth x ∧ b = .globalLoopDepth y) ∨
    (∃ x y, a = .loopCallDepth x ∧ b = .loopCallDepth y) ∨ (∃ x y, a = .numStatements x ∧ b = .numStatements y) ∨
    ∃ x y, key = "overrideMD" ∧ a = .override x ∧ b = .override y := by
  obtain ⟨rfl, -⟩ := ha
  obtain ⟨hkind, -⟩ := hb
  cases a with
  | override x => cases b <;> simp_all [getKey]
  | loopDepth x => cases b <;> simp_all [getKey]
  | globalLoopDepth x => cases b <;> simp_all [getKey]
  | loopCallDepth x => cases b <;> simp_all [getKey]
  | numStatements x => cases b <;> simp_all [getKey]
  | _ => exact absurd hkey (by simp [unitedKeys, getKey])

theorem merge_unites {key : String} (hkey : key ∈ unitedKeys) (mapping : GraphMapping) :
    Unites facts (OfKind key mapping) fun own toMerge action => own.merge toMerge action mapping := by
  intro a b action ha hb
  rcases ha.cases hkey hb with ⟨x, y, rfl, rfl⟩ | ⟨x, y, rfl, rfl⟩ | ⟨x, y, rfl, rfl⟩ | ⟨x, y, rfl, rfl⟩ | ⟨x, y, rfl, rfl, rfl⟩
  · exact ⟨.loopDepth (max y x), rfl, ⟨ha.kind, nofun⟩, (facts_loopDepth_max y x).trans (Set.union_comm _ _)⟩
  · exact ⟨.globalLoopDepth (max x y), rfl, ⟨ha.kind, nofun⟩, facts_loopDepth_max x y⟩
  · exact ⟨.loopCallDepth (mergeLoopFunctionMap x y), rfl, ⟨ha.kind, nofun⟩, facts_mergeLoopFunctionMap x y⟩
  · exact ⟨.numStatements (max x y), rfl, ⟨ha.kind, nofun⟩, facts_loopDepth_max x y⟩
  · obtain ⟨m, hm, hkind, hfacts⟩ := unite_override ha hb action
    exact ⟨.override m, hm, hkind, hfacts⟩

/-! ## Equal facts are equal values -/

theorem loopFunctionMap_ext {a b : OMap String Int32} (h : facts (.loopCallDepth a) = facts (.loopCallDepth b)) : a = b := by
  have hmem : ∀ f d, (∃ v, a.find f = some v ∧ d ≤ v) ↔ ∃ v, b.find f = some v ∧ d ≤ v := by
    intro f d
    have hx := Set.ext_iff.mp h (.callReaches f d)
    simp only [facts, Set.mem_ofPred_eq, Fact.callReaches.injEq] at hx
    constructor
    · rintro ⟨v, hv, hd⟩
      obtain ⟨f', v', d', hf, hd', rfl, rfl⟩ := hx.mp ⟨f, v, d, hv, hd, rfl, rfl⟩
      exact ⟨v', hf, hd'⟩
    · rintro ⟨v, hv, hd⟩
      obtain ⟨f', v', d', hf, hd', rfl, rfl⟩ := hx.mpr ⟨f, v, d, hv, hd, rfl, rfl⟩
      exact ⟨v', hf, hd'⟩
  refine OMap.ext_entries (Ordered.ext_find a.sorted b.sorted fun f => ?_)
  change a.find f = b.find f
  cases ha : a.find f with
  | none =>
    cases hb : b.find f with
    | none => rfl
    | some w =>
      obtain ⟨v, hv, -⟩ := (hmem f w).mpr ⟨w, hb, Int32.le_refl w⟩
      rw [ha] at hv
      cases hv
  | some v =>
    obtain ⟨w, hw, -⟩ := (hmem f v).mp ⟨v, ha, Int32.le_refl v⟩
    rw [hw]
    refine congrArg some (int32_ext_le fun d => ?_)
    have hd := hmem f d
    rw [ha, hw] at hd
    simpa using hd

theorem loopDepth_ext {a b : Int32} (h : {x | ∃ d ≤ a, x = Fact.reaches d} = {x | ∃ d ≤ b, x = Fact.reaches d}) : a = b := by
  refine int32_ext_le fun d => ?_
  have hx := Set.ext_iff.mp h (.reaches d)
  simpa using hx

theorem sameValue_override_iff (a b : OverrideMD) :
    SameValue (.override a) (.override b) ↔ facts (.override a) = facts (.override b) := by
  constructor
  · rintro ⟨h₁, h₂⟩
    ext x
    simp only [facts, Set.mem_ofPred_eq, h₁, h₂]
  · intro h
    constructor
    · intro id
      have hx := Set.ext_iff.mp h (.overrides id)
      simpa [facts] using hx
    · intro id
      have hx := Set.ext_iff.mp h (.overriddenBy id)
      simpa [facts] using hx

theorem OfKind.sameValue_iff {key : String} {mapping : GraphMapping} {a b : MetaData} (hkey : key ∈ unitedKeys)
    (ha : OfKind key mapping a) (hb : OfKind key mapping b) : SameValue a b ↔ facts a = facts b := by
  rcases ha.cases hkey hb with ⟨x, y, rfl, rfl⟩ | ⟨x, y, rfl, rfl⟩ | ⟨x, y, rfl, rfl⟩ | ⟨x, y, rfl, rfl⟩ | ⟨x, y, -, rfl, rfl⟩
  · exact ⟨congrArg facts, fun h => congrArg MetaData.loopDepth (loopDepth_ext h)⟩
  · exact ⟨congrArg facts, fun h => congrArg MetaData.globalLoopDepth (loopDepth_ext h)⟩
  · exact ⟨congrArg facts, fun h => congrArg MetaData.loopCallDepth (loopFunctionMap_ext h)⟩
  · exact ⟨congrArg facts, fun h => congrArg MetaData.numStatements (loopDepth_ext h)⟩
  · exact sameValue_override_iff x y

/-! ## The laws -/

/-- The merges of a list of values, each with its action, into `own`. -/
def mergeAll (own : MetaData) (l : List (MetaData × Option MergeAction)) (mapping : GraphMapping) : Except Exn MetaData :=
  l.foldlM (fun own e => own.merge e.1 e.2 mapping) own

def MergeCommutes (key : String) (mapping : GraphMapping) : Prop :=
  ∀ a b action action', OfKind key mapping a → OfKind key mapping b →
    ∃ r r', a.merge b action mapping = .ok r ∧ b.merge a action' mapping = .ok r' ∧ SameValue r r'

def MergeAssociates (key : String) (mapping : GraphMapping) : Prop :=
  ∀ a b c i j k l, OfKind key mapping a → OfKind key mapping b → OfKind key mapping c →
    ∃ ab r bc r', a.merge b i mapping = .ok ab ∧ ab.merge c j mapping = .ok r ∧
      b.merge c k mapping = .ok bc ∧ a.merge bc l mapping = .ok r' ∧ SameValue r r'

def MergeIdempotent (key : String) (mapping : GraphMapping) : Prop :=
  ∀ a action, OfKind key mapping a → ∃ r, a.merge a action mapping = .ok r ∧ SameValue r a

/-- Sequences with the same set of values end in the same value. -/
def MergeDependsOnSet (key : String) (mapping : GraphMapping) : Prop :=
  ∀ own own' l l', (∀ v ∈ own :: l.map Prod.fst, OfKind key mapping v) → (∀ v ∈ own' :: l'.map Prod.fst, OfKind key mapping v) →
    (∀ v ∈ own :: l.map Prod.fst, ∃ w ∈ own' :: l'.map Prod.fst, SameValue v w) →
    (∀ w ∈ own' :: l'.map Prod.fst, ∃ v ∈ own :: l.map Prod.fst, SameValue w v) →
    ∃ r r', mergeAll own l mapping = .ok r ∧ mergeAll own' l' mapping = .ok r' ∧ SameValue r r'

/-- The result of merging loop call depths: all keys, each with the larger of its depths. -/
def MergesPointwise : Prop := ∀ own other action mapping,
  ∃ m, (MetaData.loopCallDepth own).merge (.loopCallDepth other) action mapping = .ok (.loopCallDepth m) ∧
    ∀ f, m.find f = maxDepth (own.find f) (other.find f)

theorem mergeDependsOnSet {key : String} (hkey : key ∈ unitedKeys) (mapping : GraphMapping) :
    MergeDependsOnSet key mapping := by
  intro own own' l l' hl hl' hsub hsub'
  have hmem : ∀ {l : List (MetaData × Option MergeAction)} {own : MetaData},
      (∀ v ∈ own :: l.map Prod.fst, OfKind key mapping v) → ∀ e ∈ l, OfKind key mapping e.1 := fun h e he =>
    h e.1 (List.mem_cons_of_mem _ (List.mem_map_of_mem he))
  obtain ⟨r, r', hr, hr', hpr, hpr', hfacts⟩ := (merge_unites hkey mapping).foldlM_congr (hl own (List.mem_cons_self ..))
    (hl' own' (List.mem_cons_self ..)) (hmem hl) (hmem hl')
    (fun v hv => by
      obtain ⟨w, hw, hvw⟩ := hsub v hv
      exact ⟨w, hw, ((hl v hv).sameValue_iff hkey (hl' w hw)).mp hvw⟩)
    (fun w hw => by
      obtain ⟨v, hv, hwv⟩ := hsub' w hw
      exact ⟨v, hv, ((hl' w hw).sameValue_iff hkey (hl v hv)).mp hwv⟩)
  exact ⟨r, r', hr, hr', (hpr.sameValue_iff hkey hpr').mpr hfacts⟩

/-- The merges of the five kinds are commutative, associative and idempotent whatever the actions,
and a sequence of merges depends on the set of its values only. -/
theorem merge_semilattice {key : String} (hkey : key ∈ unitedKeys) (mapping : GraphMapping) :
    MergeCommutes key mapping ∧ MergeAssociates key mapping ∧ MergeIdempotent key mapping ∧
      MergeDependsOnSet key mapping ∧ MergesPointwise := by
  have hunites := merge_unites hkey mapping
  refine ⟨?_, ?_, ?_, mergeDependsOnSet hkey mapping, ?_⟩
  · intro a b action action' ha hb
    obtain ⟨r, r', hr, hr', hpr, hpr', hfacts⟩ := hunites.comm ha hb action action'
    exact ⟨r, r', hr, hr', (hpr.sameValue_iff hkey hpr').mpr hfacts⟩
  · intro a b c i j k l ha hb hc
    obtain ⟨ab, r, bc, r', hab, hr, hbc, hr', hpr, hpr', hfacts⟩ := hunites.assoc ha hb hc i j k l
    exact ⟨ab, r, bc, r', hab, hr, hbc, hr', (hpr.sameValue_iff hkey hpr').mpr hfacts⟩
  · intro a action ha
    obtain ⟨r, hr, hpr, hfacts⟩ := hunites.idem ha action
    exact ⟨r, hr, (hpr.sameValue_iff hkey ha).mpr hfacts⟩
  · exact fun own other _ _ => ⟨mergeLoopFunctionMap own other, rfl, find_mergeLoopFunctionMap own other⟩

def ownIds : GraphMapping := AList.insert 1 1 (AList.insert 2 2 ∅)

/-- The laws at two overriding functions, 1 and 2. -/
theorem merge_semilattice_overrides :
    OfKind "overrideMD" ownIds (.override ⟨[1, 2, 1], []⟩) ∧
    OfKind "overrideMD" ownIds (.override ⟨[2], [1]⟩) ∧
    MergeCommutes "overrideMD" ownIds ∧
    MergeAssociates "overrideMD" ownIds ∧
    MergeIdempotent "overrideMD" ownIds ∧
    MergeDependsOnSet "overrideMD" ownIds ∧ MergesPointwise :=
  ⟨⟨rfl, by decide⟩, ⟨rfl, by decide⟩, merge_semilattice (by decide) _⟩

end MetaData
end MetaCG
