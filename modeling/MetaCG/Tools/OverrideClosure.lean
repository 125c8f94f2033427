import MetaCG.Foundations.Collect
import MetaCG.Tools.JSONManager

/-! The potential targets of virtual functions (`buildFromJSON`, `buildFromJSONv2`).

The passes over the function table are compared with chains in the recorded override data: `k` is a potential
target of everything that one or more steps lead to. -/
namespace MetaCG
open Foundations
set_option autoImplicit false
set_option maxHeartbeats 250000
set_option maxRecDepth 120000

/-- What a function table records of overriding. -/
structure Overriding where
  isVirtual : Bool
  doesOverride : Bool
  overriddenFunctions : Finset String
deriving DecidableEq

/-- One step in the override data. -/
def Overrides (recorded : String → Option Overriding) (a b : String) : Prop :=
  ∃ r, recorded a = some r ∧ b ∈ r.overriddenFunctions

def PotentialTarget (recorded : String → Option Overriding) (g k : String) : Prop :=
  ∃ r, recorded k = some r ∧ r.isVirtual = true ∧ r.doesOverride = true ∧ Relation.TransGen (Overrides recorded) k g

/-- The first step of the chain apart. -/
theorem potentialTarget_iff (recorded : String → Option Overriding) (g k : String) :
    PotentialTarget recorded g k ↔ ∃ r, recorded k = some r ∧ r.isVirtual = true ∧ r.doesOverride = true ∧
      ∃ o ∈ r.overriddenFunctions, Relation.ReflTransGen (Overrides recorded) o g := by
  refine exists_congr fun r => and_congr_right fun hr => and_congr_right fun _ => and_congr_right fun _ => ?_
  rw [Relation.TransGen.head'_iff]
  constructor
  · rintro ⟨o, ⟨r', hr', ho⟩, hchain⟩
    rw [hr] at hr'
    cases hr'
    exact ⟨o, ho, hchain⟩
  · rintro ⟨o, ho, hchain⟩
    exact ⟨o, ⟨r, hr, ho⟩, hchain⟩

namespace FormatTwo

def FunctionInfo.overriding (fi : FunctionInfo) : Overriding := ⟨fi.isVirtual, fi.doesOverride, fi.overriddenFunctions⟩

def recorded (functionMap : FuncMap) (name : String) : Option Overriding :=
  (functionMap.find name).map FunctionInfo.overriding

section
variable {functionMap : FuncMap}

theorem overrides_recorded {a b : String} :
    Overrides (recorded functionMap) a b ↔ b ∈ overriddenFunctions functionMap a := by
  unfold Overrides recorded overriddenFunctions
  cases functionMap.find a with
  | none => simp
  | some fi => simp [FunctionInfo.overriding]

/-! ## One search -/

/-- The search takes exactly the names that the queue leads to. -/
theorem mem_visitOverridden {s n : String} {V : Finset String} {Q : List String}
    (h : Search.Frontier (Overrides (recorded functionMap)) s V Q) :
    n ∈ visitOverridden functionMap V Q ↔ Relation.ReflTransGen (Overrides (recorded functionMap)) s n := by
  fun_induction visitOverridden functionMap V Q with
  | case1 V => exact h.done n
  | case2 V next Q ih =>
    refine ih (h.visit fun v => ?_)
    rw [List.mem_filter, mem_elements, decide_eq_true_iff, overrides_recorded]

/-! ## The first loop -/

/-- The pairs `(g, k)` of `S` are found: `k` is a potential target of `g`. -/
structure Found (functionMap : FuncMap) (S : Set (String × String)) (st : Targets) : Prop where
  kept : ∀ name fi, functionMap.find name = some fi → st.functionMap.find name = some fi
  added : ∀ name fi, functionMap.find name = none →
    (st.functionMap.find name = some fi ↔ fi = FunctionInfo.create ∧ ∃ k, (name, k) ∈ S)
  targets : ∀ g k, k ∈ (st.potentialTargets.find g).getD ∅ ↔ (g, k) ∈ S
  overrides : ∀ g k, g ∈ (st.overrides.find k).getD ∅ ↔ (g, k) ∈ S

variable {S : Set (String × String)} {st : Targets}

theorem Found.initial (functionMap : FuncMap) : Found functionMap ∅ ⟨functionMap, .empty, .empty⟩ where
  kept := fun _ _ h => h
  added := by
    intro name fi hnone
    simp [hnone]
  targets := by simp
  overrides := by simp

/-- New functions have no override data. -/
theorem Found.overrides_iff (h : Found functionMap S st) {a b : String} :
    Overrides (recorded st.functionMap) a b ↔ Overrides (recorded functionMap) a b := by
  unfold Overrides recorded
  cases hold : functionMap.find a with
  | some fi => rw [h.kept a fi hold]
  | none =>
    cases hnew : st.functionMap.find a with
    | none => rfl
    | some fi =>
      rw [((h.added a fi hold).mp hnew).1]
      simp [FunctionInfo.overriding, FunctionInfo.create]

theorem find_addNames (map : OMap String (Finset String)) (key k : String) (names : Finset String) :
    ((addNames map key names).find k).getD ∅ =
      if k = key then (map.find key).getD ∅ ∪ names else (map.find k).getD ∅ := by
  rw [addNames, OMap.find_insert]
  split_ifs <;> rfl

theorem mem_foldl_addNames (names : List String) (k : String) (map : OMap String (Finset String)) (g t : String) :
    t ∈ ((names.foldl (fun m next => addNames m next {k}) map).find g).getD ∅ ↔
      t ∈ (map.find g).getD ∅ ∨ (t = k ∧ g ∈ names) := by
  induction names generalizing map with
  | nil => simp
  | cons name names ih =>
    rw [List.foldl_cons, ih, find_addNames]
    split_ifs with hg
    · simp only [hg, Finset.mem_union, Finset.mem_singleton, List.mem_cons, true_or, and_true]
      tauto
    · rw [List.mem_cons, or_iff_right hg]

theorem find_emplaced (names : List String) (m : FuncMap) (name : String) (fi : FunctionInfo) :
    (names.foldl (fun m next => m.emplace next FunctionInfo.create) m).find name = some fi ↔
      m.find name = some fi ∨ (m.find name = none ∧ fi = FunctionInfo.create ∧ name ∈ names) := by
  induction names generalizing m with
  | nil => simp
  | cons next names ih =>
    rw [List.foldl_cons, ih, OMap.find_emplace]
    cases hm : m.find name with
    | some old => simp
    | none =>
      rw [Option.none_or, List.mem_cons]
      split_ifs with hn
      · simp [hn, eq_comm]
      · simp [hn]

/-- The pairs that one overridden function of `k` leads to. -/
def leadsTo (functionMap : FuncMap) (k o : String) : Set (String × String) :=
  {p | p.2 = k ∧ Relation.ReflTransGen (Overrides (recorded functionMap)) o p.1}

theorem Found.addOverridden (h : Found functionMap S st) (k o : String) :
    Found functionMap (S ∪ leadsTo functionMap k o) (addOverridden k st o) := by
  have hreach : ∀ n, n ∈ visitOverridden st.functionMap ∅ [o] ↔
      Relation.ReflTransGen (Overrides (recorded functionMap)) o n := by
    intro n
    have hsame : Overrides (recorded st.functionMap) = Overrides (recorded functionMap) :=
      funext fun a => funext fun b => propext h.overrides_iff
    rw [mem_visitOverridden Search.Frontier.initial, hsame]
  have hvisited : ∀ g k', (g, k') ∈ leadsTo functionMap k o ↔ k' = k ∧ g ∈ elements (visitOverridden st.functionMap ∅ [o]) := by
    intro g k'
    rw [mem_elements, hreach]
    rfl
  constructor
  · intro name fi hfi
    exact (find_emplaced _ _ _ _).mpr (.inl (h.kept name fi hfi))
  · intro name fi hnone
    have hstep := find_emplaced (elements (visitOverridden st.functionMap ∅ [o])) st.functionMap name fi
    refine hstep.trans ?_
    rw [h.added name fi hnone]
    constructor
    · rintro (⟨hfi, k', hk'⟩ | ⟨-, hfi, hname⟩)
      · exact ⟨hfi, k', .inl hk'⟩
      · exact ⟨hfi, k, .inr ((hvisited name k).mpr ⟨rfl, hname⟩)⟩
    · rintro ⟨hfi, k', hk' | hk'⟩
      · exact .inl ⟨hfi, k', hk'⟩
      · by_cases hin : ∃ k'', (name, k'') ∈ S
        · exact .inl ⟨hfi, hin⟩
        · refine .inr ⟨Option.eq_none_iff_forall_ne_some.mpr fun fi' hfi' => hin ?_, hfi, ((hvisited name k').mp hk').2⟩
          exact ((h.added name fi' hnone).mp hfi').2
  · intro g k'
    change k' ∈ (((elements _).foldl (fun m next => addNames m next {k}) st.potentialTargets).find g).getD ∅ ↔ _
    rw [mem_foldl_addNames, h.targets, Set.mem_union, hvisited]
  · intro g k'
    change g ∈ ((addNames st.overrides k _).find k').getD ∅ ↔ _
    rw [find_addNames, Set.mem_union, hvisited, mem_elements]
    split_ifs with hk
    · rw [Finset.mem_union, h.overrides, hk]
      simp
    · rw [h.overrides]
      simp [hk]

/-- The pairs that one function of the table adds. -/
def targetsOf (functionMap : FuncMap) (it : String × FunctionInfo) : Set (String × String) :=
  {p | p.2 = it.1 ∧ it.2.isVirtual = true ∧ it.2.doesOverride = true ∧
    ∃ o ∈ it.2.overriddenFunctions, Relation.ReflTransGen (Overrides (recorded functionMap)) o p.1}

theorem Found.addPotentialTarget (h : Found functionMap S st) (it : String × FunctionInfo) :
    Found functionMap (S ∪ targetsOf functionMap it) (addPotentialTarget st it) := by
  unfold FormatTwo.addPotentialTarget
  split_ifs with hc
  · rw [Bool.and_eq_true] at hc
    have hset : targetsOf functionMap it =
        {p | ∃ o ∈ elements it.2.overriddenFunctions, p ∈ leadsTo functionMap it.1 o} := by
      refine Set.ext fun p => ?_
      simp only [targetsOf, leadsTo, Set.mem_ofPred_eq, hc.1, hc.2, true_and, mem_elements]
      constructor
      · rintro ⟨hp, o, ho, hreach⟩
        exact ⟨o, ho, hp, hreach⟩
      · rintro ⟨o, ho, hp, hreach⟩
        exact ⟨hp, o, ho, hreach⟩
    rw [hset]
    exact foldl_collect (fun S st o _ hst => hst.addOverridden it.1 o) h
  · have hset : targetsOf functionMap it = ∅ := by
      refine Set.eq_empty_of_forall_notMem fun p hp => hc ?_
      rw [Bool.and_eq_true]
      exact ⟨hp.2.1, hp.2.2.1⟩
    rw [hset, Set.union_empty]
    exact h

/-- The first loop finds exactly the potential targets. -/
theorem found_potentialTargets (functionMap : FuncMap) :
    Found functionMap {p | PotentialTarget (recorded functionMap) p.1 p.2}
      (functionMap.entries.foldl addPotentialTarget ⟨functionMap, .empty, .empty⟩) := by
  have hloop := foldl_collect (Q := targetsOf functionMap) (I := Found functionMap)
    (fun S st it (_ : it ∈ functionMap.entries) hst => hst.addPotentialTarget it) (Found.initial functionMap)
  have hset : {p : String × String | PotentialTarget (recorded functionMap) p.1 p.2} =
      ∅ ∪ {p | ∃ it ∈ functionMap.entries, p ∈ targetsOf functionMap it} := by
    refine Set.ext fun p => ?_
    rw [Set.empty_union, Set.mem_ofPred_eq, potentialTarget_iff]
    constructor
    · rintro ⟨r, hr, hv, ho, hstep⟩
      obtain ⟨fi, hfi, rfl⟩ := Option.map_eq_some_iff.mp hr
      exact ⟨(p.2, fi), OMap.mem_entries.mpr hfi, rfl, hv, ho, hstep⟩
    · rintro ⟨it, hit, hp, hv, ho, hstep⟩
      refine ⟨it.2.overriding, ?_, hv, ho, hstep⟩
      rw [recorded, hp, OMap.mem_entries.mp hit]
      rfl
  rw [hset]
  exact hloop

/-! ## The second loop -/

/-- The two sets that the second loop extends; everything else is as in the table before, and a function that
only the override data mention is new. -/
structure TargetsAdded (functionMap functionMap' : FuncMap) : Prop where
  names : ∀ name, (functionMap'.find name).isSome ↔
    (functionMap.find name).isSome ∨ ∃ k, PotentialTarget (recorded functionMap) name k
  fields : ∀ name fi, functionMap'.find name = some fi →
    fi = { (functionMap.find name).getD FunctionInfo.create with
      overriddenBy := fi.overriddenBy, overriddenFunctions := fi.overriddenFunctions }
  mem_by : ∀ name fi k, functionMap'.find name = some fi → (k ∈ fi.overriddenBy ↔
    k ∈ ((functionMap.find name).getD FunctionInfo.create).overriddenBy ∨ PotentialTarget (recorded functionMap) name k)
  mem_functions : ∀ name fi g, functionMap'.find name = some fi → (g ∈ fi.overriddenFunctions ↔
    g ∈ ((functionMap.find name).getD FunctionInfo.create).overriddenFunctions ∨
      PotentialTarget (recorded functionMap) g name)

/-- The table that the second loop runs over. -/
theorem Found.find_eq (h : Found functionMap S st) {name : String} {fi : FunctionInfo}
    (hfi : st.functionMap.find name = some fi) : fi = (functionMap.find name).getD FunctionInfo.create := by
  cases hold : functionMap.find name with
  | some old =>
    rw [h.kept name old hold] at hfi
    exact (Option.some.inj hfi).symm
  | none => exact ((h.added name fi hold).mp hfi).1

theorem Found.isSome_iff (h : Found functionMap S st) (name : String) :
    (st.functionMap.find name).isSome ↔ (functionMap.find name).isSome ∨ ∃ k, (name, k) ∈ S := by
  cases hold : functionMap.find name with
  | some old => simp [h.kept name old hold]
  | none =>
    rw [Option.isSome_iff_exists]
    constructor
    · rintro ⟨fi, hfi⟩
      exact .inr ((h.added name fi hold).mp hfi).2
    · rintro (hcontra | hin)
      · cases hcontra
      · exact ⟨FunctionInfo.create, (h.added name _ hold).mpr ⟨rfl, hin⟩⟩

theorem addPotentialTargets_targetsAdded (functionMap : FuncMap) :
    TargetsAdded functionMap (addPotentialTargets functionMap) := by
  have hfound := found_potentialTargets functionMap
  have hfind : ∀ name fi, (addPotentialTargets functionMap).find name = some fi → ∃ old : FunctionInfo,
      old = (functionMap.find name).getD FunctionInfo.create ∧ fi = { old with
        overriddenBy := old.overriddenBy ∪ ((functionMap.entries.foldl addPotentialTarget
          ⟨functionMap, .empty, .empty⟩).potentialTargets.find name).getD ∅
        overriddenFunctions := old.overriddenFunctions ∪ ((functionMap.entries.foldl addPotentialTarget
          ⟨functionMap, .empty, .empty⟩).overrides.find name).getD ∅ } := by
    intro name fi hfi
    rw [addPotentialTargets, OMap.find_mapValues] at hfi
    obtain ⟨old, hold, rfl⟩ := Option.map_eq_some_iff.mp hfi
    exact ⟨old, hfound.find_eq hold, rfl⟩
  refine ⟨fun name => ?_, fun name fi hfi => ?_, fun name fi k hfi => ?_, fun name fi g hfi => ?_⟩
  · rw [addPotentialTargets, OMap.find_mapValues, Option.isSome_map]
    exact hfound.isSome_iff name
  · obtain ⟨old, hold, rfl⟩ := hfind name fi hfi
    rw [← hold]
  · obtain ⟨old, hold, rfl⟩ := hfind name fi hfi
    rw [← hold, Finset.mem_union, hfound.targets]
    rfl
  · obtain ⟨old, hold, rfl⟩ := hfind name fi hfi
    rw [← hold, Finset.mem_union, hfound.overrides]
    rfl

end
end FormatTwo

/-! ## Files of format one -/

namespace FormatOne

/-- The JSON value of a function. -/
structure Node where
  numStatements : ℤ
  hasBody : Bool
  isVirtual : Bool
  doesOverride : Bool
  callees : Finset String
  overriddenFunctions : Finset String
  overriddenBy : Finset String
  parents : Finset String
deriving DecidableEq

/-- One round of the loop that reads a file; `numStatements` is -1 when there was no definition. -/
def readFunction (functionMap : FormatTwo.FuncMap) (it : String × Node) : FormatTwo.FuncMap :=
  let fi := { FormatTwo.getOrInsert it.1 functionMap with functionName := it.1, hasBody := it.2.hasBody }
  let fi := if it.2.numStatements > -1 then
      { fi with
        numStatements := it.2.numStatements
        isVirtual := it.2.isVirtual
        doesOverride := it.2.doesOverride }
    else fi
  functionMap.insert it.1
    { fi with
      callees := fi.callees ∪ it.2.callees
      overriddenFunctions := fi.overriddenFunctions ∪ it.2.overriddenFunctions
      overriddenBy := fi.overriddenBy ∪ it.2.overriddenBy
      parents := fi.parents ∪ it.2.parents }

/-- The function table after `buildFromJSON` on the file `j`. -/
def buildFromJSON (functionMap : FormatTwo.FuncMap) (j : OMap String Node) : FormatTwo.FuncMap :=
  FormatTwo.addPotentialTargets (j.entries.foldl readFunction functionMap)

end FormatOne
end MetaCG
