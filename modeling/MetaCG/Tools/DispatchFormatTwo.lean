import MetaCG.Tools.MergeFileUnion
import MetaCG.Tools.OverrideClosure

/-! Virtual dispatch in the two loaders of `JSONManager.cpp`.

After `buildFromJSON` the override data of a virtual overriding function are closed. `buildFromJSONv2` runs the same
pass, but it never reads `doesOverride`, so the pass has nothing to do and the table says what the files say. -/
namespace MetaCG.FormatTwo
open Foundations
set_option autoImplicit false
set_option maxHeartbeats 250000
set_option maxRecDepth 120000

def overriddenBy (functionMap : FuncMap) (name : String) : Finset String :=
  match functionMap.find name with
  | some fi => fi.overriddenBy
  | none => ∅

/-- The overridden functions of `k` are closed, and `k` overrides exactly the functions that list it. -/
structure ClosedAt (functionMap : FuncMap) (k : String) : Prop where
  transitive : ∀ g h, g ∈ overriddenFunctions functionMap k → h ∈ overriddenFunctions functionMap g →
    h ∈ overriddenFunctions functionMap k
  inverse : ∀ g, g ∈ overriddenFunctions functionMap k ↔ k ∈ overriddenBy functionMap g

theorem overriddenFunctions_of_find {functionMap : FuncMap} {name : String} {fi : FunctionInfo}
    (h : functionMap.find name = some fi) : overriddenFunctions functionMap name = fi.overriddenFunctions := by
  rw [overriddenFunctions, h]

theorem overriddenBy_of_find {functionMap : FuncMap} {name : String} {fi : FunctionInfo}
    (h : functionMap.find name = some fi) : overriddenBy functionMap name = fi.overriddenBy := by
  rw [overriddenBy, h]

/-! ## Format one -/

section
variable {functionMap functionMap' : FuncMap}

/-- The override data of every function after the pass. -/
theorem TargetsAdded.mem_overriddenFunctions (h : TargetsAdded functionMap functionMap') (k g : String) :
    g ∈ overriddenFunctions functionMap' k ↔
      g ∈ overriddenFunctions functionMap k ∨ PotentialTarget (recorded functionMap) g k := by
  cases hfi : functionMap'.find k with
  | some fi =>
    rw [overriddenFunctions_of_find hfi, h.mem_functions k fi g hfi]
    refine or_congr_left ?_
    cases hold : functionMap.find k with
    | some old => rw [overriddenFunctions_of_find hold, Option.getD_some]
    | none =>
      rw [overriddenFunctions, hold]
      rfl
  | none =>
    have hnone : functionMap.find k = none := by
      have hiff := h.names k
      rw [hfi] at hiff
      simpa using fun hs => hiff.mpr (.inl hs)
    rw [overriddenFunctions, hfi, overriddenFunctions, hnone]
    refine iff_of_false (Finset.notMem_empty g) ?_
    rintro (hg | ⟨r, hr, -⟩)
    · exact Finset.notMem_empty g hg
    · rw [recorded, hnone] at hr
      cases hr

theorem TargetsAdded.mem_overriddenBy (h : TargetsAdded functionMap functionMap') (g k : String) :
    k ∈ overriddenBy functionMap' g ↔ k ∈ overriddenBy functionMap g ∨ PotentialTarget (recorded functionMap) g k := by
  cases hfi : functionMap'.find g with
  | some fi =>
    rw [overriddenBy_of_find hfi, h.mem_by g fi k hfi]
    refine or_congr_left ?_
    cases hold : functionMap.find g with
    | some old => rw [overriddenBy_of_find hold, Option.getD_some]
    | none =>
      rw [overriddenBy, hold]
      rfl
  | none =>
    have hiff := h.names g
    rw [hfi] at hiff
    have hnone : functionMap.find g = none := by simpa using fun hs => hiff.mpr (.inl hs)
    rw [overriddenBy, hfi, overriddenBy, hnone]
    refine iff_of_false (Finset.notMem_empty k) ?_
    rintro (hk | htarget)
    · exact Finset.notMem_empty k hk
    · exact Bool.false_ne_true (hiff.mpr (.inr ⟨k, htarget⟩))

/-- After the pass the functions that a virtual overriding function overrides are those that chains lead to. -/
theorem TargetsAdded.mem_iff_transGen (h : TargetsAdded functionMap functionMap') {k : String} {r : Overriding}
    (hr : recorded functionMap k = some r) (hv : r.isVirtual = true) (ho : r.doesOverride = true) (g : String) :
    g ∈ overriddenFunctions functionMap' k ↔ Relation.TransGen (Overrides (recorded functionMap)) k g := by
  rw [h.mem_overriddenFunctions]
  constructor
  · rintro (hg | ⟨-, -, -, -, hchain⟩)
    · exact .single (overrides_recorded.mpr hg)
    · exact hchain
  · exact fun hchain => .inr ⟨r, hr, hv, ho, hchain⟩

/-- The pass closes the override data of virtual overriding functions; only a pair that the data list on the side of
`overriddenBy` alone can stay without its inverse. -/
theorem TargetsAdded.closedAt (h : TargetsAdded functionMap functionMap') {k : String} {r : Overriding}
    (hr : recorded functionMap k = some r) (hv : r.isVirtual = true) (ho : r.doesOverride = true)
    (hlisted : ∀ g, k ∈ overriddenBy functionMap g → Relation.TransGen (Overrides (recorded functionMap)) k g) :
    ClosedAt functionMap' k where
  transitive := by
    intro g x hg hx
    rw [h.mem_iff_transGen hr hv ho] at hg ⊢
    rcases (h.mem_overriddenFunctions g x).mp hx with hx | ⟨-, -, -, -, hchain⟩
    · exact hg.tail (overrides_recorded.mpr hx)
    · exact hg.trans hchain
  inverse := by
    intro g
    rw [h.mem_iff_transGen hr hv ho, h.mem_overriddenBy]
    constructor
    · exact fun hchain => .inr ⟨r, hr, hv, ho, hchain⟩
    · rintro (hk | ⟨-, -, -, -, hchain⟩)
      · exact hlisted g hk
      · exact hchain

end

/-! ## Format two -/

/-- The function table after `buildFromJSONv2` on each file. -/
def loadFiles (cgs : List CG) : FuncMap := cgs.foldl buildFromJSONv2 .empty

theorem functionInfoMap_mergeGraphs (cgs : List CG) : (mergeGraphs cgs).functionInfoMap = loadFiles cgs := by
  induction cgs using List.reverseRecOn with
  | nil => rfl
  | append_singleton cgs cg ih =>
    rw [mergeGraphs_concat, loadFiles, List.foldl_concat, ← loadFiles, ← ih]
    rfl

/-- Some file lists `g` among the functions that `k` overrides. -/
def Recorded (cgs : List CG) (k g : String) : Prop := ∃ v ∈ occurrences cgs k, g ∈ v.overrides

/-- Some file lists `k` among the functions that override `g`. -/
def RecordedBy (cgs : List CG) (k g : String) : Prop := ∃ v ∈ occurrences cgs g, k ∈ v.overriddenBy

/-- The last file that has `k` states that it is virtual and overrides. -/
def StatesOverride (cgs : List CG) (k : String) : Prop :=
  ∃ v, (occurrences cgs k).getLast? = some v ∧ v.isVirtual = true ∧ v.doesOverride = true

theorem mem_overriddenFunctions_loadFiles (cgs : List CG) (k g : String) :
    g ∈ overriddenFunctions (loadFiles cgs) k ↔ Recorded cgs k g := by
  have htab := (tabled_mergeGraphs cgs).2 k
  rw [functionInfoMap_mergeGraphs] at htab
  cases hfi : (loadFiles cgs).find k with
  | some fi => rw [overriddenFunctions_of_find hfi, htab.overrides fi hfi, Recorded]
  | none =>
    have hnil : occurrences cgs k = [] := by simpa [hfi] using htab.isSome
    rw [overriddenFunctions, hfi, Recorded, hnil]
    simp

theorem mem_overriddenBy_loadFiles (cgs : List CG) (g k : String) :
    k ∈ overriddenBy (loadFiles cgs) g ↔ RecordedBy cgs k g := by
  have htab := (tabled_mergeGraphs cgs).2 g
  rw [functionInfoMap_mergeGraphs] at htab
  cases hfi : (loadFiles cgs).find g with
  | some fi => rw [overriddenBy_of_find hfi, htab.overriddenBy fi hfi, RecordedBy]
  | none =>
    have hnil : occurrences cgs g = [] := by simpa [hfi] using htab.isSome
    rw [overriddenBy, hfi, RecordedBy, hnil]
    simp

/-- A relation that is closed under one more step contains its chains. -/
theorem closed_iff_transGen {R : String → String → Prop} {k : String} :
    (∀ g h, R k g → R g h → R k h) ↔ ∀ g, Relation.TransGen R k g → R k g := by
  constructor
  · intro hclosed g hchain
    induction hchain with
    | single hg => exact hg
    | tail _ hgh ih => exact hclosed _ _ ih hgh
  · exact fun hchain g h hg hgh => hchain h (.tail (.single hg) hgh)

/-- The loaded table is closed at the virtual overriding functions exactly if the files list every chain from them
and the same pairs on both sides. -/
theorem loadFiles_closedAt_iff (cgs : List CG) :
    (∀ k, StatesOverride cgs k → ClosedAt (loadFiles cgs) k) ↔
      ∀ k, StatesOverride cgs k → (∀ g, Relation.TransGen (Recorded cgs) k g → Recorded cgs k g) ∧
        ∀ g, Recorded cgs k g ↔ RecordedBy cgs k g := by
  refine forall_congr' fun k => imp_congr_right fun _ => ?_
  rw [← closed_iff_transGen]
  constructor
  · rintro ⟨htrans, hinv⟩
    simp only [mem_overriddenFunctions_loadFiles, mem_overriddenBy_loadFiles] at htrans hinv
    exact ⟨htrans, hinv⟩
  · rintro ⟨htrans, hinv⟩
    refine ⟨?_, ?_⟩
    · simpa only [mem_overriddenFunctions_loadFiles] using htrans
    · simpa only [mem_overriddenFunctions_loadFiles, mem_overriddenBy_loadFiles] using hinv

/-! ### A chain of two steps -/

/-- A virtual method that overrides the methods `overrides`. -/
def method (overrides overriddenBy : Finset String) : Node :=
  ⟨∅, ∅, overrides, overriddenBy, true, true, true, ⟨0, ⟨"a.cpp", false⟩, .missing, .missing, .missing, .missing, none, none, none⟩⟩

/-- `f` overrides `g` and `g` overrides `h`. -/
def chainFile : CG :=
  ((OMap.empty.insert "f" (method {"g"} ∅)).insert "g" (method {"h"} {"f"})).insert "h" (method ∅ {"g"})

theorem not_closedAt_loadFiles : ¬∀ k, StatesOverride [chainFile] k → ClosedAt (loadFiles [chainFile]) k := by
  intro hclosed
  have hf : occurrences [chainFile] "f" = [method {"g"} ∅] := by decide
  have hg : occurrences [chainFile] "g" = [method {"h"} {"f"}] := by decide
  have htrans := (hclosed "f" ⟨method {"g"} ∅, by rw [hf]; rfl, rfl, rfl⟩).transitive "g" "h"
  simp only [mem_overriddenFunctions_loadFiles] at htrans
  obtain ⟨v, hv, hh⟩ := htrans ⟨_, by rw [hf]; exact List.mem_singleton_self _, by decide⟩
    ⟨_, by rw [hg]; exact List.mem_singleton_self _, by decide⟩
  rw [hf, List.mem_singleton] at hv
  rw [hv] at hh
  exact absurd hh (by decide)

end MetaCG.FormatTwo
