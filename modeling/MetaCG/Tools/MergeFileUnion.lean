import MetaCG.Tools.LoopNests
import MetaCG.Tools.MergeFileFormatTwo

/-! What `mergeFileFormatTwo` makes of the files: for every function the union of what they say.

The occurrences of a function are merged one after the other. Callers are united in all four
branches, callees in those in which the new occurrence has a body, and the override data in the
function table; an occurrence without body has no callees to lose. -/
namespace MetaCG.FormatTwo
open Foundations
set_option autoImplicit false
set_option maxHeartbeats 250000
set_option maxRecDepth 120000

/-! ## Merging one occurrence -/

section
variable (b : Bool) (c v : Node)

theorem mergeBodies_callers : (mergeBodies b c v).2.callers = c.callers := by
  unfold mergeBodies
  dsimp only
  split_ifs <;> rfl

theorem mergeNode_callers : (mergeNode b c v).2.callers = c.callers ∪ v.callers := by
  change (mergeBodies b c v).2.callers ∪ v.callers = _
  rw [mergeBodies_callers]

theorem mergeNode_callees : (mergeNode b c v).2.callees = if v.hasBody then c.callees ∪ v.callees else c.callees := by
  change (mergeBodies b c v).2.callees = _
  unfold mergeBodies
  cases hv : v.hasBody <;> cases hc : c.hasBody <;>
    simp only [Bool.and_self, Bool.and_true, Bool.and_false, if_true, if_false, Bool.false_eq_true]
  · split_ifs <;> rfl
  · split_ifs <;> rfl

theorem mergeNode_hasBody : (mergeNode b c v).2.hasBody = (c.hasBody || v.hasBody) := by
  change (mergeBodies b c v).2.hasBody = _
  unfold mergeBodies
  cases hv : v.hasBody <;> cases hc : c.hasBody <;>
    simp only [Bool.and_self, Bool.and_true, Bool.and_false, if_true, if_false, Bool.false_eq_true, hc,
      Bool.or_self, Bool.or_false, Bool.or_true]
  · split_ifs <;> exact hv
  · split_ifs <;> exact hv

/-- The flag is set where a function gets its first body and has loop data. -/
theorem mergeNode_flag : (mergeNode b c v).1 = (b || (v.hasBody && !c.hasBody && c.info.loopDepth.contains)) := by
  change (mergeBodies b c v).1 = _
  unfold mergeBodies
  cases hv : v.hasBody <;> cases hc : c.hasBody <;>
    simp only [Bool.and_self, Bool.and_true, Bool.and_false, Bool.false_and, Bool.true_and, if_true, if_false,
      Bool.false_eq_true, Bool.not_true, Bool.not_false, Bool.or_false]
  change (if c.info.loopDepth.contains then _ else _ : Bool × Node).1 = _
  cases c.info.loopDepth.contains <;> simp

theorem mergeNode_loopDepth : (mergeNode b c v).2.info.loopDepth =
    if v.hasBody && !c.hasBody && c.info.loopDepth.contains then v.info.loopDepth.subscript else c.info.loopDepth := by
  change (mergeBodies b c v).2.info.loopDepth = _
  unfold mergeBodies
  cases hv : v.hasBody <;> cases hc : c.hasBody <;>
    simp only [Bool.and_self, Bool.and_true, Bool.and_false, Bool.false_and, Bool.true_and, if_true, if_false,
      Bool.false_eq_true, Bool.not_true, Bool.not_false]
  · change (if c.info.loopDepth.contains then _ else _ : Bool × Node).2.info.loopDepth = _
    cases c.info.loopDepth.contains <;> rfl
  · split_ifs <;> rfl

theorem mergeNode_loopCallDepth : (mergeNode b c v).2.info.loopCallDepth =
    mergeLoops (mergeNode b c v).1 c.info.loopCallDepth v.info.loopCallDepth := by
  have hsame : (mergeBodies b c v).2.info.loopCallDepth = c.info.loopCallDepth := by
    unfold mergeBodies
    dsimp only
    split_ifs <;> rfl
  change mergeLoops (mergeBodies b c v).1 (mergeBodies b c v).2.info.loopCallDepth _ = _
  rw [hsame]
  rfl

end

/-- Two maps of loop call depths are united by the greater depth. -/
theorem mergeLoopCallDepth_eq (vc vd : Depths) : mergeLoopCallDepth vc vd = vc.unionWith max vd := by
  refine OMap.ext_find fun k => ?_
  have hunion : ∀ m : Depths, (vd.entries.foldl (fun vc e => vc.emplace e.1 e.2) m).find k = (m.find k).or (vd.find k) :=
    fun m => OMap.find_union m vd k
  rw [mergeLoopCallDepth, hunion, OMap.find_mapValues, OMap.find_unionWith]
  cases vc.find k with
  | none => cases vd.find k <;> rfl
  | some a =>
    cases vd.find k with
    | none => rfl
    | some b =>
      rw [Option.map_some, Option.some_or, Option.merge_some_some, Option.some.injEq]
      dsimp only
      split_ifs <;> omega

/-- The loop call depth of `g` that an occurrence has. -/
def Node.Lists (v : Node) (g : String) (d : ℤ) : Prop := ∃ m, v.info.loopCallDepth = some m ∧ m.find g = some d

/-- What has become of the occurrences `l` of a function. -/
structure Gathered (l : List Node) (c : Node) : Prop where
  ne : l ≠ []
  callees : ∀ g, g ∈ c.callees ↔ (∃ v ∈ l, v.hasBody = true ∧ g ∈ v.callees) ∨ ∃ v ∈ l.head?, g ∈ v.callees
  callers : ∀ g, g ∈ c.callers ↔ ∃ v ∈ l, g ∈ v.callers
  hasBody : c.hasBody = true ↔ ∃ v ∈ l, v.hasBody = true
  lists : ∀ g d, c.Lists g d → ∃ v ∈ l, v.Lists g d
  loopDepth : ∀ d, c.info.loopDepth = .value d → ∃ v ∈ l, v.info.loopDepth = .value d
  measured : (∀ v ∈ l, v.Measured) → c.Measured

theorem Gathered.first (v : Node) : Gathered [v] v where
  ne := List.cons_ne_nil _ _
  callees := fun g => by simp
  callers := fun g => by simp
  hasBody := by simp
  lists := fun g d h => ⟨v, List.mem_singleton_self v, h⟩
  loopDepth := fun d h => ⟨v, List.mem_singleton_self v, h⟩
  measured := fun h => h v (List.mem_singleton_self v)

/-- The loop call depths of a merged function come from one of the two. -/
theorem mergeNode_lists {b : Bool} {c v : Node} {g : String} {d : ℤ} (h : (mergeNode b c v).2.Lists g d) :
    c.Lists g d ∨ v.Lists g d := by
  obtain ⟨m, hm, hg⟩ := h
  rw [mergeNode_loopCallDepth] at hm
  unfold mergeLoops at hm
  split_ifs at hm
  · cases hc : c.info.loopCallDepth with
    | none =>
      rw [hc] at hm
      exact .inr ⟨m, hm, hg⟩
    | some mc =>
      cases hv : v.info.loopCallDepth with
      | none =>
        rw [hc, hv] at hm
        cases hm
        exact .inl ⟨_, hc, hg⟩
      | some mv =>
        rw [hc, hv] at hm
        cases hm
        rw [mergeLoopCallDepth_eq] at hg
        exact ((Records.unionWith mc mv).source g d hg).imp (fun hg => ⟨mc, hc, hg⟩) fun hg => ⟨mv, hv, hg⟩
  · exact .inl ⟨m, hm, hg⟩

theorem mergeNode_loops {b : Bool} {c v : Node} {d : ℤ} (h : (mergeNode b c v).2.info.loopDepth = .value d) :
    c.info.loopDepth = .value d ∨ v.info.loopDepth = .value d := by
  rw [mergeNode_loopDepth] at h
  split_ifs at h
  · right
    cases hv : v.info.loopDepth with
    | missing => rw [hv] at h; cases h
    | null => rw [hv] at h; cases h
    | value x =>
      rw [hv] at h
      exact h
  · exact .inl h

theorem Node.Measured.merge {b : Bool} {c v : Node} (hc : c.Measured) (hv : v.Measured) : (mergeNode b c v).2.Measured := by
  obtain ⟨ldc, lcdc, hldc, hlcdc, hintc, hallc⟩ := hc
  obtain ⟨ldv, lcdv, hldv, hlcdv, hintv, hallv⟩ := hv
  have hld : ∃ ld, (mergeNode b c v).2.info.loopDepth = .value ld := by
    rw [mergeNode_loopDepth]
    split_ifs
    · exact ⟨ldv, by rw [hldv]; rfl⟩
    · exact ⟨ldc, hldc⟩
  have hlcd : ∃ lcd, (mergeNode b c v).2.info.loopCallDepth = some lcd := by
    rw [mergeNode_loopCallDepth, hlcdc, hlcdv, mergeLoops]
    split_ifs
    · exact ⟨_, rfl⟩
    · exact ⟨_, rfl⟩
  obtain ⟨ld, hld⟩ := hld
  obtain ⟨lcd, hlcd⟩ := hlcd
  refine ⟨ld, lcd, hld, hlcd, ?_, fun g d hg => ?_⟩
  · rcases mergeNode_loops hld with h | h
    · rw [hldc] at h
      cases h
      exact hintc
    · rw [hldv] at h
      cases h
      exact hintv
  · rcases mergeNode_lists ⟨lcd, hlcd, hg⟩ with ⟨m, hm, hd⟩ | ⟨m, hm, hd⟩
    · rw [hlcdc] at hm
      cases hm
      exact hallc g d hd
    · rw [hlcdv] at hm
      cases hm
      exact hallv g d hd

theorem Gathered.merge {l : List Node} {c : Node} (h : Gathered l c) (b : Bool) (v : Node) :
    Gathered (l ++ [v]) (mergeNode b c v).2 where
  ne := by simp
  callees := by
    intro g
    have hhead : (l ++ [v]).head? = l.head? := List.head?_append_of_ne_nil l h.ne
    rw [hhead, mergeNode_callees]
    simp only [List.mem_append, List.mem_singleton, or_and_right, exists_or, exists_eq_left]
    cases hv : v.hasBody with
    | true =>
      rw [if_pos rfl, Finset.mem_union, h.callees g]
      simp only [true_and]
      exact or_right_comm
    | false =>
      rw [if_neg Bool.false_ne_true, h.callees g]
      simp
  callers := by
    intro g
    rw [mergeNode_callers, Finset.mem_union, h.callers g]
    simp only [List.mem_append, List.mem_singleton, or_and_right, exists_or, exists_eq_left]
  hasBody := by
    rw [mergeNode_hasBody, Bool.or_eq_true, h.hasBody]
    simp only [List.mem_append, List.mem_singleton, or_and_right, exists_or, exists_eq_left]
  lists := by
    intro g d hd
    rcases mergeNode_lists hd with hc | hv
    · obtain ⟨u, hu, hug⟩ := h.lists g d hc
      exact ⟨u, List.mem_append_left _ hu, hug⟩
    · exact ⟨v, List.mem_append_right _ (List.mem_singleton_self v), hv⟩
  loopDepth := by
    intro d hd
    rcases mergeNode_loops hd with hc | hv
    · obtain ⟨u, hu, hud⟩ := h.loopDepth d hc
      exact ⟨u, List.mem_append_left _ hu, hud⟩
    · exact ⟨v, List.mem_append_right _ (List.mem_singleton_self v), hv⟩
  measured := fun hall =>
    (h.measured fun u hu => hall u (List.mem_append_left _ hu)).merge
      (hall v (List.mem_append_right _ (List.mem_singleton_self v)))

/-- What a merged function names an occurrence has named. -/
theorem Gathered.names {l : List Node} {c : Node} (h : Gathered l c) {g : String} (hg : c.Names g) : ∃ v ∈ l, v.Names g := by
  rcases hg with hg | ⟨m, d, hm, hd⟩
  · rcases (h.callees g).mp hg with ⟨v, hv, -, hg⟩ | ⟨v, hv, hg⟩
    · exact ⟨v, hv, .inl hg⟩
    · exact ⟨v, List.mem_of_mem_head? hv, .inl hg⟩
  · obtain ⟨v, hv, m', hm', hd'⟩ := h.lists g d ⟨m, hm, hd⟩
    exact ⟨v, hv, .inr ⟨m', d, hm', hd'⟩⟩

/-! ## Merging a file -/

/-- The flag when the loop over the functions `l` comes to `f`. -/
def flagAt (st : Bool × CG) (l : List (String × Node)) (f : String) : Bool :=
  ((l.takeWhile fun e => e.1 ≠ f).foldl mergeFunction st).1

theorem find_mergeFunction (st : Bool × CG) (it : String × Node) (f : String) :
    (mergeFunction st it).2.find f =
      if f = it.1 then some (match st.2.find it.1 with
        | none => it.2
        | some c => (mergeNode st.1 c it.2).2) else st.2.find f := by
  unfold mergeFunction
  cases st.2.find it.1 with
  | none => exact OMap.find_insert ..
  | some c => exact OMap.find_insert ..

/-- Each function of the file is merged into its entry. -/
theorem find_foldl_mergeFunction {l : List (String × Node)} (hn : (l.map Prod.fst).Nodup) (st : Bool × CG) (f : String) :
    (l.foldl mergeFunction st).2.find f =
      ((Ordered.find f l).map fun v => match st.2.find f with
        | none => v
        | some c => (mergeNode (flagAt st l f) c v).2).or (st.2.find f) := by
  induction l generalizing st with
  | nil => rfl
  | cons e l ih =>
    rw [List.map_cons, List.nodup_cons] at hn
    rw [List.foldl_cons, ih hn.2, find_mergeFunction, Ordered.find]
    split_ifs with hf
    · subst hf
      rw [Ordered.find_eq_none_iff.mpr hn.1]
      simp [flagAt]
    · have hflag : flagAt st (e :: l) f = flagAt (mergeFunction st e) l f := by
        rw [flagAt, List.takeWhile_cons_of_pos (by simpa using fun he => hf he.symm)]
        rfl
      rw [hflag]

/-- The occurrences of a function in the files. -/
def occurrences (cgs : List CG) (f : String) : List Node := cgs.filterMap fun cg => cg.find f

theorem occurrences_concat (cgs : List CG) (cg : CG) (f : String) :
    occurrences (cgs ++ [cg]) f = occurrences cgs f ++ (cg.find f).toList := by
  rw [occurrences, List.filterMap_append]
  cases h : cg.find f <;> simp [occurrences, h]

theorem mem_occurrences {cgs : List CG} {f : String} {v : Node} : v ∈ occurrences cgs f ↔ ∃ cg ∈ cgs, cg.find f = some v :=
  List.mem_filterMap

/-! ## Merging the files -/

/-- The loop over files without pointer data. -/
def mergeGraphs (cgs : List CG) : MergeState := cgs.foldl mergeGraph .initial

theorem mergeGraphs_concat (cgs : List CG) (cg : CG) : mergeGraphs (cgs ++ [cg]) = mergeGraph (mergeGraphs cgs) cg :=
  List.foldl_concat ..

theorem foldlM_mergeFile {fuel : ℕ} {files : List InputFile} (h : ∀ file ∈ files, file.pointerEquivalenceData = none) :
    files.foldlM (mergeFile fuel) .initial = .ok (mergeGraphs (files.map InputFile.cg)) := by
  rw [foldlM_eq_foldl (h := fun st file => mergeGraph st file.cg), mergeGraphs, List.foldl_map]
  intro st file hfile
  rw [mergeFile, h file hfile]

theorem hasAAInfo_mergeGraphs (cgs : List CG) : (mergeGraphs cgs).hasAAInfo = false := by
  induction cgs using List.reverseRecOn with
  | nil => rfl
  | append_singleton cgs cg ih =>
    rw [mergeGraphs_concat]
    exact ih

theorem find_mergeGraph (st : MergeState) (cg : CG) (f : String) :
    (mergeGraph st cg).wholeCG.find f = ((cg.find f).map fun v => match st.wholeCG.find f with
      | none => v
      | some c => (mergeNode (flagAt (st.hasLoopInfo, st.wholeCG) cg.entries f) c v).2).or (st.wholeCG.find f) :=
  find_foldl_mergeFunction cg.sorted.keys_nodup (st.hasLoopInfo, st.wholeCG) f

/-- The entry of a function is what has become of its occurrences. -/
theorem gathered_mergeGraphs (cgs : List CG) (f : String) :
    ((mergeGraphs cgs).wholeCG.find f = none ∧ occurrences cgs f = []) ∨
      ∃ c, (mergeGraphs cgs).wholeCG.find f = some c ∧ Gathered (occurrences cgs f) c := by
  induction cgs using List.reverseRecOn with
  | nil => exact .inl ⟨rfl, rfl⟩
  | append_singleton cgs cg ih =>
    rw [mergeGraphs_concat, find_mergeGraph, occurrences_concat]
    cases hv : cg.find f with
    | none =>
      rw [Option.map_none, Option.none_or, Option.toList_none, List.append_nil]
      exact ih
    | some v =>
      right
      rcases ih with ⟨hnone, hocc⟩ | ⟨c, hc, hgath⟩
      · rw [hnone, hocc]
        exact ⟨v, rfl, .first v⟩
      · rw [hc]
        exact ⟨_, rfl, hgath.merge _ v⟩

/-! ## The function table -/

/-- What the function table knows about the occurrences `l` of a function. -/
structure Tabled (l : List Node) (fi : Option FunctionInfo) : Prop where
  isSome : fi.isSome = true ↔ l ≠ []
  overrides : ∀ x, fi = some x → ∀ g, g ∈ x.overriddenFunctions ↔ ∃ v ∈ l, g ∈ v.overrides
  overriddenBy : ∀ x, fi = some x → ∀ g, g ∈ x.overriddenBy ↔ ∃ v ∈ l, g ∈ v.overriddenBy

theorem Tabled.none : Tabled [] none where
  isSome := by simp
  overrides := fun x h => by cases h
  overriddenBy := fun x h => by cases h

/-- The value that `readFunction` writes. -/
def tableEntry (name : String) (fi : Option FunctionInfo) (v : Node) : FunctionInfo :=
  let fi := fi.getD { FunctionInfo.create with functionName := name }
  { fi with
    functionName := name
    hasBody := v.hasBody
    isVirtual := v.isVirtual
    callees := fi.callees ∪ v.callees
    overriddenFunctions := fi.overriddenFunctions ∪ v.overrides
    overriddenBy := fi.overriddenBy ∪ v.overriddenBy
    parents := fi.parents ∪ v.callers
    numStatements := v.info.numStatements
    fileProperty := some v.info.fileProperties }

theorem readFunction_eq (functionMap : FuncMap) (it : String × Node) :
    readFunction functionMap it = functionMap.insert it.1 (tableEntry it.1 (functionMap.find it.1) it.2) := by
  unfold readFunction getOrInsert tableEntry
  cases functionMap.find it.1 <;> rfl

theorem Tabled.read {l : List Node} {fi : Option FunctionInfo} (h : Tabled l fi) (name : String) (v : Node) :
    Tabled (l ++ [v]) (some (tableEntry name fi v)) where
  isSome := by simp
  overrides := by
    intro x hx g
    cases hx
    simp only [List.mem_append, List.mem_singleton, or_and_right, exists_or, exists_eq_left, tableEntry, Finset.mem_union]
    refine or_congr_left ?_
    cases fi with
    | some y => exact h.overrides y rfl g
    | none =>
      have hnil : l = [] := by simpa using h.isSome
      rw [hnil]
      simp [FunctionInfo.create]
  overriddenBy := by
    intro x hx g
    cases hx
    simp only [List.mem_append, List.mem_singleton, or_and_right, exists_or, exists_eq_left, tableEntry, Finset.mem_union]
    refine or_congr_left ?_
    cases fi with
    | some y => exact h.overriddenBy y rfl g
    | none =>
      have hnil : l = [] := by simpa using h.isSome
      rw [hnil]
      simp [FunctionInfo.create]

theorem noOverride_foldl (l : List (String × Node)) {functionMap : FuncMap} (h : NoOverride functionMap) :
    NoOverride (l.foldl readFunction functionMap) := by
  induction l generalizing functionMap with
  | nil => exact h
  | cons it l ih => exact ih (h.readFunction it)

theorem tabled_mergeGraphs (cgs : List CG) :
    NoOverride (mergeGraphs cgs).functionInfoMap ∧
      ∀ f, Tabled (occurrences cgs f) ((mergeGraphs cgs).functionInfoMap.find f) := by
  induction cgs using List.reverseRecOn with
  | nil => exact ⟨.empty, fun f => .none⟩
  | append_singleton cgs cg ih =>
    rw [mergeGraphs_concat]
    have hread := noOverride_foldl cg.entries ih.1
    have htable : (mergeGraph (mergeGraphs cgs) cg).functionInfoMap =
        cg.entries.foldl readFunction (mergeGraphs cgs).functionInfoMap := hread.addPotentialTargets
    rw [htable]
    refine ⟨hread, fun f => ?_⟩
    have hfind : (cg.entries.foldl readFunction (mergeGraphs cgs).functionInfoMap).find f =
        ((cg.find f).map (tableEntry f ((mergeGraphs cgs).functionInfoMap.find f))).or
          ((mergeGraphs cgs).functionInfoMap.find f) := by
      rw [show (readFunction : FuncMap → String × Node → FuncMap) =
        fun m e => m.insert e.1 (tableEntry e.1 (m.find e.1) e.2) from funext fun m => funext fun e => readFunction_eq m e]
      exact OMap.find_foldl_update tableEntry cg.sorted.keys_nodup _ f
    rw [hfind, occurrences_concat]
    cases cg.find f with
    | none =>
      rw [Option.map_none, Option.none_or, Option.toList_none, List.append_nil]
      exact ih.2 f
    | some v => exact (ih.2 f).read f v

/-! ## The merged graph -/

/-- Callers are the inverse of callees, over all functions. -/
def Inverse (cg : CG) : Prop := ∀ f g, (∃ v, cg.find f = some v ∧ g ∈ v.callees) ↔ ∃ v, cg.find g = some v ∧ f ∈ v.callers

/-- Callers are the inverse of callees, every function that is named has an entry, and functions
without body have no callees. -/
structure WellFormed (cg : CG) : Prop where
  inverse : Inverse cg
  named : ∀ f v, cg.find f = some v → ∀ g, v.Names g ∨ g ∈ v.callers ∨ g ∈ v.overrides ∨ g ∈ v.overriddenBy →
    (cg.find g).isSome = true
  bodiless : ∀ f v, cg.find f = some v → v.hasBody = false → v.callees = ∅

/-- For every function the graph has the union of what the files say. -/
structure Unions (cgs : List CG) (cg : CG) : Prop where
  functions : ∀ f, (cg.find f).isSome = true ↔ ∃ file ∈ cgs, (file.find f).isSome = true
  callees : ∀ f c, cg.find f = some c → ∀ g, g ∈ c.callees ↔ ∃ file ∈ cgs, ∃ v, file.find f = some v ∧ g ∈ v.callees
  callers : ∀ f c, cg.find f = some c → ∀ g, g ∈ c.callers ↔ ∃ file ∈ cgs, ∃ v, file.find f = some v ∧ g ∈ v.callers
  overrides : ∀ f c, cg.find f = some c → ∀ g, g ∈ c.overrides ↔ ∃ file ∈ cgs, ∃ v, file.find f = some v ∧ g ∈ v.overrides
  overriddenBy : ∀ f c, cg.find f = some c → ∀ g, g ∈ c.overriddenBy ↔
    ∃ file ∈ cgs, ∃ v, file.find f = some v ∧ g ∈ v.overriddenBy
  hasBody : ∀ f c, cg.find f = some c → (c.hasBody = true ↔ ∃ file ∈ cgs, ∃ v, file.find f = some v ∧ v.hasBody = true)

theorem exists_occurrence {cgs : List CG} {f : String} {P : Node → Prop} :
    (∃ v ∈ occurrences cgs f, P v) ↔ ∃ file ∈ cgs, ∃ v, file.find f = some v ∧ P v := by
  simp only [mem_occurrences]
  constructor
  · rintro ⟨v, ⟨file, hfile, hv⟩, hP⟩
    exact ⟨file, hfile, v, hv, hP⟩
  · rintro ⟨file, hfile, v, hv, hP⟩
    exact ⟨v, ⟨file, hfile, hv⟩, hP⟩

/-- Where occurrences without body have no callees, no callee is lost. -/
theorem Gathered.mem_callees {l : List Node} {c : Node} (h : Gathered l c)
    (hbody : ∀ v ∈ l, v.hasBody = false → v.callees = ∅) (g : String) : g ∈ c.callees ↔ ∃ v ∈ l, g ∈ v.callees := by
  have hhas : ∀ v ∈ l, g ∈ v.callees → v.hasBody = true := by
    intro v hv hg
    by_contra hno
    rw [hbody v hv (Bool.not_eq_true _ ▸ hno)] at hg
    exact Finset.notMem_empty g hg
  rw [h.callees g]
  constructor
  · rintro (⟨v, hv, -, hg⟩ | ⟨v, hv, hg⟩)
    · exact ⟨v, hv, hg⟩
    · exact ⟨v, List.mem_of_mem_head? hv, hg⟩
  · rintro ⟨v, hv, hg⟩
    exact .inl ⟨v, hv, hhas v hv hg, hg⟩

theorem find_withOverrides (functionInfoMap : FuncMap) (cg : CG) (f : String) :
    (withOverrides functionInfoMap cg).find f = (cg.find f).map fun jsonFunc =>
      match functionInfoMap.find f with
      | some fi => { jsonFunc with overriddenBy := fi.overriddenBy, overrides := fi.overriddenFunctions }
      | none => jsonFunc := OMap.find_mapValues _ f cg

/-- The graph before the global depths are written. -/
def mergedGraph (cgs : List CG) : CG := withOverrides (mergeGraphs cgs).functionInfoMap (mergeGraphs cgs).wholeCG

/-- A function of the merged graph is what has become of its occurrences and of their override data. -/
theorem find_mergedGraph (cgs : List CG) (f : String) :
    ((mergedGraph cgs).find f = none ∧ occurrences cgs f = []) ∨
      ∃ c fi, (mergedGraph cgs).find f = some { c with overriddenBy := fi.overriddenBy, overrides := fi.overriddenFunctions } ∧
        (mergeGraphs cgs).wholeCG.find f = some c ∧ Gathered (occurrences cgs f) c ∧ Tabled (occurrences cgs f) (some fi) := by
  have htable := (tabled_mergeGraphs cgs).2 f
  rw [mergedGraph, find_withOverrides]
  rcases gathered_mergeGraphs cgs f with ⟨hnone, hocc⟩ | ⟨c, hc, hgath⟩
  · rw [hnone]
    exact .inl ⟨rfl, hocc⟩
  · obtain ⟨fi, hfi⟩ := Option.isSome_iff_exists.mp (htable.isSome.mpr hgath.ne)
    rw [hfi] at htable
    rw [hc, hfi]
    exact .inr ⟨c, fi, rfl, rfl, hgath, htable⟩

theorem isSome_mergedGraph (cgs : List CG) (f : String) : ((mergedGraph cgs).find f).isSome = true ↔ occurrences cgs f ≠ [] := by
  rcases find_mergedGraph cgs f with ⟨hnone, hocc⟩ | ⟨c, fi, hc, -, hgath, -⟩
  · simp [hnone, hocc]
  · simp [hc, hgath.ne]

theorem unions_mergedGraph {cgs : List CG} (h : ∀ cg ∈ cgs, WellFormed cg) : Unions cgs (mergedGraph cgs) := by
  have hbody : ∀ f, ∀ v ∈ occurrences cgs f, v.hasBody = false → v.callees = ∅ := by
    intro f v hv hno
    obtain ⟨cg, hcg, hfind⟩ := mem_occurrences.mp hv
    exact (h cg hcg).bodiless f v hfind hno
  have hentry : ∀ {f c}, (mergedGraph cgs).find f = some c → ∃ d fi,
      c = { d with overriddenBy := fi.overriddenBy, overrides := fi.overriddenFunctions } ∧
        Gathered (occurrences cgs f) d ∧ Tabled (occurrences cgs f) (some fi) := by
    intro f c hc
    rcases find_mergedGraph cgs f with ⟨hnone, -⟩ | ⟨d, fi, hd, -, hgath, htable⟩
    · rw [hnone] at hc
      cases hc
    · rw [hd] at hc
      cases hc
      exact ⟨d, fi, rfl, hgath, htable⟩
  refine ⟨fun f => ?_, fun f c hc g => ?_, fun f c hc g => ?_, fun f c hc g => ?_, fun f c hc g => ?_, fun f c hc => ?_⟩
  · have hexists : (∃ file ∈ cgs, (file.find f).isSome = true) ↔ ∃ v, v ∈ occurrences cgs f := by
      simp only [mem_occurrences, Option.isSome_iff_exists]
      exact ⟨fun ⟨file, hfile, v, hv⟩ => ⟨v, file, hfile, hv⟩, fun ⟨v, file, hfile, hv⟩ => ⟨file, hfile, v, hv⟩⟩
    rw [hexists]
    rcases find_mergedGraph cgs f with ⟨hnone, hocc⟩ | ⟨d, fi, hd, -, hgath, -⟩
    · rw [hnone, hocc]
      simp
    · rw [hd]
      exact iff_of_true rfl (List.exists_mem_of_ne_nil _ hgath.ne)
  · obtain ⟨d, fi, rfl, hgath, -⟩ := hentry hc
    rw [← exists_occurrence]
    exact hgath.mem_callees (hbody f) g
  · obtain ⟨d, fi, rfl, hgath, -⟩ := hentry hc
    rw [← exists_occurrence]
    exact hgath.callers g
  · obtain ⟨d, fi, rfl, -, htable⟩ := hentry hc
    rw [← exists_occurrence]
    exact htable.overrides fi rfl g
  · obtain ⟨d, fi, rfl, -, htable⟩ := hentry hc
    rw [← exists_occurrence]
    exact htable.overriddenBy fi rfl g
  · obtain ⟨d, fi, rfl, hgath, -⟩ := hentry hc
    rw [← exists_occurrence]
    exact hgath.hasBody

/-! ## The result -/

/-- The fields that describe the structure of the graph. -/
def Node.shape (n : Node) : Finset String × Finset String × Finset String × Finset String × Bool :=
  (n.callees, n.callers, n.overrides, n.overriddenBy, n.hasBody)

/-- Two graphs agree in these fields. -/
def SameShape (cg cg' : CG) : Prop := ∀ f, (cg.find f).map Node.shape = (cg'.find f).map Node.shape

theorem SameShape.globalLoopDepth (cg : CG) (depths : Depths) : SameShape cg (cg.mapValues (globalLoopDepth depths)) := by
  intro f
  rw [OMap.find_mapValues, Option.map_map]
  congr 1
  funext val
  unfold FormatTwo.globalLoopDepth
  dsimp only [Function.comp_apply]
  split <;> rfl

theorem SameShape.find {cg cg' : CG} (h : SameShape cg cg') {f : String} {c' : Node} (hc : cg'.find f = some c') :
    ∃ c, cg.find f = some c ∧ c.shape = c'.shape := by
  have hf := h f
  rw [hc] at hf
  exact Option.map_eq_some_iff.mp hf

theorem SameShape.unions {cg cg' : CG} (h : SameShape cg cg') {cgs : List CG} (hu : Unions cgs cg) : Unions cgs cg' := by
  have hfields : ∀ {f c'}, cg'.find f = some c' → ∃ c, cg.find f = some c ∧ c.callees = c'.callees ∧
      c.callers = c'.callers ∧ c.overrides = c'.overrides ∧ c.overriddenBy = c'.overriddenBy ∧ c.hasBody = c'.hasBody := by
    intro f c' hc
    obtain ⟨c, hfind, hshape⟩ := h.find hc
    simp only [Node.shape, Prod.mk.injEq] at hshape
    exact ⟨c, hfind, hshape⟩
  refine ⟨fun f => ?_, fun f c' hc => ?_, fun f c' hc => ?_, fun f c' hc => ?_, fun f c' hc => ?_, fun f c' hc => ?_⟩
  · rw [← hu.functions f, ← Option.isSome_map (f := Node.shape), ← h f, Option.isSome_map]
  · obtain ⟨c, hfind, he, -⟩ := hfields hc
    rw [← he]
    exact hu.callees f c hfind
  · obtain ⟨c, hfind, -, he, -⟩ := hfields hc
    rw [← he]
    exact hu.callers f c hfind
  · obtain ⟨c, hfind, -, -, he, -⟩ := hfields hc
    rw [← he]
    exact hu.overrides f c hfind
  · obtain ⟨c, hfind, -, -, -, he, -⟩ := hfields hc
    rw [← he]
    exact hu.overriddenBy f c hfind
  · obtain ⟨c, hfind, -, -, -, -, he⟩ := hfields hc
    rw [← he]
    exact hu.hasBody f c hfind

/-- The unions of the same files agree. -/
theorem Unions.sameShape {cgs : List CG} {cg cg' : CG} (h : Unions cgs cg) (h' : Unions cgs cg') : SameShape cg cg' := by
  intro f
  have hfunctions := (h.functions f).trans (h'.functions f).symm
  cases hc : cg.find f with
  | none =>
    cases hc' : cg'.find f with
    | none => rfl
    | some c' =>
      rw [hc, hc'] at hfunctions
      exact absurd (hfunctions.mpr rfl) Bool.false_ne_true
  | some c =>
    rw [hc] at hfunctions
    obtain ⟨c', hc'⟩ := Option.isSome_iff_exists.mp (hfunctions.mp rfl)
    rw [hc', Option.map_some, Option.map_some, Option.some.injEq]
    simp only [Node.shape, Prod.mk.injEq]
    exact ⟨Finset.ext fun g => (h.callees f c hc g).trans (h'.callees f c' hc' g).symm,
      Finset.ext fun g => (h.callers f c hc g).trans (h'.callers f c' hc' g).symm,
      Finset.ext fun g => (h.overrides f c hc g).trans (h'.overrides f c' hc' g).symm,
      Finset.ext fun g => (h.overriddenBy f c hc g).trans (h'.overriddenBy f c' hc' g).symm,
      Bool.eq_iff_iff.mpr ((h.hasBody f c hc).trans (h'.hasBody f c' hc').symm)⟩

theorem Unions.perm {cgs cgs' : List CG} {cg : CG} (h : Unions cgs cg) (hp : cgs.Perm cgs') : Unions cgs' cg := by
  have hex : ∀ {P : CG → Prop}, (∃ file ∈ cgs, P file) ↔ ∃ file ∈ cgs', P file :=
    fun {P} => exists_congr fun file => and_congr_left' hp.mem_iff
  refine ⟨fun f => (h.functions f).trans hex, fun f c hc g => (h.callees f c hc g).trans hex,
    fun f c hc g => (h.callers f c hc g).trans hex, fun f c hc g => (h.overrides f c hc g).trans hex,
    fun f c hc g => (h.overriddenBy f c hc g).trans hex, fun f c hc => (h.hasBody f c hc).trans hex⟩

theorem Unions.inverse {cgs : List CG} {cg : CG} (h : Unions cgs cg) (hcgs : ∀ file ∈ cgs, Inverse file) : Inverse cg := by
  have hcallees : ∀ f g, (∃ v, cg.find f = some v ∧ g ∈ v.callees) ↔ ∃ file ∈ cgs, ∃ v, file.find f = some v ∧ g ∈ v.callees := by
    intro f g
    constructor
    · rintro ⟨c, hc, hg⟩
      exact (h.callees f c hc g).mp hg
    · rintro ⟨file, hfile, v, hv, hg⟩
      obtain ⟨c, hc⟩ := Option.isSome_iff_exists.mp ((h.functions f).mpr ⟨file, hfile, by rw [hv]; rfl⟩)
      exact ⟨c, hc, (h.callees f c hc g).mpr ⟨file, hfile, v, hv, hg⟩⟩
  have hcallers : ∀ g f, (∃ v, cg.find g = some v ∧ f ∈ v.callers) ↔ ∃ file ∈ cgs, ∃ v, file.find g = some v ∧ f ∈ v.callers := by
    intro g f
    constructor
    · rintro ⟨c, hc, hf⟩
      exact (h.callers g c hc f).mp hf
    · rintro ⟨file, hfile, v, hv, hf⟩
      obtain ⟨c, hc⟩ := Option.isSome_iff_exists.mp ((h.functions g).mpr ⟨file, hfile, by rw [hv]; rfl⟩)
      exact ⟨c, hc, (h.callers g c hc f).mpr ⟨file, hfile, v, hv, hf⟩⟩
  intro f g
  rw [hcallees, hcallers]
  exact exists_congr fun file => and_congr_right fun hfile => hcgs file hfile f g

/-- Without pointer data the result is the merged graph, or that graph with the global depths. -/
theorem mergeFileFormatTwo_eq {w : Walk} {fuel : ℕ} {files : List InputFile}
    (h : ∀ file ∈ files, file.pointerEquivalenceData = none) :
    mergeFileFormatTwo w fuel files =
      ((if (mergeGraphs (files.map InputFile.cg)).hasLoopInfo then
        (calculateGlobalCallDepth w (mergedGraph (files.map InputFile.cg)) true).mapError .depth
      else .ok (mergedGraph (files.map InputFile.cg))) >>= fun cg => .ok ⟨cg, none⟩) := by
  rw [mergeFileFormatTwo, foldlM_mergeFile h, ok_bind, finish, hasAAInfo_mergeGraphs, Bool.not_false, Bool.and_true]
  rfl

theorem mergeFileFormatTwo_sameShape {w : Walk} {fuel : ℕ} {files : List InputFile} {r : WholeCGFinal}
    (h : ∀ file ∈ files, file.pointerEquivalenceData = none) (hr : mergeFileFormatTwo w fuel files = .ok r) :
    SameShape (mergedGraph (files.map InputFile.cg)) r.cg := by
  rw [mergeFileFormatTwo_eq h] at hr
  obtain ⟨cg, hcg, hr⟩ := bind_eq_ok.mp hr
  cases hr
  split_ifs at hcg
  · cases hdepth : calculateGlobalCallDepth w (mergedGraph (files.map InputFile.cg)) true with
    | error e => rw [hdepth] at hcg; cases hcg
    | ok cg' =>
      rw [hdepth] at hcg
      cases hcg
      obtain ⟨depths, rfl⟩ := calculateGlobalCallDepth_eq_ok hdepth
      exact .globalLoopDepth _ depths
  · cases hcg
    exact fun f => rfl

/-! ## Runs that return -/

/-- No function has loop data. -/
def LoopFree (st : Bool × CG) : Prop := st.1 = false ∧ ∀ f c, st.2.find f = some c → c.info.loopDepth = .missing

theorem LoopFree.mergeFunction {st : Bool × CG} (h : LoopFree st) {it : String × Node} (hit : it.2.info.loopDepth = .missing) :
    LoopFree (mergeFunction st it) := by
  have hflag : (FormatTwo.mergeFunction st it).1 = false := by
    unfold FormatTwo.mergeFunction
    cases hc : st.2.find it.1 with
    | none => exact h.1
    | some c =>
      change (mergeNode st.1 c it.2).1 = false
      rw [mergeNode_flag, h.1, h.2 it.1 c hc]
      simp [Member.contains]
  refine ⟨hflag, fun f d hd => ?_⟩
  rw [find_mergeFunction] at hd
  split_ifs at hd with hf
  · cases hc : st.2.find it.1 with
    | none =>
      rw [hc] at hd
      cases hd
      exact hit
    | some c =>
      rw [hc] at hd
      cases hd
      rw [mergeNode_loopDepth, h.2 it.1 c hc]
      simp [Member.contains]
  · exact h.2 f d hd

theorem loopFree_mergeGraphs {cgs : List CG} (h : ∀ cg ∈ cgs, ∀ f v, cg.find f = some v → v.info.loopDepth = .missing) :
    LoopFree ((mergeGraphs cgs).hasLoopInfo, (mergeGraphs cgs).wholeCG) := by
  have hfold : ∀ (l : List (String × Node)) (st : Bool × CG), (∀ e ∈ l, e.2.info.loopDepth = .missing) → LoopFree st →
      LoopFree (l.foldl mergeFunction st) := by
    intro l
    induction l with
    | nil => exact fun st _ hst => hst
    | cons e l ih =>
      exact fun st hl hst => ih _ (fun e' he' => hl e' (List.mem_cons_of_mem e he'))
        (hst.mergeFunction (hl e (List.mem_cons_self ..)))
  induction cgs using List.reverseRecOn with
  | nil => exact ⟨rfl, fun f c hc => by cases hc⟩
  | append_singleton cgs cg ih =>
    rw [mergeGraphs_concat]
    refine hfold cg.entries _ (fun e he => ?_) (ih fun cg' hcg' => h cg' (List.mem_append_left _ hcg'))
    exact h cg (List.mem_append_right _ (List.mem_singleton_self cg)) e.1 e.2 (OMap.mem_entries.mp he)

/-- The files carry loop metadata on all of their functions or on none. -/
def LoopsUniform (cgs : List CG) : Prop :=
  (∀ cg ∈ cgs, ∀ f v, cg.find f = some v → v.Measured) ∨ ∀ cg ∈ cgs, ∀ f v, cg.find f = some v → v.info.loopDepth = .missing

theorem mergedGraph_measured {cgs : List CG} (h : ∀ cg ∈ cgs, ∀ f v, cg.find f = some v → v.Measured) {f : String} {c : Node}
    (hc : (mergedGraph cgs).find f = some c) : c.Measured := by
  rcases find_mergedGraph cgs f with ⟨hnone, -⟩ | ⟨d, fi, hd, -, hgath, -⟩
  · rw [hnone] at hc
    cases hc
  · rw [hd] at hc
    cases hc
    refine hgath.measured fun v hv => ?_
    obtain ⟨cg, hcg, hfind⟩ := mem_occurrences.mp hv
    exact h cg hcg f v hfind

theorem mergedGraph_names {cgs : List CG} (h : ∀ cg ∈ cgs, WellFormed cg) {f : String} {c : Node}
    (hc : (mergedGraph cgs).find f = some c) {g : String} (hg : c.Names g) : ((mergedGraph cgs).find g).isSome = true := by
  rcases find_mergedGraph cgs f with ⟨hnone, -⟩ | ⟨d, fi, hd, -, hgath, -⟩
  · rw [hnone] at hc
    cases hc
  · rw [hd] at hc
    cases hc
    obtain ⟨v, hv, hvg⟩ := hgath.names hg
    obtain ⟨cg, hcg, hfind⟩ := mem_occurrences.mp hv
    exact ((unions_mergedGraph h).functions g).mpr ⟨cg, hcg, (h cg hcg).named f v hfind g (.inl hvg)⟩

/-- A result exists exactly if no loop data is found or the depths of the merged graph fit. -/
theorem mergeFileFormatTwo_returns (w : Walk) (fuel : ℕ) {files : List InputFile}
    (hdata : ∀ file ∈ files, file.pointerEquivalenceData = none)
    (hall : ∀ cg ∈ files.map InputFile.cg, ∀ f v, cg.find f = some v → v.Measured) :
    (∃ r, mergeFileFormatTwo w fuel files = .ok r) ↔ ((mergeGraphs (files.map InputFile.cg)).hasLoopInfo = true →
      occurrences (files.map InputFile.cg) "main" ≠ [] → Fits (Calls (mergedGraph (files.map InputFile.cg)))
        (Loops (mergedGraph (files.map InputFile.cg))) (fun f => occurrences (files.map InputFile.cg) f ≠ []) ∅ "main") := by
  have hreturns := calculateGlobalCallDepth_returns (fun f c hc => mergedGraph_measured hall hc) w true
  simp only [isSome_mergedGraph, Entry, if_true] at hreturns
  rw [mergeFileFormatTwo_eq hdata]
  split_ifs with hflag
  · constructor
    · rintro ⟨r, hr⟩ - hmain
      obtain ⟨cg, hcg, -⟩ := bind_eq_ok.mp hr
      refine hreturns.mp ?_ "main" ⟨hmain, rfl⟩
      cases hdepth : calculateGlobalCallDepth w (mergedGraph (files.map InputFile.cg)) true with
      | error e => rw [hdepth] at hcg; cases hcg
      | ok cg' => exact ⟨cg', rfl⟩
    · intro hfits
      obtain ⟨cg', hcg'⟩ := hreturns.mpr (by rintro e ⟨he, rfl⟩; exact hfits hflag he)
      rw [hcg']
      exact ⟨_, rfl⟩
  · exact iff_of_true ⟨_, rfl⟩ fun h => absurd h hflag

/-! ## The loops that the files describe -/

section
variable (cgs : List CG)

/-- `f` calls `c` in loops of depth `d`, by one of the files. -/
def GivenCalls (f c : String) (d : ℤ) : Prop := ∃ v ∈ occurrences cgs f, v.Lists c d ∨ (c ∈ v.callees ∧ d = 0)

def GivenLoops (f : String) (d : ℤ) : Prop := ∃ v ∈ occurrences cgs f, v.info.loopDepth = .value d

/-- No nest of loops that the files describe on a chain of calls from `main` is deeper than an `int`. -/
def NestsFit : Prop := ∀ f x, NestOn (GivenCalls cgs) (GivenLoops cgs) ∅ "main" f x → x ≤ 2147483647

end

theorem Calls.given {cgs : List CG} {f c : String} {d : ℤ} (h : Calls (mergedGraph cgs) f c d) : GivenCalls cgs f c d := by
  obtain ⟨val, m, hval, hm, hd⟩ := h
  rcases find_mergedGraph cgs f with ⟨hnone, -⟩ | ⟨n, fi, hn, -, hgath, -⟩
  · rw [hnone] at hval
    cases hval
  · rw [hn] at hval
    cases hval
    rcases hd with hd | ⟨-, hc, rfl⟩
    · obtain ⟨v, hv, hlists⟩ := hgath.lists c d ⟨m, hm, hd⟩
      exact ⟨v, hv, .inl hlists⟩
    · rcases (hgath.callees c).mp hc with ⟨v, hv, -, hc⟩ | ⟨v, hv, hc⟩
      · exact ⟨v, hv, .inr ⟨hc, rfl⟩⟩
      · exact ⟨v, List.mem_of_mem_head? hv, .inr ⟨hc, rfl⟩⟩

theorem Loops.given {cgs : List CG} {f : String} {d : ℤ} (h : Loops (mergedGraph cgs) f d) : GivenLoops cgs f d := by
  obtain ⟨val, hval, hd⟩ := h
  rcases find_mergedGraph cgs f with ⟨hnone, -⟩ | ⟨n, fi, hn, -, hgath, -⟩
  · rw [hnone] at hval
    cases hval
  · rw [hn] at hval
    cases hval
    exact hgath.loopDepth d hd

theorem occurrences_perm {cgs cgs' : List CG} (h : cgs.Perm cgs') (f : String) :
    (occurrences cgs f).Perm (occurrences cgs' f) := h.filterMap _

theorem NestsFit.perm {cgs cgs' : List CG} (h : NestsFit cgs) (hp : cgs.Perm cgs') : NestsFit cgs' := by
  intro f x hx
  refine h f x (hx.mono (fun f c d hd => ?_) fun f d hd => ?_)
  · obtain ⟨v, hv, hd⟩ := hd
    exact ⟨v, (occurrences_perm hp f).mem_iff.mpr hv, hd⟩
  · obtain ⟨v, hv, hd⟩ := hd
    exact ⟨v, (occurrences_perm hp f).mem_iff.mpr hv, hd⟩

theorem LoopsUniform.perm {cgs cgs' : List CG} (h : LoopsUniform cgs) (hp : cgs.Perm cgs') : LoopsUniform cgs' :=
  h.imp (fun h cg hcg => h cg (hp.mem_iff.mpr hcg)) fun h cg hcg => h cg (hp.mem_iff.mpr hcg)

/-- Files with loop metadata on all functions or on none whose loops fit have a result. -/
theorem mergeFileFormatTwo_uniform (w : Walk) (fuel : ℕ) {files : List InputFile}
    (hdata : ∀ file ∈ files, file.pointerEquivalenceData = none) (hfiles : ∀ cg ∈ files.map InputFile.cg, WellFormed cg)
    (hloops : LoopsUniform (files.map InputFile.cg)) (hfit : NestsFit (files.map InputFile.cg)) :
    ∃ r, mergeFileFormatTwo w fuel files = .ok r := by
  rcases hloops with hall | hnone
  · refine (mergeFileFormatTwo_returns w fuel hdata hall).mpr fun _ hmain f x hx => ?_
    have hmain : ((mergedGraph (files.map InputFile.cg)).find "main").isSome = true := (isSome_mergedGraph _ _).mpr hmain
    have hfits := (fits_iff (fun f c hc g hg => mergedGraph_names hfiles hc hg) hmain).mpr
      fun f x hx => hfit f x (hx.mono (fun _ _ _ => Calls.given) fun _ _ => Loops.given)
    exact ⟨(isSome_mergedGraph _ _).mp (hfits f x hx).1, (hfits f x hx).2⟩
  · have hflag : (mergeGraphs (files.map InputFile.cg)).hasLoopInfo = false := (loopFree_mergeGraphs hnone).1
    rw [mergeFileFormatTwo_eq hdata, hflag, if_neg Bool.false_ne_true]
    exact ⟨_, rfl⟩

theorem wellFormed_graphs {files : List InputFile} (h : ∀ file ∈ files, WellFormed file.cg) :
    ∀ cg ∈ files.map InputFile.cg, WellFormed cg := by
  intro cg hcg
  obtain ⟨file, hfile, rfl⟩ := List.mem_map.mp hcg
  exact h file hfile

/-- For files without pointer data the loop over the files always ends in the unions, and so does
every result; hence callers stay the inverse of callees and the order of the files does not matter.
Every order has a result where all functions carry loop metadata, or none does, and the loops fit. -/
theorem mergeFileFormatTwo_unions {files : List InputFile} (hdata : ∀ file ∈ files, file.pointerEquivalenceData = none)
    (hfiles : ∀ file ∈ files, WellFormed file.cg) (w : Walk) (fuel : ℕ) :
    (∃ st, files.foldlM (mergeFile fuel) .initial = .ok st ∧
      Unions (files.map InputFile.cg) (withOverrides st.functionInfoMap st.wholeCG)) ∧
    (∀ r, mergeFileFormatTwo w fuel files = .ok r → Unions (files.map InputFile.cg) r.cg ∧ Inverse r.cg) ∧
    (∀ files' w' fuel' r r', files.Perm files' → mergeFileFormatTwo w fuel files = .ok r →
      mergeFileFormatTwo w' fuel' files' = .ok r' → SameShape r.cg r'.cg) ∧
    (LoopsUniform (files.map InputFile.cg) → NestsFit (files.map InputFile.cg) → ∀ files' w' fuel', files.Perm files' →
      ∃ r, mergeFileFormatTwo w' fuel' files' = .ok r ∧ Unions (files.map InputFile.cg) r.cg ∧ Inverse r.cg) := by
  have hunions : ∀ {fs : List InputFile} {w : Walk} {fuel : ℕ} {r : WholeCGFinal}, files.Perm fs →
      mergeFileFormatTwo w fuel fs = .ok r → Unions (files.map InputFile.cg) r.cg ∧ Inverse r.cg := by
    intro fs w fuel r hp hr
    have hwf : ∀ cg ∈ fs.map InputFile.cg, WellFormed cg := wellFormed_graphs fun file hfile => hfiles file (hp.mem_iff.mpr hfile)
    have hu : Unions (fs.map InputFile.cg) r.cg :=
      (mergeFileFormatTwo_sameShape (fun file hfile => hdata file (hp.mem_iff.mpr hfile)) hr).unions (unions_mergedGraph hwf)
    exact ⟨hu.perm (hp.map InputFile.cg).symm, hu.inverse fun cg hcg => (hwf cg hcg).inverse⟩
  refine ⟨⟨_, foldlM_mergeFile hdata, unions_mergedGraph (wellFormed_graphs hfiles)⟩, fun r hr => hunions (.refl files) hr,
    fun files' w' fuel' r r' hp hr hr' => ?_, fun hloops hfit files' w' fuel' hp => ?_⟩
  · exact (hunions (.refl files) hr).1.sameShape (hunions hp hr').1
  · obtain ⟨r, hr⟩ := mergeFileFormatTwo_uniform w' fuel' (fun file hfile => hdata file (hp.mem_iff.mpr hfile))
      (wellFormed_graphs fun file hfile => hfiles file (hp.mem_iff.mpr hfile)) (hloops.perm (hp.map InputFile.cg))
      (hfit.perm (hp.map InputFile.cg))
    exact ⟨r, hr, hunions hp hr⟩

/-- The node of a function with loop metadata. -/
def loopNode (callees callers : Finset String) (hasBody : Bool) (loopDepth : ℤ) (loopCallDepth : Depths) : Node :=
  ⟨callees, callers, ∅, ∅, false, false, hasBody,
    ⟨0, ⟨"a.cpp", false⟩, .missing, .missing, .missing, .value loopDepth, some loopCallDepth, none, none⟩⟩

/-- A file in which `main` calls `f` in a loop, and the file with the body of `f`. -/
def callerFile : InputFile :=
  ⟨(OMap.empty.insert "main" (loopNode {"f"} ∅ true 1 (OMap.empty.insert "f" 1))).insert "f"
    (loopNode ∅ {"main"} false 0 .empty), none⟩

def calleeFile : InputFile := ⟨OMap.empty.insert "f" (loopNode ∅ ∅ true 2 .empty), none⟩

/-- A file whose function `g` has no loop metadata. -/
def plainFile : InputFile := ⟨OMap.empty.insert "g"
  ⟨∅, ∅, ∅, ∅, false, false, true, ⟨0, ⟨"a.cpp", false⟩, .missing, .missing, .missing, .missing, none, none, none⟩⟩, none⟩

theorem callerFile_find (f : String) (v : Node) : callerFile.cg.find f = some v ↔
    (f = "f" ∧ v = loopNode ∅ {"main"} false 0 .empty) ∨
      (f = "main" ∧ v = loopNode {"f"} ∅ true 1 (OMap.empty.insert "f" 1)) := by
  rw [callerFile, OMap.find_insert, OMap.find_insert, OMap.find_empty]
  split_ifs with hf hm
  · subst hf
    simp [eq_comm]
  · subst hm
    simp [eq_comm]
  · simp [hf, hm]

theorem calleeFile_find (f : String) (v : Node) : calleeFile.cg.find f = some v ↔
    f = "f" ∧ v = loopNode ∅ ∅ true 2 .empty := by
  rw [calleeFile, OMap.find_insert, OMap.find_empty]
  split_ifs with hf
  · simp [hf, eq_comm]
  · simp [hf]

theorem callerFile_wellFormed : WellFormed callerFile.cg where
  inverse := by
    intro f g
    simp only [callerFile_find]
    constructor
    · rintro ⟨v, ⟨rfl, rfl⟩ | ⟨rfl, rfl⟩, hg⟩
      · simp [loopNode] at hg
      · have hgf : g = "f" := by simpa [loopNode] using hg
        exact ⟨_, .inl ⟨hgf, rfl⟩, by simp [loopNode]⟩
    · rintro ⟨v, ⟨rfl, rfl⟩ | ⟨rfl, rfl⟩, hf⟩
      · have hfm : f = "main" := by simpa [loopNode] using hf
        exact ⟨_, .inr ⟨hfm, rfl⟩, by simp [loopNode]⟩
      · simp [loopNode] at hf
  named := by
    intro f v hv g hg
    have hfind : ∀ k, k = "f" ∨ k = "main" → (callerFile.cg.find k).isSome = true := by
      rintro k (rfl | rfl) <;> decide
    apply hfind
    rcases (callerFile_find f v).mp hv with ⟨rfl, rfl⟩ | ⟨rfl, rfl⟩
    · simpa [loopNode, Node.Names] using Or.inr hg
    · simp only [loopNode, Node.Names, Finset.mem_singleton, Option.some.injEq, Finset.notMem_empty, or_false] at hg
      rcases hg with hg | ⟨m, d, rfl, hd⟩
      · exact .inl hg
      · rw [OMap.find_insert] at hd
        split_ifs at hd with hgf
        · exact .inl hgf
        · cases hd
  bodiless := by
    intro f v hv hno
    rcases (callerFile_find f v).mp hv with ⟨rfl, rfl⟩ | ⟨rfl, rfl⟩
    · rfl
    · cases hno

/-- A file with one function that calls nothing. -/
theorem wellFormed_single {f : String} {v : Node} (hcallees : v.callees = ∅) (hcallers : v.callers = ∅)
    (hnames : ∀ g, v.Names g ∨ g ∈ v.overrides ∨ g ∈ v.overriddenBy → g = f) : WellFormed (OMap.empty.insert f v) where
  inverse := by
    intro k g
    simp only [OMap.find_insert, OMap.find_empty]
    constructor
    · rintro ⟨u, hu, hg⟩
      split_ifs at hu
      cases hu
      rw [hcallees] at hg
      exact absurd hg (Finset.notMem_empty g)
    · rintro ⟨u, hu, hk⟩
      split_ifs at hu
      cases hu
      rw [hcallers] at hk
      exact absurd hk (Finset.notMem_empty k)
  named := by
    intro k u hu g hg
    rw [OMap.find_insert, OMap.find_empty] at hu
    split_ifs at hu
    cases hu
    rw [hcallers] at hg
    have hgf : g = f := hnames g (by simpa using hg)
    rw [OMap.find_insert, if_pos hgf]
    rfl
  bodiless := by
    intro k u hu hno
    rw [OMap.find_insert, OMap.find_empty] at hu
    split_ifs at hu
    cases hu
    exact hcallees

theorem calleeFile_wellFormed : WellFormed calleeFile.cg :=
  wellFormed_single rfl rfl fun g hg => by simp [loopNode, Node.Names] at hg

theorem plainFile_wellFormed : WellFormed plainFile.cg :=
  wellFormed_single rfl rfl fun g hg => by simp [Node.Names] at hg

theorem loopNode_measured {callees callers : Finset String} {hasBody : Bool} {loopDepth : ℤ} {loopCallDepth : Depths}
    (h : InInt loopDepth) (hcalls : ∀ c d, loopCallDepth.find c = some d → InInt d) :
    (loopNode callees callers hasBody loopDepth loopCallDepth).Measured := ⟨loopDepth, loopCallDepth, rfl, rfl, h, hcalls⟩

theorem callerFile_measured {f : String} {v : Node} (h : callerFile.cg.find f = some v) : v.Measured := by
  rcases (callerFile_find f v).mp h with ⟨rfl, rfl⟩ | ⟨rfl, rfl⟩
  · exact loopNode_measured (by decide) fun c d hd => by cases hd
  · refine loopNode_measured (by decide) fun c d hd => ?_
    rw [OMap.find_insert] at hd
    split_ifs at hd
    · cases hd
      decide
    · cases hd

theorem calleeFile_measured {f : String} {v : Node} (h : calleeFile.cg.find f = some v) : v.Measured := by
  obtain ⟨rfl, rfl⟩ := (calleeFile_find f v).mp h
  exact loopNode_measured (by decide) fun c d hd => by cases hd

/-- If only `main` calls, and only `f`, the loops of the call and those of `f` are the deepest nest. -/
theorem nestsFit_of_mainCallsF {cgs : List CG} (hloops : ∀ f d, GivenLoops cgs f d → d ≤ 2)
    (hcalls : ∀ f c d, GivenCalls cgs f c d → f = "main" ∧ c = "f" ∧ d ≤ 1) : NestsFit cgs := by
  rintro f x ⟨marked, -, hx⟩
  have hle := hx.le_bound (fun f => if f = "main" then 3 else 2) (fun f => by split_ifs <;> decide)
    (fun f d hd => by
      have htwo := hloops f d hd
      split_ifs <;> omega)
    fun f c d hd _ => by
      obtain ⟨rfl, rfl, hone⟩ := hcalls f c d hd
      rw [if_pos rfl, if_neg (by decide)]
      omega
  split_ifs at hle <;> omega

theorem callerFile_calls {f c : String} {d : ℤ} {v : Node} (hv : callerFile.cg.find f = some v)
    (h : v.Lists c d ∨ (c ∈ v.callees ∧ d = 0)) : f = "main" ∧ c = "f" ∧ d ≤ 1 := by
  rcases (callerFile_find f v).mp hv with ⟨rfl, rfl⟩ | ⟨rfl, rfl⟩
  · simp [loopNode, Node.Lists] at h
  · simp only [loopNode, Node.Lists, Option.some.injEq, exists_eq_left', OMap.find_insert, OMap.find_empty,
      Finset.mem_singleton] at h
    rcases h with hd | ⟨rfl, rfl⟩
    · split_ifs at hd with hc
      cases hd
      exact ⟨rfl, hc, le_rfl⟩
    · exact ⟨rfl, rfl, by decide⟩

theorem twoFiles_nestsFit : NestsFit [callerFile.cg, calleeFile.cg] := by
  have hocc : ∀ f v, v ∈ occurrences [callerFile.cg, calleeFile.cg] f ↔
      callerFile.cg.find f = some v ∨ calleeFile.cg.find f = some v := by
    intro f v
    simp [mem_occurrences]
  refine nestsFit_of_mainCallsF ?_ ?_
  · rintro f d ⟨v, hv, hd⟩
    rcases (hocc f v).mp hv with hv | hv
    · rcases (callerFile_find f v).mp hv with ⟨rfl, rfl⟩ | ⟨rfl, rfl⟩ <;> cases hd <;> decide
    · obtain ⟨rfl, rfl⟩ := (calleeFile_find f v).mp hv
      cases hd
      decide
  · rintro f c d ⟨v, hv, hd⟩
    rcases (hocc f v).mp hv with hv | hv
    · exact callerFile_calls hv hd
    · obtain ⟨rfl, rfl⟩ := (calleeFile_find f v).mp hv
      simp [loopNode, Node.Lists] at hd

theorem mergeFileFormatTwo_unions_twoFiles :
    (∃ r, mergeFileFormatTwo ⟨id, fun l => List.Perm.refl l⟩ 0 [callerFile, calleeFile] = .ok r ∧
      Unions [callerFile.cg, calleeFile.cg] r.cg ∧ Inverse r.cg) ∧
    ∃ r, mergeFileFormatTwo ⟨id, fun l => List.Perm.refl l⟩ 0 [calleeFile, callerFile] = .ok r ∧
      Unions [callerFile.cg, calleeFile.cg] r.cg ∧ Inverse r.cg := by
  have hwf : ∀ file ∈ [callerFile, calleeFile], WellFormed file.cg := by
    simp only [List.forall_mem_cons]
    exact ⟨callerFile_wellFormed, calleeFile_wellFormed, by simp⟩
  have hdata : ∀ file ∈ [callerFile, calleeFile], file.pointerEquivalenceData = none := by decide
  have hloops : LoopsUniform ([callerFile, calleeFile].map InputFile.cg) := by
    left
    simp only [List.map_cons, List.map_nil, List.forall_mem_cons]
    exact ⟨fun f v hv => callerFile_measured hv, fun f v hv => calleeFile_measured hv, by simp⟩
  obtain ⟨-, -, -, hall⟩ := mergeFileFormatTwo_unions hdata hwf ⟨id, fun l => List.Perm.refl l⟩ 0
  exact ⟨hall hloops twoFiles_nestsFit _ _ 0 (List.Perm.refl _), hall hloops twoFiles_nestsFit _ _ 0 (List.Perm.swap ..)⟩

/-- With loop metadata on a part of the functions only, one order of the files ends in an assertion. -/
theorem mergeFileFormatTwo_partial : (∀ file ∈ [callerFile, calleeFile, plainFile], WellFormed file.cg) ∧
    (∀ file ∈ [callerFile, calleeFile, plainFile], file.pointerEquivalenceData = none) ∧
      (∀ w fuel, mergeFileFormatTwo w fuel [callerFile, calleeFile, plainFile] =
        .error (.depth (.assertion "metaval.count(\"loopDepth\") == 1"))) ∧
      ∀ w fuel, ∃ r, mergeFileFormatTwo w fuel [calleeFile, callerFile, plainFile] = .ok r := by
  refine ⟨?_, by decide, fun w fuel => rfl, fun w fuel => ⟨_, rfl⟩⟩
  simp only [List.forall_mem_cons]
  exact ⟨callerFile_wellFormed, calleeFile_wellFormed, plainFile_wellFormed, by simp⟩

end MetaCG.FormatTwo
