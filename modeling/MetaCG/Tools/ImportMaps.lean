import MetaCG.AliasAnalysis.Binding
import MetaCG.Foundations.Outcome
import MetaCG.Tools.CallBinding

/-! The maps of the second file. An entry that the first file has stays as it is, except that a function
whose list of returned objects is empty takes over the other list. -/
namespace MetaCG.CGMerge
open Foundations AliasAnalysis EquivClassContainer
set_option autoImplicit false
set_option maxHeartbeats 250000
set_option maxRecDepth 120000

variable {data1 data2 data : EquivClassContainer} {K : String → Prop}

/-- What both files know about a function. -/
def mergedInfo : Option FunctionInfo → Option FunctionInfo → Option FunctionInfo
  | none, info2 => info2
  | some info1, none => some info1
  | some info1, some info2 => some { info1 with
      referencedInReturnStmts :=
        if info1.referencedInReturnStmts.isEmpty then info2.referencedInReturnStmts else info1.referencedInReturnStmts }

/-- The assertions on the functions that both files know. -/
def SharedFunctionsAgree (data1 data2 : EquivClassContainer) : Prop :=
  ∀ {f info1 info2}, data1.functionInfoMap.find f = some info1 → data2.functionInfoMap.find f = some info2 →
    info1.parameters.length = info2.parameters.length ∧ info1.isVariadic = info2.isVariadic ∧ info1.mangledNames = info2.mangledNames

instance : Decidable (SharedFunctionsAgree data1 data2) :=
  decidable_of_iff (∀ e ∈ data1.functionInfoMap.entries, ∀ info2 ∈ data2.functionInfoMap.find e.1,
      e.2.parameters.length = info2.parameters.length ∧ e.2.isVariadic = info2.isVariadic ∧ e.2.mangledNames = info2.mangledNames)
    ⟨fun h _ _ _ h1 h2 => h _ (OMap.mem_entries.mpr h1) _ h2, fun h _ he _ h2 => h (OMap.mem_entries.mp he) h2⟩

/-- Corresponding parameters of a function that both files know. -/
def SharedParameters (data1 data2 : EquivClassContainer) (x y : String) : Prop :=
  ∃ (f : String) (info1 info2 : FunctionInfo) (i : ℕ), data1.functionInfoMap.find f = some info1 ∧
    data2.functionInfoMap.find f = some info2 ∧ info1.parameters[i]? = some x ∧ info2.parameters[i]? = some y

structure MapsMerged (data1 data2 data : EquivClassContainer) : Prop where
  functionMap : ∀ x, data.functionMap.find x = (data1.functionMap.find x).or (data2.functionMap.find x)
  functionInfoMap : ∀ f, data.functionInfoMap.find f = mergedInfo (data1.functionInfoMap.find f) (data2.functionInfoMap.find f)
  callInfoMap : ∀ c, data.callInfoMap.find c = (data1.callInfoMap.find c).or (data2.callInfoMap.find c)
  callExprParentMap : ∀ c, data.callExprParentMap.find c = (data1.callExprParentMap.find c).or (data2.callExprParentMap.find c)
  indexed : Indexed data

theorem mem_zip_iff {l l' : List String} {x y : String} :
    (x, y) ∈ l.zip l' ↔ ∃ i : ℕ, l[i]? = some x ∧ l'[i]? = some y := by
  rw [List.mem_iff_getElem?]
  refine exists_congr fun i => ?_
  rw [List.getElem?_zip_eq_some]

/-- After the entries `pre` of the second file. -/
structure InfosImported (m1 : OMap String FunctionInfo) (pre : List (String × FunctionInfo))
    (state : OMap String FunctionInfo × List (String × String)) : Prop where
  find : ∀ f, state.1.find f = mergedInfo (m1.find f) (Ordered.find f pre)
  params : ∀ e, e ∈ state.2 ↔ ∃ f info1 info2, m1.find f = some info1 ∧ (f, info2) ∈ pre ∧
    e ∈ info1.parameters.zip info2.parameters ∧ e.1 ≠ e.2

theorem mergedInfo_none (info : Option FunctionInfo) : mergedInfo info none = info := by
  cases info with
  | none => rfl
  | some info => rfl

theorem importFunctionInfo_step {m1 : OMap String FunctionInfo} {pre : List (String × FunctionInfo)} {e : String × FunctionInfo}
    {state : OMap String FunctionInfo × List (String × String)} (h : InfosImported m1 pre state) (hnew : Ordered.find e.1 pre = none)
    (hagree : ∀ info1, m1.find e.1 = some info1 → info1.parameters.length = e.2.parameters.length ∧
      info1.isVariadic = e.2.isVariadic ∧ info1.mangledNames = e.2.mangledNames) :
    ∃ state', importFunctionInfo state e = .ok state' ∧ InfosImported m1 (pre ++ [e]) state' := by
  obtain ⟨f, info2⟩ := e
  simp only at hnew hagree
  have hf : state.1.find f = m1.find f := by rw [h.find, hnew, mergedInfo_none]
  have hfind : ∀ (info : FunctionInfo), mergedInfo (m1.find f) (some info2) = some info → ∀ g,
      (state.1.insert f info).find g = mergedInfo (m1.find g) (Ordered.find g (pre ++ [(f, info2)])) := by
    intro info hinfo g
    rw [OMap.find_insert, Ordered.find_append, Ordered.find]
    split_ifs with hg
    · rw [hg, hnew, Option.none_or, hinfo]
    · rw [h.find, Ordered.find, Option.or_none]
  unfold importFunctionInfo
  simp only [hf]
  cases hm : m1.find f with
  | none =>
    refine ⟨_, rfl, hfind info2 (by rw [hm]; rfl), ?_⟩
    intro e
    rw [h.params]
    constructor
    · rintro ⟨g, a, b, hg, hmem, he⟩
      exact ⟨g, a, b, hg, List.mem_append_left _ hmem, he⟩
    · rintro ⟨g, a, b, hg, hmem, he⟩
      rcases List.mem_append.mp hmem with hmem | hmem
      · exact ⟨g, a, b, hg, hmem, he⟩
      · cases List.mem_singleton.mp hmem
        cases hm.symm.trans hg
  | some info1 =>
    obtain ⟨hlen, hvar, hnames⟩ := hagree info1 hm
    simp only
    rw [if_neg (not_not.mpr hlen), if_neg (not_not.mpr hvar), if_neg (not_not.mpr hnames)]
    refine ⟨_, rfl, hfind _ (by rw [hm]; rfl), ?_⟩
    intro e
    simp only [List.mem_append, List.mem_filter, decide_eq_true_eq, h.params]
    constructor
    · rintro (⟨g, a, b, hg, hmem, he⟩ | ⟨hmem, hne⟩)
      · exact ⟨g, a, b, hg, .inl hmem, he⟩
      · exact ⟨f, info1, info2, hm, .inr (List.mem_singleton_self _), hmem, hne⟩
    · rintro ⟨g, a, b, hg, hmem | hmem, he⟩
      · exact .inl ⟨g, a, b, hg, hmem, he⟩
      · cases List.mem_singleton.mp hmem
        cases hm.symm.trans hg
        exact .inr he

/-- The first file's container with the maps of both. -/
structure MapsImported (data1 data2 : EquivClassContainer) (state : EquivClassContainer × List (String × String)) : Prop where
  maps : MapsMerged data1 data2 state.1
  equivClasses : state.1.equivClasses = data1.equivClasses
  findMap : state.1.findMap = data1.findMap
  params : ∀ {e}, e ∈ state.2 → SharedParameters data1 data2 e.1 e.2
  paramsAll : ∀ {x y}, SharedParameters data1 data2 x y → x = y ∨ (x, y) ∈ state.2

theorem importMaps_spec (hagree : SharedFunctionsAgree data1 data2) :
    ∃ state, importMaps data1 data2 = .ok state ∧ MapsImported data1 data2 state := by
  have hloop : ∃ state, data2.functionInfoMap.entries.foldlM importFunctionInfo (data1.functionInfoMap, []) = .ok state ∧
      InfosImported data1.functionInfoMap data2.functionInfoMap.entries state := by
    refine foldlM_total (J := InfosImported data1.functionInfoMap) ⟨fun f => (mergedInfo_none _).symm, by simp⟩ ?_
    intro pre e state hpre h
    refine importFunctionInfo_step h ?_ fun info1 hinfo1 => ?_
    · have hnodup := data2.functionInfoMap.sorted.keys_nodup.sublist (hpre.sublist.map Prod.fst)
      rw [List.map_append, List.nodup_append] at hnodup
      exact Ordered.find_eq_none_iff.mpr fun hmem => hnodup.2.2 e.1 hmem e.1 (by simp) rfl
    · have hmem : (e.1, e.2) ∈ data2.functionInfoMap.entries := hpre.subset (by simp)
      exact hagree hinfo1 (OMap.mem_entries.mp hmem)
  obtain ⟨⟨infos, params⟩, hrun, himported⟩ := hloop
  refine ⟨_, by rw [importMaps, hrun]; rfl, ?_⟩
  exact
    { maps :=
        { functionMap := OMap.find_union _ _
          functionInfoMap := himported.find
          callInfoMap := OMap.find_union _ _
          callExprParentMap := OMap.find_union _ _
          indexed := rfl }
      equivClasses := rfl
      findMap := rfl
      params := by
        intro e he
        obtain ⟨f, info1, info2, h1, h2, hzip, -⟩ := (himported.params e).mp he
        obtain ⟨i, hx, hy⟩ := mem_zip_iff.mp hzip
        exact ⟨f, info1, info2, i, h1, OMap.mem_entries.mp h2, hx, hy⟩
      paramsAll := by
        rintro x y ⟨f, info1, info2, i, h1, h2, hx, hy⟩
        by_cases hxy : x = y
        · exact .inl hxy
        · exact .inr ((himported.params (x, y)).mpr
            ⟨f, info1, info2, h1, OMap.mem_entries.mpr h2, mem_zip_iff.mpr ⟨i, hx, hy⟩, hxy⟩) }

/-! ## What the merged maps know -/

theorem or_eq_some {α : Type} {a b : Option α} {v : α} (h : a.or b = some v) : a = some v ∨ b = some v := by
  cases a with
  | none => exact .inr h
  | some w => exact .inl h

theorem mergedInfo_known {a b : Option FunctionInfo} (h : a.isSome ∨ b.isSome) : ∃ info, mergedInfo a b = some info := by
  cases a with
  | none => exact Option.isSome_iff_exists.mp (h.resolve_left Bool.false_ne_true)
  | some a =>
    cases b with
    | none => exact ⟨_, rfl⟩
    | some b => exact ⟨_, rfl⟩

/-- Everything but the returned objects comes from one of the files, and they come from one of them too. -/
theorem mergedInfo_cases {a b : Option FunctionInfo} {info : FunctionInfo} (h : mergedInfo a b = some info) :
    ∃ src, (a = some src ∨ (a = none ∧ b = some src)) ∧ info.parameters = src.parameters ∧ info.mangledNames = src.mangledNames ∧
      ∃ ret, (a = some ret ∨ b = some ret) ∧ info.referencedInReturnStmts = ret.referencedInReturnStmts := by
  cases a with
  | none => exact ⟨info, .inr ⟨rfl, h⟩, rfl, rfl, info, .inr h, rfl⟩
  | some a =>
    cases b with
    | none =>
      cases h
      exact ⟨info, .inl rfl, rfl, rfl, info, .inl rfl, rfl⟩
    | some b =>
      have hinfo := Option.some.inj h
      subst hinfo
      refine ⟨a, .inl rfl, rfl, rfl, ?_⟩
      by_cases hempty : a.referencedInReturnStmts.isEmpty
      · exact ⟨b, .inr rfl, if_pos hempty⟩
      · exact ⟨a, .inl rfl, if_neg hempty⟩

theorem MapsMerged.resolvable (h : MapsMerged data1 data2 data) (h1 : Resolvable data1.Known data1)
    (h2 : Resolvable data2.Known data2) : Resolvable (fun x => data1.Known x ∨ data2.Known x) data where
  functions := by
    intro x f hf
    rw [h.functionMap] at hf
    rw [h.functionInfoMap]
    rcases or_eq_some hf with hf | hf
    · exact mergedInfo_known (.inl (Option.isSome_iff_exists.mpr (h1.functions hf)))
    · exact mergedInfo_known (.inr (Option.isSome_iff_exists.mpr (h2.functions hf)))
  calls := by
    intro ce ci hci
    rw [h.callInfoMap] at hci
    exact (or_eq_some hci).imp h1.calls h2.calls
  parents := by
    intro ce ci hci
    rw [h.callInfoMap] at hci
    rw [h.callExprParentMap]
    rcases or_eq_some hci with hci | hci
    · obtain ⟨parent, hparent⟩ := h1.parents hci
      exact ⟨parent, by rw [hparent, Option.some_or]⟩
    · obtain ⟨parent, hparent⟩ := h2.parents hci
      cases h1' : data1.callExprParentMap.find ce with
      | some parent' => exact ⟨parent', rfl⟩
      | none => exact ⟨parent, by rw [hparent, Option.none_or]⟩
  callers := by
    intro ce parent hparent
    rw [h.callExprParentMap] at hparent
    rw [h.functionInfoMap]
    rcases or_eq_some hparent with hparent | hparent
    · exact mergedInfo_known (.inl (Option.isSome_iff_exists.mpr (h1.callers hparent)))
    · exact mergedInfo_known (.inr (Option.isSome_iff_exists.mpr (h2.callers hparent)))
  parameters := by
    intro f info hinfo p hp
    rw [h.functionInfoMap] at hinfo
    obtain ⟨src, hsrc, hparams, -⟩ := mergedInfo_cases hinfo
    rw [hparams] at hp
    rcases hsrc with hsrc | ⟨-, hsrc⟩
    · exact .inl (h1.parameters hsrc p hp)
    · exact .inr (h2.parameters hsrc p hp)
  returns := by
    intro f info hinfo r hr
    rw [h.functionInfoMap] at hinfo
    obtain ⟨-, -, -, -, ret, hret, hreturns⟩ := mergedInfo_cases hinfo
    rw [hreturns] at hr
    exact hret.imp (fun hret => h1.returns hret r hr) fun hret => h2.returns hret r hr
  arguments := by
    intro ce ci hci args hargs a ha
    rw [h.callInfoMap] at hci
    exact (or_eq_some hci).imp (fun hci => h1.arguments hci args hargs a ha) fun hci => h2.arguments hci args hargs a ha

/-- The functions that contain a call are nodes of the whole call graph. -/
def CallersInGraph (data : EquivClassContainer) (json : WholeCG) : Prop :=
  ∀ {c parent pinfo}, data.callExprParentMap.find c = some parent → data.functionInfoMap.find parent = some pinfo →
    ∀ a ∈ pinfo.mangledNames, HasNode json a

instance {json : WholeCG} : Decidable (CallersInGraph data json) :=
  decidable_of_iff (∀ e ∈ data.callExprParentMap.entries, ∀ pinfo ∈ data.functionInfoMap.find e.2,
      ∀ a ∈ pinfo.mangledNames, (json.find a).isSome = true)
    ⟨fun h _ _ _ hc hp a ha => Option.isSome_iff_exists.mp (h _ (OMap.mem_entries.mpr hc) _ hp a ha),
      fun h _ he _ hp a ha => Option.isSome_iff_exists.mpr (h (OMap.mem_entries.mp he) hp a ha)⟩

theorem MapsMerged.callersInGraph (h : MapsMerged data1 data2 data) (hagree : SharedFunctionsAgree data1 data2) {json : WholeCG}
    (hr1 : Resolvable data1.Known data1) (hr2 : Resolvable data2.Known data2)
    (h1 : CallersInGraph data1 json) (h2 : CallersInGraph data2 json) : CallersInGraph data json := by
  intro c parent pinfo hparent hpinfo a ha
  rw [h.callExprParentMap] at hparent
  rw [h.functionInfoMap] at hpinfo
  obtain ⟨src, hsrc, -, hnames, -⟩ := mergedInfo_cases hpinfo
  rw [hnames] at ha
  rcases or_eq_some hparent with hparent | hparent
  · obtain ⟨info1, hinfo1⟩ := hr1.callers hparent
    rcases hsrc with hsrc | ⟨hnone, -⟩
    · exact h1 hparent hsrc a ha
    · cases hinfo1.symm.trans hnone
  · obtain ⟨info2, hinfo2⟩ := hr2.callers hparent
    rcases hsrc with hsrc | ⟨-, hsrc⟩
    · exact h2 hparent hinfo2 a ((hagree hsrc hinfo2).2.2 ▸ ha)
    · exact h2 hparent hsrc a ha

end MetaCG.CGMerge
