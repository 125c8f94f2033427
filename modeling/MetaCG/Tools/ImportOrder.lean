import MetaCG.Tools.CrossTU

/-! Two files in either order.

Of a function or call that both files know, the entry of the file that comes first is kept. The order
matters as soon as these entries differ in something that is not related anyway. -/
namespace MetaCG.CGMerge
open Foundations Congruence AliasAnalysis EquivClassContainer
set_option autoImplicit false
set_option maxHeartbeats 250000
set_option maxRecDepth 120000

variable {data1 data2 data data' : EquivClassContainer} {json json' : WholeCG} {fuel fuel' : ℕ}

/-- The files one after the other, into a container that is empty at first. -/
def mergeFiles (fuel : ℕ) (files : List PointerEquivalenceData) (wholeCG : WholeCG) :
    Except Fault (EquivClassContainer × WholeCG) :=
  files.foldlM (fun state file => mergeEquivalenceClasses fuel state.1 file state.2) (.empty, wholeCG)

theorem mergeFiles_mono (hle : fuel ≤ fuel') {files : List PointerEquivalenceData} {r : EquivClassContainer × WholeCG}
    (h : mergeFiles fuel files json = .ok r) : mergeFiles fuel' files json = .ok r :=
  foldlM_mono (mergeEquivalenceClasses_mono hle) h

/-! ## Rules of the first file -/

theorem mergedInfo_first (info1 : FunctionInfo) (info2 : Option FunctionInfo) :
    ∃ info, mergedInfo (some info1) info2 = some info ∧ info.parameters = info1.parameters ∧
      info.mangledNames = info1.mangledNames ∧ ∀ r ∈ info1.referencedInReturnStmts, r ∈ info.referencedInReturnStmts := by
  cases info2 with
  | none => exact ⟨info1, rfl, rfl, rfl, fun _ => id⟩
  | some info2 =>
    refine ⟨_, rfl, rfl, rfl, fun r hr => ?_⟩
    have hne : ¬info1.referencedInReturnStmts.isEmpty := by
      rw [List.isEmpty_iff]
      exact List.ne_nil_of_mem hr
    simp only
    rw [if_neg hne]
    exact hr

theorem MapsMerged.mayCall (h : MapsMerged data1 data2 data) {x y c : String} {info1 : FunctionInfo} {ci : CallInfo}
    (hcall : data1.MayCall x y info1 c ci) :
    ∃ info, data.MayCall x y info c ci ∧ info.parameters = info1.parameters ∧ info.mangledNames = info1.mangledNames ∧
      ∀ r ∈ info1.referencedInReturnStmts, r ∈ info.referencedInReturnStmts := by
  obtain ⟨⟨f, hf, hinfo⟩, hci, hy⟩ := hcall
  obtain ⟨info, hmerged, hparams, hnames, hreturns⟩ := mergedInfo_first info1 (data2.functionInfoMap.find f)
  refine ⟨info, ⟨⟨f, ?_, ?_⟩, ?_, hy⟩, hparams, hnames, hreturns⟩
  · rw [h.functionMap, hf, Option.some_or]
  · rw [h.functionInfoMap, hinfo, hmerged]
  · rw [h.callInfoMap, hci, Option.some_or]

theorem MapsMerged.bindRule (h : MapsMerged data1 data2 data) {x y o o' : String} (hrule : data1.BindRule x y o o') :
    data.BindRule x y o o' := by
  obtain ⟨info1, c, ci, hcall, hbinds⟩ := hrule
  obtain ⟨info, hcall', hparams, -, hreturns⟩ := h.mayCall hcall
  refine ⟨info, c, ci, hcall', ?_⟩
  rcases hbinds with ⟨i, args, hp, hargs, ho'⟩ | ⟨ho, ho'⟩
  · exact .inl ⟨i, args, hparams ▸ hp, hargs, ho'⟩
  · exact .inr ⟨ho, hreturns o' ho'⟩

theorem MapsMerged.edgeRule (h : MapsMerged data1 data2 data) {x y a b : String} (hrule : EdgeRule data1 x y a b) :
    EdgeRule data x y a b := by
  obtain ⟨info1, c, ci, parent, pinfo1, hcall, hparent, hpinfo, ha, hb⟩ := hrule
  obtain ⟨info, hcall', -, hnames, -⟩ := h.mayCall hcall
  obtain ⟨pinfo, hmerged, -, hpnames, -⟩ := mergedInfo_first pinfo1 (data2.functionInfoMap.find parent)
  refine ⟨info, c, ci, parent, pinfo, hcall', ?_, ?_, hpnames ▸ ha, hnames ▸ hb⟩
  · rw [h.callExprParentMap, hparent, Option.some_or]
  · rw [h.functionInfoMap, hpinfo, hmerged]

/-! ## Both files -/

theorem not_known_empty {x : String} : ¬EquivClassContainer.empty.Known x := by
  rintro ⟨it, hit⟩
  cases hit

theorem not_rel_empty {x y : String} : ¬EquivClassContainer.empty.Rel x y := fun h => not_known_empty h.left

theorem not_stored_empty {x m o : String} : ¬EquivClassContainer.empty.Stored x m o := fun h => not_known_empty h.known

/-- The two files, as the least fixpoint of their rules. -/
structure MergesTwo (data1 data2 : EquivClassContainer) (json : WholeCG) (data : EquivClassContainer) (json' : WholeCG) : Prop where
  runs : ∃ n, ∀ fuel, n ≤ fuel → mergeFiles fuel [to_json data1, to_json data2] json = .ok (data, json')
  maps : MapsMerged data1 data2 data
  least : IsLeast {r | Closed (Given data1 data2) (Forces data1 data2 data) r} data.Rel
  edges : ∀ {a b}, HasEdge json' a b ↔ HasEdge json a b ∨ ∃ x y, data.Rel x y ∧ EdgeRule data x y a b

theorem mergesTwo_of_links {first : EquivClassContainer} {jsonFirst : WholeCG}
    (hrun : ∃ n, ∀ fuel, n ≤ fuel → mergeFiles fuel [to_json data1, to_json data2] json = .ok (data, json'))
    (h1 : WellFormed data1) (hr1 : Resolvable data1.Known data1) (hr2 : Resolvable data2.Known data2) (h2 : WellFormed data2)
    (l1 : Links .empty data1 json first jsonFirst) (l2 : Links first data2 jsonFirst data json')
    (hparams : ∀ {x y}, SharedParameters first data2 x y ↔ SharedParameters data1 data2 x y) (hmaps : MapsMerged data1 data2 data) :
    MergesTwo data1 data2 json data json' where
  runs := hrun
  maps := hmaps
  least := by
    have hstart : HalfClosed (fun _ _ => False) (fun _ _ _ => False) EquivClassContainer.empty.table Settled :=
      ⟨False.elim, False.elim, fun hs => (not_stored_empty hs).elim⟩
    have hgiven : ∀ {x y}, Given data1 data2 x y → data.Rel x y := by
      rintro x y (hxy | hxy | hxy)
      · exact l2.rel1 (l1.rel2 hxy)
      · exact l2.rel2 hxy
      · exact l2.params (hparams.mpr hxy)
    have hknown : ∀ {x}, data1.Known x ∨ data2.Known x → data.Known x := fun hx =>
      l2.known.mpr (hx.imp_left fun h => l1.known.mpr (.inr h))
    have hhalf : HalfClosed (Given data1 data2) (EitherStored data1 data2) data.table Settled := by
      refine (l2.half (l1.half hstart)).extend (fun x y hxy => .of_rel (hgiven hxy)) fun x m o hs => .inl ?_
      exact hs.imp_left .inr
    have hclosed : Closed (Given data1 data2) (SharedMember (EitherStored data1 data2)) data.Rel := by
      refine hhalf.closed (fun _ _ => id) Rel.symm Rel.trans (fun x y hxy => (hgiven hxy).left.rel) ?_
        fun x y m o hxy hs => Stored.of_rel hs hxy
      rintro x m o (hs | hs)
      · exact (hknown (.inl (h1.partition.known_of_stored hs))).rel
      · exact (hknown (.inr (h2.partition.known_of_stored hs))).rel
    constructor
    · refine ⟨⟨Rel.symm, Rel.trans, ?_⟩, hclosed.base⟩
      rintro x y o o' hxy (hshared | hbind)
      · exact hclosed.imp hxy hshared
      · exact rel_of_bound l2.maps.indexed (hmaps.resolvable hr1 hr2) l2.bound hxy hbind
    · intro r hr x y hxy
      have hempty : Justified r (EitherStored data1 data2) EquivClassContainer.empty.table Settled :=
        ⟨fun h => (not_rel_empty h).elim, False.elim, fun h => (not_stored_empty h).elim⟩
      have hbind2 := Closed.binds hr
      have hfirst := l1.just (Closed.prefixes hr) (hbind2.mono fun _ _ _ _ => l2.maps.bindRule) (fun x y h => hr.base (.inl h))
        (by rintro x y ⟨f, info1, info2, i, hf, -⟩; cases hf) (fun x m o => .inl) hempty
      have hboth := l2.just (Closed.prefixes hr) hbind2 (fun x y h => hr.base (.inr (.inl h)))
        (fun x y h => hr.base (.inr (.inr (hparams.mp h)))) (fun x m o => .inr) hfirst
      exact hboth.rel hxy
  edges := by
    intro a b
    constructor
    · intro he
      rcases l2.forced he with he | he
      · refine (l1.forced he).imp_right ?_
        rintro ⟨x, y, hxy, hrule⟩
        exact ⟨x, y, l2.rel1 hxy, l2.maps.edgeRule hrule⟩
      · exact .inr he
    · rintro (he | ⟨x, y, hxy, hrule⟩)
      · exact l2.edges (l1.edges he)
      · exact edge_of_bound l2.maps.indexed (hmaps.resolvable hr1 hr2) l2.bound hxy hrule

theorem mergeFiles_two (h1 : WellFormed data1) (h2 : WellFormed data2) (hr1 : Resolvable data1.Known data1)
    (hr2 : Resolvable data2.Known data2) (hagree : SharedFunctionsAgree data1 data2) (hg1 : CallersInGraph data1 json)
    (hg2 : CallersInGraph data2 json) : ∃ data json', MergesTwo data1 data2 json data json' := by
  have hempty : Partition EquivClassContainer.empty.Known .empty := (by decide : WellFormed .empty).partition
  obtain ⟨first, jsonFirst, hrun1, l1⟩ := mergeEquivalenceClasses_links hempty h1 (by decide) hr1
    (by intro f info1 info2 hf; cases hf) (by intro c parent pinfo hc; cases hc) hg1 (Nat.lt_succ_self _)
  have hinfos : ∀ f, first.functionInfoMap.find f = data1.functionInfoMap.find f := l1.maps.functionInfoMap
  have hknown : ∀ x, EquivClassContainer.empty.Known x ∨ data1.Known x → first.Known x := fun x => l1.known.mpr
  have hagree' : SharedFunctionsAgree first data2 := by
    intro f info1 info2 hf
    rw [hinfos] at hf
    exact hagree hf
  have hg1' : CallersInGraph first jsonFirst := by
    intro c parent pinfo hc hp a ha
    rw [l1.maps.callExprParentMap, show EquivClassContainer.empty.callExprParentMap.find c = none from rfl, Option.none_or] at hc
    rw [hinfos] at hp
    exact l1.nodes.mpr (hg1 hc hp a ha)
  have hg2' : CallersInGraph data2 jsonFirst := fun hc hp a ha => l1.nodes.mpr (hg2 hc hp a ha)
  obtain ⟨data, json', hrun2, l2⟩ := mergeEquivalenceClasses_links (l1.partition.mono hknown) h2
    ((l1.maps.resolvable (by decide) hr1).mono hknown) hr2 hagree' hg1' hg2' (Nat.lt_succ_self _)
  have hruns : ∃ n, ∀ fuel, n ≤ fuel → mergeFiles fuel [to_json data1, to_json data2] json = .ok (data, json') := by
    refine ⟨max (EquivClassContainer.empty.equivClasses.size + data1.equivClasses.size).succ
      (first.equivClasses.size + data2.equivClasses.size).succ, fun fuel hfuel => ?_⟩
    have hfirst := mergeEquivalenceClasses_mono ((le_max_left _ _).trans hfuel) hrun1
    have hsecond := mergeEquivalenceClasses_mono ((le_max_right _ _).trans hfuel) hrun2
    unfold mergeFiles
    rw [List.foldlM_cons, hfirst, ok_bind, List.foldlM_cons, hsecond]
    rfl
  refine ⟨data, json', mergesTwo_of_links hruns h1 hr1 hr2 h2 l1 l2 ?_ ?_⟩
  · intro x y
    unfold SharedParameters
    simp only [hinfos]
  · exact
      { functionMap := fun x => by rw [l2.maps.functionMap, l1.maps.functionMap]; rfl
        functionInfoMap := fun f => by rw [l2.maps.functionInfoMap, hinfos]
        callInfoMap := fun c => by rw [l2.maps.callInfoMap, l1.maps.callInfoMap]; rfl
        callExprParentMap := fun c => by rw [l2.maps.callExprParentMap, l1.maps.callExprParentMap]; rfl
        indexed := l2.maps.indexed }

/-! ## The other order -/

/-- Functions and calls that both files know are the same, up to the returned objects. -/
structure UnitsAgree (data1 data2 : EquivClassContainer) : Prop where
  functionMap : ∀ {x f g}, data1.functionMap.find x = some f → data2.functionMap.find x = some g → f = g
  callInfoMap : ∀ {c ci ci'}, data1.callInfoMap.find c = some ci → data2.callInfoMap.find c = some ci' → ci = ci'
  callExprParentMap : ∀ {c f g}, data1.callExprParentMap.find c = some f → data2.callExprParentMap.find c = some g → f = g
  functions : SharedFunctionsAgree data1 data2

/-- Of a function that both files know, every object that one of them records as returned is related, by what
the files say, to one that the other records. -/
def ReturnsAgree (data1 data2 : EquivClassContainer) : Prop :=
  ∀ {f info1 info2}, data1.functionInfoMap.find f = some info1 → data2.functionInfoMap.find f = some info2 →
    info1.referencedInReturnStmts ≠ [] → info2.referencedInReturnStmts ≠ [] →
    (∀ o ∈ info1.referencedInReturnStmts, ∃ o' ∈ info2.referencedInReturnStmts, Relation.EqvGen (Given data1 data2) o o') ∧
      ∀ o' ∈ info2.referencedInReturnStmts, ∃ o ∈ info1.referencedInReturnStmts, Relation.EqvGen (Given data1 data2) o o'

theorem UnitsAgree.symm (h : UnitsAgree data1 data2) : UnitsAgree data2 data1 where
  functionMap hf hg := (h.functionMap hg hf).symm
  callInfoMap hf hg := (h.callInfoMap hg hf).symm
  callExprParentMap hf hg := (h.callExprParentMap hg hf).symm
  functions hf hg := (h.functions hg hf).imp Eq.symm (And.imp Eq.symm Eq.symm)

theorem SharedParameters.symm {x y : String} (h : SharedParameters data1 data2 x y) : SharedParameters data2 data1 y x := by
  obtain ⟨f, info1, info2, i, h1, h2, hx, hy⟩ := h
  exact ⟨f, info2, info1, i, h2, h1, hy, hx⟩

theorem eqvGen_given_symm {x y : String} (h : Relation.EqvGen (Given data1 data2) x y) : Relation.EqvGen (Given data2 data1) x y := by
  induction h with
  | rel x y h =>
    rcases h with h | h | h
    · exact .rel _ _ (.inr (.inl h))
    · exact .rel _ _ (.inl h)
    · exact .symm _ _ (.rel _ _ (.inr (.inr h.symm)))
  | refl x => exact .refl x
  | symm x y _ ih => exact .symm _ _ ih
  | trans x y z _ _ ih ih' => exact .trans _ _ _ ih ih'

theorem ReturnsAgree.symm (h : ReturnsAgree data1 data2) : ReturnsAgree data2 data1 := by
  intro f info2 info1 h2 h1 hne2 hne1
  obtain ⟨h12, h21⟩ := h h1 h2 hne1 hne2
  constructor
  · intro o ho
    obtain ⟨o', ho', hrel⟩ := h21 o ho
    exact ⟨o', ho', eqvGen_given_symm hrel.symm⟩
  · intro o ho
    obtain ⟨o', ho', hrel⟩ := h12 o ho
    exact ⟨o', ho', eqvGen_given_symm hrel.symm⟩

theorem or_swap {α : Type} {a b : Option α} {v : α} (h : b.or a = some v) (hagree : ∀ v w, a = some v → b = some w → v = w) :
    a.or b = some v := by
  cases a with
  | none => simpa using h
  | some w =>
    cases b with
    | none => exact h
    | some u =>
      cases h
      rw [Option.some_or, hagree w v rfl rfl]

section
variable {other : EquivClassContainer} {r : String → String → Prop}

theorem mayCall_swap (h : MapsMerged data1 data2 data) (h' : MapsMerged data2 data1 other) (ha : UnitsAgree data1 data2)
    {x y c : String} {info : FunctionInfo} {ci : CallInfo} (hcall : other.MayCall x y info c ci) :
    ∃ f info', data.MayCall x y info' c ci ∧ mergedInfo (data2.functionInfoMap.find f) (data1.functionInfoMap.find f) = some info ∧
      mergedInfo (data1.functionInfoMap.find f) (data2.functionInfoMap.find f) = some info' := by
  obtain ⟨⟨f, hf, hinfo⟩, hci, hy⟩ := hcall
  rw [h'.functionMap] at hf
  rw [h'.functionInfoMap] at hinfo
  rw [h'.callInfoMap] at hci
  have hsome : (data1.functionInfoMap.find f).isSome ∨ (data2.functionInfoMap.find f).isSome := by
    obtain ⟨src, hsrc, -⟩ := mergedInfo_cases hinfo
    rcases hsrc with hsrc | ⟨-, hsrc⟩
    · exact .inr (by rw [hsrc]; rfl)
    · exact .inl (by rw [hsrc]; rfl)
  obtain ⟨info', hinfo'⟩ := mergedInfo_known hsome
  refine ⟨f, info', ⟨⟨f, ?_, ?_⟩, ?_, hy⟩, hinfo, hinfo'⟩
  · rw [h.functionMap]
    exact or_swap hf fun _ _ => ha.functionMap
  · rw [h.functionInfoMap, hinfo']
  · rw [h.callInfoMap]
    exact or_swap hci fun _ _ => ha.callInfoMap

/-- What is equal by the equations alone is equal or related. -/
theorem eq_or_rel_of_given (hr : Closed (Given data1 data2) (Forces data1 data2 data) r) {x y : String}
    (h : Relation.EqvGen (Given data1 data2) x y) : x = y ∨ r x y := by
  induction h with
  | rel x y h => exact .inr (hr.base h)
  | refl x => exact .inl rfl
  | symm x y _ ih => exact ih.imp Eq.symm hr.symm
  | trans x y z _ _ ih ih' =>
    rcases ih with rfl | h
    · exact ih'
    · rcases ih' with rfl | h'
      · exact .inr h
      · exact .inr (hr.trans h h')

/-- A call that is bound with one order's information is bound with the other's. -/
theorem binds_swap (hr : Closed (Given data1 data2) (Forces data1 data2 data) r) (ha : UnitsAgree data1 data2)
    (hret : ReturnsAgree data1 data2) {f c : String} {info info' : FunctionInfo} {ci : CallInfo} {o o' : String}
    (hinfo : mergedInfo (data2.functionInfoMap.find f) (data1.functionInfoMap.find f) = some info)
    (hinfo' : mergedInfo (data1.functionInfoMap.find f) (data2.functionInfoMap.find f) = some info')
    (hbound : ∀ {p q}, Binds info' ci c p q → r p q) (hbinds : Binds info ci c o o') : r o o' := by
  cases h1 : data1.functionInfoMap.find f with
  | none =>
    rw [h1, mergedInfo_none] at hinfo
    rw [h1] at hinfo'
    cases hinfo.symm.trans hinfo'
    exact hbound hbinds
  | some info1 =>
    cases h2 : data2.functionInfoMap.find f with
    | none =>
      rw [h1, h2] at hinfo
      rw [h1, h2, mergedInfo_none] at hinfo'
      cases hinfo.symm.trans hinfo'
      exact hbound hbinds
    | some info2 =>
      rw [h1, h2] at hinfo hinfo'
      have hinfo := Option.some.inj hinfo
      have hinfo' := Option.some.inj hinfo'
      subst hinfo hinfo'
      rcases hbinds with ⟨i, args, hp, hargs, ho'⟩ | ⟨rfl, ho'⟩
      · simp only at hp
        have hlen := (ha.functions h1 h2).1
        obtain ⟨hi, -⟩ := List.getElem?_eq_some_iff.mp hp
        obtain ⟨p, hp1⟩ : ∃ p, info1.parameters[i]? = some p := ⟨_, List.getElem?_eq_getElem (hlen ▸ hi)⟩
        have hparam : r p o := hr.base (.inr (.inr ⟨f, info1, info2, i, h1, h2, hp1, hp⟩))
        have harg := hbound (.inl ⟨i, args, hp1, hargs, ho'⟩)
        exact hr.trans (hr.symm hparam) harg
      · simp only at ho'
        by_cases hempty2 : info2.referencedInReturnStmts = []
        · rw [if_pos (by rw [hempty2]; rfl)] at ho'
          refine hbound (.inr ⟨rfl, ?_⟩)
          simp only
          rw [if_neg (by rw [List.isEmpty_iff]; exact List.ne_nil_of_mem ho')]
          exact ho'
        · rw [if_neg (by rwa [List.isEmpty_iff])] at ho'
          by_cases hempty1 : info1.referencedInReturnStmts = []
          · refine hbound (.inr ⟨rfl, ?_⟩)
            simp only
            rw [if_pos (by rw [hempty1]; rfl)]
            exact ho'
          · obtain ⟨p, hp, hrel⟩ := (hret h1 h2 hempty1 hempty2).2 o' ho'
            have hcp : r o p := by
              refine hbound (.inr ⟨rfl, ?_⟩)
              simp only
              rw [if_neg (by rwa [List.isEmpty_iff])]
              exact hp
            rcases eq_or_rel_of_given hr hrel with rfl | hpo
            · exact hcp
            · exact hr.trans hcp hpo

/-- The rules of one order hold in every relation that is closed under those of the other. -/
theorem closed_swap (h : MapsMerged data1 data2 data) (h' : MapsMerged data2 data1 other) (ha : UnitsAgree data1 data2)
    (hret : ReturnsAgree data1 data2) (hr : Closed (Given data1 data2) (Forces data1 data2 data) r) :
    Closed (Given data2 data1) (Forces data2 data1 other) r where
  symm := hr.symm
  trans := hr.trans
  base := by
    rintro x y (hxy | hxy | hxy)
    · exact hr.base (.inr (.inl hxy))
    · exact hr.base (.inl hxy)
    · exact hr.symm (hr.base (.inr (.inr hxy.symm)))
  imp := by
    rintro x y o o' hxy (⟨m, ho, ho'⟩ | ⟨info, c, ci, hcall, hbinds⟩)
    · exact hr.imp hxy (.inl ⟨m, ho.symm, ho'.symm⟩)
    · obtain ⟨f, info', hcall', hinfo, hinfo'⟩ := mayCall_swap h h' ha hcall
      exact binds_swap hr ha hret hinfo hinfo' (fun hb => hr.imp hxy (.inr ⟨info', c, ci, hcall', hb⟩)) hbinds

theorem mangledNames_swap (ha : UnitsAgree data1 data2) {f : String} {info info' : FunctionInfo}
    (hinfo : mergedInfo (data2.functionInfoMap.find f) (data1.functionInfoMap.find f) = some info)
    (hinfo' : mergedInfo (data1.functionInfoMap.find f) (data2.functionInfoMap.find f) = some info') :
    info.mangledNames = info'.mangledNames := by
  obtain ⟨src, hsrc, -, hnames, -⟩ := mergedInfo_cases hinfo
  obtain ⟨src', hsrc', -, hnames', -⟩ := mergedInfo_cases hinfo'
  rw [hnames, hnames']
  rcases hsrc with hsrc | ⟨hnone, hsrc⟩
  · rcases hsrc' with hsrc' | ⟨-, hsrc'⟩
    · exact (ha.functions hsrc' hsrc).2.2.symm
    · cases hsrc.symm.trans hsrc'
      rfl
  · rcases hsrc' with hsrc' | ⟨hnone', -⟩
    · cases hsrc.symm.trans hsrc'
      rfl
    · cases hsrc.symm.trans hnone'

theorem edgeRule_swap (h : MapsMerged data1 data2 data) (h' : MapsMerged data2 data1 other) (ha : UnitsAgree data1 data2)
    {x y a b : String} (hrule : EdgeRule other x y a b) : EdgeRule data x y a b := by
  obtain ⟨info, c, ci, parent, pinfo, hcall, hparent, hpinfo, hpa, hpb⟩ := hrule
  obtain ⟨f, info', hcall', hinfo, hinfo'⟩ := mayCall_swap h h' ha hcall
  rw [h'.callExprParentMap] at hparent
  rw [h'.functionInfoMap] at hpinfo
  have hsome : (data1.functionInfoMap.find parent).isSome ∨ (data2.functionInfoMap.find parent).isSome := by
    obtain ⟨src, hsrc, -⟩ := mergedInfo_cases hpinfo
    rcases hsrc with hsrc | ⟨-, hsrc⟩
    · exact .inr (by rw [hsrc]; rfl)
    · exact .inl (by rw [hsrc]; rfl)
  obtain ⟨pinfo', hpinfo'⟩ := mergedInfo_known hsome
  refine ⟨info', c, ci, parent, pinfo', hcall', ?_, ?_, mangledNames_swap ha hpinfo hpinfo' ▸ hpa,
    mangledNames_swap ha hinfo hinfo' ▸ hpb⟩
  · rw [h.callExprParentMap]
    exact or_swap hparent fun _ _ => ha.callExprParentMap
  · rw [h.functionInfoMap, hpinfo']

end

/-- When the shared entries agree, the order of the files does not matter. -/
theorem mergeFiles_comm (h1 : WellFormed data1) (h2 : WellFormed data2) (hr1 : Resolvable data1.Known data1)
    (hr2 : Resolvable data2.Known data2) (hg1 : CallersInGraph data1 json) (hg2 : CallersInGraph data2 json)
    (ha : UnitsAgree data1 data2) (hret : ReturnsAgree data1 data2) :
    ∃ n data12 json12 data21 json21,
      (∀ fuel, n ≤ fuel → mergeFiles fuel [to_json data1, to_json data2] json = .ok (data12, json12)) ∧
      (∀ fuel, n ≤ fuel → mergeFiles fuel [to_json data2, to_json data1] json = .ok (data21, json21)) ∧
      (∀ x y, data12.Rel x y ↔ data21.Rel x y) ∧ ∀ a b, HasEdge json12 a b ↔ HasEdge json21 a b := by
  obtain ⟨data12, json12, m12⟩ := mergeFiles_two h1 h2 hr1 hr2 ha.functions hg1 hg2
  obtain ⟨data21, json21, m21⟩ := mergeFiles_two h2 h1 hr2 hr1 ha.symm.functions hg2 hg1
  obtain ⟨n12, hrun12⟩ := m12.runs
  obtain ⟨n21, hrun21⟩ := m21.runs
  have hrel : ∀ {x y}, data12.Rel x y ↔ data21.Rel x y := by
    intro x y
    constructor
    · exact m12.least.2 (closed_swap m21.maps m12.maps ha.symm hret.symm m21.least.1) x y
    · exact m21.least.2 (closed_swap m12.maps m21.maps ha hret m12.least.1) x y
  refine ⟨max n12 n21, data12, json12, data21, json21, fun fuel hfuel => hrun12 fuel ((le_max_left _ _).trans hfuel),
    fun fuel hfuel => hrun21 fuel ((le_max_right _ _).trans hfuel), fun x y => hrel, fun a b => ?_⟩
  rw [m12.edges, m21.edges]
  refine or_congr_right ⟨?_, ?_⟩
  · rintro ⟨x, y, hxy, hrule⟩
    exact ⟨x, y, hrel.mp hxy, edgeRule_swap m21.maps m12.maps ha.symm hrule⟩
  · rintro ⟨x, y, hxy, hrule⟩
    exact ⟨x, y, hrel.mpr hxy, edgeRule_swap m12.maps m21.maps ha hrule⟩

/-! ## A declaration hides what a definition returns -/

/-- `FunctionInfo::FunctionInfo` records the symbolic return object of every function that has one. -/
def RecordsSymbolicReturn (symbolicReturn : String → Option String) (data : EquivClassContainer) : Prop :=
  ∀ e ∈ data.functionInfoMap.entries, ∀ s ∈ symbolicReturn e.1, s ∈ e.2.referencedInReturnStmts

def symbolicReturn (f : String) : Option String := if f = "F" then some "r" else some "s"

instance (x y : String) : Decidable (data.Rel x y) := decidable_of_iff (∃ it ∈ data.findMap.find x, data.findMap.find y = some it) Iff.rfl

/-- The unit with the declaration keeps its own list, although the call in it may return `x`. -/
theorem mergeFiles_order :
    WellFormed (callingUnit "_F" ["r"]) ∧ WellFormed definingUnit ∧
      Resolvable (callingUnit "_F" ["r"]).Known (callingUnit "_F" ["r"]) ∧ Resolvable definingUnit.Known definingUnit ∧
      RecordsSymbolicReturn symbolicReturn (callingUnit "_F" ["r"]) ∧ RecordsSymbolicReturn symbolicReturn definingUnit ∧
      ∃ data12 json12 data21 json21,
        (∀ fuel, 9 ≤ fuel → mergeFiles fuel [to_json (callingUnit "_F" ["r"]), to_json definingUnit] twoNodes =
          .ok (data12, json12)) ∧
        (∀ fuel, 9 ≤ fuel → mergeFiles fuel [to_json definingUnit, to_json (callingUnit "_F" ["r"])] twoNodes =
          .ok (data21, json21)) ∧
        ¬data12.Rel "c" "x" ∧ data21.Rel "c" "x" := by
  refine ⟨by decide, by decide, by decide, by decide, by unfold RecordsSymbolicReturn; decide,
    by unfold RecordsSymbolicReturn; decide, _, _, _, _, fun fuel hfuel => mergeFiles_mono hfuel rfl,
    fun fuel hfuel => mergeFiles_mono hfuel rfl, by decide, by decide⟩

/-- A unit that defines `F` and relates what it returns with the symbolic return object. -/
def settledUnit : EquivClassContainer := from_json
  { equivClasses := [⟨["f"], []⟩, ⟨["r", "x"], []⟩]
    functionMap := OMap.empty.insert "f" "F"
    functionInfoMap := OMap.empty.insert "F" ⟨["_F"], [], ["x", "r"], false⟩
    callInfoMap := .empty
    callExprParentMap := .empty }

theorem settledUnit_agrees : UnitsAgree (callingUnit "_F" ["r"]) settledUnit where
  functionMap := by
    intro x f g hf hg
    have hmem : (x, g) ∈ [("f", "F")] := OMap.mem_entries.mpr hg
    obtain ⟨rfl, rfl⟩ : x = "f" ∧ g = "F" := by simpa using hmem
    exact Option.some.inj (hf.symm.trans rfl)
  callInfoMap := by
    intro c ci ci' _ h
    cases h
  callExprParentMap := by
    intro c f g _ h
    cases h
  functions := by decide

theorem settledUnit_returns : ReturnsAgree (callingUnit "_F" ["r"]) settledUnit := by
  intro f info1 info2 h1 h2 _ _
  have hmem : (f, info2) ∈ [("F", (⟨["_F"], [], ["x", "r"], false⟩ : FunctionInfo))] := OMap.mem_entries.mpr h2
  obtain ⟨rfl, rfl⟩ : f = "F" ∧ info2 = ⟨["_F"], [], ["x", "r"], false⟩ := by simpa using hmem
  cases Option.some.inj (h1.symm.trans (rfl : _ = some (⟨["_F"], [], ["r"], false⟩ : FunctionInfo)))
  have hrx : Given (callingUnit "_F" ["r"]) settledUnit "r" "x" := .inr (.inl (by decide))
  constructor
  · intro o ho
    exact ⟨o, List.mem_cons_of_mem _ ho, .refl o⟩
  · intro o' ho'
    refine ⟨"r", List.mem_singleton_self _, ?_⟩
    rcases List.mem_cons.mp ho' with rfl | ho'
    · exact .rel _ _ hrx
    · rw [List.mem_singleton.mp ho']
      exact .refl _

theorem settledUnit_comm : ∃ n data12 json12 data21 json21,
    (∀ fuel, n ≤ fuel → mergeFiles fuel [to_json (callingUnit "_F" ["r"]), to_json settledUnit] twoNodes = .ok (data12, json12)) ∧
    (∀ fuel, n ≤ fuel → mergeFiles fuel [to_json settledUnit, to_json (callingUnit "_F" ["r"])] twoNodes = .ok (data21, json21)) ∧
    (∀ x y, data12.Rel x y ↔ data21.Rel x y) ∧ ∀ a b, HasEdge json12 a b ↔ HasEdge json21 a b :=
  mergeFiles_comm (by decide) (by decide) (by decide) (by decide) (by decide) (by decide) settledUnit_agrees settledUnit_returns

end MetaCG.CGMerge
