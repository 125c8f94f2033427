import MetaCG.Tools.CallBinding
import MetaCG.Tools.ImportFile
import MetaCG.Tools.ImportMaps

/-! `mergeEquivalenceClasses` links the classes of two files and binds every call its classes reveal. -/
namespace MetaCG.CGMerge
open Foundations Congruence AliasAnalysis EquivClassContainer
set_option autoImplicit false
set_option maxHeartbeats 250000
set_option maxRecDepth 120000

variable {data1 data2 data data' : EquivClassContainer} {K : String → Prop} {json json' : WholeCG} {fuel fuel' : ℕ}

/-! ## The second file's classes -/

theorem from_json_classes (c : EquivClassContainer) :
    (from_json (to_json c)).equivClasses.cells.map Prod.snd = c.equivClasses.cells.map Prod.snd := by
  have key : ∀ (l : List EquivClass) (start : StableList EquivClass),
      (l.foldl (fun l c => l.insert_end c) start).cells.map Prod.snd = start.cells.map Prod.snd ++ l := by
    intro l
    induction l with
    | nil => exact fun start => (List.append_nil _).symm
    | cons c l ih =>
      intro start
      have hcells : (start.insert_end c).cells.map Prod.snd = start.cells.map Prod.snd ++ [c] := by
        change (start.cells ++ [(start.next, c)]).map Prod.snd = _
        rw [List.map_append, List.map_singleton]
      rw [List.foldl_cons, ih, hcells, List.append_assoc, List.singleton_append]
  exact key _ _

theorem mem_classes {c : EquivClass} : c ∈ data.equivClasses.cells.map Prod.snd ↔ ∃ it, data.equivClasses.get it = some c := by
  rw [List.mem_map]
  constructor
  · rintro ⟨e, he, rfl⟩
    exact ⟨e.1, StableList.mem_cells.mp he⟩
  · rintro ⟨it, hit⟩
    exact ⟨(it, c), StableList.mem_cells.mpr hit, rfl⟩

theorem importable_of_wellFormed (h : WellFormed data) (hK : ∀ x, data.Known x → K x) :
    ∀ c ∈ data.equivClasses.cells.map Prod.snd, Importable K data.Rel c := by
  intro c hc
  obtain ⟨it, hit⟩ := mem_classes.mp hc
  exact
    { nonempty := h.nonempty hit
      rel := fun x hx y hy => h.partition.rel_of_mem hit hx hy
      agree := fun p hp q hq hmember => h.agree hit hp hq hmember
      prefixes := fun p hp => hK _ (h.prefixes hit hp) }

theorem known_iff_class (h : WellFormed data) {x : String} :
    data.Known x ↔ ∃ c ∈ data.equivClasses.cells.map Prod.snd, x ∈ c.objects := by
  constructor
  · rintro ⟨it, hx⟩
    obtain ⟨c, hc, hxc⟩ := h.find.mp hx
    exact ⟨c, mem_classes.mpr ⟨it, hc⟩, hxc⟩
  · rintro ⟨c, hc, hxc⟩
    obtain ⟨it, hit⟩ := mem_classes.mp hc
    exact (h.partition.rel_of_mem hit hxc hxc).left

theorem listed_iff_stored (h : WellFormed data) {x m o : String} :
    Listed (data.equivClasses.cells.map Prod.snd) x m o ↔ data.Stored x m o := by
  constructor
  · rintro ⟨c, hc, hx, hp⟩
    obtain ⟨it, hit⟩ := mem_classes.mp hc
    exact (h.partition.stored_iff hit hx).mpr hp
  · rintro ⟨it, c, hx, hc, hp⟩
    obtain ⟨c', hc', hxc⟩ := h.find.mp hx
    cases hc.symm.trans hc'
    exact ⟨c, mem_classes.mpr ⟨it, hc⟩, hxc, hp⟩

/-! ## The sweep over all classes -/

theorem mem_sweep (h : Partition K data) (ret : FunctionCalls) (f : String) (c : CallInfoConstIter) :
    (f, c) ∈ (data.equivClasses.cells.map Prod.snd).foldl (getFunctionsToMerge data) ret ↔ (f, c) ∈ ret ∨ data.Meets f c := by
  have key : ∀ (l : List EquivClass) (ret : FunctionCalls), (∀ e ∈ l, ∃ it, data.equivClasses.get it = some e) →
      ((f, c) ∈ l.foldl (getFunctionsToMerge data) ret ↔ (f, c) ∈ ret ∨ ((∃ e ∈ l, f ∈ e.objects) ∧ data.Meets f c)) := by
    intro l
    induction l with
    | nil => simp
    | cons e l ih =>
      intro ret hl
      obtain ⟨it, hit⟩ := hl e (List.mem_cons_self ..)
      rw [List.foldl_cons, ih _ fun e' he' => hl e' (List.mem_cons_of_mem e he'), mem_getFunctionsToMerge _ h hit, or_assoc]
      refine or_congr_right ?_
      rw [← or_and_right]
      refine and_congr_left fun _ => ?_
      simp only [List.mem_cons, exists_eq_or_imp]
  rw [key _ _ fun e he => mem_classes.mp he]
  refine or_congr_right (and_iff_right_of_imp ?_)
  rintro ⟨-, y, ⟨it, hf, -⟩, -⟩
  obtain ⟨e, he, hfe⟩ := h.find.mp hf
  exact ⟨e, mem_classes.mpr ⟨it, he⟩, hfe⟩

/-! ## The whole merge -/

/-- No equation is pending. -/
def Settled (_ _ : String) : Prop := False

/-- `data` and `json'` are the first file and the call graph after the second file is merged into them. -/
structure Links (data1 data2 : EquivClassContainer) (json : WholeCG) (data : EquivClassContainer) (json' : WholeCG) : Prop where
  partition : Partition (fun x => data1.Known x ∨ data2.Known x) data
  known : ∀ {x}, data.Known x ↔ data1.Known x ∨ data2.Known x
  maps : MapsMerged data1 data2 data
  rel1 : ∀ {x y}, data1.Rel x y → data.Rel x y
  rel2 : ∀ {x y}, data2.Rel x y → data.Rel x y
  params : ∀ {x y}, SharedParameters data1 data2 x y → data.Rel x y
  bound : ∀ {x c}, data.Meets x c → Bound (data, json') x c
  half : ∀ {base} {pre : String → String → String → Prop}, HalfClosed base pre data1.table Settled →
    HalfClosed base (fun x m o => pre x m o ∨ data2.Stored x m o) data.table Settled
  just : ∀ {r} {pre : String → String → String → Prop}, ClosedUnder (SharedMember pre) r → ClosedUnder data.BindRule r →
    (∀ x y, data2.Rel x y → r x y) → (∀ x y, SharedParameters data1 data2 x y → r x y) →
    (∀ x m o, data2.Stored x m o → pre x m o) → Justified r pre data1.table Settled → Justified r pre data.table Settled
  nodes : ∀ {a}, HasNode json' a ↔ HasNode json a
  edges : ∀ {a b}, HasEdge json a b → HasEdge json' a b
  forced : ∀ {a b}, HasEdge json' a b → HasEdge json a b ∨ ∃ x y, data.Rel x y ∧ EdgeRule data x y a b

theorem MapsMerged.of_sameMaps (h : MapsMerged data1 data2 data) (hm : SameMaps data data') : MapsMerged data1 data2 data' where
  functionMap x := by rw [hm.functionMap, h.functionMap]
  functionInfoMap f := by rw [hm.functionInfoMap, h.functionInfoMap]
  callInfoMap c := by rw [hm.callInfoMap, h.callInfoMap]
  callExprParentMap c := by rw [hm.callExprParentMap, h.callExprParentMap]
  indexed := h.indexed.maps hm

/-- The table of a container is in its classes and its `findMap`. -/
theorem table_congr (hc : data'.equivClasses = data.equivClasses) (hf : data'.findMap = data.findMap) : data'.table = data.table := by
  unfold table EquivClassContainer.Rel Stored
  rw [hc, hf]

theorem mergeEquivalenceClasses_links (h1 : Partition data1.Known data1) (h2 : WellFormed data2)
    (hr1 : Resolvable data1.Known data1) (hr2 : Resolvable data2.Known data2) (hagree : SharedFunctionsAgree data1 data2)
    (hg1 : CallersInGraph data1 json) (hg2 : CallersInGraph data2 json)
    (hfuel : data1.equivClasses.size + data2.equivClasses.size < fuel) :
    ∃ data json', mergeEquivalenceClasses fuel data1 (to_json data2) json = .ok (data, json') ∧
      Links data1 data2 json data json' := by
  let K : String → Prop := fun x => data1.Known x ∨ data2.Known x
  have himport : ∃ state, importMaps data1 (from_json (to_json data2)) = .ok state ∧
      MapsImported data1 (from_json (to_json data2)) state := importMaps_spec hagree
  obtain ⟨⟨data0, paramsToMerge⟩, hmaps, hm⟩ := himport
  have hmerged : MapsMerged data1 data2 data0 := ⟨hm.maps.functionMap, hm.maps.functionInfoMap, hm.maps.callInfoMap,
    hm.maps.callExprParentMap, hm.maps.indexed⟩
  have htable0 : data0.table = data1.table := table_congr hm.equivClasses hm.findMap
  have hknown0 : ∀ {x}, data0.Known x ↔ data1.Known x := by
    intro x
    unfold Known
    rw [hm.findMap]
  have hp0 : Partition K data0 := (h1.mono fun x => .inl).congr hm.equivClasses hm.findMap
  -- the classes of the second file
  obtain ⟨⟨data3, otm⟩, hclasses, hi⟩ := importClasses_imports (s := (data0, [])) (data2.equivClasses.cells.map Prod.snd) hp0
    (importable_of_wellFormed h2 fun x => .inr)
  have hknown3 : ∀ x, K x → data3.Known x := by
    intro x hx
    refine hi.known.mpr ?_
    rw [hknown0, ← known_iff_class h2]
    exact hx
  have hsize3 : data3.equivClasses.size ≤ data1.equivClasses.size + data2.equivClasses.size := by
    have hsize := hi.size
    rw [List.length_map] at hsize
    have hsize0 : data0.equivClasses.size = data1.equivClasses.size := by rw [hm.equivClasses]
    have hcells : data2.equivClasses.cells.length = data2.equivClasses.size := rfl
    simp only at hsize
    omega
  -- the prefixes that were dropped on the way
  obtain ⟨ret4, data4, hotm, hu4⟩ := mergeObjects_foldlM (mergeRecurisve_merges K fuel) .undefined otm hi.partition hknown3
    (hsize3.trans hfuel.le) [] fun e he => (hi.equations (by simp) e he).imp (hknown3 _) (hknown3 _)
  have hknown4 : ∀ x, K x → data4.Known x := fun x hx => hu4.frame.known.mpr (hknown3 x hx)
  have hsize4 : data4.equivClasses.size ≤ data1.equivClasses.size + data2.equivClasses.size := hu4.size.trans hsize3
  -- the parameters of shared functions
  have hparams : ∀ e ∈ paramsToMerge, K e.1 ∧ K e.2 := by
    intro e he
    obtain ⟨f, info1, info2, i, hf1, hf2, hx, hy⟩ := hm.params he
    exact ⟨.inl (hr1.parameters hf1 _ (List.mem_of_getElem? hx)), .inr (hr2.parameters hf2 _ (List.mem_of_getElem? hy))⟩
  obtain ⟨ret5, data5, hpar, hu5⟩ := mergeObjects_foldlM (mergeRecurisve_merges K fuel) .undefined paramsToMerge hu4.partition
    hknown4 (hsize4.trans hfuel.le) [] fun e he => (hparams e he).imp (hknown4 _) (hknown4 _)
  have hknown5 : ∀ x, K x → data5.Known x := fun x hx => hu5.frame.known.mpr (hknown4 x hx)
  have hsize5 : data5.equivClasses.size ≤ data1.equivClasses.size + data2.equivClasses.size := hu5.size.trans hsize4
  have hsame5 : SameMaps data0 data5 := hi.maps.trans (hu4.frame.toSameMaps.trans hu5.frame.toSameMaps)
  have hmerged5 := hmerged.of_sameMaps hsame5
  -- the calls
  have hready : Ready K (data5, json) :=
    { partition := hu5.partition
      known := hknown5
      resolvable := hmerged5.resolvable hr1 hr2
      indexed := hmerged5.indexed
      nodes := fun _ => hmerged5.callersInGraph hagree hr1 hr2 hg1 hg2 }
  have hsweep := mem_sweep hu5.partition ret5
  have hmeets : ∀ e ∈ (data5.equivClasses.cells.map Prod.snd).foldl (getFunctionsToMerge data5) ret5, data5.Meets e.1 e.2 := by
    intro e he
    rcases (hsweep e.1 e.2).mp he with he | he
    · exact hu5.reported.sound he
    · exact he
  obtain ⟨⟨data6, json6⟩, hcalls, hb⟩ := mergeFunctionCalls_bind
    ((data5.equivClasses.cells.map Prod.snd).foldl (getFunctionsToMerge data5) ret5) hready
    (hsize5.trans_lt hfuel) hmeets
  have hsame6 : SameMaps data0 data6 := hsame5.trans hb.frame.toSameMaps
  have hrel36 : ∀ {x y}, data3.Rel x y → data6.Rel x y := fun hxy => hb.frame.rel (hu5.frame.rel (hu4.frame.rel hxy))
  have hrel2 : ∀ {x y}, data2.Rel x y → data3.Rel x y := by
    rintro x y ⟨it, hx, hy⟩
    obtain ⟨c, hc, hxc⟩ := h2.find.mp hx
    obtain ⟨c', hc', hyc⟩ := h2.find.mp hy
    cases hc.symm.trans hc'
    exact hi.united c (mem_classes.mpr ⟨it, hc⟩) x hxc y hyc
  refine ⟨data6, json6, ?_, ?_⟩
  · unfold mergeEquivalenceClasses
    simp only
    rw [hmaps, ok_bind]
    simp only
    rw [from_json_classes, hclasses, ok_bind]
    simp only
    rw [hotm, ok_bind]
    simp only
    rw [hpar, ok_bind]
    simp only [List.nil_append]
    exact hcalls
  · exact
      { partition := hb.partition
        known := by
          intro x
          rw [hb.frame.known, hu5.frame.known, hu4.frame.known, hi.known, hknown0, ← known_iff_class h2]
        maps := hmerged.of_sameMaps hsame6
        rel1 := by
          intro x y hxy
          refine hrel36 (hi.rel ?_)
          change data0.table.rel x y
          rw [htable0]
          exact hxy
        rel2 := fun hxy => hrel36 (hrel2 hxy)
        params := by
          intro x y hxy
          obtain ⟨f, info1, info2, i, hf1, hf2, hx, hy⟩ := id hxy
          rcases hm.paramsAll hxy with rfl | he
          · exact (hb.frame.known.mpr (hknown5 x (.inl (hr1.parameters hf1 _ (List.mem_of_getElem? hx))))).rel
          · exact hb.frame.rel (hu5.united _ he)
        bound := by
          intro x c hmeet
          rcases hb.closed hmeet with hmeet5 | hbound
          · exact hb.bound ((hsweep x c).mpr (.inr hmeet5))
          · exact hbound
        half := by
          intro base pre hh
          have hstart : HalfClosed base pre data0.table (Pending (data0, []) data2.Rel) := by
            rw [htable0]
            exact hh.weaken fun x y hf => hf.elim
          have himported := hi.half hstart
          have hlisted : HalfClosed base (fun x m o => pre x m o ∨ Listed (data2.equivClasses.cells.map Prod.snd) x m o) data3.table
              (fun x y => (x, y) ∈ otm ∨ Settled x y) :=
            himported.weaken fun x y hp => hp.elim (fun he => .of_pending (.inl he)) fun hxy => .of_rel (hrel2 hxy)
          have h3 : HalfClosed base (fun x m o => pre x m o ∨ data2.Stored x m o) data3.table
              (fun x y => (x, y) ∈ otm ∨ Settled x y) :=
            hlisted.extend (fun x y => hlisted.base) fun x m o hp => .inl (hp.imp_right (listed_iff_stored h2).mpr)
          have h4 := hu4.reduces.half h3
          have h5 := hu5.reduces.half (h4.weaken fun x y hp => .of_pending (.inr (hp.resolve_left List.not_mem_nil)))
          exact hb.half (h5.weaken fun x y hp => .of_pending (hp.resolve_left List.not_mem_nil))
        just := by
          intro r pre hr hbind hrel hpar' hpre hj
          have hstart : Justified r pre data0.table (Pending (data0, []) data2.Rel) := by
            rw [htable0]
            exact hj.weaken fun x y hp => hrel x y (hp.resolve_left List.not_mem_nil)
          have h3 := hi.just hr hrel (fun x m o hp => hpre x m o ((listed_iff_stored h2).mp hp)) hstart
          have h4 : Justified r pre data4.table (fun x y => (x, y) ∈ [] ∨ Settled x y) := hu4.reduces.just hr
            (h3.weaken fun x y hp => hp.elim (fun he => h3.pending (.inl he)) False.elim)
          have h5 : Justified r pre data5.table (fun x y => (x, y) ∈ [] ∨ Settled x y) := hu5.reduces.just hr
            (h4.weaken fun x y hp => hp.elim (fun he => hpar' x y (hm.params he)) False.elim)
          refine hb.just hr (hbind.mono fun x y o o' => (bindRule_maps hb.frame.toSameMaps).mpr) ?_
          exact h5.weaken fun x y hp => hp.elim
        nodes := hb.nodes
        edges := hb.edges
        forced := by
          intro a b he
          refine (hb.forced he).imp_right ?_
          rintro ⟨x, y, hrel, hrule⟩
          exact ⟨x, y, hrel, (edgeRule_maps hb.frame.toSameMaps).mpr hrule⟩ }

/-! ## The fixpoint -/

theorem mergeEquivalenceClasses_mono (hle : fuel ≤ fuel') {file2 : PointerEquivalenceData} {r : EquivClassContainer × WholeCG}
    (h : mergeEquivalenceClasses fuel data1 file2 json = .ok r) : mergeEquivalenceClasses fuel' data1 file2 json = .ok r := by
  have hobj : ∀ {missing : Fault} {state state' : FunctionCalls × EquivClassContainer} {e : String × String},
      mergeObjects (mergeRecurisve fuel) missing state e = .ok state' →
        mergeObjects (mergeRecurisve fuel') missing state e = .ok state' := mergeObjects_mono (mergeRecurisve_mono hle)
  unfold mergeEquivalenceClasses at h ⊢
  simp only at h ⊢
  obtain ⟨⟨data, params⟩, hmaps, h⟩ := bind_eq_ok.mp h
  obtain ⟨⟨data3, otm⟩, hclasses, h⟩ := bind_eq_ok.mp h
  obtain ⟨⟨ret4, data4⟩, hotm, h⟩ := bind_eq_ok.mp h
  obtain ⟨⟨ret5, data5⟩, hparams, h⟩ := bind_eq_ok.mp h
  rw [hmaps, ok_bind]
  simp only
  rw [hclasses, ok_bind]
  simp only
  rw [foldlM_mono hobj hotm, ok_bind]
  simp only
  rw [foldlM_mono hobj hparams, ok_bind]
  exact foldlM_mono (mergeFunctionCall_mono hle) h

/-- What the files relate, and the parameters of the functions they share. -/
def Given (data1 data2 : EquivClassContainer) (x y : String) : Prop :=
  data1.Rel x y ∨ data2.Rel x y ∨ SharedParameters data1 data2 x y

def EitherStored (data1 data2 : EquivClassContainer) (x m o : String) : Prop := data1.Stored x m o ∨ data2.Stored x m o

/-- Equal members of related objects, and the calls that the maps of `data` reveal. -/
def Forces (data1 data2 data : EquivClassContainer) (x y o o' : String) : Prop :=
  SharedMember (EitherStored data1 data2) x y o o' ∨ data.BindRule x y o o'

theorem Closed.prefixes {base : String → String → Prop} {r : String → String → Prop}
    (h : Closed base (Forces data1 data2 data) r) : ClosedUnder (SharedMember (EitherStored data1 data2)) r :=
  h.toClosedUnder.mono fun _ _ _ _ => .inl

theorem Closed.binds {base : String → String → Prop} {r : String → String → Prop}
    (h : Closed base (Forces data1 data2 data) r) : ClosedUnder data.BindRule r :=
  h.toClosedUnder.mono fun _ _ _ _ => .inr

section
variable {objects : String → Prop}

/-- Calls and functions that meet in a fixpoint are bound. -/
theorem rel_of_bound (hi : Indexed data) (hr : Resolvable objects data) (hbound : ∀ {x c}, data.Meets x c → Bound (data, json) x c)
    {x y o o' : String} (hxy : data.Rel x y) (h : data.BindRule x y o o') : data.Rel o o' := by
  obtain ⟨info, c, ci, hcall, hbinds⟩ := h
  have hmeets : data.Meets x c := (meets_iff hi hr).mpr ⟨y, info, ci, hxy, hcall⟩
  exact (hbound hmeets y info ci hcall).1 (o, o') (mem_bindings.mpr hbinds)

theorem edge_of_bound (hi : Indexed data) (hr : Resolvable objects data) (hbound : ∀ {x c}, data.Meets x c → Bound (data, json) x c)
    {x y a b : String} (hxy : data.Rel x y) (h : EdgeRule data x y a b) : HasEdge json a b := by
  obtain ⟨info, c, ci, parent, pinfo, hcall, hparent, hpinfo, ha, hb⟩ := h
  have hmeets : data.Meets x c := (meets_iff hi hr).mpr ⟨y, info, ci, hxy, hcall⟩
  exact (hbound hmeets y info ci hcall).2 parent pinfo hparent hpinfo a ha b hb

end

/-- The merge of two files is the least fixpoint of the rules, and the edges are those of its classes. -/
theorem mergeEquivalenceClasses_fixpoint (h1 : WellFormed data1) (h2 : WellFormed data2)
    (hr1 : Resolvable data1.Known data1) (hr2 : Resolvable data2.Known data2) (hagree : SharedFunctionsAgree data1 data2)
    (hg1 : CallersInGraph data1 json) (hg2 : CallersInGraph data2 json) :
    ∃ data json', (∀ fuel, data1.equivClasses.size + data2.equivClasses.size < fuel →
        mergeEquivalenceClasses fuel data1 (to_json data2) json = .ok (data, json')) ∧
      WellFormed data ∧ (∀ x, data.Known x ↔ data1.Known x ∨ data2.Known x) ∧ MapsMerged data1 data2 data ∧
      IsLeast {r | Closed (Given data1 data2) (Forces data1 data2 data) r} data.Rel ∧
      ∀ a b, HasEdge json' a b ↔ HasEdge json a b ∨ ∃ x y, data.Rel x y ∧ EdgeRule data x y a b := by
  obtain ⟨data, json', hrun, hl⟩ := mergeEquivalenceClasses_links h1.partition h2 hr1 hr2 hagree hg1 hg2 (Nat.lt_succ_self _)
  have hresolvable := hl.maps.resolvable hr1 hr2
  have hhalf : HalfClosed data1.Rel (EitherStored data1 data2) data.table Settled := hl.half h1.half
  have hclosed : Closed data1.Rel (SharedMember (EitherStored data1 data2)) data.Rel := by
    refine hhalf.closed (fun _ _ => id) Rel.symm Rel.trans (fun x y hxy => hl.rel1 hxy.left.rel) ?_ fun x y m o hxy hs => Stored.of_rel hs hxy
    rintro x m o (hs | hs)
    · exact (hl.known.mpr (.inl (h1.partition.known_of_stored hs))).rel
    · exact (hl.known.mpr (.inr (h2.partition.known_of_stored hs))).rel
  refine ⟨data, json', fun fuel hfuel => mergeEquivalenceClasses_mono hfuel hrun,
    wellFormed_of_half hl.partition (fun x hx => hl.known.mpr hx) hhalf (fun _ _ => id), fun x => hl.known, hl.maps, ⟨?_, ?_⟩, ?_⟩
  · refine ⟨⟨Rel.symm, Rel.trans, ?_⟩, ?_⟩
    · rintro x y o o' hxy (hshared | hbind)
      · exact hclosed.imp hxy hshared
      · exact rel_of_bound hl.maps.indexed hresolvable hl.bound hxy hbind
    · rintro x y (hxy | hxy | hxy)
      · exact hl.rel1 hxy
      · exact hl.rel2 hxy
      · exact hl.params hxy
  · intro r hr x y hxy
    have hjust : Justified r (EitherStored data1 data2) data1.table Settled :=
      { rel := fun hxy => hr.base (.inl hxy)
        pending := False.elim
        stored := fun hs => ⟨_, hr.base (.inl hs.known.rel), .inl hs⟩ }
    have hfinal := hl.just (Closed.prefixes hr) (Closed.binds hr) (fun x y hxy => hr.base (.inr (.inl hxy)))
      (fun x y hxy => hr.base (.inr (.inr hxy))) (fun x m o => .inr) hjust
    exact hfinal.rel hxy
  · intro a b
    constructor
    · exact hl.forced
    · rintro (he | ⟨x, y, hxy, hrule⟩)
      · exact hl.edges he
      · exact edge_of_bound hl.maps.indexed hresolvable hl.bound hxy hrule

/-! ## Two units -/

/-- A unit that declares `F` with the mangled name `mangled` and calls it through the pointer `p`. -/
def callingUnit (mangled : String) (returns : List String) : EquivClassContainer := from_json
  { equivClasses := [⟨["f", "p"], []⟩, ⟨["c"], []⟩, ⟨["r"], []⟩, ⟨["s"], []⟩]
    functionMap := OMap.empty.insert "f" "F"
    functionInfoMap := (OMap.empty.insert "F" ⟨[mangled], [], returns, false⟩).insert "main" ⟨["main"], [], ["s"], false⟩
    callInfoMap := OMap.empty.insert "c" ⟨["p"], []⟩
    callExprParentMap := OMap.empty.insert "c" "main" }

/-- A unit that defines `F`, which returns `x`. -/
def definingUnit : EquivClassContainer := from_json
  { equivClasses := [⟨["f"], []⟩, ⟨["r"], []⟩, ⟨["x"], []⟩]
    functionMap := OMap.empty.insert "f" "F"
    functionInfoMap := OMap.empty.insert "F" ⟨["_F"], [], ["x", "r"], false⟩
    callInfoMap := .empty
    callExprParentMap := .empty }

def twoNodes : WholeCG := (OMap.empty.insert "main" ⟨∅, ∅⟩).insert "_F" ⟨∅, ∅⟩

theorem definingUnit_fixpoint : ∃ data json', (∀ fuel,
      definingUnit.equivClasses.size + (callingUnit "_F" ["r"]).equivClasses.size < fuel →
        mergeEquivalenceClasses fuel definingUnit (to_json (callingUnit "_F" ["r"])) twoNodes = .ok (data, json')) ∧
    WellFormed data ∧ (∀ x, data.Known x ↔ definingUnit.Known x ∨ (callingUnit "_F" ["r"]).Known x) ∧
    MapsMerged definingUnit (callingUnit "_F" ["r"]) data ∧
    IsLeast {r | Closed (Given definingUnit (callingUnit "_F" ["r"])) (Forces definingUnit (callingUnit "_F" ["r"]) data) r}
      data.Rel ∧
    ∀ a b, HasEdge json' a b ↔ HasEdge twoNodes a b ∨ ∃ x y, data.Rel x y ∧ EdgeRule data x y a b :=
  mergeEquivalenceClasses_fixpoint (by decide) (by decide) (by decide) (by decide) (by decide) (by decide) (by decide)

/-- Two units that name a shared function differently, and a caller that is no node of the call graph. -/
theorem mergeEquivalenceClasses_rejects :
    (WellFormed definingUnit ∧ WellFormed (callingUnit "_G" ["r"]) ∧ Resolvable definingUnit.Known definingUnit ∧
      Resolvable (callingUnit "_G" ["r"]).Known (callingUnit "_G" ["r"]) ∧
      (∀ e ∈ definingUnit.functionInfoMap.entries, ∀ info2 ∈ (callingUnit "_G" ["r"]).functionInfoMap.find e.1,
        e.2.parameters.length = info2.parameters.length) ∧
      ∀ fuel, mergeEquivalenceClasses fuel definingUnit (to_json (callingUnit "_G" ["r"])) twoNodes =
        .error (.assertion "Iter->second.MangledNames == FunctionInfo.second.MangledNames")) ∧
    WellFormed .empty ∧ WellFormed (callingUnit "_F" []) ∧ Resolvable EquivClassContainer.empty.Known .empty ∧
      Resolvable (callingUnit "_F" []).Known (callingUnit "_F" []) ∧
      ∀ fuel, mergeEquivalenceClasses (fuel + 1) .empty (to_json (callingUnit "_F" [])) .empty = .error .outOfRange :=
  ⟨⟨by decide, by decide, by decide, by decide, by decide, fun _ => rfl⟩, by decide, by decide, by decide, by decide,
    fun _ => rfl⟩

end MetaCG.CGMerge
