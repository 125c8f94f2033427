import MetaCG.Pgis.FillInstrumentationGaps
import MetaCG.Pgis.RuntimeEstimator

/-! The recursion of `getEstimatedCallCountForNode` over the callers of callers.

The blacklist grows on the way down and is restored on the way up, so a round of the loop over the callers adds an amount
that depends on its caller alone. The walk over the regions of a call site has no such bound: it ends if no region is
inside itself. A value is returned if what the estimates of the call sites look up is there. -/
namespace MetaCG.Pgis
open Foundations Analysis
set_option autoImplicit false
set_option maxHeartbeats 250000
set_option maxRecDepth 120000

/-! ## The regions of a call site -/

/-- The walk goes on from `r` to `r'`. -/
def Inside (pCCMD : CallCountEstimationMetaData) (r r' : String) : Prop :=
  ∃ region, pCCMD.codeRegions.find r = some region ∧ region.parent = r' ∧ r' ≠ ""

/-- No region is inside itself. -/
def RegionsNested (md : MetaStore) : Prop :=
  ∀ node pCCMD, (md node).callCountEstimation = some pCCMD → ∀ r, ¬Relation.TransGen (Inside pCCMD) r r

theorem acc_inside {pCCMD : CallCountEstimationMetaData} (h : ∀ r, ¬Relation.TransGen (Inside pCCMD) r r) (r : String) :
    Acc (fun b a => Inside pCCMD a b) r := by
  refine (acc_iff_acyclic ?_).mpr fun r' _ => h r'
  refine ((pCCMD.codeRegions.entries.map fun e => e.2.parent).toFinset.finite_toSet.insert r).subset fun r' hr' => ?_
  rcases Relation.ReflTransGen.cases_tail hr' with rfl | ⟨u, -, region, hregion, hparent, -⟩
  · exact Set.mem_insert ..
  · exact .inr (List.mem_toFinset.mpr (List.mem_map.mpr ⟨(u, region), OMap.mem_entries.mpr hregion, hparent⟩))

theorem exn_ne_fuel (e : Exn) : Stop.exn e ≠ Stop.fuel := fun he => by cases he

theorem lift_ne_fuel {α : Type} (x : Except Exn α) : lift x ≠ .error .fuel := by
  cases x <;> exact fun h => by cases h

theorem ends_lift {α : Type} (x : Except Exn α) : Ends Stop.fuel (fun a => x = .ok a) fun _ => lift x :=
  (Ends.const (lift_ne_fuel x)).mono fun _ => lift_eq_ok.mp

section
variable {g : Callgraph} {md : MetaStore}

theorem walkRegions_ends (pCCMD : CallCountEstimationMetaData) (nodeName calledFunctionName : String) (calls : ℚ) {r : String}
    (hr : Acc (fun b a => Inside pCCMD a b) r) (factor : ℚ) :
    Ends Stop.fuel (fun _ => True) fun fuel => walkRegions g md pCCMD nodeName calledFunctionName calls fuel r factor := by
  induction hr generalizing factor with
  | intro r _ ih =>
    refine Ends.succ ?_
    unfold walkRegions
    cases hregion : pCCMD.codeRegions.find r with
    | none => exact .throw _ (exn_ne_fuel _)
    | some region =>
      refine (ends_lift _).bind fun tempResults _ => ?_
      split_ifs with htemp hparent
      · exact ((ends_lift _).bind fun _ _ => .pure trivial)
      · exact .pure trivial
      · exact ih region.parent ⟨region, hregion, rfl, hparent⟩ _

theorem getEstimatedCallsFromNode_ends (h : RegionsNested md) (node : ℕ) (calledFunctionName : String) :
    Ends Stop.fuel (fun _ => True) fun fuel => getEstimatedCallsFromNode g md fuel node calledFunctionName := by
  unfold getEstimatedCallsFromNode
  cases hmd : (md node).callCountEstimation with
  | none => exact .throw _ (exn_ne_fuel _)
  | some pCCMD =>
    cases hplaces : pCCMD.calledFunctions.find calledFunctionName with
    | none => simp only [hplaces]; exact .pure trivial
    | some places =>
      simp only [hplaces]
      refine (ends_lift _).bind fun n _ => Ends.foldlM trivial fun ret _ call _ => ?_
      split_ifs with hempty
      · exact .pure trivial
      · exact (walkRegions_ends pCCMD n.functionName calledFunctionName call.1 (acc_inside (h node pCCMD hmd) call.2) 1).bind
          fun _ _ => .pure trivial

end

/-- What the estimates of the call sites of a caller look up is there: the regions with their parents, and the functions of a
region, which are called in it at least once if they have a profile result. -/
structure SiteData (g : Callgraph) (md : MetaStore) (pCCMD : CallCountEstimationMetaData) : Prop where
  places : ∀ name places, pCCMD.calledFunctions.find name = some places →
    ∀ call ∈ places, call.2 = "" ∨ (pCCMD.codeRegions.find call.2).isSome = true
  parents : ∀ r region, pCCMD.codeRegions.find r = some region →
    region.parent = "" ∨ (pCCMD.codeRegions.find region.parent).isSome = true
  functions : ∀ r region, pCCMD.codeRegions.find r = some region → ∀ rfunc ∈ region.functions,
    ∃ rnode, getSingleNode g rfunc = .ok rnode ∧ ∀ info, (md rnode).instrumentationResult = some info →
      ∃ calledInRegion, (((pCCMD.calledFunctions.find rfunc).getD []).find? fun i => i.2 = r).or
        (((pCCMD.calledFunctions.find rfunc).getD []).find? fun i => i.2 = "") = some calledInRegion ∧ calledInRegion.1 ≠ 0

/-- Every caller has such data. -/
def SitesReadable (g : Callgraph) (md : MetaStore) : Prop :=
  ∀ u v, Calls g u v → ∃ pCCMD, (md u).callCountEstimation = some pCCMD ∧ SiteData g md pCCMD

/-- The estimate of every call site has a value. -/
def SitesDefined (g : Callgraph) (md : MetaStore) : Prop :=
  ∀ u v name, Calls g u v → g.nameOf v = some name →
    ∃ q, Settles (fun fuel => getEstimatedCallsFromNode g md fuel u name) (.ok q)

section
variable {g : Callgraph} {md : MetaStore} {pCCMD : CallCountEstimationMetaData}

theorem regionCallCount_ok (h : SiteData g md pCCMD) {r : String} {region : CodeRegion}
    (hregion : pCCMD.codeRegions.find r = some region) (nodeName calledFunctionName : String) {rfunc : String}
    (hrfunc : rfunc ∈ region.functions) (tempResults : List ℚ) :
    ∃ results, regionCallCount g md pCCMD nodeName calledFunctionName r tempResults rfunc = .ok results := by
  obtain ⟨rnode, hrnode, hcalled⟩ := h.functions r region hregion rfunc hrfunc
  unfold regionCallCount
  split_ifs
  · exact ⟨_, rfl⟩
  · rw [hrnode, ok_bind]
    cases hinfo : (md rnode).instrumentationResult with
    | none => exact ⟨_, rfl⟩
    | some info =>
      obtain ⟨calledInRegion, hfound, hne⟩ := hcalled info hinfo
      simp only [hfound]
      rw [if_neg hne]
      exact ⟨_, rfl⟩

theorem calculateMedianAveraged_ok {container : List ℚ} (h : container ≠ []) : ∃ m, calculateMedianAveraged container = .ok m := by
  unfold calculateMedianAveraged
  rw [if_neg h]
  by_cases hodd : container.length % 2 = 1
  · exact ⟨_, if_pos hodd⟩
  · exact ⟨_, if_neg hodd⟩

theorem walkRegions_settles (h : SiteData g md pCCMD) (nodeName calledFunctionName : String) (calls : ℚ) {r : String}
    (hr : Acc (fun b a => Inside pCCMD a b) r) (hfound : (pCCMD.codeRegions.find r).isSome = true) (factor : ℚ) :
    ∃ q, Settles (fun fuel => walkRegions g md pCCMD nodeName calledFunctionName calls fuel r factor) (.ok q) := by
  induction hr generalizing factor with
  | intro r _ ih =>
    obtain ⟨region, hregion⟩ := Option.isSome_iff_exists.mp hfound
    obtain ⟨tempResults, htemp, -⟩ := foldlM_total (f := regionCallCount g md pCCMD nodeName calledFunctionName r)
      (l := region.functions) (s := []) (J := fun _ _ => True) trivial fun pre rfunc t hpre _ => by
        have hmem : rfunc ∈ region.functions := hpre.subset (List.mem_append_right _ (List.mem_singleton_self rfunc))
        obtain ⟨results, hresults⟩ := regionCallCount_ok h hregion nodeName calledFunctionName hmem t
        exact ⟨results, hresults, trivial⟩
    by_cases hempty : tempResults = []
    · by_cases hparent : region.parent = ""
      · refine ⟨calls * (factor * region.parentCalls), Settles.succ ⟨0, fun fuel _ => ?_⟩⟩
        unfold walkRegions
        simp only [hregion, htemp, lift, Except.mapError, ok_bind, hempty]
        rw [if_neg (fun hne => hne rfl), if_pos hparent]
        rfl
      · obtain ⟨q, bound, hbound⟩ := ih region.parent ⟨region, hregion, rfl, hparent⟩
          ((h.parents r region hregion).resolve_left hparent) (factor * region.parentCalls)
        refine ⟨q, Settles.succ ⟨bound, fun fuel hfuel => ?_⟩⟩
        unfold walkRegions
        simp only [hregion, htemp, lift, Except.mapError, ok_bind, hempty]
        rw [if_neg (fun hne => hne rfl), if_neg hparent]
        exact hbound fuel hfuel
    · obtain ⟨median, hmedian⟩ := calculateMedianAveraged_ok hempty
      refine ⟨median * calls * factor, Settles.succ ⟨0, fun fuel _ => ?_⟩⟩
      unfold walkRegions
      simp only [hregion, htemp, lift, Except.mapError, ok_bind]
      rw [if_pos hempty, hmedian]
      rfl

/-- With readable data and nested regions the estimates are defined. -/
theorem SitesReadable.defined (h : SitesReadable g md) (hwf : g.Wf) (hregions : RegionsNested md) : SitesDefined g md := by
  intro u v name hcall _
  obtain ⟨pCCMD, hmd, hdata⟩ := h u v hcall
  obtain ⟨n, hn⟩ := deref_ok (hwf.edge_live u v hcall).1
  unfold getEstimatedCallsFromNode
  simp only [hmd]
  cases hplaces : pCCMD.calledFunctions.find name with
  | none => exact ⟨1, .const _⟩
  | some places =>
    simp only [hn, lift, Except.mapError, ok_bind]
    obtain ⟨q, hq, -⟩ := settles_foldlM (l := places) (s := (0 : ℚ)) (J := fun _ _ => True)
      (f := fun fuel (ret : ℚ) (call : ℚ × String) => do
        if call.2 = "" then return ret + call.1
        else return ret + (← walkRegions g md pCCMD n.functionName name call.1 fuel call.2 1)) trivial
      fun pre call ret hpre _ => by
        have hmem : call ∈ places := hpre.subset (List.mem_append_right _ (List.mem_singleton_self call))
        by_cases hempty : call.2 = ""
        · exact ⟨ret + call.1, ⟨0, fun _ _ => if_pos hempty⟩, trivial⟩
        · have hfound := (hdata.places name places hplaces call hmem).resolve_left hempty
          obtain ⟨q, bound, hbound⟩ := walkRegions_settles hdata n.functionName name call.1
            (acc_inside (hregions u pCCMD hmd) call.2) hfound 1
          refine ⟨ret + q, ⟨bound, fun fuel hfuel => ?_⟩, trivial⟩
          have hwalk : walkRegions g md pCCMD n.functionName name call.1 fuel call.2 1 = .ok q := hbound fuel hfuel
          simp only [if_neg hempty, hwalk, ok_bind]
          rfl
    exact ⟨q, hq⟩

end

/-! ## One caller -/

section
variable {g : Callgraph} {md : MetaStore} {fuel n p : ℕ} {name : String}
  {estimate estimate' : ℕ → Finset ℕ → Except Stop (ℚ × Finset ℕ)}
  {st st' : Estimate}

/-- A round skips the caller, counts its calls of itself, or counts its calls as often as the caller is called. -/
theorem addParent_cases (h : addParent g md fuel estimate n name st p = .ok st') :
    (p ∈ st.blacklist ∧ p ≠ n ∧ st' = st) ∨
    (p = n ∧ ∃ q, getEstimatedCallsFromNode g md fuel n name = .ok q ∧ st' = { st with selfCalls := st.selfCalls + q }) ∨
    (p ∉ st.blacklist ∧ p ≠ n ∧ ∃ q v bl, getEstimatedCallsFromNode g md fuel p name = .ok q ∧
      estimate p st.blacklist = .ok (v, bl) ∧ st' = { st with ret := st.ret + v * q, blacklist := bl }) := by
  unfold addParent at h
  split_ifs at h with hcut hself
  · cases h
    exact .inl ⟨hcut.1, hcut.2, rfl⟩
  · subst hself
    obtain ⟨q, hq, hret⟩ := bind_eq_ok.mp h
    cases hret
    exact .inr (.inl ⟨rfl, q, hq, rfl⟩)
  · obtain ⟨q, hq, h⟩ := bind_eq_ok.mp h
    obtain ⟨⟨v, bl⟩, hv, hret⟩ := bind_eq_ok.mp h
    cases hret
    exact .inr (.inr ⟨fun hbl => hcut ⟨hbl, hself⟩, hself, q, v, bl, hq, hv, rfl⟩)

theorem addParent_mono (hmono : ∀ p bl r, estimate p bl = .ok r → estimate' p bl = .ok r)
    (h : addParent g md fuel estimate n name st p = .ok st') : addParent g md fuel estimate' n name st p = .ok st' := by
  rcases addParent_cases h with ⟨hbl, hpn, rfl⟩ | ⟨rfl, q, hq, rfl⟩ | ⟨hbl, hpn, q, v, bl, hq, hv, rfl⟩
  · exact addParent_cut hbl hpn
  · exact addParent_self hq
  · exact addParent_other hbl hpn hq (hmono p st.blacklist (v, bl) hv)

/-- The blacklist is given back as it was. -/
def Restores (estimate : ℕ → Finset ℕ → Except Stop (ℚ × Finset ℕ)) : Prop :=
  ∀ p bl v bl', estimate p bl = .ok (v, bl') → p ∉ bl → bl' = bl

/-- The state with the amounts of one caller added. -/
def Estimate.add (st : Estimate) (ret selfCalls : ℚ) : Estimate := ⟨st.ret + ret, st.selfCalls + selfCalls, st.blacklist⟩

/-- What a caller adds depends on the blacklist alone. -/
theorem addParent_share (hrestore : Restores estimate) (h : addParent g md fuel estimate n name st p = .ok st') :
    ∃ ret selfCalls, st' = st.add ret selfCalls ∧
      ∀ t : Estimate, t.blacklist = st.blacklist → addParent g md fuel estimate n name t p = .ok (t.add ret selfCalls) := by
  rcases addParent_cases h with ⟨hbl, hpn, rfl⟩ | ⟨rfl, q, hq, rfl⟩ | ⟨hbl, hpn, q, v, bl, hq, hv, rfl⟩
  · refine ⟨0, 0, by simp [Estimate.add], fun t ht => ?_⟩
    rw [addParent_cut (ht ▸ hbl) hpn]
    simp [Estimate.add]
  · refine ⟨0, q, by simp [Estimate.add], fun t ht => ?_⟩
    rw [addParent_self hq]
    simp [Estimate.add]
  · cases hrestore p st.blacklist v bl hv hbl
    refine ⟨v * q, 0, by simp [Estimate.add], fun t ht => ?_⟩
    rw [addParent_other (ht ▸ hbl) hpn hq (ht ▸ hv)]
    simp [Estimate.add, ht]

theorem addParent_blacklist (hrestore : Restores estimate) (h : addParent g md fuel estimate n name st p = .ok st') :
    st'.blacklist = st.blacklist := by
  obtain ⟨_, _, rfl, -⟩ := addParent_share hrestore h
  rfl

/-- Two callers may be taken in either order. -/
theorem addParent_comm (hrestore : Restores estimate) {p' : ℕ} {t u : Estimate}
    (hp : addParent g md fuel estimate n name st p = .ok t) (hp' : addParent g md fuel estimate n name t p' = .ok u) :
    ∃ t', addParent g md fuel estimate n name st p' = .ok t' ∧ addParent g md fuel estimate n name t' p = .ok u := by
  obtain ⟨r, s, rfl, hshare⟩ := addParent_share hrestore hp
  obtain ⟨r', s', rfl, hshare'⟩ := addParent_share hrestore hp'
  refine ⟨st.add r' s', hshare' st rfl, ?_⟩
  rw [hshare (st.add r' s') rfl]
  simp only [Estimate.add, add_right_comm]

theorem addParents_perm (hrestore : Restores estimate) {parent parent' : List ℕ} (hperm : parent.Perm parent')
    (h : parent.foldlM (addParent g md fuel estimate n name) st = .ok st') :
    parent'.foldlM (addParent g md fuel estimate n name) st = .ok st' := by
  have hcomm : ∀ s p p' t u, addParent g md fuel estimate n name s p = .ok t → addParent g md fuel estimate n name t p' = .ok u →
      ∃ t', addParent g md fuel estimate n name s p' = .ok t' ∧ addParent g md fuel estimate n name t' p = .ok u :=
    fun _ _ _ _ _ => addParent_comm hrestore
  exact foldlM_ok_perm hcomm hperm h

theorem addParents_blacklist (hrestore : Restores estimate) {parent : List ℕ}
    (h : parent.foldlM (addParent g md fuel estimate n name) st = .ok st') : st'.blacklist = st.blacklist :=
  foldlM_ok_inv (J := fun _ t => t.blacklist = st.blacklist) rfl
    (fun _ _ _ _ _ ht hstep => (addParent_blacklist hrestore hstep).trans ht) h

end

/-! ## The recursion -/

section
variable {order order' : List ℕ → List ℕ} {g : Callgraph} {md : MetaStore} {recursionFactor : ℚ} {fuel n : ℕ}
  {bl bl' : Finset ℕ} {v : ℚ}

/-- What has been computed when a node without profile result is estimated. -/
theorem getEstimatedCallCountForNode_ok (hn : (md n).instrumentationResult = none)
    (h : getEstimatedCallCountForNode order g md recursionFactor (fuel + 1) n bl = .ok (v, bl')) :
    ∃ node parent selfRecursive st, deref g n = .ok node ∧ getCallers order g n = .ok parent ∧
      isSelfRecursive order g n = .ok selfRecursive ∧
      parent.foldlM (addParent g md fuel (getEstimatedCallCountForNode order g md recursionFactor fuel) n node.functionName)
        ⟨0, 0, insert n bl⟩ = .ok st ∧
      v = (if selfRecursive then st.ret * (st.selfCalls * recursionFactor) else st.ret) ∧ bl' = st.blacklist.erase n := by
  unfold getEstimatedCallCountForNode at h
  rw [hn] at h
  obtain ⟨node, hnode, h⟩ := bind_eq_ok.mp h
  obtain ⟨parent, hparent, h⟩ := bind_eq_ok.mp h
  obtain ⟨selfRecursive, hself, h⟩ := bind_eq_ok.mp h
  obtain ⟨st, hst, h⟩ := bind_eq_ok.mp h
  refine ⟨node, parent, selfRecursive, st, lift_eq_ok.mp hnode, lift_eq_ok.mp hparent, lift_eq_ok.mp hself, hst, ?_⟩
  cases selfRecursive with
  | true =>
    cases h
    exact ⟨rfl, rfl⟩
  | false =>
    cases h
    exact ⟨rfl, rfl⟩

theorem getEstimatedCallCountForNode_restores (order : List ℕ → List ℕ) (g : Callgraph) (md : MetaStore) (recursionFactor : ℚ)
    (fuel : ℕ) : Restores (getEstimatedCallCountForNode order g md recursionFactor fuel) := by
  induction fuel with
  | zero => exact fun _ _ _ _ h => by cases h
  | succ fuel ih =>
    intro n bl v bl' h hnew
    cases hn : (md n).instrumentationResult with
    | some info =>
      rw [getEstimatedCallCountForNode_profiled fuel hn] at h
      cases h
      rfl
    | none =>
      obtain ⟨node, parent, selfRecursive, st, -, -, -, hst, -, rfl⟩ := getEstimatedCallCountForNode_ok hn h
      rw [addParents_blacklist ih hst]
      exact Finset.erase_insert hnew

theorem getCallers_perm (h : g.Wf) (hord : ∀ l, (order l).Perm l) (hord' : ∀ l, (order' l).Perm l) {parent : List ℕ}
    (hparent : getCallers order g n = .ok parent) : ∃ parent', getCallers order' g n = .ok parent' ∧ parent.Perm parent' := by
  have hlive := live_of_neighbours hparent
  obtain ⟨callers, hc, hnd, hmem⟩ := getCallers_ok h hord hlive
  obtain ⟨callers', hc', hnd', hmem'⟩ := getCallers_ok h hord' hlive
  cases hparent.symm.trans hc
  exact ⟨callers', hc', (List.perm_ext_iff_of_nodup hnd hnd').mpr fun u => (hmem u).trans (hmem' u).symm⟩

theorem isSelfRecursive_order (h : g.Wf) (hord : ∀ l, (order l).Perm l) (hord' : ∀ l, (order' l).Perm l)
    (hlive : g.hasNode n = true) : isSelfRecursive order g n = isSelfRecursive order' g n := by
  obtain ⟨b, hb, hiff⟩ := isSelfRecursive_spec h hord hlive
  obtain ⟨b', hb', hiff'⟩ := isSelfRecursive_spec h hord' hlive
  rw [hb, hb', Bool.eq_iff_iff.mpr (hiff.trans hiff'.symm)]

/-- The estimate does not depend on the order in which callers are visited. -/
theorem getEstimatedCallCountForNode_order (h : g.Wf) (hord : ∀ l, (order l).Perm l) (hord' : ∀ l, (order' l).Perm l)
    {r : ℚ × Finset ℕ} (hr : getEstimatedCallCountForNode order g md recursionFactor fuel n bl = .ok r) :
    getEstimatedCallCountForNode order' g md recursionFactor fuel n bl = .ok r := by
  induction fuel generalizing n bl r with
  | zero => cases hr
  | succ fuel ih =>
    cases hn : (md n).instrumentationResult with
    | some info =>
      rw [getEstimatedCallCountForNode_profiled fuel hn] at hr ⊢
      exact hr
    | none =>
      obtain ⟨v, bl'⟩ := r
      obtain ⟨node, parent, selfRecursive, st, hnode, hparent, hself, hst, rfl, rfl⟩ := getEstimatedCallCountForNode_ok hn hr
      obtain ⟨parent', hparent', hperm⟩ := getCallers_perm h hord hord' hparent
      rw [isSelfRecursive_order h hord hord' (hasNode_of_deref hnode)] at hself
      refine getEstimatedCallCountForNode_unprofiled hn hnode hparent' hself ?_
      have hst' : parent.foldlM (addParent g md fuel (getEstimatedCallCountForNode order' g md recursionFactor fuel) n
          node.functionName) ⟨0, 0, insert n bl⟩ = .ok st :=
        foldlM_mono (fun {s p t} hstep => addParent_mono (fun _ _ _ hrec => ih hrec) hstep) hst
      have hrestore := getEstimatedCallCountForNode_restores order' g md recursionFactor fuel
      exact addParents_perm hrestore hperm hst'

/-- The recursion ends since the blacklist grows along it. -/
theorem getEstimatedCallCountForNode_ends (h : g.Wf) (hord : ∀ l, (order l).Perm l) (hregions : RegionsNested md)
    (recursionFactor : ℚ) (n : ℕ) (bl : Finset ℕ) :
    Ends Stop.fuel (fun _ => True) fun fuel => getEstimatedCallCountForNode order g md recursionFactor fuel n bl := by
  induction hcard : (Finset.range g.nodes.length \ insert n bl).card using Nat.strong_induction_on generalizing n bl with
  | _ card ih =>
  refine Ends.succ ?_
  unfold getEstimatedCallCountForNode
  cases hn : (md n).instrumentationResult with
  | some info => exact .pure trivial
  | none =>
    refine (ends_lift _).bind fun node hnode => (ends_lift _).bind fun parent hparent =>
      (ends_lift _).bind fun selfRecursive _ => ?_
    have hmem := mem_getCallers h hord hparent
    have hloop : Ends Stop.fuel (fun st : Estimate => st.blacklist = insert n bl) fun fuel =>
        parent.foldlM (addParent g md fuel (getEstimatedCallCountForNode order g md recursionFactor fuel) n node.functionName)
          ⟨0, 0, insert n bl⟩ := by
      refine Ends.foldlM rfl fun st hst p hp => ?_
      unfold addParent
      split_ifs with hcut hself
      · exact .pure hst
      · exact (getEstimatedCallsFromNode_ends hregions p node.functionName).bind fun _ _ => .pure hst
      · have hnew : p ∉ insert n bl := fun hin => hcut ⟨hst ▸ hin, hself⟩
        have hlt : (Finset.range g.nodes.length \ insert p (insert n bl)).card < card := by
          rw [← hcard]
          exact Search.card_sdiff_insert_lt (Finset.mem_range.mpr (h.edge_lt ((hmem p).mp hp)).1) hnew
        have hrec := (ih _ hlt p (insert n bl) rfl).of_ok (Q := fun r => r.2 = insert n bl) fun fuel r hr =>
          getEstimatedCallCountForNode_restores order g md recursionFactor fuel p (insert n bl) r.1 r.2 hr hnew
        rw [hst]
        exact (getEstimatedCallsFromNode_ends hregions p node.functionName).bind fun _ _ => hrec.bind fun _ hr => .pure hr
    refine hloop.bind fun st hst => ?_
    split_ifs
    · exact .pure trivial
    · exact .pure trivial

/-- The recursion returns a value if the estimates of the call sites have one. -/
theorem getEstimatedCallCountForNode_returns (h : g.Wf) (hord : ∀ l, (order l).Perm l) (hsites : SitesDefined g md)
    (recursionFactor : ℚ) (hlive : g.hasNode n = true) (bl : Finset ℕ) :
    ∃ r, Settles (fun fuel => getEstimatedCallCountForNode order g md recursionFactor fuel n bl) (.ok r) := by
  induction hcard : (Finset.range g.nodes.length \ insert n bl).card using Nat.strong_induction_on generalizing n bl with
  | _ card ih =>
  cases hn : (md n).instrumentationResult with
  | some info => exact ⟨_, Settles.succ ⟨0, fun fuel _ => getEstimatedCallCountForNode_profiled fuel hn⟩⟩
  | none =>
    obtain ⟨node, hnode⟩ := deref_ok hlive
    have hname : g.nameOf n = some node.functionName := (Callgraph.nameOf_eq_some n _).mpr ⟨node, deref_eq_ok.mp hnode, rfl⟩
    obtain ⟨parent, hparent, -, hmem⟩ := getCallers_ok h hord hlive
    obtain ⟨selfRecursive, hself, -⟩ := isSelfRecursive_spec h hord hlive
    obtain ⟨st, ⟨bound, hbound⟩, -⟩ := settles_foldlM (l := parent) (s := (⟨0, 0, insert n bl⟩ : Estimate))
      (f := fun fuel => addParent g md fuel (getEstimatedCallCountForNode order g md recursionFactor fuel) n node.functionName)
      (J := fun _ st => st.blacklist = insert n bl) rfl fun pre p st hpre hst => by
        have hcall : Calls g p n := (hmem p).mp (hpre.subset (List.mem_append_right _ (List.mem_singleton_self p)))
        obtain ⟨q, bound, hbound⟩ := hsites p n node.functionName hcall hname
        by_cases hpn : p = n
        · subst hpn
          exact ⟨_, ⟨bound, fun fuel hfuel => addParent_self (hbound fuel hfuel)⟩, hst⟩
        by_cases hbl : p ∈ insert n bl
        · exact ⟨st, ⟨0, fun fuel _ => addParent_cut (hst ▸ hbl) hpn⟩, hst⟩
        have hlt : (Finset.range g.nodes.length \ insert p (insert n bl)).card < card := by
          rw [← hcard]
          exact Search.card_sdiff_insert_lt (Finset.mem_range.mpr (h.edge_lt hcall).1) hbl
        obtain ⟨⟨v, bl'⟩, bound', hbound'⟩ := ih _ hlt (h.edge_live p n hcall).1 (insert n bl) rfl
        have hrestore := getEstimatedCallCountForNode_restores order g md recursionFactor bound' p (insert n bl) v bl'
          (hbound' bound' le_rfl) hbl
        refine ⟨⟨st.ret + v * q, st.selfCalls, bl'⟩, ⟨max bound bound', fun fuel hfuel => ?_⟩, hrestore⟩
        have hv := hbound' fuel ((le_max_right ..).trans hfuel)
        rw [← hst] at hbl hv
        exact addParent_other hbl hpn (hbound fuel ((le_max_left ..).trans hfuel)) hv
    exact ⟨_, Settles.succ ⟨bound, fun fuel hfuel =>
      getEstimatedCallCountForNode_unprofiled hn hnode hparent hself (hbound fuel hfuel)⟩⟩

/-- The assertion of the wrapper holds whenever it is reached. -/
theorem getScaledCallCountForNode_eq (order : List ℕ → List ℕ) (g : Callgraph) (config : OverheadConfig) (md : MetaStore)
    (fuel node stmtCount : ℕ) : getScaledCallCountForNode order g config md fuel node stmtCount =
      lift (isLikelyToBeInlined g md node stmtCount) >>= fun isLikelyInlined =>
        (fun r : ℚ × Finset ℕ => if isLikelyInlined then r.1 * config.inlineFactor else r.1) <$>
          getEstimatedCallCountForNode order g md config.recursionFactor fuel node ∅ := by
  unfold getScaledCallCountForNode
  refine congrArg (lift (isLikelyToBeInlined g md node stmtCount) >>= ·) (funext fun isLikelyInlined => ?_)
  cases hr : getEstimatedCallCountForNode order g md config.recursionFactor fuel node ∅ with
  | error e => rfl
  | ok r =>
    obtain ⟨v, bl⟩ := r
    cases getEstimatedCallCountForNode_restores order g md config.recursionFactor fuel node ∅ v bl hr (Finset.notMem_empty node)
    cases isLikelyInlined <;> rfl

/-- The recursion ends where regions are nested, and with a value where the call sites have one; it restores the blacklist and
has one result for all orders of the callers. -/
theorem getEstimatedCallCountForNode_terminates (h : g.Wf) (hord : ∀ l, (order l).Perm l) (hord' : ∀ l, (order' l).Perm l)
    (config : OverheadConfig) {node : ℕ} (hlive : g.hasNode node = true) (bl : Finset ℕ) :
    (RegionsNested md → ∃ r, Settles (fun fuel => getEstimatedCallCountForNode order g md config.recursionFactor fuel node bl) r ∧
      r ≠ .error .fuel) ∧
    (SitesDefined g md → ∃ v bl',
      Settles (fun fuel => getEstimatedCallCountForNode order g md config.recursionFactor fuel node bl) (.ok (v, bl')) ∧
        (node ∉ bl → bl' = bl)) ∧
    (RegionsNested md → SitesReadable g md → SitesDefined g md) ∧
    (∀ fuel v bl', getEstimatedCallCountForNode order g md config.recursionFactor fuel node bl = .ok (v, bl') →
      node ∉ bl → bl' = bl) ∧
    (∀ fuel stmtCount, getScaledCallCountForNode order g config md fuel node stmtCount =
      lift (isLikelyToBeInlined g md node stmtCount) >>= fun isLikelyInlined =>
        (fun r : ℚ × Finset ℕ => if isLikelyInlined then r.1 * config.inlineFactor else r.1) <$>
          getEstimatedCallCountForNode order g md config.recursionFactor fuel node ∅) ∧
    ∀ fuel r, getEstimatedCallCountForNode order g md config.recursionFactor fuel node bl = .ok r ↔
      getEstimatedCallCountForNode order' g md config.recursionFactor fuel node bl = .ok r := by
  refine ⟨fun hregions => ?_, fun hsites => ?_, fun hregions hreadable => hreadable.defined h hregions, fun fuel v bl' => ?_,
    fun fuel stmtCount => ?_, fun fuel r => ?_⟩
  · obtain ⟨r, hr, hout, -⟩ := getEstimatedCallCountForNode_ends h hord hregions config.recursionFactor node bl
    exact ⟨r, hr, hout⟩
  · obtain ⟨⟨v, bl'⟩, bound, hbound⟩ := getEstimatedCallCountForNode_returns h hord hsites config.recursionFactor hlive bl
    refine ⟨v, bl', ⟨bound, hbound⟩, fun hnew => ?_⟩
    exact getEstimatedCallCountForNode_restores order g md config.recursionFactor bound node bl v bl' (hbound bound le_rfl) hnew
  · exact getEstimatedCallCountForNode_restores order g md config.recursionFactor fuel node bl v bl'
  · exact getScaledCallCountForNode_eq order g config md fuel node stmtCount
  · exact ⟨getEstimatedCallCountForNode_order h hord hord', getEstimatedCallCountForNode_order h hord' hord⟩

end

/-- `f` is called in an inner loop, which also calls `g`. -/
def nestedRegions : CallCountEstimationMetaData where
  calledFunctions := OMap.empty.insert "f" [(1, "inner")]
  codeRegions := (OMap.empty.insert "outer" ⟨"", [], 2⟩).insert "inner" ⟨"outer", ["g"], 3⟩

/-- `main` was called once; the callers have these regions. -/
def mainWithRegions : MetaStore := fun node =>
  { onlyMainProfiled node with callCountEstimation := some nestedRegions }

theorem nestedRegions_cases {r : String} {region : CodeRegion} (h : nestedRegions.codeRegions.find r = some region) :
    (r = "inner" ∧ region = ⟨"outer", ["g"], 3⟩) ∨ (r = "outer" ∧ region = ⟨"", [], 2⟩) := by
  have hmem : (r, region) ∈ nestedRegions.codeRegions.entries := OMap.mem_entries.mpr h
  have hentries : nestedRegions.codeRegions.entries = [("inner", ⟨"outer", ["g"], 3⟩), ("outer", ⟨"", [], 2⟩)] := by decide
  simpa [hentries] using hmem

theorem mainWithRegions_nested : RegionsNested mainWithRegions := by
  intro node pCCMD hmd r hr
  cases hmd
  -- only the inner loop is inside a region, and the outer one is not
  have hstep : ∀ r r', Inside nestedRegions r r' → r = "inner" ∧ r' = "outer" := by
    rintro r r' ⟨region, hregion, rfl, hparent⟩
    rcases nestedRegions_cases hregion with ⟨rfl, rfl⟩ | ⟨rfl, rfl⟩
    · exact ⟨rfl, rfl⟩
    · exact absurd rfl hparent
  obtain ⟨r₁, hfirst, -⟩ := Relation.TransGen.head'_iff.mp hr
  obtain ⟨r₂, -, hlast⟩ := Relation.TransGen.tail'_iff.mp hr
  exact absurd ((hstep _ _ hfirst).1.symm.trans (hstep _ _ hlast).2) (by decide)

theorem mainWithRegions_readable : SitesReadable mutualRecursion mainWithRegions := by
  refine fun u v _ => ⟨nestedRegions, rfl, fun name places hplaces call hcall => .inr ?_, fun r region hregion => ?_,
    fun r region hregion rfunc hrfunc => ?_⟩
  · have hmem : (name, places) ∈ nestedRegions.calledFunctions.entries := OMap.mem_entries.mpr hplaces
    have hentries : nestedRegions.calledFunctions.entries = [("f", [(1, "inner")])] := by decide
    rw [hentries, List.mem_singleton] at hmem
    cases hmem
    rw [List.mem_singleton.mp hcall]
    decide
  · rcases nestedRegions_cases hregion with ⟨rfl, rfl⟩ | ⟨rfl, rfl⟩
    · exact .inr (by decide)
    · exact .inl rfl
  · rcases nestedRegions_cases hregion with ⟨rfl, rfl⟩ | ⟨rfl, rfl⟩
    · rw [List.mem_singleton.mp hrfunc]
      exact ⟨2, by decide, fun info hinfo => by cases hinfo⟩
    · exact absurd hrfunc List.not_mem_nil

theorem getEstimatedCallCountForNode_terminates_mutualRecursion :
    (∃ v bl', Settles (fun fuel => getEstimatedCallCountForNode id mutualRecursion mainWithRegions 100 fuel 2 ∅) (.ok (v, bl')) ∧
      bl' = ∅) ∧
    ∀ fuel r, getEstimatedCallCountForNode id mutualRecursion mainWithRegions 100 fuel 2 ∅ = .ok r ↔
      getEstimatedCallCountForNode List.reverse mutualRecursion mainWithRegions 100 fuel 2 ∅ = .ok r := by
  obtain ⟨-, hreturns, hdefined, -, -, hsame⟩ := getEstimatedCallCountForNode_terminates
    (Callgraph.run_wf 0 _ : mutualRecursion.Wf) (fun l => List.Perm.refl l) (fun l => List.reverse_perm l)
    ⟨100, 0, 1, false, false⟩ (by decide : mutualRecursion.hasNode 2 = true) ∅
  obtain ⟨v, bl', hv, hbl⟩ := hreturns (hdefined mainWithRegions_nested mainWithRegions_readable)
  exact ⟨⟨v, bl', hv, hbl (Finset.notMem_empty 2)⟩, hsame⟩

/-- `main` calls `f` in a region that is its own parent. -/
def selfRegion : MetaStore := fun _ =>
  { NodeMetaData.create with
    callCountEstimation := some ⟨OMap.empty.insert "f" [(1, "loop")], OMap.empty.insert "loop" ⟨"loop", [], 1⟩⟩ }

theorem walkRegions_selfRegion (pCCMD : CallCountEstimationMetaData) (hloop : pCCMD.codeRegions.find "loop" = some ⟨"loop", [], 1⟩)
    (fuel : ℕ) (factor : ℚ) : walkRegions callChain selfRegion pCCMD "main" "f" 1 fuel "loop" factor = .error .fuel := by
  induction fuel generalizing factor with
  | zero => rfl
  | succ fuel ih =>
    unfold walkRegions
    rw [hloop]
    exact ih _

theorem getEstimatedCallsFromNode_selfRegion (fuel : ℕ) :
    getEstimatedCallsFromNode callChain selfRegion fuel 0 "f" = .error .fuel := by
  have hwalk := walkRegions_selfRegion ⟨OMap.empty.insert "f" [(1, "loop")], OMap.empty.insert "loop" ⟨"loop", [], 1⟩⟩ rfl fuel 1
  obtain ⟨main, hmain, hname⟩ : ∃ n, deref callChain 0 = .ok n ∧ n.functionName = "main" := ⟨_, rfl, rfl⟩
  have hplaces : (OMap.empty.insert "f" [((1 : ℚ), "loop")]).find "f" = some [(1, "loop")] := rfl
  unfold getEstimatedCallsFromNode
  simp only [selfRegion, hplaces, hmain, lift, Except.mapError, bind, Except.bind, hname, List.foldlM_cons]
  rw [if_neg (by decide), hwalk]

/-- The only caller of `f` is `main`, so an error of its call site is one of the recursion. -/
theorem getEstimatedCallCountForNode_callChain {md : MetaStore} {fuel : ℕ} {e : Stop} (hn : (md 1).instrumentationResult = none)
    (he : getEstimatedCallsFromNode callChain md fuel 0 "f" = .error e) :
    getEstimatedCallCountForNode id callChain md 100 (fuel + 1) 1 ∅ = .error e := by
  obtain ⟨f, hf, hname⟩ : ∃ n, deref callChain 1 = .ok n ∧ n.functionName = "f" := ⟨_, rfl, rfl⟩
  have hparent : getCallers id callChain 1 = .ok [0] := by decide
  have hself : isSelfRecursive id callChain 1 = .ok false := by decide
  unfold getEstimatedCallCountForNode
  rw [hn, hf, hparent, hself]
  have hcaller : addParent callChain md fuel (getEstimatedCallCountForNode id callChain md 100 fuel) 1 "f"
      ⟨0, 0, insert 1 ∅⟩ 0 = .error e := by
    unfold addParent
    rw [if_neg (by decide), if_neg (by decide), he]
    rfl
  simp only [lift, Except.mapError, bind, Except.bind, List.foldlM_cons, hname, hcaller]

/-- The walk over the regions never ends; and without the metadata of the caller a null pointer is read. -/
theorem not_terminates_selfRegion :
    (¬∃ r, Settles (fun fuel => getEstimatedCallCountForNode id callChain selfRegion 100 fuel 1 ∅) r ∧ r ≠ .error .fuel) ∧
      ¬∃ v bl, Settles (fun fuel => getEstimatedCallCountForNode id callChain (fun _ => .create) 100 fuel 1 ∅) (.ok (v, bl)) := by
  constructor
  · rintro ⟨r, ⟨bound, hbound⟩, hne⟩
    have hrun := hbound (bound + 1) (Nat.le_succ bound)
    exact hne (hrun.symm.trans (getEstimatedCallCountForNode_callChain rfl (getEstimatedCallsFromNode_selfRegion bound)))
  · rintro ⟨v, bl, bound, hbound⟩
    have hrun := hbound (bound + 1) (Nat.le_succ bound)
    cases hrun.symm.trans (getEstimatedCallCountForNode_callChain rfl rfl)

end MetaCG.Pgis
