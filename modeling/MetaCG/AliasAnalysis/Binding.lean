import MetaCG.AliasAnalysis.MergeRecurisve

/-! A call is bound to a function: its arguments to the parameters, the returned objects to its result. -/
namespace MetaCG.AliasAnalysis
open Foundations Congruence
set_option autoImplicit false
set_option maxHeartbeats 250000
set_option maxRecDepth 120000

/-- The equations between the parameters from the `n`-th on and the arguments. -/
def argumentBindings (parameters : List (String × ℕ)) (ci : CallInfo) : List (String × String) :=
  parameters.flatMap fun arg => ((ci.arguments[arg.2]?).getD []).map fun r => (arg.1, r)

/-- The equations that bind the call `ce` to a function. -/
def bindings (info : FunctionInfo) (ci : CallInfo) (ce : String) : List (String × String) :=
  argumentBindings info.parameters.zipIdx ci ++ info.referencedInReturnStmts.map fun r => (ce, r)

/-- `o` and `o'` are a parameter and an argument for it, or the result of the call and a returned object. -/
def Binds (info : FunctionInfo) (ci : CallInfo) (ce o o' : String) : Prop :=
  (∃ (i : ℕ) (args : List String), info.parameters[i]? = some o ∧ ci.arguments[i]? = some args ∧ o' ∈ args) ∨
    (o = ce ∧ o' ∈ info.referencedInReturnStmts)

theorem mem_bindings {info : FunctionInfo} {ci : CallInfo} {ce o o' : String} :
    (o, o') ∈ bindings info ci ce ↔ Binds info ci ce o o' := by
  unfold bindings argumentBindings Binds
  rw [List.mem_append]
  refine or_congr ?_ ?_
  · rw [List.mem_flatMap]
    constructor
    · rintro ⟨⟨p, i⟩, hp, hmem⟩
      obtain ⟨r, hr, heq⟩ := List.mem_map.mp hmem
      cases heq
      rw [List.mem_zipIdx_iff_getElem?] at hp
      cases hargs : ci.arguments[i]? with
      | none => simp [hargs] at hr
      | some args => exact ⟨i, args, hp, hargs, by simpa [hargs] using hr⟩
    · rintro ⟨i, args, hp, hargs, hr⟩
      refine ⟨(o, i), List.mem_zipIdx_iff_getElem?.mpr hp, List.mem_map.mpr ⟨o', ?_, rfl⟩⟩
      simpa [hargs] using hr
  · rw [List.mem_map]
    constructor
    · rintro ⟨r, hr, heq⟩
      cases heq
      exact ⟨rfl, hr⟩
    · rintro ⟨rfl, hr⟩
      exact ⟨o', hr, rfl⟩

namespace EquivClassContainer
variable {data data' : EquivClassContainer} {K : String → Prop} {ret : FunctionCalls} {fuel fuel' : ℕ} {ci : CallInfo}

/-- The equations of one object with several others. -/
theorem mergeObjects_with (missing : Fault) (x : String) (objects : List String) (h : Partition K data)
    (hK : ∀ x, K x → data.Known x) (hsize : data.equivClasses.size ≤ fuel) (ret : FunctionCalls) (hx : data.Known x)
    (hknown : ∀ r ∈ objects, data.Known r) :
    ∃ ret' data', objects.foldlM (fun state r => mergeObjects (mergeRecurisve fuel) missing state (x, r)) (ret, data) =
        .ok (ret ++ ret', data') ∧ Unifies K (objects.map fun r => (x, r)) data data' ret' := by
  have hpairs : ∀ e ∈ objects.map fun r => (x, r), data.Known e.1 ∧ data.Known e.2 := by
    intro e he
    obtain ⟨r, hr, rfl⟩ := List.mem_map.mp he
    exact ⟨hx, hknown r hr⟩
  have hrun := mergeObjects_foldlM (mergeRecurisve_merges K fuel) missing (objects.map fun r => (x, r)) h hK hsize ret hpairs
  rw [List.foldlM_map] at hrun
  exact hrun

theorem mergeParameters_spec (parameters : List (String × ℕ)) (h : Partition K data) (hK : ∀ x, K x → data.Known x)
    (hsize : data.equivClasses.size ≤ fuel) (ret : FunctionCalls) (hparam : ∀ arg ∈ parameters, data.Known arg.1)
    (harg : ∀ args ∈ ci.arguments, ∀ a ∈ args, data.Known a) :
    ∃ ret' data', parameters.foldlM (mergeParameter fuel ci) (ret, data) = .ok (ret ++ ret', data') ∧
      Unifies K (argumentBindings parameters ci) data data' ret' := by
  induction parameters generalizing data ret with
  | nil => exact ⟨[], data, by rw [List.append_nil]; rfl, .nil h⟩
  | cons arg parameters ih =>
    have hp := hparam arg (List.mem_cons_self ..)
    have hargs : ∀ r ∈ (ci.arguments[arg.2]?).getD [], data.Known r := by
      intro r hr
      cases hi : ci.arguments[arg.2]? with
      | none => simp [hi] at hr
      | some args => exact harg args (List.mem_of_getElem? hi) r (by simpa [hi] using hr)
    obtain ⟨ret1, data1, hrun1, hu1⟩ := mergeObjects_with (.assertion "ItR != Data.FindMap.end()") arg.1
      ((ci.arguments[arg.2]?).getD []) h hK hsize ret hp hargs
    have hstep : mergeParameter fuel ci (ret, data) arg = .ok (ret ++ ret1, data1) := by
      obtain ⟨it, hit⟩ := hp
      unfold mergeParameter
      rw [if_neg (by simp [hit])]
      exact hrun1
    have hknown1 : ∀ x, data.Known x → data1.Known x := fun x => hu1.frame.known.mpr
    obtain ⟨ret2, data2, hrun2, hu2⟩ := ih hu1.partition (fun x hx => hknown1 x (hK x hx)) (hu1.size.trans hsize) (ret ++ ret1)
      (fun a ha => hknown1 _ (hparam a (List.mem_cons_of_mem arg ha))) fun args ha a haa => hknown1 _ (harg args ha a haa)
    refine ⟨ret1 ++ ret2, data2, ?_, hu1.append hu2⟩
    rw [List.foldlM_cons, hstep, ← List.append_assoc]
    exact hrun2

theorem mergeReturns_spec (ce : String) (returns : List String) (h : Partition K data) (hK : ∀ x, K x → data.Known x)
    (hsize : data.equivClasses.size ≤ fuel) (ret : FunctionCalls) (hce : data.Known ce) (hreturns : ∀ r ∈ returns, data.Known r) :
    ∃ ret' data', mergeReturns fuel ce returns (ret, data) = .ok (ret ++ ret', data') ∧
      Unifies K (returns.map fun r => (ce, r)) data data' ret' := by
  unfold mergeReturns
  cases returns with
  | nil => exact ⟨[], data, by rw [List.append_nil]; rfl, .nil h⟩
  | cons r returns =>
    have hrun := mergeObjects_with (.assertion "ItR != Data.FindMap.end()") ce (r :: returns) h hK hsize ret hce hreturns
    obtain ⟨it, hit⟩ := hce
    rw [List.isEmpty_cons, if_neg Bool.false_ne_true, if_neg (by simp [hit])]
    exact hrun

theorem mergeFunctionCallImpl_spec {info : FunctionInfo} {called ce : String} (calling : String)
    (hinfo : data.functionInfoMap.find called = some info) (h : Partition K data) (hK : ∀ x, K x → data.Known x)
    (hsize : data.equivClasses.size ≤ fuel) (hparam : ∀ p ∈ info.parameters, data.Known p)
    (harg : ∀ args ∈ ci.arguments, ∀ a ∈ args, data.Known a) (hce : data.Known ce)
    (hreturns : ∀ r ∈ info.referencedInReturnStmts, data.Known r) :
    ∃ ret data', mergeFunctionCallImpl fuel data called calling ci ce = .ok ((ret, (calling, called)), data') ∧
      Unifies K (bindings info ci ce) data data' ret := by
  have hzip : ∀ arg ∈ info.parameters.zipIdx, data.Known arg.1 := by
    intro arg harg
    exact hparam _ (List.mem_of_getElem? (List.mem_zipIdx_iff_getElem?.mp harg))
  obtain ⟨ret1, data1, hrun1, hu1⟩ := mergeParameters_spec info.parameters.zipIdx h hK hsize [] hzip harg
  have hknown1 : ∀ x, data.Known x → data1.Known x := fun x => hu1.frame.known.mpr
  obtain ⟨ret2, data2, hrun2, hu2⟩ := mergeReturns_spec ce info.referencedInReturnStmts hu1.partition
    (fun x hx => hknown1 x (hK x hx)) (hu1.size.trans hsize) ret1 (hknown1 ce hce) fun r hr => hknown1 r (hreturns r hr)
  refine ⟨ret1 ++ ret2, data2, ?_, hu1.append hu2⟩
  rw [List.nil_append] at hrun1
  unfold mergeFunctionCallImpl
  rw [hinfo]
  simp only
  rw [hrun1, ok_bind, hrun2, ok_bind]
  rfl

/-- Functions, calls, parameters, arguments and return objects are known to the maps; `K` are the known objects. -/
structure Resolvable (K : String → Prop) (data : EquivClassContainer) : Prop where
  functions : ∀ {x f}, data.functionMap.find x = some f → ∃ info, data.functionInfoMap.find f = some info
  calls : ∀ {ce ci}, data.callInfoMap.find ce = some ci → K ce
  parents : ∀ {ce ci}, data.callInfoMap.find ce = some ci → ∃ parent, data.callExprParentMap.find ce = some parent
  callers : ∀ {ce parent}, data.callExprParentMap.find ce = some parent → ∃ info, data.functionInfoMap.find parent = some info
  parameters : ∀ {f info}, data.functionInfoMap.find f = some info → ∀ p ∈ info.parameters, K p
  returns : ∀ {f info}, data.functionInfoMap.find f = some info → ∀ r ∈ info.referencedInReturnStmts, K r
  arguments : ∀ {ce ci}, data.callInfoMap.find ce = some ci → ∀ args ∈ ci.arguments, ∀ a ∈ args, K a

theorem Resolvable.maps (h : Resolvable K data) (hf : SameMaps data data') : Resolvable K data' where
  functions hx := by
    rw [hf.functionMap] at hx
    rw [hf.functionInfoMap]
    exact h.functions hx
  calls hce := h.calls (hf.callInfoMap ▸ hce)
  parents hce := by
    rw [hf.callInfoMap] at hce
    rw [hf.callExprParentMap]
    exact h.parents hce
  callers hce := by
    rw [hf.callExprParentMap] at hce
    rw [hf.functionInfoMap]
    exact h.callers hce
  parameters hf' := h.parameters (hf.functionInfoMap ▸ hf')
  returns hf' := h.returns (hf.functionInfoMap ▸ hf')
  arguments hce := h.arguments (hf.callInfoMap ▸ hce)

theorem Resolvable.mono {K' : String → Prop} (h : Resolvable K data) (hK : ∀ x, K x → K' x) : Resolvable K' data where
  functions := h.functions
  calls hc := hK _ (h.calls hc)
  parents := h.parents
  callers := h.callers
  parameters hf p hp := hK p (h.parameters hf p hp)
  returns hf r hr := hK r (h.returns hf r hr)
  arguments hc args hargs a ha := hK a (h.arguments hc args hargs a ha)

instance (x : String) : Decidable (data.Known x) :=
  decidable_of_iff ((data.findMap.find x).isSome = true) Option.isSome_iff_exists

theorem resolvable_iff : Resolvable K data ↔
    (∀ e ∈ data.functionMap.entries, (data.functionInfoMap.find e.2).isSome) ∧
    (∀ e ∈ data.callInfoMap.entries, K e.1 ∧ (data.callExprParentMap.find e.1).isSome ∧ ∀ args ∈ e.2.arguments, ∀ a ∈ args, K a) ∧
    (∀ e ∈ data.callExprParentMap.entries, (data.functionInfoMap.find e.2).isSome) ∧
    ∀ e ∈ data.functionInfoMap.entries, (∀ p ∈ e.2.parameters, K p) ∧ ∀ r ∈ e.2.referencedInReturnStmts, K r := by
  constructor
  · intro h
    refine ⟨fun e he => ?_, fun e he => ⟨?_, ?_, ?_⟩, fun e he => ?_, fun e he => ⟨?_, ?_⟩⟩
    · exact Option.isSome_iff_exists.mpr (h.functions (OMap.mem_entries.mp he))
    · exact h.calls (OMap.mem_entries.mp he)
    · exact Option.isSome_iff_exists.mpr (h.parents (OMap.mem_entries.mp he))
    · exact h.arguments (OMap.mem_entries.mp he)
    · exact Option.isSome_iff_exists.mpr (h.callers (OMap.mem_entries.mp he))
    · exact h.parameters (OMap.mem_entries.mp he)
    · exact h.returns (OMap.mem_entries.mp he)
  · rintro ⟨hfun, hcall, hparent, hinfo⟩
    exact
      { functions := fun h => Option.isSome_iff_exists.mp (hfun _ (OMap.mem_entries.mpr h))
        calls := fun h => (hcall _ (OMap.mem_entries.mpr h)).1
        parents := fun h => Option.isSome_iff_exists.mp (hcall _ (OMap.mem_entries.mpr h)).2.1
        callers := fun h => Option.isSome_iff_exists.mp (hparent _ (OMap.mem_entries.mpr h))
        parameters := fun h => (hinfo _ (OMap.mem_entries.mpr h)).1
        returns := fun h => (hinfo _ (OMap.mem_entries.mpr h)).2
        arguments := fun h => (hcall _ (OMap.mem_entries.mpr h)).2.2 }

instance [DecidablePred K] : Decidable (Resolvable K data) := decidable_of_iff _ resolvable_iff.symm

theorem mergeFunctionCall_spec {x f ce parent : String} {info : FunctionInfo} (hr : Resolvable K data)
    (hf : data.functionMap.find x = some f) (hinfo : data.functionInfoMap.find f = some info)
    (hci : data.callInfoMap.find ce = some ci) (hparent : data.callExprParentMap.find ce = some parent)
    (h : Partition K data) (hK : ∀ x, K x → data.Known x) (hsize : data.equivClasses.size ≤ fuel) :
    ∃ ret data', mergeFunctionCall fuel data x ce = .ok ((ret, (parent, f)), data') ∧
      Unifies K (bindings info ci ce) data data' ret := by
  obtain ⟨ret, data', hrun, hu⟩ := mergeFunctionCallImpl_spec parent hinfo h hK hsize
    (fun p hp => hK p (hr.parameters hinfo p hp)) (fun args ha a haa => hK a (hr.arguments hci args ha a haa))
    (hK ce (hr.calls hci)) fun r hrr => hK r (hr.returns hinfo r hrr)
  refine ⟨ret, data', ?_, hu⟩
  unfold mergeFunctionCall parentOf
  rw [hf]
  simp only [hparent, hci]
  exact hrun

/-! ## Which calls call an object -/

theorem mem_addCall (c : CallInfoConstIter) (objects : List String) (refs : OMap String (List CallInfoConstIter)) (y : String)
    (c' : CallInfoConstIter) :
    c' ∈ ((objects.foldl (fun refs ref => refs.insert ref ((refs.find ref).getD [] ++ [c])) refs).find y).getD [] ↔
      c' ∈ (refs.find y).getD [] ∨ (c' = c ∧ y ∈ objects) := by
  induction objects generalizing refs with
  | nil => simp
  | cons o objects ih =>
    rw [List.foldl_cons, ih, OMap.find_insert]
    by_cases hy : y = o
    · subst hy
      rw [if_pos rfl, Option.getD_some, List.mem_append, List.mem_singleton]
      simp only [List.mem_cons, true_or, and_true]
      constructor
      · rintro ((h | h) | h)
        · exact .inl h
        · exact .inr h
        · exact .inr h.1
      · rintro (h | h)
        · exact .inl (.inl h)
        · exact .inl (.inr h)
    · rw [if_neg hy]
      simp only [List.mem_cons, hy, false_or]

theorem mem_callsByObject (calls : OMap String CallInfo) (y : String) (c : CallInfoConstIter) :
    c ∈ ((callsByObject calls).find y).getD [] ↔ ∃ ci, calls.find c = some ci ∧ y ∈ ci.calledObjects := by
  have key : ∀ (l : List (String × CallInfo)) (refs : OMap String (List CallInfoConstIter)),
      c ∈ ((l.foldl (fun refs call => call.2.calledObjects.foldl
        (fun refs ref => refs.insert ref ((refs.find ref).getD [] ++ [call.1])) refs) refs).find y).getD [] ↔
        c ∈ (refs.find y).getD [] ∨ ∃ ci, (c, ci) ∈ l ∧ y ∈ ci.calledObjects := by
    intro l
    induction l with
    | nil => simp
    | cons call l ih =>
      intro refs
      rw [List.foldl_cons, ih, mem_addCall, or_assoc]
      refine or_congr_right ?_
      constructor
      · rintro (⟨rfl, hy⟩ | ⟨ci, hci, hy⟩)
        · exact ⟨call.2, List.mem_cons_self .., hy⟩
        · exact ⟨ci, List.mem_cons_of_mem _ hci, hy⟩
      · rintro ⟨ci, hci, hy⟩
        rcases List.mem_cons.mp hci with rfl | hci
        · exact .inl ⟨rfl, hy⟩
        · exact .inr ⟨ci, hci, hy⟩
  unfold callsByObject
  rw [key]
  simp only [OMap.find_empty, Option.getD_none, List.not_mem_nil, false_or, OMap.mem_entries]

/-- `x` names the function `info`, and the call `c` calls the object `y`. -/
def MayCall (data : EquivClassContainer) (x y : String) (info : FunctionInfo) (c : String) (ci : CallInfo) : Prop :=
  (∃ f, data.functionMap.find x = some f ∧ data.functionInfoMap.find f = some info) ∧
    data.callInfoMap.find c = some ci ∧ y ∈ ci.calledObjects

/-- What is bound when a function object and a called object are in one class. -/
def BindRule (data : EquivClassContainer) (x y o o' : String) : Prop :=
  ∃ info c ci, data.MayCall x y info c ci ∧ Binds info ci c o o'

theorem mayCall_maps (hf : SameMaps data data') {x y c : String} {info : FunctionInfo} :
    data'.MayCall x y info c ci ↔ data.MayCall x y info c ci := by
  unfold MayCall
  rw [hf.functionMap, hf.functionInfoMap, hf.callInfoMap]

theorem bindRule_maps (hf : SameMaps data data') {x y o o' : String} : data'.BindRule x y o o' ↔ data.BindRule x y o o' := by
  unfold BindRule
  simp only [mayCall_maps hf]

/-- `referencedInCalls` is up to date. -/
def Indexed (data : EquivClassContainer) : Prop := data.referencedInCalls = callsByObject data.callInfoMap

theorem Indexed.maps (h : Indexed data) (hf : SameMaps data data') : Indexed data' := by
  unfold Indexed
  rw [hf.referencedInCalls, hf.callInfoMap]
  exact h

theorem meets_iff (hi : Indexed data) (hr : Resolvable K data) {x c : String} :
    data.Meets x c ↔ ∃ y info ci, data.Rel x y ∧ data.MayCall x y info c ci := by
  unfold Meets MayCall
  rw [hi]
  simp only [mem_callsByObject]
  constructor
  · rintro ⟨hx, y, hrel, ci, hci, hy⟩
    obtain ⟨f, hf⟩ := Option.isSome_iff_exists.mp hx
    obtain ⟨info, hinfo⟩ := hr.functions hf
    exact ⟨y, info, ci, hrel, ⟨f, hf, hinfo⟩, hci, hy⟩
  · rintro ⟨y, info, ci, hrel, ⟨f, hf, -⟩, hci, hy⟩
    exact ⟨Option.isSome_iff_exists.mpr ⟨f, hf⟩, y, hrel, ci, hci, hy⟩

/-! ## More fuel does not change a result -/

theorem mergeFunctionCallImpl_mono (hle : fuel ≤ fuel') {called calling ce : String}
    {r : (FunctionCalls × (String × String)) × EquivClassContainer}
    (h : mergeFunctionCallImpl fuel data called calling ci ce = .ok r) :
    mergeFunctionCallImpl fuel' data called calling ci ce = .ok r := by
  have hobj : ∀ {missing : Fault} {state state' : FunctionCalls × EquivClassContainer} {e : String × String},
      mergeObjects (mergeRecurisve fuel) missing state e = .ok state' →
        mergeObjects (mergeRecurisve fuel') missing state e = .ok state' := mergeObjects_mono (mergeRecurisve_mono hle)
  unfold mergeFunctionCallImpl at h ⊢
  cases hinfo : data.functionInfoMap.find called with
  | none => simp [hinfo] at h
  | some info =>
    simp only [hinfo] at h ⊢
    obtain ⟨state1, hparams, h⟩ := bind_eq_ok.mp h
    obtain ⟨state2, hreturns, h⟩ := bind_eq_ok.mp h
    have hparams' : info.parameters.zipIdx.foldlM (mergeParameter fuel' ci) ([], data) = .ok state1 := by
      refine foldlM_mono ?_ hparams
      intro s a s' hs
      unfold mergeParameter at hs ⊢
      split_ifs at hs ⊢ with hnone
      exact foldlM_mono hobj hs
    have hreturns' : mergeReturns fuel' ce info.referencedInReturnStmts state1 = .ok state2 := by
      unfold mergeReturns at hreturns ⊢
      split_ifs at hreturns ⊢ with hempty hnone
      · exact hreturns
      · exact foldlM_mono hobj hreturns
    rw [hparams', ok_bind, hreturns', ok_bind]
    exact h

theorem mergeFunctionCall_mono (hle : fuel ≤ fuel') {x ce : String} {r : (FunctionCalls × (String × String)) × EquivClassContainer}
    (h : mergeFunctionCall fuel data x ce = .ok r) : mergeFunctionCall fuel' data x ce = .ok r := by
  unfold mergeFunctionCall at h ⊢
  cases hf : data.functionMap.find x with
  | none => simp [hf] at h
  | some f =>
    simp only [hf] at h ⊢
    cases hci : (parentOf data ce).2.callInfoMap.find ce with
    | none => simp [hci] at h
    | some ci =>
      simp only [hci] at h ⊢
      exact mergeFunctionCallImpl_mono hle h

end EquivClassContainer
end MetaCG.AliasAnalysis
