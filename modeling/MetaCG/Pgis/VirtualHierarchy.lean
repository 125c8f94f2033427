import MetaCG.Pgis.LegacyMCGReader

/-! What the reader of format one makes of virtual functions.

As long as the function table is not rehashed, `buildVirtualFunctionHierarchy` finds the chains of the override
data, and `buildGraph` adds the calls of every callee and of its potential targets. -/
namespace MetaCG.Pgis
open Foundations
set_option autoImplicit false
set_option maxHeartbeats 250000
set_option maxRecDepth 120000

/-! ## The hierarchy -/

section
variable {functions : FuncMapT} {order : SetOrder String}

theorem overrides_recorded {a b : String} :
    Overrides (recorded functions) a b ↔ b ∈ overriddenFunctions functions a := by
  unfold Overrides recorded overriddenFunctions
  cases functions.lookup a with
  | none => simp
  | some fi => simp [FunctionInfo.overriding]

/-- The functions of the table together with those of `S`. -/
def withKeys (functions : FuncMapT) (S : Set (String × String)) : Set String :=
  {name | name ∈ functions.keys ∨ ∃ k, (name, k) ∈ S}

/-- The functions of `S` are in the table and the pairs of `T` are found. -/
structure Found (functions : FuncMapT) (S T : Set (String × String)) (st : FuncMapT × StrStrMap) : Prop where
  bucketCount : st.1.bucketCount = functions.bucketCount
  keys : (st.1.keys : Set String) = withKeys functions S
  kept : ∀ name fi, functions.lookup name = some fi → st.1.lookup name = some fi
  added : ∀ name fi, functions.lookup name = none → st.1.lookup name = some fi → fi = FunctionInfo.create
  overrides : overriddenFunctions st.1 = overriddenFunctions functions
  targets : ∀ g k, k ∈ UMap.getD st.2 g ∅ ↔ (g, k) ∈ T

/-- The outcome of a loop that finds the pairs of `S`, or stops because their functions do not fit. -/
def FoundOr (functions : FuncMapT) (S : Set (String × String)) (r : Except Exn (FuncMapT × StrStrMap)) : Prop :=
  (∃ st, r = .ok st ∧ Found functions S S st) ∨
    (r = .error .undefined ∧ (functions.bucketCount : ℕ∞) < (withKeys functions S).encard)

variable {S T : Set (String × String)} {st : FuncMapT × StrStrMap}

theorem Found.initial (functions : FuncMapT) : Found functions ∅ ∅ (functions, ∅) where
  bucketCount := rfl
  keys := by simp [withKeys]
  kept := fun _ _ h => h
  added := fun name fi hnone hfi => by
    rw [hnone] at hfi
    cases hfi
  overrides := rfl
  targets := by simp

theorem Found.insertTarget (h : Found functions S T st) (g k : String) :
    Found functions S (insert (g, k) T) (st.1, insertTarget st.2 g k) where
  bucketCount := h.bucketCount
  keys := h.keys
  kept := h.kept
  added := h.added
  overrides := h.overrides
  targets := by
    intro g' k'
    rw [Pgis.insertTarget, UMap.getD_insert, Set.mem_insert_iff, Prod.mk.injEq]
    split_ifs with hg
    · rw [Finset.mem_insert, h.targets, hg]
      simp
    · rw [h.targets]
      simp [hg]

theorem Found.subscript (h : Found functions S T st) {next : String} (k : String) {functions' : FuncMapT}
    (hsub : st.1.subscript FunctionInfo.create next = some functions') :
    Found functions (insert (next, k) S) T (functions', st.2) := by
  obtain ⟨hcount, hkeys, hlookup⟩ := HashTable.subscript_cases hsub
  refine ⟨hcount.trans h.bucketCount, ?_, fun name fi hfi => ?_, fun name fi hnone hfi => ?_,
    (overriddenFunctions_subscript hsub).trans h.overrides, h.targets⟩
  · rw [hkeys, Finset.coe_insert, h.keys]
    refine Set.ext fun name => ?_
    simp only [withKeys, Set.mem_insert_iff, Set.mem_ofPred_eq, Prod.mk.injEq]
    constructor
    · rintro (rfl | hkey | ⟨k', hk'⟩)
      · exact .inr ⟨k, .inl ⟨rfl, rfl⟩⟩
      · exact .inl hkey
      · exact .inr ⟨k', .inr hk'⟩
    · rintro (hkey | ⟨k', ⟨rfl, -⟩ | hk'⟩)
      · exact .inr (.inl hkey)
      · exact .inl rfl
      · exact .inr (.inr ⟨k', hk'⟩)
  · rw [hlookup, h.kept name fi hfi]
    split_ifs with hn
    · rw [← hn, h.kept name fi hfi]
      rfl
    · rfl
  · rw [hlookup] at hfi
    split_ifs at hfi with hn
    · cases hold : st.1.lookup next with
      | none =>
        rw [hold] at hfi
        exact (Option.some.inj hfi).symm
      | some old =>
        rw [hold] at hfi
        exact h.added name fi hnone (by rw [hn, hold]; exact hfi)
    · exact h.added name fi hnone hfi

/-- The pairs that one overridden function of `k` leads to. -/
def leadsTo (functions : FuncMapT) (k o : String) : Set (String × String) :=
  {p | p.2 = k ∧ Relation.ReflTransGen (Overrides (recorded functions)) o p.1}

/-- The loop over `workQ`: the visited functions are in the table, and they and the start have their targets. -/
theorem visitOverridden_found {k s : String} {fs : FuncMapT} {pt : StrStrMap} {V : Finset String} {Q : List String}
    (hfront : Search.Frontier (Overrides (recorded functions)) s V Q)
    (h : Found functions (S ∪ {p | p.2 = k ∧ p.1 ∈ V}) (S ∪ {p | p.2 = k ∧ (p.1 = s ∨ p.1 ∈ V)}) (fs, pt)) :
    FoundOr functions (S ∪ leadsTo functions k s) (visitOverridden order k fs pt V Q) := by
  fun_induction visitOverridden order k fs pt V Q with
  | case1 fs pt V =>
    refine .inl ⟨(fs, pt), rfl, ?_⟩
    have hvisited : S ∪ {p | p.2 = k ∧ p.1 ∈ V} = S ∪ leadsTo functions k s := by
      refine congrArg (S ∪ ·) (Set.ext fun p => and_congr_right fun _ => hfront.done p.1)
    have hstart : S ∪ {p | p.2 = k ∧ (p.1 = s ∨ p.1 ∈ V)} = S ∪ leadsTo functions k s := by
      refine congrArg (S ∪ ·) (Set.ext fun p => and_congr_right fun _ => ?_)
      rw [hfront.done p.1]
      refine or_iff_right_of_imp ?_
      rintro rfl
      exact .refl
    rw [hvisited, hstart] at h
    exact h
  | case2 fs pt V next Q hsub =>
    refine .inr ⟨rfl, ?_⟩
    rw [← h.bucketCount]
    have hreach := hfront.reached next (.inr (List.mem_cons_self ..))
    refine HashTable.lt_encard_of_subscript hsub ?_ (.inr ⟨k, .inr ⟨rfl, hreach⟩⟩)
    rw [h.keys]
    rintro name (hkey | ⟨k', hk' | hk'⟩)
    · exact .inl hkey
    · exact .inr ⟨k', .inl hk'⟩
    · exact .inr ⟨k', .inr ⟨hk'.1, hfront.reached name (.inl hk'.2)⟩⟩
  | case3 fs pt V next Q fs' hsub ih =>
    have hnext : ∀ v, v ∈ (order.run (overriddenFunctions fs' next)).filter (fun om => om ∉ insert next V) ↔
        Overrides (recorded functions) next v ∧ v ∉ insert next V := by
      intro v
      rw [List.mem_filter, decide_eq_true_iff, order.mem_run, overriddenFunctions_subscript hsub, h.overrides,
        overrides_recorded]
    refine ih (hfront.visit hnext) ?_
    have hstep := (h.subscript k hsub).insertTarget next k
    have hkeys : insert (next, k) (S ∪ {p : String × String | p.2 = k ∧ p.1 ∈ V}) =
        S ∪ {p | p.2 = k ∧ p.1 ∈ insert next V} := by
      refine Set.ext fun p => ?_
      simp only [Set.mem_insert_iff, Set.mem_union, Set.mem_ofPred_eq, Finset.mem_insert, Prod.ext_iff]
      tauto
    have htargets : insert (next, k) (S ∪ {p : String × String | p.2 = k ∧ (p.1 = s ∨ p.1 ∈ V)}) =
        S ∪ {p | p.2 = k ∧ (p.1 = s ∨ p.1 ∈ insert next V)} := by
      refine Set.ext fun p => ?_
      simp only [Set.mem_insert_iff, Set.mem_union, Set.mem_ofPred_eq, Finset.mem_insert, Prod.ext_iff]
      tauto
    rw [hkeys, htargets] at hstep
    exact hstep

theorem Found.addOverridden (h : Found functions S S st) (k o : String) :
    FoundOr functions (S ∪ leadsTo functions k o) (addOverridden order k st o) := by
  refine visitOverridden_found Search.Frontier.initial ?_
  have hstart := h.insertTarget o k
  have hkeys : S = S ∪ {p : String × String | p.2 = k ∧ p.1 ∈ (∅ : Finset String)} := by simp
  have htargets : insert (o, k) S = S ∪ {p : String × String | p.2 = k ∧ (p.1 = o ∨ p.1 ∈ (∅ : Finset String))} := by
    refine Set.ext fun p => ?_
    simp only [Set.mem_insert_iff, Set.mem_union, Set.mem_ofPred_eq, Finset.notMem_empty, Prod.ext_iff, or_false]
    tauto
  rw [← hkeys, ← htargets]
  exact hstart

theorem FoundOr.error_mono {e : Exn} {S' : Set (String × String)} (hS : S ⊆ S') (h : FoundOr functions S (.error e)) :
    FoundOr functions S' (.error e) := by
  obtain ⟨st, hst, -⟩ | ⟨he, hlt⟩ := h
  · cases hst
  · refine .inr ⟨he, hlt.trans_le (Set.encard_le_encard fun name hname => ?_)⟩
    exact hname.imp_right fun ⟨k, hk⟩ => ⟨k, hS hk⟩

/-- The rounds of a loop are compared with the table before it. -/
theorem foldlM_found {α : Type} {Q : α → Set (String × String)} {f : FuncMapT × StrStrMap → α → Except Exn (FuncMapT × StrStrMap)}
    {l : List α} (hstep : ∀ S st a, a ∈ l → Found functions S S st → FoundOr functions (S ∪ Q a) (f st a))
    (h : Found functions S S st) : FoundOr functions (S ∪ {p | ∃ a ∈ l, p ∈ Q a}) (l.foldlM f st) := by
  refine foldlM_collect (I := FoundOr functions) (fun S st a ha hst => ?_) (fun S S' e hS he => he.error_mono hS)
    (.inl ⟨st, rfl, h⟩)
  obtain ⟨st', heq, hfound⟩ | ⟨hcontra, -⟩ := hst
  · cases heq
    exact hstep S st a ha hfound
  · cases hcontra

/-- The pairs that one function of the table adds. -/
def targetsOf (functions : FuncMapT) (it : String × FunctionInfo) : Set (String × String) :=
  {p | p.2 = it.1 ∧ it.2.isVirtual = true ∧ it.2.doesOverride = true ∧
    ∃ o ∈ it.2.overriddenFunctions, Relation.ReflTransGen (Overrides (recorded functions)) o p.1}

theorem Found.addPotentialTarget (h : Found functions S S st) (it : String × FunctionInfo) :
    FoundOr functions (S ∪ targetsOf functions it) (addPotentialTarget order st it) := by
  unfold Pgis.addPotentialTarget
  split_ifs with hc
  · rw [Bool.and_eq_true] at hc
    have hset : targetsOf functions it =
        {p | ∃ o ∈ order.run it.2.overriddenFunctions, p ∈ leadsTo functions it.1 o} := by
      refine Set.ext fun p => ?_
      simp only [targetsOf, leadsTo, Set.mem_ofPred_eq, hc.1, hc.2, true_and, order.mem_run]
      constructor
      · rintro ⟨hp, o, ho, hreach⟩
        exact ⟨o, ho, hp, hreach⟩
      · rintro ⟨o, ho, hp, hreach⟩
        exact ⟨hp, o, ho, hreach⟩
    rw [hset]
    exact foldlM_found (fun S st o _ hst => hst.addOverridden it.1 o) h
  · have hset : targetsOf functions it = ∅ := by
      refine Set.eq_empty_of_forall_notMem fun p hp => hc ?_
      rw [Bool.and_eq_true]
      exact ⟨hp.2.1, hp.2.2.1⟩
    rw [hset, Set.union_empty]
    exact .inl ⟨st, rfl, h⟩

/-- The pairs of functions and potential targets. -/
def dispatch (functions : FuncMapT) : Set (String × String) :=
  {p | PotentialTarget (recorded functions) p.1 p.2}

/-- The hierarchy is built with exactly the potential targets, or the table is rehashed. -/
theorem buildVirtualFunctionHierarchy_found (order : SetOrder String) (functions : FuncMapT) :
    FoundOr functions (dispatch functions) (buildVirtualFunctionHierarchy order functions) := by
  have hloop : FoundOr functions (∅ ∪ {p | ∃ it ∈ UMap.toPairs functions.toMap, p ∈ targetsOf functions it})
      (buildVirtualFunctionHierarchy order functions) :=
    foldlM_found (fun S st it _ hst => hst.addPotentialTarget it) (Found.initial functions)
  have hset : dispatch functions = ∅ ∪ {p | ∃ it ∈ UMap.toPairs functions.toMap, p ∈ targetsOf functions it} := by
    refine Set.ext fun p => ?_
    rw [Set.empty_union, dispatch, Set.mem_ofPred_eq, potentialTarget_iff]
    constructor
    · rintro ⟨r, hr, hv, ho, hstep⟩
      obtain ⟨fi, hfi, rfl⟩ := Option.map_eq_some_iff.mp hr
      exact ⟨(p.2, fi), (UMap.mem_toPairs ..).mpr hfi, rfl, hv, ho, hstep⟩
    · rintro ⟨it, hit, hp, hv, ho, hstep⟩
      refine ⟨it.2.overriding, ?_, hv, ho, hstep⟩
      rw [recorded, hp, HashTable.lookup, (UMap.mem_toPairs it.1 it.2 _).mp hit]
      rfl
  rw [hset]
  exact hloop

/-- The table is not rehashed exactly if it has a bucket for each of its functions and each overridden one. -/
theorem buildVirtualFunctionHierarchy_ok_iff (order : SetOrder String) (functions : FuncMapT) :
    (∃ st, buildVirtualFunctionHierarchy order functions = .ok st) ↔
      (withKeys functions (dispatch functions)).encard ≤ functions.bucketCount := by
  obtain ⟨st, hok, hfound⟩ | ⟨herr, hlt⟩ := buildVirtualFunctionHierarchy_found order functions
  · refine iff_of_true ⟨st, hok⟩ ?_
    rw [← hfound.keys, ← hfound.bucketCount]
    exact HashTable.encard_keys_le st.1
  · refine iff_of_false ?_ hlt.not_ge
    rintro ⟨st, hok⟩
    rw [herr] at hok
    cases hok

end
/-! ## The graph -/

section
variable {g g' : Callgraph} {order : SetOrder String} {self : ℕ}

/-- Changes of a node that keep its id and name. -/
theorem updateNode_extends (h : g.Wf) (i : ℕ) {f : CgNode → CgNode}
    (hf : ∀ n, (f n).id = n.id ∧ (f n).functionName = n.functionName) : g.Extends ∅ ∅ (g.updateNode i f) := by
  have hname : ∀ j, (g.updateNode i f).nameOf j = g.nameOf j := by
    intro j
    rw [Callgraph.nameOf, Callgraph.nameOf, Callgraph.slot_updateNode]
    split_ifs
    · cases g.slot j with
      | none => rfl
      | some n => exact congrArg some (hf n).2
    · rfl
  refine ⟨h.updateNode i f fun n _ => hf n, fun j m hj => (hname j).trans hj, fun j m hj => .inl ((hname j).symm.trans hj),
    fun m hm => absurd hm (Set.notMem_empty m), fun m _ => rfl, ?_⟩
  rw [Set.union_empty]
  exact h.callsNamed_eq (fun j m hj => (hname j).trans hj) rfl

theorem getOrInsertNode_empty (h : g.Wf) : ∃ e, g.getOrInsertNode "" none false false = .error e := by
  have hnone : g.firstNamed "" = none := by
    refine Option.eq_none_iff_forall_ne_some.mpr fun i hi => ?_
    obtain ⟨n, hn, hname⟩ := h.slot_firstNamed hi
    exact h.node_name i n hn hname
  unfold Callgraph.getOrInsertNode
  rw [Callgraph.getFirstNode_eq h, ok_bind, hnone]
  exact ⟨_, rfl⟩

theorem getOrInsertNode_stopsIf (h : g.Wf) (name : String) :
    StopsIf (name = "") (fun r => r.1.nameOf r.2 = some name ∧ g.Extends {name} ∅ r.1)
      (g.getOrInsertNode name none false false) := by
  by_cases hname : name = ""
  · refine .inr ⟨?_, hname⟩
    rw [hname]
    exact getOrInsertNode_empty h
  · obtain ⟨g', i, hr, hi, hext⟩ := h.getOrInsertNode_extends hname none false false
    exact .inl ⟨(g', i), hr, hname, hi, hext⟩

variable {k : String} {node : ℕ} {S : Set String}

/-- Calls from `k` to the functions of `S` are added. -/
def CallsAdded (g : Callgraph) (k : String) (S : Set String) (g' : Callgraph) : Prop :=
  g.Extends S {p | p.1 = k ∧ p.2 ∈ S} g'

theorem addCall_stopsIf (hname : g.nameOf node = some k) (hS : "" ∉ S) (h : CallsAdded g k S g') (c : String) :
    StopsIf ("" ∈ S ∪ {c}) (CallsAdded g k (S ∪ {c})) (addCall self node g' c) := by
  refine (getOrInsertNode_stopsIf h.wf c).bind (fun hc => .inr hc.symm) fun r hc hr => ?_
  have hedge := hr.2.wf.addEdgeRef_extends self (hr.2.kept node k (h.kept node k hname)) hr.1
  refine .inl ⟨_, rfl, ?_, ?_⟩
  · rintro (hin | hin)
    · exact hS hin
    · exact hc hin.symm
  · have hcalls : {p : String × String | p.1 = k ∧ p.2 ∈ S ∪ {c}} = {p | p.1 = k ∧ p.2 ∈ S} ∪ (∅ ∪ {(k, c)}) := by
      refine Set.ext fun p => ?_
      simp only [Set.mem_ofPred_eq, Set.mem_union, Set.mem_singleton_iff, Set.mem_empty_iff_false, false_or, Prod.ext_iff]
      tauto
    have hall := Callgraph.Extends.trans h (hr.2.trans hedge)
    rw [Set.union_empty, ← hcalls] at hall
    exact hall

/-- The functions that a callee stands for: itself and its potential targets. -/
def standsFor (potentialTargets : StrStrMap) (c : String) : Set String :=
  {n | n = c ∨ n ∈ UMap.getD potentialTargets c ∅}

/-- Two maps list the same potential targets. -/
def SameTargets (potentialTargets potentialTargets' : StrStrMap) : Prop :=
  ∀ c, UMap.getD potentialTargets' c ∅ = UMap.getD potentialTargets c ∅

variable {potentialTargets : StrStrMap} {st : Callgraph × StrStrMap}

theorem addCallee_stopsIf (hname : g.nameOf node = some k) (hS : "" ∉ S) (hpt : SameTargets potentialTargets st.2)
    (h : CallsAdded g k S st.1) (c : String) :
    StopsIf ("" ∈ S ∪ standsFor potentialTargets c)
      (fun st' => CallsAdded g k (S ∪ standsFor potentialTargets c) st'.1 ∧ SameTargets potentialTargets st'.2)
      (addCallee order self node st c) := by
  have hset : S ∪ {c} ∪ {n | ∃ t ∈ order.run (UMap.getD st.2 c ∅), n ∈ ({t} : Set String)} =
      S ∪ standsFor potentialTargets c := by
    refine Set.ext fun n => ?_
    simp only [standsFor, Set.mem_union, Set.mem_ofPred_eq, Set.mem_singleton_iff, order.mem_run, hpt c, exists_eq_right',
      or_assoc]
  rw [← hset]
  refine (addCall_stopsIf hname hS h c).bind .inl fun g₁ hS₁ h₁ => ?_
  refine (foldlM_stopsIf (B := fun S => "" ∈ S) (G := CallsAdded g k) (Q := fun t : String => {t}) (fun S S' hsub hb => hsub hb)
    (fun S g' t _ hS h' => addCall_stopsIf hname hS h' t) hS₁ h₁).bind id fun g₂ hS₂ h₂ => ?_
  refine .inl ⟨_, rfl, hS₂, h₂, fun c' => ?_⟩
  rw [UMap.getD_insert, ← hpt]
  split_ifs with hc
  · rw [hc]
  · rfl

/-! ### All functions -/

/-- The functions that `it` calls. -/
def called (potentialTargets : StrStrMap) (it : String × FunctionInfo) : Set String :=
  {n | ∃ c ∈ it.2.callees, n ∈ standsFor potentialTargets c}

/-- The names and the calls that the functions of `S` bring into the graph. -/
def namesOf (potentialTargets : StrStrMap) (S : Set (String × FunctionInfo)) : Set String :=
  {n | ∃ it ∈ S, n = it.1 ∨ n ∈ called potentialTargets it}

def callsOf (potentialTargets : StrStrMap) (S : Set (String × FunctionInfo)) : Set (String × String) :=
  {p | ∃ it ∈ S, p.1 = it.1 ∧ p.2 ∈ called potentialTargets it}

theorem addCallees_stopsIf {pt : StrStrMap} (it : String × FunctionInfo) (hname : g.nameOf node = some it.1) (hwf : g.Wf)
    (hpt : SameTargets potentialTargets pt) :
    StopsIf ("" ∈ called potentialTargets it)
      (fun st' => CallsAdded g it.1 (called potentialTargets it) st'.1 ∧ SameTargets potentialTargets st'.2)
      ((order.run it.2.callees).foldlM (addCallee order self node) (g, pt)) := by
  have hcallees : (∅ : Set String) ∪ {n | ∃ c ∈ order.run it.2.callees, n ∈ standsFor potentialTargets c} =
      called potentialTargets it := by
    refine Set.ext fun n => ?_
    simp only [called, Set.empty_union, Set.mem_ofPred_eq, order.mem_run]
  have hstart : CallsAdded g it.1 ∅ g := by
    have hnone : {p : String × String | p.1 = it.1 ∧ p.2 ∈ (∅ : Set String)} = ∅ := by simp
    rw [CallsAdded, hnone]
    exact .refl hwf
  rw [← hcallees]
  exact foldlM_stopsIf (B := fun S => "" ∈ S) (G := fun S (st' : Callgraph × StrStrMap) => CallsAdded g it.1 S st'.1 ∧ SameTargets potentialTargets st'.2)
    (fun S S' hsub hb => hsub hb) (fun S st' c _ hS h' => addCallee_stopsIf hname hS h'.2 h'.1 c) (Set.notMem_empty "")
    ⟨hstart, hpt⟩

theorem buildNode_stopsIf (hpt : SameTargets potentialTargets st.2) (hwf : st.1.Wf) (it : String × FunctionInfo) :
    StopsIf (it.1 = "" ∨ "" ∈ called potentialTargets it)
      (fun st' => st.1.Extends ({it.1} ∪ called potentialTargets it) {p | p.1 = it.1 ∧ p.2 ∈ called potentialTargets it} st'.1 ∧
        SameTargets potentialTargets st'.2) (buildNode order self st it) := by
  refine (getOrInsertNode_stopsIf hwf it.1).bind .inl fun r hne hr => ?_
  have hset := updateNode_extends hr.2.wf r.2 (f := fun n => { setVirtual it.2.isVirtual n with hasBody := it.2.hasBody })
    fun n => ⟨rfl, rfl⟩
  refine (addCallees_stopsIf it (hset.kept r.2 it.1 hr.1) hset.wf hpt).bind .inr fun st' hnot h' => .inl ⟨_, rfl, ?_, ?_, h'.2⟩
  · rintro (h | h)
    · exact hne h
    · exact hnot h
  · have hlast := updateNode_extends h'.1.wf r.2 (f := fun n => { n with metaFields := ∅ }) fun n => ⟨rfl, rfl⟩
    have hall := hr.2.trans (hset.trans (Callgraph.Extends.trans h'.1 hlast))
    simp only [Set.empty_union, Set.union_empty] at hall
    exact hall

/-- `buildGraph` stops exactly at an empty name, and otherwise adds every call and every potential target. -/
theorem buildGraph_stopsIf (order : SetOrder String) (self : ℕ) (functions : UMap String FunctionInfo)
    (potentialTargets : StrStrMap) (hwf : g.Wf) :
    StopsIf ("" ∈ namesOf potentialTargets {it | it ∈ UMap.toPairs functions})
      (fun g' => g.Extends (namesOf potentialTargets {it | it ∈ UMap.toPairs functions})
        (callsOf potentialTargets {it | it ∈ UMap.toPairs functions}) g')
      (buildGraph order self functions potentialTargets g) := by
  have hnames : ∀ (S : Set (String × FunctionInfo)) it, namesOf potentialTargets (S ∪ {it}) =
      namesOf potentialTargets S ∪ ({it.1} ∪ called potentialTargets it) := by
    intro S it
    refine Set.ext fun n => ?_
    simp only [namesOf, Set.mem_ofPred_eq, Set.mem_union, Set.mem_singleton_iff, or_and_right, exists_or, exists_eq_left]
  have hcalls : ∀ (S : Set (String × FunctionInfo)) it, callsOf potentialTargets (S ∪ {it}) =
      callsOf potentialTargets S ∪ {p | p.1 = it.1 ∧ p.2 ∈ called potentialTargets it} := by
    intro S it
    refine Set.ext fun p => ?_
    simp only [callsOf, Set.mem_ofPred_eq, Set.mem_union, Set.mem_singleton_iff, or_and_right, exists_or, exists_eq_left]
  have hall : (∅ : Set (String × FunctionInfo)) ∪ {x | ∃ it ∈ UMap.toPairs functions, x ∈ ({it} : Set _)} =
      {it | it ∈ UMap.toPairs functions} := by
    refine Set.ext fun x => ?_
    simp
  have hstart : g.Extends (namesOf potentialTargets ∅) (callsOf potentialTargets ∅) g := by
    have hno : namesOf potentialTargets ∅ = ∅ := by simp [namesOf]
    have hnc : callsOf potentialTargets ∅ = ∅ := by simp [callsOf]
    rw [hno, hnc]
    exact .refl hwf
  have hloop := foldlM_stopsIf (ε := Exn) (B := fun S => "" ∈ namesOf potentialTargets S) (Q := fun it => {it})
    (l := UMap.toPairs functions) (s := (g, potentialTargets)) (S := ∅) (f := buildNode order self)
    (G := fun S (st : Callgraph × StrStrMap) => g.Extends (namesOf potentialTargets S) (callsOf potentialTargets S) st.1 ∧
      SameTargets potentialTargets st.2)
    (fun S S' hsub ⟨it, hit, hb⟩ => ⟨it, hsub hit, hb⟩)
    (fun S st it _ hS hst => ?_) (by simp [namesOf]) ⟨hstart, fun _ => rfl⟩
  · rw [hall] at hloop
    exact hloop.bind id fun st hnot hst => .inl ⟨st.1, rfl, hnot, hst.1⟩
  · refine (buildNode_stopsIf hst.2 hst.1.wf it).congr ?_ fun st' h' => ⟨?_, h'.2⟩
    · rw [hnames, Set.mem_union, Set.mem_union, Set.mem_singleton_iff, or_iff_right hS, eq_comm]
    · rw [hnames, hcalls]
      exact hst.1.trans h'.1

end

/-! ## Dispatch as a whole -/

/-- Both loaders of format one close the override data, and the reader's graph has the calls that this gives. -/
structure DispatchClosure (order : SetOrder String) (graphId : ℕ) (functions : FuncMapT) : Prop where
  json : ∀ functionMap j, FormatTwo.recorded (j.entries.foldl FormatOne.readFunction functionMap) = recorded functions →
    FormatTwo.TargetsAdded (j.entries.foldl FormatOne.readFunction functionMap) (FormatOne.buildFromJSON functionMap j)
  reader : ∃ functions' potentialTargets, buildVirtualFunctionHierarchy order functions = .ok (functions', potentialTargets) ∧
    (∀ g k, k ∈ UMap.getD potentialTargets g ∅ ↔ PotentialTarget (recorded functions) g k) ∧
    ∀ table : UMap String FunctionInfo, (∀ name, table.lookup name = functions'.lookup name) →
      ∃ g, buildGraph order graphId table potentialTargets .empty = .ok g ∧ (∀ name, (g.getNodesNamed name).length ≤ 1) ∧
        ∀ f t, (f, t) ∈ g.callsNamed ↔ ∃ fi, functions.lookup f = some fi ∧
          ∃ c ∈ fi.callees, t = c ∨ PotentialTarget (recorded functions) c t

section
variable {functions : FuncMapT} {order : SetOrder String} {self : ℕ} {st : FuncMapT × StrStrMap} {table : UMap String FunctionInfo}

/-- A table with the functions of the hierarchy brings these names into the graph. -/
theorem empty_mem_namesOf (h : Found functions (dispatch functions) (dispatch functions) st)
    (htable : ∀ name, table.lookup name = st.1.lookup name) :
    "" ∈ namesOf st.2 {it | it ∈ UMap.toPairs table} ↔
      "" ∈ withKeys functions (dispatch functions) ∨ ∃ name fi, functions.lookup name = some fi ∧ "" ∈ fi.callees := by
  have hkey : ∀ name, name ∈ withKeys functions (dispatch functions) ↔ ∃ fi, (name, fi) ∈ UMap.toPairs table := by
    intro name
    rw [← h.keys, Finset.mem_coe, HashTable.mem_keys, UMap.mem_iff_lookup]
    refine exists_congr fun fi => ?_
    rw [UMap.mem_toPairs, htable]
    rfl
  constructor
  · rintro ⟨it, hit, hname | ⟨c, hc, hstands⟩⟩
    · exact .inl ((hkey "").mpr ⟨it.2, by rw [hname]; exact hit⟩)
    · rcases hstands with rfl | hpt
      · have hlook : st.1.lookup it.1 = some it.2 := (htable it.1).symm.trans ((UMap.mem_toPairs ..).mp hit)
        cases hold : functions.lookup it.1 with
        | none =>
          rw [h.added it.1 it.2 hold hlook] at hc
          exact absurd hc (Finset.notMem_empty _)
        | some fi =>
          rw [h.kept it.1 fi hold] at hlook
          cases hlook
          exact .inr ⟨it.1, it.2, hold, hc⟩
      · obtain ⟨r, hr, -⟩ := (h.targets c "").mp hpt
        obtain ⟨fi, hfi, -⟩ := Option.map_eq_some_iff.mp hr
        refine .inl (.inl ?_)
        by_contra hnot
        rw [HashTable.lookup_eq_none.mpr hnot] at hfi
        cases hfi
  · rintro (hname | ⟨name, fi, hfi, hc⟩)
    · obtain ⟨fi, hfi⟩ := (hkey "").mp hname
      exact ⟨("", fi), hfi, .inl rfl⟩
    · refine ⟨(name, fi), (UMap.mem_toPairs ..).mpr ?_, .inr ⟨"", hc, .inl rfl⟩⟩
      rw [htable, h.kept name fi hfi]

/-- The calls that such a table brings into the graph. -/
theorem mem_callsOf (h : Found functions (dispatch functions) (dispatch functions) st)
    (htable : ∀ name, table.lookup name = st.1.lookup name) (f t : String) :
    (f, t) ∈ callsOf st.2 {it | it ∈ UMap.toPairs table} ↔ ∃ fi, functions.lookup f = some fi ∧
      ∃ c ∈ fi.callees, t = c ∨ PotentialTarget (recorded functions) c t := by
  have hstands : ∀ c, t ∈ standsFor st.2 c ↔ t = c ∨ PotentialTarget (recorded functions) c t :=
    fun c => or_congr_right (h.targets c t)
  constructor
  · rintro ⟨it, hit, rfl, c, hc, ht⟩
    have hlook : st.1.lookup it.1 = some it.2 := (htable it.1).symm.trans ((UMap.mem_toPairs ..).mp hit)
    cases hold : functions.lookup it.1 with
    | none =>
      rw [h.added it.1 it.2 hold hlook] at hc
      exact absurd hc (Finset.notMem_empty _)
    | some fi =>
      rw [h.kept it.1 fi hold] at hlook
      cases hlook
      exact ⟨it.2, rfl, c, hc, (hstands c).mp ht⟩
  · rintro ⟨fi, hfi, c, hc, ht⟩
    refine ⟨(f, fi), (UMap.mem_toPairs ..).mpr ?_, rfl, c, hc, (hstands c).mpr ht⟩
    rw [htable, h.kept f fi hfi]

theorem DispatchClosure.fits (h : DispatchClosure order self functions) :
    (withKeys functions (dispatch functions)).encard ≤ functions.bucketCount := by
  obtain ⟨functions', potentialTargets, hok, -⟩ := h.reader
  exact (buildVirtualFunctionHierarchy_ok_iff order functions).mp ⟨_, hok⟩

/-- The reader closes the override data exactly if its table needs no rehash and no name is empty. -/
theorem dispatchClosure_iff (order : SetOrder String) (self : ℕ) (functions : FuncMapT) :
    DispatchClosure order self functions ↔
      (withKeys functions (dispatch functions)).encard ≤ functions.bucketCount ∧
        "" ∉ withKeys functions (dispatch functions) ∧ ∀ name fi, functions.lookup name = some fi → "" ∉ fi.callees := by
  constructor
  · intro hclosure
    have hfits := hclosure.fits
    obtain ⟨-, functions', potentialTargets, hok, -, hgraph⟩ := hclosure
    obtain ⟨st, heq, hfound⟩ | ⟨herr, -⟩ := buildVirtualFunctionHierarchy_found order functions
    · rw [hok] at heq
      cases heq
      obtain ⟨g, hg, -⟩ := hgraph functions'.toMap fun _ => rfl
      have hempty := @empty_mem_namesOf functions _ functions'.toMap hfound fun _ => rfl
      obtain ⟨g', -, hnot, -⟩ | ⟨⟨e, he⟩, -⟩ :=
        buildGraph_stopsIf order self functions'.toMap potentialTargets Callgraph.Wf.empty
      · rw [hempty, not_or] at hnot
        exact ⟨hfits, hnot.1, fun name fi hfi hc => hnot.2 ⟨name, fi, hfi, hc⟩⟩
      · rw [he] at hg
        cases hg
    · rw [hok] at herr
      cases herr
  · rintro ⟨hfits, hnames, hcallees⟩
    refine ⟨fun functionMap j _ => FormatTwo.addPotentialTargets_targetsAdded _, ?_⟩
    obtain ⟨st, hok, hfound⟩ | ⟨-, hlt⟩ := buildVirtualFunctionHierarchy_found order functions
    · refine ⟨st.1, st.2, hok, hfound.targets, fun table htable => ?_⟩
      obtain ⟨g, hg, -, hext⟩ | ⟨-, hempty⟩ :=
        buildGraph_stopsIf order self table st.2 Callgraph.Wf.empty
      · refine ⟨g, hg, fun name => ?_, fun f t => ?_⟩
        · by_cases hname : name ∈ namesOf st.2 {it | it ∈ UMap.toPairs table}
          · exact (hext.named name hname).le
          · rw [hext.others name hname]
            exact Nat.zero_le 1
        · have hnone : Callgraph.empty.callsNamed = ∅ := by simp [Callgraph.callsNamed, Callgraph.empty]
          rw [hext.calls, hnone, Set.empty_union]
          exact mem_callsOf hfound htable f t
      · rcases (empty_mem_namesOf hfound htable).mp hempty with h | ⟨name, fi, hfi, hc⟩
        · exact absurd h hnames
        · exact absurd hc (hcallees name fi hfi)
    · exact absurd hfits hlt.not_ge

end

/-! ### A table that is rehashed -/

/-- `f` overrides a function that the file does not mention. -/
def overrider : FunctionInfo :=
  { FunctionInfo.create with functionName := "f", isVirtual := true, doesOverride := true, overriddenFunctions := {"g"} }

/-- Thirteen functions in thirteen buckets. -/
def fullTable : FuncMapT where
  toMap := UMap.ofPairs (("f", overrider) ::
    ["a", "b", "c", "d", "e", "h", "i", "j", "k", "l", "m", "n"].map fun name =>
      (name, { FunctionInfo.create with functionName := name }))
  bucketCount := 13
  load := by decide

def elementsOrder : SetOrder String := ⟨FormatTwo.elements, fun _ _ => FormatTwo.mem_elements⟩

theorem not_dispatchClosure_fullTable : ¬DispatchClosure elementsOrder 0 fullTable := by
  intro hclosure
  have hf : recorded fullTable "f" = some overrider.overriding := by decide
  have hg : "g" ∈ overrider.overriding.overriddenFunctions := Finset.mem_singleton_self "g"
  have htarget : PotentialTarget (recorded fullTable) "g" "f" := ⟨_, hf, rfl, rfl, .single ⟨_, hf, hg⟩⟩
  have hsub : ((insert "g" fullTable.keys : Finset String) : Set String) ⊆ withKeys fullTable (dispatch fullTable) := by
    rw [Finset.coe_insert]
    exact Set.insert_subset (.inr ⟨"f", htarget⟩) fun name hname => .inl hname
  have hcard := (Set.encard_le_encard hsub).trans hclosure.fits
  rw [Set.encard_coe_eq_coe_finsetCard, show (insert "g" fullTable.keys).card = 14 by decide] at hcard
  exact absurd hcard (by decide)

end MetaCG.Pgis
