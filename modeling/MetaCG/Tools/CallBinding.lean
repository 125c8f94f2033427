import Mathlib.Data.Finset.Lattice.Lemmas
import MetaCG.AliasAnalysis.Binding
import MetaCG.Tools.CGMerge

/-! Binding calls until no class reveals a further call target.

A call is bound once. What the binding makes meet is returned and bound next, so of the function
objects and calls in one class each pair is bound or still waits in a work list. -/
namespace MetaCG.CGMerge
open Foundations Congruence AliasAnalysis EquivClassContainer
set_option autoImplicit false
set_option maxHeartbeats 250000
set_option maxRecDepth 120000

/-! ## Edges -/

def HasNode (json : WholeCG) (a : String) : Prop := ∃ node, json.find a = some node

def HasEdge (json : WholeCG) (a b : String) : Prop := ∃ node, json.find a = some node ∧ b ∈ node.callees

section
variable {json json' : WholeCG} {a b caller : String} {callers called : List String}

/-- A node is replaced by one with more callees. -/
theorem hasEdge_insert {node : CGNode} (h : json.find caller = some node) (callees : Finset String) (callers : Finset String) :
    HasEdge (json.insert caller ⟨node.callees ∪ callees, callers⟩) a b ↔ HasEdge json a b ∨ (a = caller ∧ b ∈ callees) := by
  unfold HasEdge
  rw [OMap.find_insert]
  by_cases ha : a = caller
  · subst ha
    simp [h]
  · simp [ha]

theorem hasNode_insert {node : CGNode} (h : HasNode json caller) : HasNode (json.insert caller node) a ↔ HasNode json a := by
  unfold HasNode
  rw [OMap.find_insert]
  by_cases ha : a = caller
  · subst ha
    exact iff_of_true ⟨node, if_pos rfl⟩ h
  · rw [if_neg ha]

theorem addCaller_edges (json : WholeCG) (called : String) : HasEdge (addCaller caller json called) a b ↔ HasEdge json a b := by
  unfold addCaller
  cases h : json.find called with
  | none => exact Iff.rfl
  | some node =>
    have hadd := hasEdge_insert (a := a) (b := b) h ∅ (insert caller node.callers)
    rw [Finset.union_empty] at hadd
    simpa using hadd

theorem addCaller_nodes (json : WholeCG) (called : String) : HasNode (addCaller caller json called) a ↔ HasNode json a := by
  unfold addCaller
  cases h : json.find called with
  | none => exact Iff.rfl
  | some node => exact hasNode_insert ⟨node, h⟩

theorem addCallers_spec (called : List String) (json : WholeCG) :
    (HasEdge (called.foldl (addCaller caller) json) a b ↔ HasEdge json a b) ∧
      (HasNode (called.foldl (addCaller caller) json) a ↔ HasNode json a) := by
  induction called generalizing json with
  | nil => exact ⟨Iff.rfl, Iff.rfl⟩
  | cons c called ih =>
    rw [List.foldl_cons, (ih _).1, (ih _).2, addCaller_edges, addCaller_nodes]
    exact ⟨Iff.rfl, Iff.rfl⟩

/-- The edges from `callers` to `called` are added. -/
structure AddsEdges (callers called : List String) (json json' : WholeCG) : Prop where
  nodes : ∀ {a}, HasNode json' a ↔ HasNode json a
  edges : ∀ {a b}, HasEdge json' a b ↔ HasEdge json a b ∨ (a ∈ callers ∧ b ∈ called)

theorem addCalls_spec (callers called : List String) (h : ∀ a ∈ callers, HasNode json a) :
    ∃ json', callers.foldlM (fun json caller => do
        let json ← addCallees called json caller
        pure (called.foldl (addCaller caller) json)) json = Except.ok json' ∧ AddsEdges callers called json json' := by
  induction callers generalizing json with
  | nil => exact ⟨json, rfl, Iff.rfl, by simp⟩
  | cons caller callers ih =>
    obtain ⟨node, hnode⟩ := h caller (List.mem_cons_self ..)
    have hcallees : addCallees called json caller =
        .ok (json.insert caller ⟨node.callees ∪ called.toFinset, node.callers⟩) := by
      unfold addCallees
      rw [hnode]
    have hnodes : ∀ {a}, HasNode (called.foldl (addCaller caller)
        (json.insert caller ⟨node.callees ∪ called.toFinset, node.callers⟩)) a ↔ HasNode json a := fun {a} =>
      (addCallers_spec called _ (b := a)).2.trans (hasNode_insert ⟨node, hnode⟩)
    have hedges : ∀ {a b}, HasEdge (called.foldl (addCaller caller)
        (json.insert caller ⟨node.callees ∪ called.toFinset, node.callers⟩)) a b ↔
          HasEdge json a b ∨ (a = caller ∧ b ∈ called) := by
      intro a b
      rw [(addCallers_spec called _).1, hasEdge_insert hnode, List.mem_toFinset]
    obtain ⟨json', hrun, hadds⟩ := ih fun a ha => hnodes.mpr (h a (List.mem_cons_of_mem caller ha))
    refine ⟨json', ?_, hadds.nodes.trans hnodes, ?_⟩
    · rw [List.foldlM_cons, hcallees]
      exact hrun
    · intro a b
      rw [hadds.edges, hedges, or_assoc, List.mem_cons]
      refine or_congr_right ?_
      rw [← or_and_right]

theorem addCallToCallGraph_spec {data : EquivClassContainer} {calling called : String} {pinfo info : FunctionInfo}
    (hcalling : data.functionInfoMap.find calling = some pinfo) (hcalled : data.functionInfoMap.find called = some info)
    (h : ∀ a ∈ pinfo.mangledNames, HasNode json a) :
    ∃ json', addCallToCallGraph data calling called json = .ok json' ∧
      AddsEdges pinfo.mangledNames info.mangledNames json json' := by
  unfold addCallToCallGraph
  rw [hcalling, hcalled]
  exact addCalls_spec pinfo.mangledNames info.mangledNames h

end

/-! ## Bound calls -/

variable {K : String → Prop} {s s' s'' : EquivClassContainer × WholeCG} {calls calls' : FunctionCalls} {fuel : ℕ}

/-- An edge of the call graph for a function object and a called object in one class. -/
def EdgeRule (data : EquivClassContainer) (x y a b : String) : Prop :=
  ∃ info c ci parent pinfo, data.MayCall x y info c ci ∧ data.callExprParentMap.find c = some parent ∧
    data.functionInfoMap.find parent = some pinfo ∧ a ∈ pinfo.mangledNames ∧ b ∈ info.mangledNames

theorem edgeRule_maps {data data' : EquivClassContainer} (hf : SameMaps data data') {x y a b : String} :
    EdgeRule data' x y a b ↔ EdgeRule data x y a b := by
  unfold EdgeRule
  simp only [mayCall_maps hf, hf.callExprParentMap, hf.functionInfoMap]

/-- The call `c` is bound to the function object `x`. -/
def Bound (s : EquivClassContainer × WholeCG) (x : String) (c : CallInfoConstIter) : Prop :=
  ∀ y info ci, s.1.MayCall x y info c ci → (∀ e ∈ bindings info ci c, s.1.Rel e.1 e.2) ∧
    ∀ parent pinfo, s.1.callExprParentMap.find c = some parent → s.1.functionInfoMap.find parent = some pinfo →
      ∀ a ∈ pinfo.mangledNames, ∀ b ∈ info.mangledNames, HasEdge s.2 a b

theorem Bound.mono (hf : Frame s.1 s'.1) (he : ∀ {a b}, HasEdge s.2 a b → HasEdge s'.2 a b) {x c : String} (h : Bound s x c) :
    Bound s' x c := by
  intro y info ci hcall
  obtain ⟨hrel, hedge⟩ := h y info ci ((mayCall_maps hf.toSameMaps).mp hcall)
  refine ⟨fun e hmem => hf.rel (hrel e hmem), ?_⟩
  intro parent pinfo hparent hpinfo a ha b hb
  rw [hf.callExprParentMap] at hparent
  rw [hf.functionInfoMap] at hpinfo
  exact he (hedge parent pinfo hparent hpinfo a ha b hb)

/-- What every step of the binding relies on. -/
structure Ready (K : String → Prop) (s : EquivClassContainer × WholeCG) : Prop where
  partition : Partition K s.1
  known : ∀ x, K x → s.1.Known x
  resolvable : Resolvable K s.1
  indexed : Indexed s.1
  nodes : ∀ {c ci parent pinfo}, s.1.callInfoMap.find c = some ci → s.1.callExprParentMap.find c = some parent →
    s.1.functionInfoMap.find parent = some pinfo → ∀ a ∈ pinfo.mangledNames, HasNode s.2 a

/-- From `s` to `s'` the calls are bound, and so is everything that met on the way. -/
structure BindsCalls (K : String → Prop) (calls : FunctionCalls) (s s' : EquivClassContainer × WholeCG) : Prop where
  partition : Partition K s'.1
  frame : Frame s.1 s'.1
  size : s'.1.equivClasses.size ≤ s.1.equivClasses.size
  nodes : ∀ {a}, HasNode s'.2 a ↔ HasNode s.2 a
  edges : ∀ {a b}, HasEdge s.2 a b → HasEdge s'.2 a b
  bound : ∀ {x c}, (x, c) ∈ calls → Bound s' x c
  closed : ∀ {x c}, s'.1.Meets x c → s.1.Meets x c ∨ Bound s' x c
  half : ∀ {base pre} {pending : String → String → Prop}, HalfClosed base pre s.1.table pending →
    HalfClosed base pre s'.1.table pending
  just : ∀ {r pre} {pending : String → String → Prop}, ClosedUnder (SharedMember pre) r → ClosedUnder s.1.BindRule r →
    Justified r pre s.1.table pending → Justified r pre s'.1.table pending
  forced : ∀ {a b}, HasEdge s'.2 a b → HasEdge s.2 a b ∨ ∃ x y, s'.1.Rel x y ∧ EdgeRule s.1 x y a b

theorem Ready.step (h : Ready K s) (hp : Partition K s'.1) (hf : Frame s.1 s'.1) (hn : ∀ {a}, HasNode s'.2 a ↔ HasNode s.2 a) :
    Ready K s' where
  partition := hp
  known x hx := hf.known.mpr (h.known x hx)
  resolvable := h.resolvable.maps hf.toSameMaps
  indexed := h.indexed.maps hf.toSameMaps
  nodes := by
    intro c ci parent pinfo hci hparent hpinfo a ha
    rw [hf.callInfoMap] at hci
    rw [hf.callExprParentMap] at hparent
    rw [hf.functionInfoMap] at hpinfo
    exact hn.mpr (h.nodes hci hparent hpinfo a ha)

namespace BindsCalls

theorem nil (h : Ready K s) : BindsCalls K [] s s where
  partition := h.partition
  frame := .refl s.1
  size := le_refl _
  nodes := Iff.rfl
  edges := id
  bound := fun h => absurd h List.not_mem_nil
  closed := .inl
  half := id
  just _ _ := id
  forced := .inl

theorem append (h : BindsCalls K calls s s') (h' : BindsCalls K calls' s' s'') : BindsCalls K (calls ++ calls') s s'' where
  partition := h'.partition
  frame := h.frame.trans h'.frame
  size := h'.size.trans h.size
  nodes := h'.nodes.trans h.nodes
  edges he := h'.edges (h.edges he)
  bound := by
    intro x c hmem
    rcases List.mem_append.mp hmem with hmem | hmem
    · exact (h.bound hmem).mono h'.frame h'.edges
    · exact h'.bound hmem
  closed := by
    intro x c hmeet
    rcases h'.closed hmeet with hmeet | hbound
    · exact (h.closed hmeet).imp_right fun hb => hb.mono h'.frame h'.edges
    · exact .inr hbound
  half hh := h'.half (h.half hh)
  just hr hb hj := h'.just hr (hb.mono fun _ _ _ _ => (bindRule_maps h.frame.toSameMaps).mp) (h.just hr hb hj)
  forced := by
    intro a b he
    rcases h'.forced he with he | ⟨x, y, hrel, hrule⟩
    · refine (h.forced he).imp_right ?_
      rintro ⟨x, y, hrel, hrule⟩
      exact ⟨x, y, h'.frame.rel hrel, hrule⟩
    · exact .inr ⟨x, y, hrel, (edgeRule_maps h.frame.toSameMaps).mp hrule⟩

end BindsCalls

/-- The work list is bound from left to right. -/
theorem mergeFunctionCalls_of (hstep : ∀ {s : EquivClassContainer × WholeCG} {x c : String}, Ready K s →
      s.1.equivClasses.size < fuel → s.1.Meets x c →
      ∃ s', mergeFunctionCall fuel s (x, c) = .ok s' ∧ BindsCalls K [(x, c)] s s')
    (calls : FunctionCalls) (h : Ready K s) (hsize : s.1.equivClasses.size < fuel) (hmeet : ∀ e ∈ calls, s.1.Meets e.1 e.2) :
    ∃ s', calls.foldlM (mergeFunctionCall fuel) s = .ok s' ∧ BindsCalls K calls s s' := by
  induction calls generalizing s with
  | nil => exact ⟨s, rfl, .nil h⟩
  | cons e calls ih =>
    obtain ⟨s1, hrun1, hb1⟩ := hstep h hsize (hmeet e (List.mem_cons_self ..))
    obtain ⟨s2, hrun2, hb2⟩ := ih (h.step hb1.partition hb1.frame hb1.nodes) (hb1.size.trans_lt hsize) fun e' he' =>
      (hmeet e' (List.mem_cons_of_mem e he')).mono hb1.frame
    refine ⟨s2, ?_, hb1.append hb2⟩
    rw [List.foldlM_cons, hrun1]
    exact hrun2

/-- One call is bound, and what that makes meet is listed. -/
theorem bindsCall_of_unifies {x y c parent : String} {info pinfo : FunctionInfo} {ci : CallInfo} {data' : EquivClassContainer}
    {json' : WholeCG} {ret : FunctionCalls} (hcall : s.1.MayCall x y info c ci) (hrel : s.1.Rel x y)
    (hfun : ∀ {info'}, (∃ f, s.1.functionMap.find x = some f ∧ s.1.functionInfoMap.find f = some info') → info' = info)
    (hparent : s.1.callExprParentMap.find c = some parent) (hpinfo : s.1.functionInfoMap.find parent = some pinfo)
    (hu : Unifies K (bindings info ci c) s.1 data' ret) (hadds : AddsEdges pinfo.mangledNames info.mangledNames s.2 json')
    (hrest : BindsCalls K ret (data', json') s') : BindsCalls K [(x, c)] s s' where
  partition := hrest.partition
  frame := hu.frame.trans hrest.frame
  size := hrest.size.trans hu.size
  nodes := hrest.nodes.trans hadds.nodes
  edges he := hrest.edges (hadds.edges.mpr (.inl he))
  bound := by
    intro x' c' hmem
    cases List.mem_singleton.mp hmem
    have hnow : Bound (data', json') x c := by
      intro y' info' ci' hcall'
      rw [mayCall_maps hu.frame.toSameMaps] at hcall'
      cases hfun hcall'.1
      cases hcall.2.1.symm.trans hcall'.2.1
      refine ⟨hu.united, ?_⟩
      intro parent' pinfo' hparent' hpinfo' a ha b hb
      simp only [hu.frame.callExprParentMap, hu.frame.functionInfoMap] at hparent' hpinfo'
      cases hparent.symm.trans hparent'
      cases hpinfo.symm.trans hpinfo'
      exact hadds.edges.mpr (.inr ⟨ha, hb⟩)
    exact hnow.mono hrest.frame hrest.edges
  closed := by
    intro x' c' hmeet
    rcases hrest.closed hmeet with hmeet | hbound
    · exact (hu.reported.complete hmeet).imp_right hrest.bound
    · exact .inr hbound
  half hh := by
    have hunified := hu.reduces.half (hh.weaken fun a b hp => .of_pending (.inr hp))
    refine hrest.half (hunified.weaken fun a b hp => ?_)
    exact .of_pending (hp.resolve_left List.not_mem_nil)
  just := by
    intro r pre pending hr hb hj
    have hpending : Justified r pre s.1.table (fun a b => (a, b) ∈ bindings info ci c ∨ pending a b) :=
      hj.weaken fun a b hp => hp.elim (fun he => hb.imp (hj.rel hrel) ⟨info, c, ci, hcall, mem_bindings.mp he⟩) hj.pending
    have hunified := hu.reduces.just hr hpending
    exact hrest.just hr (hb.mono fun _ _ _ _ => (bindRule_maps hu.frame.toSameMaps).mp) (hunified.weaken fun a b hp => hj.pending hp)
  forced := by
    intro a b he
    rcases hrest.forced he with he | ⟨x', y', hrel', hrule⟩
    · refine (hadds.edges.mp he).imp_right fun hnew => ?_
      exact ⟨x, y, hrest.frame.rel (hu.frame.rel hrel), info, c, ci, parent, pinfo, hcall, hparent, hpinfo, hnew.1, hnew.2⟩
    · exact .inr ⟨x', y', hrel', (edgeRule_maps hu.frame.toSameMaps).mp hrule⟩

/-- Binding a call terminates: a call that makes something meet has united classes. -/
theorem mergeFunctionCall_binds (fuel : ℕ) {x c : String} (h : Ready K s) (hsize : s.1.equivClasses.size < fuel)
    (hmeet : s.1.Meets x c) : ∃ s', mergeFunctionCall fuel s (x, c) = .ok s' ∧ BindsCalls K [(x, c)] s s' := by
  induction fuel generalizing s x c with
  | zero => omega
  | succ fuel ih =>
    obtain ⟨y, info, ci, hrel, hcall⟩ := (meets_iff h.indexed h.resolvable).mp hmeet
    obtain ⟨⟨f, hf, hinfo⟩, hci, hy⟩ := hcall
    obtain ⟨parent, hparent⟩ := h.resolvable.parents hci
    obtain ⟨pinfo, hpinfo⟩ := h.resolvable.callers hparent
    obtain ⟨ret, data', hrun, hu⟩ := AliasAnalysis.EquivClassContainer.mergeFunctionCall_spec h.resolvable hf hinfo hci hparent
      h.partition h.known (Nat.le_of_lt_succ hsize)
    have hpinfo' : data'.functionInfoMap.find parent = some pinfo := by rw [hu.frame.functionInfoMap, hpinfo]
    have hinfo' : data'.functionInfoMap.find f = some info := by rw [hu.frame.functionInfoMap, hinfo]
    obtain ⟨json', hadd, hadds⟩ := addCallToCallGraph_spec hpinfo' hinfo' (h.nodes hci hparent hpinfo)
    have hready : Ready K (data', json') := h.step hu.partition hu.frame hadds.nodes
    have hloop : ∃ s', ret.foldlM (mergeFunctionCall fuel) (data', json') = .ok s' ∧ BindsCalls K ret (data', json') s' := by
      rcases hu.shrinks with rfl | hlt
      · exact ⟨_, rfl, .nil hready⟩
      · exact mergeFunctionCalls_of ih ret hready (hlt.trans_le (Nat.le_of_lt_succ hsize)) fun e he => hu.reported.sound he
    obtain ⟨s', hrest, hb⟩ := hloop
    refine ⟨s', ?_, bindsCall_of_unifies ⟨⟨f, hf, hinfo⟩, hci, hy⟩ hrel ?_ hparent hpinfo hu hadds hb⟩
    · obtain ⟨data, json⟩ := s
      rw [mergeFunctionCall, hrun, ok_bind]
      simp only
      rw [hadd, ok_bind]
      exact hrest
    · rintro info' ⟨f', hf', hinfo''⟩
      cases hf.symm.trans hf'
      exact Option.some.inj (hinfo''.symm.trans hinfo)

theorem mergeFunctionCalls_bind (calls : FunctionCalls) (h : Ready K s) (hsize : s.1.equivClasses.size < fuel)
    (hmeet : ∀ e ∈ calls, s.1.Meets e.1 e.2) :
    ∃ s', calls.foldlM (mergeFunctionCall fuel) s = .ok s' ∧ BindsCalls K calls s s' :=
  mergeFunctionCalls_of (mergeFunctionCall_binds fuel) calls h hsize hmeet

theorem mergeFunctionCall_mono {fuel' : ℕ} (hle : fuel ≤ fuel') {call : String × CallInfoConstIter}
    (h : mergeFunctionCall fuel s call = .ok s') : mergeFunctionCall fuel' s call = .ok s' := by
  induction fuel generalizing fuel' s s' call with
  | zero => cases h
  | succ fuel ih =>
    cases fuel' with
    | zero => omega
    | succ fuel' =>
      obtain ⟨data, json⟩ := s
      obtain ⟨x, c⟩ := call
      rw [mergeFunctionCall] at h ⊢
      obtain ⟨⟨ret, data'⟩, hrun, h⟩ := bind_eq_ok.mp h
      obtain ⟨json', hadd, h⟩ := bind_eq_ok.mp h
      rw [AliasAnalysis.EquivClassContainer.mergeFunctionCall_mono (Nat.le_of_succ_le_succ hle) hrun, ok_bind]
      simp only
      rw [hadd, ok_bind]
      exact foldlM_mono (ih (Nat.le_of_succ_le_succ hle)) h

end MetaCG.CGMerge
