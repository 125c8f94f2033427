import MetaCG.Tools.CGValidateOverrides

/-! What one edge of the profile does to the graph.

A graph is seen through the callees, parents and overridden functions of a name, which are empty for a name without
node, so that inserting a node changes none of them. `Effect` says which of an edge's two directions are patched. -/
namespace MetaCG.CGValidate
open Foundations
set_option autoImplicit false
set_option maxHeartbeats 250000
set_option maxRecDepth 120000

/-! ## Views -/

/-- A field of a function, with a default for a name that has no node. -/
def view {α : Type} (field : Node → α) (default : α) (cg : CG) (a : String) : α := ((cg.find a).map field).getD default

def calleesOf : CG → String → Finset String := view Node.callees ∅

def parentsOf : CG → String → Finset String := view Node.parents ∅

def overridesOf : CG → String → List String := view Node.overrides []

def hasBody : CG → String → Bool := view (fun n => n.hasBody.getD true) true

def Present (cg : CG) (a : String) : Prop := (cg.find a).isSome = true

section
variable {cg cg' : CG} {a b : String} {n : Node}

theorem view_of_find {α : Type} {field : Node → α} {d : α} (h : cg.find a = some n) : view field d cg a = field n := by
  rw [view, h]
  rfl

theorem view_insert {α : Type} (field : Node → α) (d : α) (a b : String) (n : Node) :
    view field d (cg.insert a n) b = if b = a then field n else view field d cg b := by
  rw [view, OMap.find_insert]
  split_ifs <;> rfl

theorem view_insert_same {α : Type} {field : Node → α} {d : α} {m : Node} (h : cg.find a = some m) (hf : field n = field m) :
    view field d (cg.insert a n) = view field d cg := by
  funext b
  rw [view_insert]
  split_ifs with hb
  · rw [hb, view_of_find h, hf]
  · rfl

theorem present_insert : Present (cg.insert a n) b ↔ b = a ∨ Present cg b := by
  rw [Present, Present, OMap.find_insert]
  split_ifs with hb
  · simp [hb]
  · simp [hb]

theorem present_of_find (h : cg.find a = some n) : Present cg a := Option.isSome_of_mem h

theorem Present.find (h : Present cg a) : ∃ n, cg.find a = some n := Option.isSome_iff_exists.mp h

theorem step_iff : Step cg a b ↔ b ∈ overridesOf cg a ∧ Present cg b := by
  constructor
  · rintro ⟨n, hn, hb, hpresent⟩
    refine ⟨?_, hpresent⟩
    rw [overridesOf, view_of_find hn]
    exact hb
  · rintro ⟨hb, hpresent⟩
    cases hn : cg.find a with
    | none =>
      rw [overridesOf, view, hn] at hb
      exact absurd hb List.not_mem_nil
    | some n =>
      rw [overridesOf, view_of_find hn] at hb
      exact ⟨n, hn, hb, hpresent⟩

/-! ## Growth -/

/-- A graph that a run has extended: nothing is taken away, and what a node overrides and whether it has a body
stays as it is. -/
structure Grown (cg cg' : CG) : Prop where
  present : ∀ a, Present cg a → Present cg' a
  callees : ∀ a, calleesOf cg a ⊆ calleesOf cg' a
  parents : ∀ a, parentsOf cg a ⊆ parentsOf cg' a
  overrides : overridesOf cg' = overridesOf cg
  hasBody : ∀ a, Present cg a → hasBody cg' a = hasBody cg a

theorem Grown.refl (cg : CG) : Grown cg cg := ⟨fun _ h => h, fun _ => le_rfl, fun _ => le_rfl, rfl, fun _ _ => rfl⟩

theorem Grown.trans {cg'' : CG} (h : Grown cg cg') (h' : Grown cg' cg'') : Grown cg cg'' where
  present := fun a ha => h'.present a (h.present a ha)
  callees := fun a => (h.callees a).trans (h'.callees a)
  parents := fun a => (h.parents a).trans (h'.parents a)
  overrides := h'.overrides.trans h.overrides
  hasBody := fun a ha => (h'.hasBody a (h.present a ha)).trans (h.hasBody a ha)

theorem Grown.step (h : Grown cg cg') (hab : Step cg a b) : Step cg' a b := by
  rw [step_iff] at hab ⊢
  rw [h.overrides]
  exact ⟨hab.1, h.present b hab.2⟩

theorem Grown.transGen (h : Grown cg cg') (hab : Relation.TransGen (Step cg) a b) : Relation.TransGen (Step cg') a b :=
  hab.lift id fun _ _ => h.step

/-- The override data have no cycle. -/
def Acyclic (cg : CG) : Prop := ∀ a, ¬Relation.TransGen (fun a b => b ∈ overridesOf cg a) a a

theorem Acyclic.grown (hcg : Acyclic cg) (h : Grown cg cg') : Acyclic cg' := by
  unfold Acyclic
  rw [h.overrides]
  exact hcg

/-- Without cycles the recursion returns from every function. -/
theorem Acyclic.returns (hcg : Acyclic cg) (baseFn : Node) : ReturnsOverridden cg baseFn :=
  (returnsOverridden_iff cg baseFn).mpr fun x _ hcycle => hcg x (hcycle.lift id fun _ _ h => (step_iff.mp h).1)

/-! ## Inserting nodes -/

/-- The graph after `getOrInsert`. -/
def withNode (opts : Options) (cg : CG) (a : String) : CG :=
  if (cg.find a).isSome then cg else if opts.insertNewNodes then insertDefaultNode cg a opts.version else cg

variable {opts : Options} {st st' : State}

theorem getOrInsert_callgraph (opts : Options) (st : State) (a : String) :
    (getOrInsert st a opts.insertNewNodes opts.version).2.callgraph = withNode opts st.callgraph a := by
  unfold getOrInsert withNode
  split_ifs <;> rfl

theorem getOrInsert_reports (opts : Options) (st : State) (a : String) :
    (getOrInsert st a opts.insertNewNodes opts.version).2.reports = st.reports ∧
      (getOrInsert st a opts.insertNewNodes opts.version).2.verified = st.verified := by
  unfold getOrInsert
  split_ifs <;> exact ⟨rfl, rfl⟩

theorem getOrInsert_of_present (h : Present st.callgraph a) :
    getOrInsert st a opts.insertNewNodes opts.version = (true, st) := by
  unfold getOrInsert
  exact if_pos h

theorem withNode_of_present (h : Present cg a) : withNode opts cg a = cg := if_pos h

theorem present_withNode : Present (withNode opts cg a) b ↔ Present cg b ∨ (b = a ∧ opts.insertNewNodes = true) := by
  unfold withNode
  split_ifs with ha hins
  · refine ⟨.inl, ?_⟩
    rintro (hb | ⟨rfl, -⟩)
    · exact hb
    · exact ha
  · rw [insertDefaultNode, present_insert, or_comm]
    simp [hins]
  · simp [hins]

theorem view_withNode {α : Type} {field : Node → α} {d : α}
    (hd : field ⟨∅, ∅, [], some false, if opts.version = 2 then some .empty else none⟩ = d) :
    view field d (withNode opts cg a) = view field d cg := by
  unfold withNode
  split_ifs with ha hins
  · rfl
  · funext b
    rw [insertDefaultNode, view_insert, hd]
    by_cases hb : b = a
    · rw [if_pos hb, hb, view, Option.not_isSome_iff_eq_none.mp ha]
      rfl
    · rw [if_neg hb]
  · rfl

theorem calleesOf_withNode : calleesOf (withNode opts cg a) = calleesOf cg := view_withNode rfl

theorem parentsOf_withNode : parentsOf (withNode opts cg a) = parentsOf cg := view_withNode rfl

theorem overridesOf_withNode : overridesOf (withNode opts cg a) = overridesOf cg := view_withNode rfl

theorem hasBody_withNode (hb : Present cg b) : hasBody (withNode opts cg a) b = hasBody cg b := by
  unfold withNode
  split_ifs with ha hins
  · rfl
  · have hne : b ≠ a := by
      rintro rfl
      exact ha hb
    rw [hasBody, insertDefaultNode, view_insert, if_neg hne]
  · rfl

theorem grown_withNode (opts : Options) (cg : CG) (a : String) : Grown cg (withNode opts cg a) where
  present := fun b hb => present_withNode.mpr (.inl hb)
  callees := fun b => by rw [calleesOf_withNode]
  parents := fun b => by rw [parentsOf_withNode]
  overrides := overridesOf_withNode
  hasBody := fun b hb => hasBody_withNode hb

/-- The graph in which an edge is compared. -/
def prepared (opts : Options) (cg : CG) (parentName nodeName : String) : CG :=
  withNode opts (withNode opts cg parentName) nodeName

theorem grown_prepared (opts : Options) (cg : CG) (p n : String) : Grown cg (prepared opts cg p n) :=
  (grown_withNode opts cg p).trans (grown_withNode opts _ n)

/-! ## Patching one direction -/

variable {cnodes : List Cnode} {p q : String}

/-- Both nodes are there, so the direction is patched unless the call count is zero. -/
theorem patchCallgraph_present (cnodes : List Cnode) (opts : Options) (st : State) (mode : Mode) (hn : st.callgraph.find a = some n) (hb : Present st.callgraph b) :
    (∃ n', n'.callees = (n.extend mode b).callees ∧ n'.parents = (n.extend mode b).parents ∧ n'.overrides = n.overrides ∧
        n'.hasBody = n.hasBody ∧ ∃ h, patchCallgraph cnodes st a b mode opts.insertNewNodes opts.version =
          .ok { st with hasCallCount := h, callgraph := st.callgraph.insert a n' }) ∨
      (mode = .callees ∧ callCount cnodes a b = 0 ∧
        patchCallgraph cnodes st a b mode opts.insertNewNodes opts.version = .error .callCount) := by
  unfold patchCallgraph
  rw [getOrInsert_of_present (present_of_find hn)]
  dsimp only
  rw [getOrInsert_of_present hb]
  dsimp only
  rw [hn]
  cases mode with
  | parents => exact .inl ⟨n.extend .parents b, rfl, rfl, rfl, rfl, _, rfl⟩
  | callees =>
    dsimp only [Node.extend]
    cases hcalls : n.calls with
    | none => exact .inl ⟨{ n with callees := insert b n.callees, calls := none }, rfl, rfl, rfl, rfl, _, rfl⟩
    | some calledFunctions =>
      dsimp only
      by_cases hzero : callCount cnodes a b = 0
      · exact .inr ⟨rfl, hzero, by simp [hzero]⟩
      · refine .inl ⟨{ n.extend .callees b with
          calls := some (calledFunctions.insert b {(callCount cnodes a b, "")}) }, rfl, rfl, rfl, rfl, true, ?_⟩
        simp [hzero, Node.extend]

/-! ## One edge -/

/-- The parents of `n` say what the profile says, as far as the loop checks. -/
def ParentAgrees (opts : Options) (cg : CG) (p n : String) : Prop :=
  p ∈ parentsOf cg n ∨ (opts.useNoBodyDetection = true ∧ hasBody cg n = false) ∨
    ∃ x, Relation.TransGen (Step cg) n x ∧ p ∈ parentsOf cg x

/-- The callees of `p` do so. -/
def CalleeAgrees (opts : Options) (cg : CG) (p n : String) : Prop :=
  n ∈ calleesOf cg p ∨ (opts.useNoBodyDetection = true ∧ hasBody cg p = false) ∨
    ∃ x, Relation.TransGen (Step cg) n x ∧ x ∈ calleesOf cg p

theorem ParentAgrees.grown (h : ParentAgrees opts cg p q) (hq : Present cg q) (hg : Grown cg cg') : ParentAgrees opts cg' p q := by
  rcases h with h | ⟨hb, hbody⟩ | ⟨x, hx, hp⟩
  · exact .inl (hg.parents q h)
  · exact .inr (.inl ⟨hb, (hg.hasBody q hq).trans hbody⟩)
  · exact .inr (.inr ⟨x, hg.transGen hx, hg.parents x hp⟩)

theorem CalleeAgrees.grown (h : CalleeAgrees opts cg p q) (hp : Present cg p) (hg : Grown cg cg') : CalleeAgrees opts cg' p q := by
  rcases h with h | ⟨hb, hbody⟩ | ⟨x, hx, hc⟩
  · exact .inl (hg.callees p h)
  · exact .inr (.inl ⟨hb, (hg.hasBody p hp).trans hbody⟩)
  · exact .inr (.inr ⟨x, hg.transGen hx, hg.callees p hc⟩)

/-- What comparing and patching the edge from `p` to `n` does: `C` says whether the callee is patched in and `P`
whether the parent is. -/
structure Effect (C P : Prop) (p n : String) (cg cg' : CG) : Prop where
  present : ∀ a, Present cg' a ↔ Present cg a
  callees : ∀ a b, b ∈ calleesOf cg' a ↔ b ∈ calleesOf cg a ∨ (C ∧ a = p ∧ b = n)
  parents : ∀ a b, b ∈ parentsOf cg' a ↔ b ∈ parentsOf cg a ∨ (P ∧ a = n ∧ b = p)
  overrides : overridesOf cg' = overridesOf cg
  hasBody : hasBody cg' = hasBody cg

theorem Effect.grown {C P : Prop} (h : Effect C P p q cg cg') : Grown cg cg' where
  present := fun a ha => (h.present a).mpr ha
  callees := fun a b hb => (h.callees a b).mpr (.inl hb)
  parents := fun a b hb => (h.parents a b).mpr (.inl hb)
  overrides := h.overrides
  hasBody := fun a _ => congrFun h.hasBody a

theorem Effect.none {C P : Prop} (hC : ¬C) (hP : ¬P) (cg : CG) : Effect C P p q cg cg :=
  ⟨fun _ => Iff.rfl, fun _ _ => by simp [hC], fun _ _ => by simp [hP], rfl, rfl⟩

theorem Effect.trans {C C' P P' : Prop} {cg'' : CG} (h : Effect C P p q cg cg') (h' : Effect C' P' p q cg' cg'') :
    Effect (C ∨ C') (P ∨ P') p q cg cg'' where
  present := fun a => (h'.present a).trans (h.present a)
  callees := fun a b => by rw [h'.callees, h.callees, or_and_right, or_assoc]
  parents := fun a b => by rw [h'.parents, h.parents, or_and_right, or_assoc]
  overrides := h'.overrides.trans h.overrides
  hasBody := h'.hasBody.trans h.hasBody

theorem Effect.congr {C C' P P' : Prop} (h : Effect C P p q cg cg') (hC : C ↔ C') (hP : P ↔ P') : Effect C' P' p q cg cg' := by
  rw [← propext hC, ← propext hP]
  exact h

/-- A node with one more callee. -/
theorem effect_callee (hn : cg.find p = some n) {n' : Node} (hc : n'.callees = insert q n.callees) (hp : n'.parents = n.parents)
    (ho : n'.overrides = n.overrides) (hb : n'.hasBody = n.hasBody) : Effect True False p q cg (cg.insert p n') where
  present := fun a => by
    rw [present_insert, or_iff_right_of_imp]
    rintro rfl
    exact present_of_find hn
  callees := fun a b => by
    rw [calleesOf, view_insert]
    split_ifs with ha
    · rw [hc, Finset.mem_insert, ha, view_of_find hn, or_comm]
      simp
    · simp [ha]
  parents := fun a b => by
    rw [parentsOf, view_insert_same hn hp]
    simp
  overrides := view_insert_same hn ho
  hasBody := view_insert_same hn (by rw [hb])

/-- A node with one more parent. -/
theorem effect_parent (hn : cg.find q = some n) {n' : Node} (hc : n'.callees = n.callees) (hp : n'.parents = insert p n.parents)
    (ho : n'.overrides = n.overrides) (hb : n'.hasBody = n.hasBody) : Effect False True p q cg (cg.insert q n') where
  present := fun a => by
    rw [present_insert, or_iff_right_of_imp]
    rintro rfl
    exact present_of_find hn
  callees := fun a b => by
    rw [calleesOf, view_insert_same hn hc]
    simp
  parents := fun a b => by
    rw [parentsOf, view_insert]
    split_ifs with ha
    · rw [hp, Finset.mem_insert, ha, view_of_find hn, or_comm]
      simp
    · simp [ha]
  overrides := view_insert_same hn ho
  hasBody := view_insert_same hn (by rw [hb])

/-! ### The two reports -/

theorem reportParent_effect (cnodes : List Cnode) (opts : Options) (missing : Bool) (hp : Present st.callgraph p) (hq : Present st.callgraph q) :
    ∃ st', reportParent cnodes opts st p q missing = .ok st' ∧
      Effect False (opts.patch = true ∧ missing = true) p q st.callgraph st'.callgraph ∧ (missing = false → st' = st) := by
  obtain ⟨n, hn⟩ := hq.find
  cases missing with
  | false => exact ⟨st, rfl, Effect.none id (by simp) _, fun _ => rfl⟩
  | true =>
    unfold reportParent
    rw [if_pos rfl]
    dsimp only
    split_ifs with hpatch
    · obtain ⟨n', hc, hpar, ho, hb, h, hok⟩ | ⟨hmode, -⟩ := patchCallgraph_present cnodes opts
          { st with verified := false, reports := st.reports ++ [.parent q p] } .parents hn hp
      · refine ⟨_, hok, (effect_parent hn hc hpar ho hb).congr Iff.rfl ?_, by simp⟩
        simp [hpatch]
      · cases hmode
    · exact ⟨_, rfl, Effect.none id (by simp [hpatch]) _, by simp⟩

theorem reportCallee_effect (cnodes : List Cnode) (opts : Options) (missing : Bool) (hp : Present st.callgraph p) (hq : Present st.callgraph q) :
    (∃ st', reportCallee cnodes opts st p q missing = .ok st' ∧
        Effect (opts.patch = true ∧ (missing = true ∨ opts.useCubeCallCounts = true)) False p q st.callgraph st'.callgraph ∧
        (missing = false → opts.useCubeCallCounts = false → st' = st)) ∨
      (callCount cnodes p q = 0 ∧ reportCallee cnodes opts st p q missing = .error .callCount) := by
  obtain ⟨n, hn⟩ := hp.find
  unfold reportCallee
  by_cases hany : (missing || opts.useCubeCallCounts) = true
  · have hquiet : missing = false → opts.useCubeCallCounts = false → False := by
      rintro rfl hcube
      rw [hcube] at hany
      cases hany
    rw [if_pos hany]
    dsimp only
    by_cases hpatch : opts.patch = true
    · rw [if_pos hpatch]
      obtain ⟨n', hc, hpar, ho, hb, h, hok⟩ | ⟨-, hzero, herr⟩ := patchCallgraph_present cnodes opts { st with
          verified := false
          reports := if missing then st.reports ++ [.callee p q] else st.reports } .callees hn hq
      · refine .inl ⟨_, hok, (effect_callee hn hc hpar ho hb).congr ?_ Iff.rfl, fun hm hcube => (hquiet hm hcube).elim⟩
        rw [Bool.or_eq_true] at hany
        simp [hpatch, hany]
      · exact .inr ⟨hzero, herr⟩
    · rw [if_neg hpatch]
      exact .inl ⟨_, rfl, Effect.none (fun h => hpatch h.1) id _, fun hm hcube => (hquiet hm hcube).elim⟩
  · rw [if_neg hany]
    rw [Bool.or_eq_true] at hany
    exact .inl ⟨st, rfl, Effect.none (fun h => hany h.2) id _, fun _ _ => rfl⟩

/-! ### The comparison -/

section
variable {c : Compared}

theorem missesParent_iff (opts : Options) (p : String) (hnode : cg.find q = some c.node) (hov : ∀ x, x ∈ c.overriddenFunctions ↔ Overridden cg c.node x) :
    c.missesParent cg opts p = true ↔ ¬ParentAgrees opts cg p q := by
  have hthrough : c.overriddenFunctionParentFound cg p = true ↔
      ∃ x, Relation.TransGen (Step cg) q x ∧ p ∈ parentsOf cg x := by
    rw [Compared.overriddenFunctionParentFound, decide_eq_true_iff]
    refine exists_congr fun x => and_congr ((hov x).trans (overridden_iff hnode)) Iff.rfl
  have hfound : c.parentFound opts p = true ↔
      p ∈ parentsOf cg q ∨ (opts.useNoBodyDetection = true ∧ hasBody cg q = false) := by
    rw [Compared.parentFound, Bool.or_eq_true, decide_eq_true_iff, Bool.and_eq_true, Bool.not_eq_true', parentsOf, hasBody,
      view_of_find hnode, view_of_find hnode]
  rw [Compared.missesParent, Bool.and_eq_true, Bool.not_eq_true', Bool.not_eq_true', ← Bool.not_eq_true, ← Bool.not_eq_true,
    hthrough, hfound, ParentAgrees, ← not_or, or_assoc]

theorem missesCallee_iff (opts : Options) (hcallees : c.parent.callees = calleesOf cg p) (hbody : c.parent.hasBody.getD true = hasBody cg p)
    (hnode : cg.find q = some c.node) (hov : ∀ x, x ∈ c.overriddenFunctions ↔ Overridden cg c.node x) :
    c.missesCallee opts q = true ↔ ¬CalleeAgrees opts cg p q := by
  have hthrough : c.overriddenFunctionCalleeFound = true ↔
      ∃ x, Relation.TransGen (Step cg) q x ∧ x ∈ calleesOf cg p := by
    rw [Compared.overriddenFunctionCalleeFound, decide_eq_true_iff, hcallees]
    exact exists_congr fun x => and_congr ((hov x).trans (overridden_iff hnode)) Iff.rfl
  have hfound : c.calleeFound opts q = true ↔
      q ∈ calleesOf cg p ∨ (opts.useNoBodyDetection = true ∧ hasBody cg p = false) := by
    rw [Compared.calleeFound, Bool.or_eq_true, decide_eq_true_iff, Bool.and_eq_true, Bool.not_eq_true', hcallees, hbody]
  rw [Compared.missesCallee, Bool.and_eq_true, Bool.not_eq_true', Bool.not_eq_true', ← Bool.not_eq_true, ← Bool.not_eq_true,
    hthrough, hfound, CalleeAgrees, ← not_or, or_assoc]

end

/-! ### The edge as a whole -/

/-- The callee of the edge from `p` to `q` is patched in. -/
def PatchesCallee (opts : Options) (cg : CG) (p q : String) : Prop :=
  opts.patch = true ∧ (Present cg p ∧ Present cg q) ∧ (¬CalleeAgrees opts cg p q ∨ opts.useCubeCallCounts = true)

def PatchesParent (opts : Options) (cg : CG) (p q : String) : Prop :=
  opts.patch = true ∧ (Present cg p ∧ Present cg q) ∧ ¬ParentAgrees opts cg p q

/-- No error has been reported. -/
def SameReports (st st' : State) : Prop := st'.reports = st.reports ∧ st'.verified = st.verified

/-- The outcome of an edge: both directions are compared in `prepared`. -/
structure Checked (opts : Options) (p q : String) (st st' : State) : Prop where
  effect : Effect (PatchesCallee opts (prepared opts st.callgraph p q) p q) (PatchesParent opts (prepared opts st.callgraph p q) p q)
    p q (prepared opts st.callgraph p q) st'.callgraph
  quiet : ParentAgrees opts (prepared opts st.callgraph p q) p q → CalleeAgrees opts (prepared opts st.callgraph p q) p q →
    opts.useCubeCallCounts = false → SameReports st st' ∧ st'.callgraph = prepared opts st.callgraph p q

theorem SameReports.trans {st'' : State} (h : SameReports st st') (h' : SameReports st' st'') : SameReports st st'' :=
  ⟨h'.1.trans h.1, h'.2.trans h.2⟩

/-- The two reports on nodes that are there. -/
theorem reportEdge_checked (cnodes : List Cnode) (opts : Options) {c : Compared} (hp : Present st.callgraph p) (hcallees : c.parent.callees = calleesOf st.callgraph p)
    (hbody : c.parent.hasBody.getD true = hasBody st.callgraph p) (hnode : st.callgraph.find q = some c.node)
    (hov : ∀ x, x ∈ c.overriddenFunctions ↔ Overridden st.callgraph c.node x) :
    (∃ st', reportEdge cnodes opts st p q c = .ok st' ∧
        Effect (PatchesCallee opts st.callgraph p q) (PatchesParent opts st.callgraph p q) p q st.callgraph st'.callgraph ∧
        (ParentAgrees opts st.callgraph p q → CalleeAgrees opts st.callgraph p q → opts.useCubeCallCounts = false →
          st' = st)) ∨
      (callCount cnodes p q = 0 ∧ reportEdge cnodes opts st p q c = .error .callCount) := by
  have hq := present_of_find hnode
  have hpar := missesParent_iff opts p hnode hov
  have hcal := missesCallee_iff opts hcallees hbody hnode hov
  obtain ⟨st₁, hok₁, heff₁, hquiet₁⟩ := reportParent_effect cnodes opts (c.missesParent st.callgraph opts p) hp hq
  unfold reportEdge
  rw [hok₁]
  obtain ⟨st₂, hok₂, heff₂, hquiet₂⟩ | ⟨hzero, herr⟩ := reportCallee_effect cnodes opts
    (c.missesCallee opts q) ((heff₁.present p).mpr hp) ((heff₁.present q).mpr hq)
  · refine .inl ⟨st₂, hok₂, (heff₁.trans heff₂).congr ?_ ?_, fun hagree hagree' hcube => ?_⟩
    · rw [false_or, hcal, PatchesCallee]
      simp [hp, hq]
    · rw [or_false, hpar, PatchesParent]
      simp [hp, hq]
    · have hno : c.missesParent st.callgraph opts p = false := Bool.eq_false_iff.mpr fun h => hpar.mp h hagree
      have hno' : c.missesCallee opts q = false := Bool.eq_false_iff.mpr fun h => hcal.mp h hagree'
      exact (hquiet₂ hno' hcube).trans (hquiet₁ hno)
  · exact .inr ⟨hzero, herr⟩

theorem withNode_of_not_insert (h : opts.insertNewNodes = false) : withNode opts cg a = cg := by
  unfold withNode
  split_ifs with ha hins
  · rfl
  · rw [h] at hins
    cases hins
  · rfl

/-- Either a node is missing and nothing is compared, or the copies of both nodes are compared. -/
theorem checkEdge_cases (cnodes : List Cnode) (opts : Options) (st : State) (p q : String) :
    (¬(Present (prepared opts st.callgraph p q) p ∧ Present (prepared opts st.callgraph p q) q) ∧
      ∃ st', (∀ fuel, checkEdge fuel cnodes opts st p q = .ok st') ∧ st'.callgraph = prepared opts st.callgraph p q ∧
        SameReports st st') ∨
    ∃ st₂ parent node, st₂.callgraph = prepared opts st.callgraph p q ∧ SameReports st st₂ ∧ Present st₂.callgraph p ∧
      parent.callees = calleesOf st₂.callgraph p ∧ parent.hasBody.getD true = hasBody st₂.callgraph p ∧
      st₂.callgraph.find q = some node ∧ ∀ fuel,
        (getAllOverriddenFunctions st₂.callgraph fuel node = none → checkEdge fuel cnodes opts st p q = .error .recursion) ∧
        ∀ ov, getAllOverriddenFunctions st₂.callgraph fuel node = some ov →
          checkEdge fuel cnodes opts st p q = reportEdge cnodes opts st₂ p q ⟨parent, node, ov⟩ := by
  have hgraph := getOrInsert_callgraph opts { st with edgesChecked := insert (p, q) st.edgesChecked } p
  have hsame := getOrInsert_reports opts { st with edgesChecked := insert (p, q) st.edgesChecked } p
  unfold checkEdge
  dsimp only
  generalize (getOrInsert { st with edgesChecked := insert (p, q) st.edgesChecked } p opts.insertNewNodes opts.version).2 = st₁
    at hgraph hsame ⊢
  change st₁.callgraph = withNode opts st.callgraph p at hgraph
  cases hp : st₁.callgraph.find p with
  | none =>
    have habsent : ¬Present (withNode opts st.callgraph p) p := by
      rw [← hgraph, Present, hp]
      exact Bool.false_ne_true
    have hins : opts.insertNewNodes = false := by
      by_contra hins
      exact habsent (present_withNode.mpr (.inr ⟨rfl, Bool.eq_true_of_not_eq_false hins⟩))
    have hprepared : prepared opts st.callgraph p q = withNode opts st.callgraph p := withNode_of_not_insert hins
    rw [hprepared]
    exact .inl ⟨fun h => habsent h.1, st₁, fun _ => rfl, hgraph, hsame⟩
  | some parent =>
    have hgraph₂ := getOrInsert_callgraph opts st₁ q
    have hsame₂ := getOrInsert_reports opts st₁ q
    dsimp only
    generalize (getOrInsert st₁ q opts.insertNewNodes opts.version).2 = st₂ at hgraph₂ hsame₂ ⊢
    have hprepared : st₂.callgraph = prepared opts st.callgraph p q := by
      rw [hgraph₂, hgraph]
      rfl
    cases hq : st₂.callgraph.find q with
    | none =>
      refine .inl ⟨fun h => ?_, st₂, fun _ => rfl, hprepared, SameReports.trans hsame hsame₂⟩
      have hpresent := h.2
      rw [← hprepared, Present, hq] at hpresent
      cases hpresent
    | some node =>
      have hpresent : Present st₁.callgraph p := present_of_find hp
      refine .inr ⟨st₂, parent, node, hprepared, SameReports.trans hsame hsame₂, ?_, ?_, ?_, hq, fun fuel => ⟨fun hov => ?_, fun ov hov => ?_⟩⟩
      · rw [hgraph₂]
        exact (grown_withNode ..).present p hpresent
      · rw [hgraph₂, calleesOf_withNode, calleesOf, view_of_find hp]
      · rw [hgraph₂, hasBody_withNode hpresent, hasBody, view_of_find hp]
      · dsimp only
        rw [hov]
      · dsimp only
        rw [hov]

/-- An edge on which the loop goes on. -/
theorem checkEdge_checked {fuel : ℕ} (h : checkEdge fuel cnodes opts st p q = .ok st') : Checked opts p q st st' := by
  obtain ⟨habsent, st₁, hok, hgraph, hsame⟩ | ⟨st₂, parent, node, hgraph, hsame, hp, hcallees, hbody, hnode, hrun⟩ :=
    checkEdge_cases cnodes opts st p q
  · rw [hok] at h
    cases h
    rw [← hgraph] at habsent
    refine ⟨?_, fun _ _ _ => ⟨hsame, hgraph⟩⟩
    rw [← hgraph]
    exact Effect.none (fun hc => habsent hc.2.1) (fun hc => habsent hc.2.1) _
  · cases hov : getAllOverriddenFunctions st₂.callgraph fuel node with
    | none =>
      rw [(hrun fuel).1 hov] at h
      cases h
    | some ov =>
      rw [(hrun fuel).2 ov hov] at h
      obtain ⟨st₃, hok, heff, hquiet⟩ | ⟨-, herr⟩ := reportEdge_checked cnodes opts
        (c := ⟨parent, node, ov⟩) hp hcallees hbody hnode (mem_getAllOverriddenFunctions hov)
      · rw [h] at hok
        cases hok
        rw [hgraph] at heff hquiet
        refine ⟨heff, fun hpa hca hcube => ?_⟩
        rw [hquiet hpa hca hcube]
        exact ⟨hsame, hgraph⟩
      · rw [herr] at h
        cases h

/-- Without cycles and with calls in the profile the loop goes on. -/
theorem checkEdge_settles (opts : Options) (hacyclic : Acyclic st.callgraph) (hcount : callCount cnodes p q ≠ 0) :
    ∃ st', Settles (fun fuel => checkEdge fuel cnodes opts st p q) (.ok st') ∧ Checked opts p q st st' := by
  have hsettles : ∃ st', Settles (fun fuel => checkEdge fuel cnodes opts st p q) (.ok st') := by
    obtain ⟨-, st₁, hok, -⟩ | ⟨st₂, parent, node, hgraph, -, hp, hcallees, hbody, hnode, hrun⟩ :=
      checkEdge_cases cnodes opts st p q
    · exact ⟨st₁, 0, fun fuel _ => hok fuel⟩
    · have hcg : Acyclic st₂.callgraph := hgraph ▸ hacyclic.grown (grown_prepared opts st.callgraph p q)
      obtain ⟨ov, ⟨bound, hbound⟩, hov⟩ := hcg.returns node
      obtain ⟨st₃, hok, -⟩ | ⟨hzero, -⟩ := reportEdge_checked cnodes opts (c := ⟨parent, node, ov⟩)
        hp hcallees hbody hnode hov
      · exact ⟨st₃, bound, fun fuel hfuel => ((hrun fuel).2 ov (hbound fuel hfuel)).trans hok⟩
      · exact absurd hzero hcount
  obtain ⟨st', bound, hbound⟩ := hsettles
  exact ⟨st', ⟨bound, hbound⟩, checkEdge_checked (hbound bound le_rfl)⟩

end
end MetaCG.CGValidate
