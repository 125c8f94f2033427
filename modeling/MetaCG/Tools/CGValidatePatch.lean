import Mathlib.Algebra.Order.Ring.Rat
import MetaCG.Foundations.Outcome
import MetaCG.Tools.CGValidateEdges

/-! What patching makes of a graph.

A patched graph validates: every edge that has been compared stays settled while the graph grows. The two directions
of an edge are patched under conditions of their own, and a pair on which they differ stays apart. -/
namespace MetaCG.CGValidate
open Foundations
set_option autoImplicit false
set_option maxHeartbeats 250000
set_option maxRecDepth 120000

/-! ## A second pass -/

/-- The edge of a call path node needs no patch. -/
def Settled (opts : Options) (cg : CG) (c : Cnode) : Prop :=
  ∀ p, c.parent = some p → isMain c.callee = false →
    Present cg p ∧ Present cg c.callee ∧ ParentAgrees opts cg p c.callee ∧ CalleeAgrees opts cg p c.callee

section
variable {opts : Options} {cg cg' : CG} {c : Cnode} {cnodes : List Cnode} {st st' : State} {p q : String}

theorem Settled.grown (h : Settled opts cg c) (hg : Grown cg cg') : Settled opts cg' c := by
  intro p hp hmain
  obtain ⟨hpp, hpc, hpar, hcal⟩ := h p hp hmain
  exact ⟨hg.present p hpp, hg.present c.callee hpc, hpar.grown hpc hg, hcal.grown hpp hg⟩

theorem Checked.grown (h : Checked opts p q st st') : Grown st.callgraph st'.callgraph :=
  (grown_prepared opts st.callgraph p q).trans h.effect.grown

/-- With patching and inserting an edge is settled once it has been compared. -/
theorem Checked.agrees (h : Checked opts p q st st') (hpatch : opts.patch = true) (hins : opts.insertNewNodes = true) :
    Present st'.callgraph p ∧ Present st'.callgraph q ∧ ParentAgrees opts st'.callgraph p q ∧
      CalleeAgrees opts st'.callgraph p q := by
  have hp : Present (prepared opts st.callgraph p q) p := present_withNode.mpr (.inl (present_withNode.mpr (.inr ⟨rfl, hins⟩)))
  have hq : Present (prepared opts st.callgraph p q) q := present_withNode.mpr (.inr ⟨rfl, hins⟩)
  have hg := h.effect.grown
  refine ⟨hg.present p hp, hg.present q hq, ?_, ?_⟩
  · by_cases hpar : ParentAgrees opts (prepared opts st.callgraph p q) p q
    · exact hpar.grown hq hg
    · exact .inl ((h.effect.parents q p).mpr (.inr ⟨⟨hpatch, ⟨hp, hq⟩, hpar⟩, rfl, rfl⟩))
  · by_cases hcal : CalleeAgrees opts (prepared opts st.callgraph p q) p q
    · exact hcal.grown hp hg
    · exact .inl ((h.effect.callees p q).mpr (.inr ⟨⟨hpatch, ⟨hp, hq⟩, .inl hcal⟩, rfl, rfl⟩))

/-- Nothing happens on a settled edge. -/
theorem Checked.of_settled (h : Checked opts p q st st') (hp : Present st.callgraph p) (hq : Present st.callgraph q)
    (hpar : ParentAgrees opts st.callgraph p q) (hcal : CalleeAgrees opts st.callgraph p q)
    (hcube : opts.useCubeCallCounts = false) : SameReports st st' ∧ st'.callgraph = st.callgraph := by
  have hsame : prepared opts st.callgraph p q = st.callgraph := by
    rw [prepared, withNode_of_present hp, withNode_of_present hq]
  have hquiet := h.quiet
  rw [hsame] at hquiet
  exact hquiet hpar hcal hcube

/-- A pair of the profile has been visited. -/
theorem callCount_ne_zero (hvisits : ∀ c ∈ cnodes, c.parent.isSome = true → 0 < c.visits) (hc : c ∈ cnodes)
    (hp : c.parent = some p) : callCount cnodes p c.callee ≠ 0 := by
  have hpos : 0 < callCounts cnodes p c.callee := by
    refine List.sum_pos ((cnodes.filter fun d => d.parent = some p ∧ d.callee = c.callee).map Cnode.visits) (fun x hx => ?_) ?_
    · obtain ⟨d, hd, rfl⟩ := List.mem_map.mp hx
      obtain ⟨hmem, hparent⟩ := List.mem_filter.mp hd
      exact hvisits d hmem (by rw [(of_decide_eq_true hparent).1]; rfl)
    · intro hnil
      have hmem : c ∈ cnodes.filter fun d => d.parent = some p ∧ d.callee = c.callee :=
        List.mem_filter.mpr ⟨hc, decide_eq_true ⟨hp, rfl⟩⟩
      rw [List.map_eq_nil_iff.mp hnil] at hmem
      exact List.not_mem_nil hmem
  unfold callCount
  split_ifs with hzero
  · exact WithTop.top_ne_zero
  · exact_mod_cast div_ne_zero hpos.ne' hzero

/-- One round of the first pass. -/
theorem checkCnode_settles (hpatch : opts.patch = true) (hins : opts.insertNewNodes = true)
    (hvisits : ∀ c ∈ cnodes, c.parent.isSome = true → 0 < c.visits) (hc : c ∈ cnodes) (hacyclic : Acyclic st.callgraph) :
    ∃ st', Settles (fun fuel => checkCnode fuel cnodes opts st c) (.ok st') ∧ Grown st.callgraph st'.callgraph ∧
      Settled opts st'.callgraph c := by
  unfold checkCnode
  cases hp : c.parent with
  | none =>
    refine ⟨st, .const _, .refl _, fun p hcontra => ?_⟩
    rw [hp] at hcontra
    cases hcontra
  | some p =>
    dsimp only
    split_ifs with hmain
    · refine ⟨st, .const _, .refl _, fun _ _ hnot => ?_⟩
      rw [hmain] at hnot
      cases hnot
    · obtain ⟨st', hrun, hchecked⟩ := checkEdge_settles opts hacyclic (callCount_ne_zero hvisits hc hp)
      refine ⟨st', hrun, hchecked.grown, fun p' hp' _ => ?_⟩
      rw [hp] at hp'
      cases hp'
      exact hchecked.agrees hpatch hins

/-- One round of the second pass. -/
theorem checkCnode_of_settled (hcube : opts.useCubeCallCounts = false)
    (hvisits : ∀ c ∈ cnodes, c.parent.isSome = true → 0 < c.visits) (hc : c ∈ cnodes) (hacyclic : Acyclic st.callgraph)
    (hsettled : Settled opts st.callgraph c) :
    ∃ st', Settles (fun fuel => checkCnode fuel cnodes opts st c) (.ok st') ∧ SameReports st st' ∧
      st'.callgraph = st.callgraph := by
  unfold checkCnode
  cases hp : c.parent with
  | none => exact ⟨st, .const _, ⟨rfl, rfl⟩, rfl⟩
  | some p =>
    dsimp only
    split_ifs with hmain
    · exact ⟨st, .const _, ⟨rfl, rfl⟩, rfl⟩
    · obtain ⟨hpp, hpc, hpar, hcal⟩ := hsettled p hp (Bool.eq_false_iff.mpr hmain)
      obtain ⟨st', hrun, hchecked⟩ := checkEdge_settles opts hacyclic (callCount_ne_zero hvisits hc hp)
      exact ⟨st', hrun, hchecked.of_settled hpp hpc hpar hcal hcube⟩

theorem firstPass (opts : Options) (hpatch : opts.patch = true) (hins : opts.insertNewNodes = true)
    (hvisits : ∀ c ∈ cnodes, c.parent.isSome = true → 0 < c.visits) (hacyclic : Acyclic cg) :
    ∃ st, Settles (fun fuel => checkEdges fuel cnodes opts cg) (.ok st) ∧ Grown cg st.callgraph ∧
      ∀ c ∈ cnodes, Settled opts st.callgraph c := by
  refine settles_foldlM (J := fun pre (st : State) => Grown cg st.callgraph ∧ ∀ c ∈ pre, Settled opts st.callgraph c)
    ⟨.refl cg, fun c hc => absurd hc List.not_mem_nil⟩ fun pre c st hpre hst => ?_
  have hc : c ∈ cnodes := hpre.subset (List.mem_append_right _ (List.mem_singleton_self c))
  obtain ⟨st', hrun, hg, hsettled⟩ := checkCnode_settles hpatch hins hvisits hc (hacyclic.grown hst.1)
  refine ⟨st', hrun, hst.1.trans hg, fun d hd => ?_⟩
  rcases List.mem_append.mp hd with hd | hd
  · exact (hst.2 d hd).grown hg
  · rw [List.mem_singleton.mp hd]
    exact hsettled

theorem secondPass (hcube : opts.useCubeCallCounts = false)
    (hvisits : ∀ c ∈ cnodes, c.parent.isSome = true → 0 < c.visits) (hacyclic : Acyclic cg)
    (hsettled : ∀ c ∈ cnodes, Settled opts cg c) :
    ∃ st, Settles (fun fuel => checkEdges fuel cnodes opts cg) (.ok st) ∧ SameReports (.initial cg) st ∧ st.callgraph = cg := by
  refine settles_foldlM (J := fun _ (st : State) => SameReports (.initial cg) st ∧ st.callgraph = cg) ⟨⟨rfl, rfl⟩, rfl⟩
    fun pre c st hpre hst => ?_
  have hc : c ∈ cnodes := hpre.subset (List.mem_append_right _ (List.mem_singleton_self c))
  obtain ⟨st', hrun, hsame, hgraph⟩ := checkCnode_of_settled hcube hvisits hc (hst.2 ▸ hacyclic)
    (hst.2 ▸ hsettled c hc)
  exact ⟨st', hrun, hst.1.trans hsame, hgraph.trans hst.2⟩

end

/-- The first run settles every edge of the profile, so a patched graph validates, and nothing that it had is taken away. -/
theorem checkEdges_patched (useNoBodyDetection : Bool) (version : ℕ) (cnodes : List Cnode) (cg : CG) (hacyclic : Acyclic cg)
    (hvisits : ∀ c ∈ cnodes, c.parent.isSome = true → 0 < c.visits) :
    ∃ st st', Settles (fun fuel => checkEdges fuel cnodes ⟨true, true, useNoBodyDetection, false, version⟩ cg) (.ok st) ∧
      (∀ c ∈ cnodes, Settled ⟨true, true, useNoBodyDetection, false, version⟩ st.callgraph c) ∧
      Settles (fun fuel => checkEdges fuel cnodes ⟨true, true, useNoBodyDetection, false, version⟩
        (patched ⟨true, true, useNoBodyDetection, false, version⟩ st)) (.ok st') ∧
      st'.reports = [] ∧ st'.verified = true ∧ st'.callgraph = st.callgraph ∧
      ∀ a, calleesOf cg a ⊆ calleesOf st.callgraph a ∧ parentsOf cg a ⊆ parentsOf st.callgraph a ∧
        overridesOf st.callgraph a = overridesOf cg a := by
  obtain ⟨st, hrun, hg, hsettled⟩ := firstPass ⟨true, true, useNoBodyDetection, false, version⟩ rfl rfl hvisits hacyclic
  obtain ⟨st', hrun', hsame, hgraph⟩ := secondPass rfl hvisits (hacyclic.grown hg) hsettled
  exact ⟨st, st', hrun, hsettled, hrun', hsame.1, hsame.2, hgraph, fun a => ⟨hg.callees a, hg.parents a, congrFun hg.overrides a⟩⟩

theorem acyclic_of_no_overrides {cg : CG} (h : ∀ a, overridesOf cg a = []) : Acyclic cg := by
  intro a hcycle
  obtain ⟨b, hb, -⟩ := Relation.TransGen.head'_iff.mp hcycle
  rw [h] at hb
  exact absurd hb List.not_mem_nil

/-- Functions without edges: `main` has a body and `f` has none. -/
def bareNode (body : Bool) : Node := ⟨∅, ∅, [], some body, none⟩

def bareGraph : CG := (OMap.empty.insert "main" (bareNode true)).insert "f" (bareNode false)

/-- `main` calls `f`. -/
def mainCalls : List Cnode := [⟨"main", none, 1⟩, ⟨"f", some "main", 1⟩]

theorem view_bareGraph {α : Type} {field : Node → α} {d : α} (h : ∀ body, field (bareNode body) = d) (a : String) :
    view field d bareGraph a = d := by
  rw [bareGraph, view_insert, view_insert, h, h]
  split_ifs <;> rfl

theorem acyclic_bareGraph : Acyclic bareGraph := acyclic_of_no_overrides (view_bareGraph fun _ => rfl)

theorem checkEdges_patched_mainCalls :
    ∃ st st', Settles (fun fuel => checkEdges fuel mainCalls ⟨true, true, false, false, 2⟩ bareGraph) (.ok st) ∧
      (∀ c ∈ mainCalls, Settled ⟨true, true, false, false, 2⟩ st.callgraph c) ∧
      Settles (fun fuel => checkEdges fuel mainCalls ⟨true, true, false, false, 2⟩
        (patched ⟨true, true, false, false, 2⟩ st)) (.ok st') ∧
      st'.reports = [] ∧ st'.verified = true ∧ st'.callgraph = st.callgraph ∧
      ∀ a, calleesOf bareGraph a ⊆ calleesOf st.callgraph a ∧ parentsOf bareGraph a ⊆ parentsOf st.callgraph a ∧
        overridesOf st.callgraph a = overridesOf bareGraph a :=
  checkEdges_patched false 2 mainCalls bareGraph acyclic_bareGraph (by decide)

/-! ## Both directions of an edge -/

/-- Parents are the inverse of callees. -/
def Inverse (cg : CG) : Prop := ∀ a b, b ∈ calleesOf cg a ↔ a ∈ parentsOf cg b

/-- The callee overrides a function that the parent calls. -/
def CallsOverridden (cg : CG) (p q : String) : Prop := ∃ x, Relation.TransGen (Step cg) q x ∧ x ∈ calleesOf cg p

/-- The exemptions of the two directions coincide. -/
def Coincide (opts : Options) (cg : CG) (p q : String) : Prop :=
  q ∈ calleesOf cg p ∨ (CallsOverridden cg p q ∧ opts.useCubeCallCounts = false) ∨
    (¬CallsOverridden cg p q ∧
      (opts.useNoBodyDetection = false ∨ hasBody cg q = (hasBody cg p || opts.useCubeCallCounts)))

section
variable {opts : Options} {cg cg' : CG} {c : Cnode} {cnodes : List Cnode} {st st' : State} {p q : String}

theorem Inverse.parentAgrees_iff (h : Inverse cg) : ParentAgrees opts cg p q ↔
    q ∈ calleesOf cg p ∨ (opts.useNoBodyDetection = true ∧ hasBody cg q = false) ∨ CallsOverridden cg p q := by
  unfold ParentAgrees CallsOverridden
  rw [h p q]
  simp only [h p]

/-- With the inverse the conditions of the two directions differ exactly where the exemptions do. -/
theorem Inverse.patches_iff (h : Inverse cg) (hpatch : opts.patch = true) (hp : Present cg p) (hq : Present cg q)
    (hnew : q ∉ calleesOf cg p) : (PatchesCallee opts cg p q ↔ PatchesParent opts cg p q) ↔ Coincide opts cg p q := by
  unfold PatchesCallee PatchesParent Coincide
  rw [h.parentAgrees_iff, CalleeAgrees, ← CallsOverridden]
  simp only [hpatch, hp, hq, hnew, true_and, false_or]
  by_cases hover : CallsOverridden cg p q
  · simp [hover]
  · simp only [hover, or_false, not_false_eq_true, true_and, false_and, false_or]
    cases opts.useNoBodyDetection <;> cases opts.useCubeCallCounts <;> cases hasBody cg p <;> cases hasBody cg q <;> simp

theorem Inverse.prepared (h : Inverse cg) : Inverse (prepared opts cg p q) := by
  unfold Inverse CGValidate.prepared
  rw [calleesOf_withNode, calleesOf_withNode, parentsOf_withNode, parentsOf_withNode]
  exact h

/-- One edge keeps the inverse exactly if its exemptions coincide. -/
theorem Effect.inverse_iff {C P : Prop} (h : Effect C P p q cg cg') (hinv : Inverse cg) :
    Inverse cg' ↔ q ∈ calleesOf cg p ∨ (C ↔ P) := by
  have hpair : ∀ a b, (b ∈ calleesOf cg' a ↔ a ∈ parentsOf cg' b) ↔
      (b ∈ calleesOf cg a ∨ (C ∧ a = p ∧ b = q) ↔ b ∈ calleesOf cg a ∨ (P ∧ b = q ∧ a = p)) := by
    intro a b
    rw [h.callees, h.parents, hinv a b]
  constructor
  · intro hinv'
    have hpq := (hpair p q).mp (hinv' p q)
    by_cases hold : q ∈ calleesOf cg p
    · exact .inl hold
    · simp only [hold, and_self, and_true, false_or] at hpq
      exact .inr hpq
  · intro hcond a b
    refine (hpair a b).mpr ?_
    rcases hcond with hold | hiff
    · constructor
      · rintro (hb | ⟨-, rfl, rfl⟩)
        · exact .inl hb
        · exact .inl hold
      · rintro (hb | ⟨-, rfl, rfl⟩)
        · exact .inl hb
        · exact .inl hold
    · rw [hiff, and_comm (a := a = p)]

/-- One direction is there and the other will never be added. -/
def Stuck (opts : Options) (cg : CG) (p q : String) : Prop :=
  Present cg p ∧ Present cg q ∧
    ((q ∈ calleesOf cg p ∧ p ∉ parentsOf cg q ∧ ParentAgrees opts cg p q) ∨
      (p ∈ parentsOf cg q ∧ q ∉ calleesOf cg p ∧ CalleeAgrees opts cg p q ∧ opts.useCubeCallCounts = false))

theorem Stuck.not_inverse (h : Stuck opts cg p q) : ¬Inverse cg := by
  intro hinv
  obtain ⟨-, -, ⟨hc, hp, -⟩ | ⟨hp, hc, -⟩⟩ := h
  · exact hp ((hinv p q).mp hc)
  · exact hc ((hinv p q).mpr hp)

theorem Stuck.prepared {a b : String} (h : Stuck opts cg p q) : Stuck opts (prepared opts cg a b) p q := by
  have hg := grown_prepared opts cg a b
  obtain ⟨hp, hq, hpair⟩ := h
  refine ⟨hg.present p hp, hg.present q hq, ?_⟩
  have hcallees : calleesOf (CGValidate.prepared opts cg a b) = calleesOf cg := by
    rw [CGValidate.prepared, calleesOf_withNode, calleesOf_withNode]
  have hparents : parentsOf (CGValidate.prepared opts cg a b) = parentsOf cg := by
    rw [CGValidate.prepared, parentsOf_withNode, parentsOf_withNode]
  rw [hcallees, hparents]
  refine hpair.imp (fun ⟨hc, hno, hagree⟩ => ⟨hc, hno, hagree.grown hq hg⟩) fun ⟨hc, hno, hagree, hcube⟩ =>
    ⟨hc, hno, hagree.grown hp hg, hcube⟩

/-- A pair that is stuck stays stuck, whichever edge is compared. -/
theorem Stuck.checked {a b : String} (h : Stuck opts st.callgraph p q) (hchecked : Checked opts a b st st') :
    Stuck opts st'.callgraph p q := by
  obtain ⟨hp, hq, hpair⟩ := h.prepared (a := a) (b := b)
  have hg := hchecked.effect.grown
  refine ⟨hg.present p hp, hg.present q hq, hpair.imp ?_ ?_⟩
  · rintro ⟨hc, hno, hagree⟩
    refine ⟨hg.callees p hc, fun hnew => ?_, hagree.grown hq hg⟩
    rcases (hchecked.effect.parents q p).mp hnew with hold | ⟨⟨-, -, hnot⟩, rfl, rfl⟩
    · exact hno hold
    · exact hnot hagree
  · rintro ⟨hpar, hno, hagree, hcube⟩
    refine ⟨hg.parents q hpar, fun hnew => ?_, hagree.grown hp hg, hcube⟩
    rcases (hchecked.effect.callees p q).mp hnew with hold | ⟨⟨-, -, hnot | hnot⟩, rfl, rfl⟩
    · exact hno hold
    · exact hnot hagree
    · rw [hcube] at hnot
      cases hnot

/-- An edge on which the exemptions differ leaves a pair stuck. -/
theorem Checked.stuck (h : Checked opts p q st st') (hinv : Inverse st.callgraph) (hpatch : opts.patch = true)
    (hp : Present (CGValidate.prepared opts st.callgraph p q) p) (hq : Present (CGValidate.prepared opts st.callgraph p q) q)
    (hnot : ¬Coincide opts (CGValidate.prepared opts st.callgraph p q) p q) : Stuck opts st'.callgraph p q := by
  have hinv₁ : Inverse (CGValidate.prepared opts st.callgraph p q) := hinv.prepared
  have hnew : q ∉ calleesOf (CGValidate.prepared opts st.callgraph p q) p := fun hold => hnot (.inl hold)
  have hdiffer := mt (hinv₁.patches_iff hpatch hp hq hnew).mp hnot
  have hg := h.effect.grown
  refine ⟨hg.present p hp, hg.present q hq, ?_⟩
  have hnew' : p ∉ parentsOf (CGValidate.prepared opts st.callgraph p q) q := fun hold => hnew ((hinv₁ p q).mpr hold)
  by_cases hC : PatchesCallee opts (CGValidate.prepared opts st.callgraph p q) p q
  · have hP : ¬PatchesParent opts (CGValidate.prepared opts st.callgraph p q) p q := fun hP => hdiffer (iff_of_true hC hP)
    have hagree : ParentAgrees opts (CGValidate.prepared opts st.callgraph p q) p q := by
      by_contra hnotagree
      exact hP ⟨hpatch, ⟨hp, hq⟩, hnotagree⟩
    refine .inl ⟨(h.effect.callees p q).mpr (.inr ⟨hC, rfl, rfl⟩), fun hpar => ?_, hagree.grown hq hg⟩
    rcases (h.effect.parents q p).mp hpar with hold | ⟨hP', -⟩
    · exact hnew' hold
    · exact hP hP'
  · have hP : PatchesParent opts (CGValidate.prepared opts st.callgraph p q) p q := by
      by_contra hP
      exact hdiffer (iff_of_false hC hP)
    have hboth : CalleeAgrees opts (CGValidate.prepared opts st.callgraph p q) p q ∧ opts.useCubeCallCounts = false := by
      constructor
      · by_contra hnotagree
        exact hC ⟨hpatch, ⟨hp, hq⟩, .inl hnotagree⟩
      · by_contra hcube
        exact hC ⟨hpatch, ⟨hp, hq⟩, .inr (Bool.eq_true_of_not_eq_false hcube)⟩
    refine .inr ⟨(h.effect.parents q p).mpr (.inr ⟨hP, rfl, rfl⟩), fun hcal => ?_, hboth.1.grown hp hg, hboth.2⟩
    rcases (h.effect.callees p q).mp hcal with hold | ⟨hC', -⟩
    · exact hnew hold
    · exact hC hC'

/-- The exemptions coincide on the edge of a call path node, in the graph that the loop compares it in. -/
def CoincidesAt (opts : Options) (cg : CG) (c : Cnode) : Prop :=
  ∀ p, c.parent = some p → isMain c.callee = false → Present (CGValidate.prepared opts cg p c.callee) p →
    Present (CGValidate.prepared opts cg p c.callee) c.callee → Coincide opts (CGValidate.prepared opts cg p c.callee) p c.callee

/-- `K` holds of every call path node in the graph that the loop meets it with. -/
def EachCnode (fuel : ℕ) (cnodes : List Cnode) (opts : Options) (K : CG → Cnode → Prop) : State → List Cnode → Prop
  | _, [] => True
  | st, c :: rest => K st.callgraph c ∧ ∀ st', checkCnode fuel cnodes opts st c = .ok st' → EachCnode fuel cnodes opts K st' rest

/-- A round of the loop compares an edge or changes nothing. -/
theorem checkCnode_cases {fuel : ℕ} (h : checkCnode fuel cnodes opts st c = .ok st') :
    (∃ p, c.parent = some p ∧ isMain c.callee = false ∧ Checked opts p c.callee st st') ∨
      ((c.parent = none ∨ isMain c.callee = true) ∧ st' = st) := by
  unfold checkCnode at h
  cases hp : c.parent with
  | none =>
    rw [hp] at h
    cases h
    exact .inr ⟨.inl rfl, rfl⟩
  | some p =>
    rw [hp] at h
    dsimp only at h
    split_ifs at h with hmain
    · cases h
      exact .inr ⟨.inr hmain, rfl⟩
    · exact .inl ⟨p, rfl, Bool.eq_false_iff.mpr hmain, checkEdge_checked h⟩

theorem Stuck.checkCnode {fuel : ℕ} (h : Stuck opts st.callgraph p q) (hrun : checkCnode fuel cnodes opts st c = .ok st') :
    Stuck opts st'.callgraph p q := by
  obtain ⟨p', -, -, hchecked⟩ | ⟨-, rfl⟩ := checkCnode_cases hrun
  · exact h.checked hchecked
  · exact h

/-- A round keeps the inverse, or leaves a pair stuck that it never had. -/
theorem inverse_checkCnode {fuel : ℕ} (hpatch : opts.patch = true) (hinv : Inverse st.callgraph)
    (hrun : checkCnode fuel cnodes opts st c = .ok st') :
    (CoincidesAt opts st.callgraph c ∧ Inverse st'.callgraph) ∨
      (¬CoincidesAt opts st.callgraph c ∧ ∃ p q, Stuck opts st'.callgraph p q) := by
  obtain ⟨p, hp, hmain, hchecked⟩ | ⟨hskip, rfl⟩ := checkCnode_cases hrun
  · by_cases hcoincide : CoincidesAt opts st.callgraph c
    · refine .inl ⟨hcoincide, ?_⟩
      have hinv₁ : Inverse (CGValidate.prepared opts st.callgraph p c.callee) := hinv.prepared
      refine (hchecked.effect.inverse_iff hinv₁).mpr (or_iff_not_imp_left.mpr fun hnew => ?_)
      by_cases hpresent : Present (CGValidate.prepared opts st.callgraph p c.callee) p ∧
          Present (CGValidate.prepared opts st.callgraph p c.callee) c.callee
      · exact (hinv₁.patches_iff hpatch hpresent.1 hpresent.2 hnew).mpr (hcoincide p hp hmain hpresent.1 hpresent.2)
      · exact iff_of_false (fun hc => hpresent hc.2.1) fun hc => hpresent hc.2.1
    · refine .inr ⟨hcoincide, p, c.callee, ?_⟩
      unfold CoincidesAt at hcoincide
      simp only [not_forall] at hcoincide
      obtain ⟨p', hp', -, hpp, hpc, hnot⟩ := hcoincide
      rw [hp] at hp'
      cases hp'
      exact hchecked.stuck hinv hpatch hpp hpc hnot
  · refine .inl ⟨fun p hp hmain => ?_, hinv⟩
    rcases hskip with hnone | htrue
    · rw [hnone] at hp
      cases hp
    · rw [htrue] at hmain
      cases hmain

theorem stuck_foldlM {fuel : ℕ} {rest : List Cnode} (h : Stuck opts st.callgraph p q)
    (hrun : rest.foldlM (CGValidate.checkCnode fuel cnodes opts) st = .ok st') : Stuck opts st'.callgraph p q :=
  foldlM_ok_inv (J := fun _ (st : State) => Stuck opts st.callgraph p q) h (fun _ _ _ _ _ ht hc => ht.checkCnode hc) hrun

theorem inverse_foldlM {fuel : ℕ} {rest : List Cnode} (hpatch : opts.patch = true) (hinv : Inverse st.callgraph)
    (hrun : rest.foldlM (CGValidate.checkCnode fuel cnodes opts) st = .ok st') :
    Inverse st'.callgraph ↔ EachCnode fuel cnodes opts (CoincidesAt opts) st rest := by
  induction rest generalizing st with
  | nil =>
    cases hrun
    exact iff_of_true hinv trivial
  | cons c rest ih =>
    rw [List.foldlM_cons] at hrun
    cases hc : CGValidate.checkCnode fuel cnodes opts st c with
    | error e =>
      rw [hc] at hrun
      cases hrun
    | ok st₁ =>
      rw [hc] at hrun
      obtain ⟨hcoincide, hinv₁⟩ | ⟨hnot, p, q, hstuck⟩ := inverse_checkCnode hpatch hinv hc
      · rw [ih hinv₁ hrun]
        constructor
        · intro hrest
          refine ⟨hcoincide, fun st₂ hst₂ => ?_⟩
          rw [hc] at hst₂
          cases hst₂
          exact hrest
        · exact fun hall => hall.2 st₁ hc
      · exact iff_of_false (stuck_foldlM hstuck hrun).not_inverse fun hall => hnot hall.1

theorem inverse_patched : Inverse (patched opts st) ↔ Inverse st.callgraph := by
  have hview : ∀ {α : Type} (field : Node → α) (d : α), (∀ n calls, field { n with calls := calls } = field n) →
      view field d (patched opts st) = view field d st.callgraph := by
    intro α field d hfield
    unfold patched zeroCalls
    split_ifs
    · funext a
      rw [view, OMap.find_mapValues, Option.map_map, view]
      exact congrArg (fun o => Option.getD o d) (congrArg (fun f => (st.callgraph.find a).map f) (funext fun n => hfield n _))
    · rfl
  rw [Inverse, Inverse, calleesOf, parentsOf, hview Node.callees ∅ fun _ _ => rfl, hview Node.parents ∅ fun _ _ => rfl]

end

/-- The graph that is written has parents as the inverse of callees exactly if on every edge, in the graph that the loop
compares it in, the exemptions of the two directions coincide. -/
theorem inverse_patched_iff (fuel : ℕ) (cnodes : List Cnode) (opts : Options) (cg : CG) (st : State)
    (hpatch : opts.patch = true) (hinv : Inverse cg) (hrun : checkEdges fuel cnodes opts cg = .ok st) :
    Inverse (patched opts st) ↔ EachCnode fuel cnodes opts (CoincidesAt opts) (.initial cg) cnodes :=
  inverse_patched.trans (inverse_foldlM hpatch hinv hrun)

theorem inverse_bareGraph : Inverse bareGraph := by
  intro a b
  have hcallees : calleesOf bareGraph a = ∅ := view_bareGraph (fun _ => rfl) a
  have hparents : parentsOf bareGraph b = ∅ := view_bareGraph (fun _ => rfl) b
  rw [hcallees, hparents]
  exact iff_of_false (Finset.notMem_empty b) (Finset.notMem_empty a)

theorem inverse_patched_mainCalls : ∃ st, checkEdges 1 mainCalls ⟨true, true, false, false, 2⟩ bareGraph = .ok st ∧
    (Inverse (patched ⟨true, true, false, false, 2⟩ st) ↔
      EachCnode 1 mainCalls ⟨true, true, false, false, 2⟩ (CoincidesAt ⟨true, true, false, false, 2⟩) (.initial bareGraph)
        mainCalls) :=
  ⟨_, rfl, inverse_patched_iff 1 mainCalls ⟨true, true, false, false, 2⟩ bareGraph _ rfl inverse_bareGraph rfl⟩

/-- With the no-body detection `f` becomes a callee of `main`, but `main` no parent of `f`. -/
theorem not_inverse_patched_bareGraph : Inverse bareGraph ∧
    ∃ st, checkEdges 1 mainCalls ⟨true, true, true, false, 2⟩ bareGraph = .ok st ∧
      ¬Inverse (patched ⟨true, true, true, false, 2⟩ st) := by
  refine ⟨inverse_bareGraph, _, rfl, fun hinv => ?_⟩
  have hpair := (hinv "main" "f").mp (by decide)
  exact absurd hpair (by decide)

end MetaCG.CGValidate
