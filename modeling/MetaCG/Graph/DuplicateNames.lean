import MetaCG.Foundations.Run
import MetaCG.Graph.History

/-! The cached flag behind `hasDuplicateNames()`.

`insert` sets the flag when the name is taken and `clear` resets it; no other operation touches it.
So the flag is right until a node is erased whose name made up the last pair of equal names. -/
namespace MetaCG
open Foundations
set_option autoImplicit false
set_option maxHeartbeats 250000
set_option maxRecDepth 120000

namespace Callgraph

/-- Two different live nodes have the same function name. -/
def DuplicateNames (g : Callgraph) : Prop :=
  ∃ i j n m, i ≠ j ∧ g.slot i = some n ∧ g.slot j = some m ∧ n.functionName = m.functionName

/-- `hasDuplicateNames()` tells the truth. -/
def FlagRight (g : Callgraph) : Prop := g.hasDuplicates = true ↔ g.DuplicateNames

/-! ## Changes that leave flag and names alone -/

structure SameNames (g g' : Callgraph) : Prop where
  flag : g'.hasDuplicates = g.hasDuplicates
  names : ∀ i, (g'.slot i).map CgNode.functionName = (g.slot i).map CgNode.functionName

theorem SameNames.refl (g : Callgraph) : SameNames g g := ⟨rfl, fun _ => rfl⟩

theorem duplicateNames_iff_names (g : Callgraph) : g.DuplicateNames ↔ ∃ i j name, i ≠ j ∧
    (g.slot i).map CgNode.functionName = some name ∧ (g.slot j).map CgNode.functionName = some name := by
  constructor
  · rintro ⟨i, j, n, m, hij, hn, hm, he⟩
    exact ⟨i, j, n.functionName, hij, by rw [hn]; rfl, by rw [hm, he]; rfl⟩
  · rintro ⟨i, j, name, hij, hi, hj⟩
    obtain ⟨n, hn, hnn⟩ := Option.map_eq_some_iff.mp hi
    obtain ⟨m, hm, hmn⟩ := Option.map_eq_some_iff.mp hj
    exact ⟨i, j, n, m, hij, hn, hm, hnn.trans hmn.symm⟩

theorem SameNames.flagRight {g g' : Callgraph} (h : SameNames g g') (hg : g.FlagRight) : g'.FlagRight := by
  unfold FlagRight
  rw [h.flag, duplicateNames_iff_names]
  simp only [h.names]
  rw [← duplicateNames_iff_names]
  exact hg

theorem SameNames.addEdge {g g' : Callgraph} {u v : ℕ} {b : Bool} (hr : g.addEdge u v = .ok (b, g')) :
    SameNames g g' := by
  rcases addEdge_cases hr with ⟨-, rfl⟩ | ⟨-, -, he⟩
  · exact .refl g'
  · rw [show g' = (g.addEdgeInternal u v).2 from congrArg Prod.snd he]
    unfold addEdgeInternal
    split_ifs <;> exact ⟨rfl, fun _ => rfl⟩

theorem SameNames.removeEdge {g g' : Callgraph} {u v : ℕ} {b : Bool} (hr : g.removeEdge u v = .ok (b, g')) :
    SameNames g g' := by
  unfold Callgraph.removeEdge at hr
  split_ifs at hr
  · obtain ⟨_, -, hr⟩ := bind_eq_ok.mp hr
    obtain ⟨_, -, hr⟩ := bind_eq_ok.mp hr
    cases hr
    exact ⟨rfl, fun _ => rfl⟩
  · cases hr
    exact .refl g

theorem SameNames.updateNode {g : Callgraph} {id : ℕ} {f : CgNode → CgNode}
    (hf : ∀ n, g.slot id = some n → (f n).functionName = n.functionName) : SameNames g (g.updateNode id f) where
  flag := rfl
  names := by
    intro i
    rw [slot_updateNode]
    split_ifs with hi
    · subst hi
      cases hn : g.slot i with
      | none => rfl
      | some n => exact congrArg some (hf n hn)
    · rfl

theorem SameNames.setNodeMeta (g : Callgraph) (id : ℕ) (key : String) (md : MetaData) :
    SameNames g (g.setNodeMeta id key md) := .updateNode fun _ _ => rfl

theorem SameNames.addEdgeMetaData (g : Callgraph) (key : String) (ids : ℕ × ℕ) (md : MetaData) :
    SameNames g (g.addEdgeMetaData key ids md).2 := by
  rw [addEdgeMetaData_frame]
  exact ⟨rfl, fun _ => rfl⟩

theorem SameNames.getMain (g : Callgraph) (force : Bool) : SameNames g (Outcome.final (g.getMain force)) := by
  have hmain : ∀ m, SameNames g { g with mainNode := m } := fun _ => ⟨rfl, fun _ => rfl⟩
  obtain ⟨m₁, h₁⟩ : ∃ m, (if force then { g with mainNode := none } else g : Callgraph) = { g with mainNode := m } := by
    split_ifs
    · exact ⟨none, rfl⟩
    · exact ⟨g.mainNode, rfl⟩
  unfold Callgraph.getMain
  rw [h₁]
  have hname : SameNames g (Outcome.final (Outcome.guard { g with mainNode := m₁ }
      (({ g with mainNode := m₁ } : Callgraph).findMain mainNames) fun node => .ok { g with mainNode := node })) :=
    Outcome.final_guard (hmain m₁) (fun p _ => hmain p)
  simp only
  split_ifs
  · exact hmain m₁
  · cases (({ g with mainNode := m₁ } : Callgraph).entryFunctionId) with
    | none => exact hname
    | some id =>
      refine Outcome.final_guard (hmain m₁) (fun p _ => ?_)
      cases p with
      | none => exact hname
      | some _ => exact hmain _

/-! ## Inserting -/

theorem Wf.nodesNamed_ne_nil_iff {g : Callgraph} (h : g.Wf) (name : String) :
    g.getNodesNamed name ≠ [] ↔ ∃ i n, g.slot i = some n ∧ n.functionName = name := by
  constructor
  · intro hne
    obtain ⟨i, hi⟩ := List.exists_mem_of_ne_nil _ hne
    exact ⟨i, (h.mem_named name i).mp hi⟩
  · rintro ⟨i, hi⟩
    exact List.ne_nil_of_mem ((h.mem_named name i).mpr hi)

theorem duplicateNames_insertNode {g : Callgraph} (h : g.Wf) (f : String) (o : Option String) (v b : Bool) :
    (g.insertNode f o v b).DuplicateNames ↔ g.DuplicateNames ∨ g.getNodesNamed f ≠ [] := by
  have hslot := slot_insertNode g f o v b
  have hold : ∀ {i n}, g.slot i = some n → (g.insertNode f o v b).slot i = some n := by
    intro i n hn
    rw [hslot, if_neg (Nat.ne_of_lt (slot_lt hn)), hn]
  have hnew : (g.insertNode f o v b).slot g.nodes.length = some (CgNode.create g.nodes.length f o v b) := by
    rw [hslot, if_pos rfl]
  rw [h.nodesNamed_ne_nil_iff]
  constructor
  · rintro ⟨i, j, n, m, hij, hn, hm, he⟩
    rw [hslot] at hn hm
    split_ifs at hn hm with hi hj hj
    · exact absurd (hi.trans hj.symm) hij
    · cases hn
      exact .inr ⟨j, m, hm, he.symm⟩
    · cases hm
      exact .inr ⟨i, n, hn, he⟩
    · exact .inl ⟨i, j, n, m, hij, hn, hm, he⟩
  · rintro (⟨i, j, n, m, hij, hn, hm, he⟩ | ⟨i, n, hn, he⟩)
    · exact ⟨i, j, n, m, hij, hold hn, hold hm, he⟩
    · exact ⟨i, g.nodes.length, n, _, Nat.ne_of_lt (slot_lt hn), hold hn, hnew, he⟩

theorem FlagRight.insertNode {g : Callgraph} (hg : g.FlagRight) (h : g.Wf) (f : String) (o : Option String)
    (v b : Bool) : (g.insertNode f o v b).FlagRight := by
  have hflag : (g.insertNode f o v b).hasDuplicates = (g.hasDuplicates || !(g.getNodesNamed f).isEmpty) := rfl
  unfold FlagRight at hg ⊢
  rw [hflag, duplicateNames_insertNode h, Bool.or_eq_true, hg]
  simp

theorem FlagRight.insert {g g' : Callgraph} (hg : g.FlagRight) (h : g.Wf) {f : String} {o : Option String}
    {v b : Bool} {id : ℕ} (hr : g.insert f o v b = .ok (g', id)) : g'.FlagRight := by
  obtain ⟨-, rfl, -⟩ := insert_cases hr
  exact hg.insertNode h f o v b

theorem FlagRight.getOrInsertNode {g g' : Callgraph} (hg : g.FlagRight) (h : g.Wf) {f : String} {o : Option String}
    {v b : Bool} {id : ℕ} (hr : g.getOrInsertNode f o v b = .ok (g', id)) : g'.FlagRight := by
  rcases getOrInsertNode_cases hr with rfl | ⟨-, rfl⟩
  · exact hg
  · exact hg.insertNode h f o v b

/-! ## Erasing -/

/-- After the erasure of `id` the graph still has duplicate names if it had any before. -/
def SparesDuplicates (g : Callgraph) (id : ℕ) : Prop :=
  g.DuplicateNames → ∃ i j n m, i ≠ j ∧ i ≠ id ∧ j ≠ id ∧ g.slot i = some n ∧ g.slot j = some m ∧
    n.functionName = m.functionName

theorem hasDuplicates_eraseEdges {g g' : Callgraph} {id : ℕ} (hr : g.eraseEdges id = .ok g') :
    g'.hasDuplicates = g.hasDuplicates := by
  unfold eraseEdges at hr
  obtain ⟨_, -, hr⟩ := bind_eq_ok.mp hr
  obtain ⟨_, -, hr⟩ := bind_eq_ok.mp hr
  cases hr
  rfl

theorem hasDuplicates_eraseMain (g : Callgraph) (id : ℕ) : (g.eraseMain id).hasDuplicates = g.hasDuplicates := by
  obtain ⟨_, hframe⟩ := eraseMain_frame g id
  rw [hframe]

theorem hasDuplicates_erase {g g' : Callgraph} {id : ℕ} {b : Bool} (hr : g.erase id = .ok (b, g')) :
    g'.hasDuplicates = g.hasDuplicates := by
  unfold Callgraph.erase at hr
  split at hr
  · cases hr
    rfl
  · obtain ⟨g₁, h₁, hr⟩ := bind_eq_ok.mp hr
    obtain ⟨_, -, hr⟩ := bind_eq_ok.mp hr
    cases hr
    exact (hasDuplicates_eraseMain g₁ id).trans (hasDuplicates_eraseEdges h₁)

theorem Erased.duplicateNames_iff {g g' : Callgraph} {id : ℕ} (h : Erased g g' id) :
    g'.DuplicateNames ↔ ∃ i j n m, i ≠ j ∧ i ≠ id ∧ j ≠ id ∧ g.slot i = some n ∧ g.slot j = some m ∧
      n.functionName = m.functionName := by
  have hslot : ∀ {i n}, g'.slot i = some n ↔ i ≠ id ∧ g.slot i = some n := by
    intro i n
    rw [h.slots]
    split_ifs with hi <;> simp [hi]
  constructor
  · rintro ⟨i, j, n, m, hij, hn, hm, he⟩
    rw [hslot] at hn hm
    exact ⟨i, j, n, m, hij, hn.1, hm.1, hn.2, hm.2, he⟩
  · rintro ⟨i, j, n, m, hij, hi, hj, hn, hm, he⟩
    exact ⟨i, j, n, m, hij, hslot.mpr ⟨hi, hn⟩, hslot.mpr ⟨hj, hm⟩, he⟩

theorem FlagRight.erase_iff {g : Callgraph} (hg : g.FlagRight) (h : g.Wf) (id : ℕ) :
    (g.orKeep (g.erase id) Prod.snd).FlagRight ↔ g.SparesDuplicates id := by
  cases hn : g.slot id with
  | none =>
    -- nothing is erased, and a dead id is no member of a pair
    have hne : ∀ {i n}, g.slot i = some n → i ≠ id := by
      rintro i n hi rfl
      rw [hn] at hi
      cases hi
    rw [erase_dead hn]
    refine iff_of_true hg ?_
    rintro ⟨i, j, n, m, hij, hi, hj, he⟩
    exact ⟨i, j, n, m, hij, hne hi, hne hj, hi, hj, he⟩
  | some node =>
    obtain ⟨g', hrun, hg'⟩ := h.erase_live hn
    rw [hrun]
    change g'.FlagRight ↔ _
    unfold FlagRight SparesDuplicates at *
    rw [hasDuplicates_erase hrun, hg, ← hg'.duplicateNames_iff]
    constructor
    · exact Iff.mp
    · refine fun hspare => ⟨hspare, fun hdup => ?_⟩
      obtain ⟨i, j, n, m, hij, -, -, hi, hj, he⟩ := hg'.duplicateNames_iff.mp hdup
      exact ⟨i, j, n, m, hij, hi, hj, he⟩

/-! ## Merging -/

theorem SameNames.keptByMerge : KeptByMerge FlagRight where
  addEdge := fun h hr => (SameNames.addEdge hr).flagRight h
  addEdgeMetaData := fun h _ _ _ => (SameNames.addEdgeMetaData ..).flagRight h
  setNodeMeta := fun h _ _ _ => (SameNames.setNodeMeta ..).flagRight h

theorem FlagRight.mergeNode {st : Callgraph × MergeRecorder} (h : st.1.Wf ∧ st.1.FlagRight) (ptr : Option CgNode) :
    (Outcome.final (mergeNode mergeByName st ptr)).1.Wf ∧
      (Outcome.final (mergeNode mergeByName st ptr)).1.FlagRight := by
  refine ⟨h.1.mergeNode ptr, ?_⟩
  cases ptr with
  | none => exact h.2
  | some node =>
    refine Outcome.final_guard (I := fun st : Callgraph × MergeRecorder => st.1.FlagRight) h.2 (fun m hm => ?_)
    cases m with
    | none =>
      exact Outcome.final_guard (I := fun st : Callgraph × MergeRecorder => st.1.FlagRight) h.2
        (fun r hr => h.2.insert h.1 hr)
    | some action =>
      refine Outcome.final_guard (I := fun st : Callgraph × MergeRecorder => st.1.FlagRight) h.2 (fun p _ => ?_)
      cases p with
      | none => exact h.2
      | some _ =>
        obtain ⟨t, ht, hname⟩ := mergeByName_some h.1 hm
        change (if action.replace then st.1.updateNode action.targetNode (replaceCore node) else st.1).FlagRight
        split_ifs
        · refine (SameNames.updateNode fun n hn => ?_).flagRight h.2
          rw [ht] at hn
          cases hn
          exact hname.symm
        · exact h.2

theorem FlagRight.mergeRest {g : Callgraph} (h : g.FlagRight) (r : MergeRecorder) (other : Callgraph) :
    (Outcome.final (mergeRest r other g)).FlagRight := by
  refine Outcome.final_bind (Outcome.final_foldlM (I := FlagRight)
    (fun g e hg => SameNames.keptByMerge.mergeEdge hg r e) _ g h) (fun g₁ h₁ => ?_)
  refine Outcome.final_bind (Outcome.final_foldlM (I := FlagRight)
    (fun g p hg => SameNames.keptByMerge.mergeNodeMetaData hg r p) _ g₁ h₁) (fun g₂ h₂ => ?_)
  refine Outcome.final_bind (Outcome.final_foldlM (I := FlagRight) (fun g md hg => ?_) _ g₂ h₂) (fun g₃ h₃ => h₃)
  unfold mergeGlobalMetaData
  cases g.metaFields.lookup md.1 with
  | none => exact Outcome.final_guard hg (fun c _ => hg)
  | some own => exact Outcome.final_guard hg (fun c _ => hg)

theorem FlagRight.mergeLeaves {g : Callgraph} (hg : g.FlagRight) (h : g.Wf) (other : Callgraph) :
    (mergeLeaves mergeByName g other).FlagRight := by
  have hnodes := Outcome.final_foldlM (I := fun st : Callgraph × MergeRecorder => st.1.Wf ∧ st.1.FlagRight)
    (fun st ptr hst => FlagRight.mergeNode hst ptr) other.nodes (g, MergeRecorder.empty) ⟨h, hg⟩
  unfold Callgraph.mergeLeaves Callgraph.merge mergeNodes
  cases hn : other.nodes.foldlM (Callgraph.mergeNode mergeByName) (g, MergeRecorder.empty) with
  | error e =>
    rw [hn] at hnodes
    exact hnodes.2
  | ok st =>
    rw [hn] at hnodes
    have hrest := FlagRight.mergeRest (g := st.1) hnodes.2 st.2 other
    cases hr : Callgraph.mergeRest st.2 other st.1 with
    | error e =>
      rw [hr] at hrest
      simp only [hr]
      exact hrest
    | ok g' =>
      rw [hr] at hrest
      simp only [hr]
      exact hrest

/-! ## Histories -/

theorem FlagRight.orKeep {α : Type} {g : Callgraph} (hg : g.FlagRight) {x : Except Exn α} {graph : α → Callgraph}
    (hx : ∀ a, x = .ok a → (graph a).FlagRight) : (g.orKeep x graph).FlagRight := by
  cases x with
  | error e => exact hg
  | ok a => exact hx a rfl

/-- An erasure spares the last pair of equal names. -/
def Op.SparesDuplicates (g : Callgraph) : Op → Prop
  | .erase id => g.SparesDuplicates id
  | _ => True

theorem FlagRight.clear (g : Callgraph) : g.clear.FlagRight := by
  unfold FlagRight DuplicateNames Callgraph.clear slot
  simp

theorem FlagRight.apply_iff {g : Callgraph} (hg : g.FlagRight) (h : g.Wf) (self : ℕ) (op : Op) :
    (op.apply self g).FlagRight ↔ op.SparesDuplicates g := by
  cases op with
  | erase id => exact hg.erase_iff h id
  | insert f o v b => exact iff_of_true (hg.orKeep fun _ ha => hg.insert h ha) trivial
  | getOrInsertNode f o v b => exact iff_of_true (hg.orKeep fun _ ha => hg.getOrInsertNode h ha) trivial
  | addEdge p c => exact iff_of_true (hg.orKeep fun _ ha => (SameNames.addEdge ha).flagRight hg) trivial
  | addEdgeRef p c =>
    refine iff_of_true ?_ trivial
    change (Callgraph.addEdgeRef self g p c).2.FlagRight
    unfold addEdgeRef addEdgeInternal
    split_ifs <;> exact hg
  | addEdgeNamed p c =>
    refine iff_of_true (hg.orKeep fun _ ha => ?_) trivial
    unfold addEdgeNamed at ha
    split at ha
    · exact (SameNames.addEdge ha).flagRight hg
    · cases ha
      exact hg
  | removeEdge p c => exact iff_of_true (hg.orKeep fun _ ha => (SameNames.removeEdge ha).flagRight hg) trivial
  | removeEdgeRef p c =>
    refine iff_of_true (hg.orKeep fun _ ha => ?_) trivial
    unfold removeEdgeRef at ha
    split_ifs at ha
    · cases ha
      exact hg
    · exact (SameNames.removeEdge ha).flagRight hg
  | removeEdgeNamed p c =>
    refine iff_of_true (hg.orKeep fun _ ha => ?_) trivial
    unfold removeEdgeNamed at ha
    split at ha
    · exact (SameNames.removeEdge ha).flagRight hg
    · cases ha
      exact hg
  | clear => exact iff_of_true (FlagRight.clear g) trivial
  | merge other => exact iff_of_true (hg.mergeLeaves h other) trivial
  | getMain force => exact iff_of_true ((SameNames.getMain g force).flagRight hg) trivial
  | addMetaData md => exact iff_of_true hg trivial
  | addNodeMetaData id md => exact iff_of_true ((SameNames.setNodeMeta g id md.getKey md).flagRight hg) trivial
  | addEdgeMetaData key ids md => exact iff_of_true ((SameNames.addEdgeMetaData ..).flagRight hg) trivial

/-- `hasDuplicateNames()` is right throughout a history iff every erasure spares the last pair of
equal names. -/
theorem run_flagRight_iff (self : ℕ) (ops : List Op) :
    (∀ pre, pre <+: ops → (run self pre).FlagRight) ↔
      ∀ pre op, pre ++ [op] <+: ops → op.SparesDuplicates (run self pre) :=
  Run.inv_iff (f := Op.apply self) (I := FlagRight) (K := fun g op => op.SparesDuplicates g)
    (FlagRight.clear Callgraph.empty) (fun pre op _ hg => hg.apply_iff (run_wf self pre) self op)

/-- Two nodes of one name, of which one is erased. -/
def renamed : List Op := [.insert "f" none false true, .insert "f" none false true, .erase 1]

theorem run_renamed_flag : (run 0 renamed).hasDuplicates = true ∧ ¬ (run 0 renamed).DuplicateNames := by
  refine ⟨by decide, ?_⟩
  rintro ⟨i, j, n, m, hij, hn, hm, -⟩
  have hlive : ∀ k p, (run 0 renamed).slot k = some p → k = 0 := by
    intro k p hk
    by_contra hne
    by_cases hk1 : k = 1
    · subst hk1
      have hlive := hasNode_of_slot hk
      exact absurd hlive (by decide)
    · have hlt : k < 2 := slot_lt hk
      omega
  exact hij ((hlive i n hn).trans (hlive j m hm).symm)

end Callgraph
end MetaCG
