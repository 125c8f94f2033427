import Mathlib.Data.List.Perm.Subperm
import MetaCG.Merge.Sequence

/-! Inserting nodes and edges by name.

A graph is seen through the number of nodes of each name and the pairs of names that its edges join.
`Extends` says how a sequence of insertions changes both. -/
namespace MetaCG.Callgraph
open Foundations
set_option autoImplicit false
set_option maxHeartbeats 250000
set_option maxRecDepth 120000

/-! ## One operation -/

section
variable {g : Callgraph}

theorem getFirstNode_eq (h : g.Wf) (name : String) : g.getFirstNode name = .ok ((g.firstNamed name).bind g.slot) := by
  unfold getFirstNode firstNamed
  cases hl : g.getNodesNamed name with
  | nil => rfl
  | cons i l =>
    obtain ⟨n, hn, -⟩ := (h.mem_named name i).mp (by rw [hl]; exact List.mem_cons_self ..)
    exact getNode_of_lt (slot_lt hn)

theorem nameOf_eq_some (i : ℕ) (name : String) : g.nameOf i = some name ↔ ∃ n, g.slot i = some n ∧ n.functionName = name :=
  Option.map_eq_some_iff

theorem nameOf_of_hasNode {i : ℕ} (h : g.hasNode i = true) : ∃ name, g.nameOf i = some name := by
  obtain ⟨n, hn⟩ := (g.hasNode_iff i).mp h
  exact ⟨n.functionName, (nameOf_eq_some i _).mpr ⟨n, hn, rfl⟩⟩

theorem hasNode_of_nameOf {i : ℕ} {name : String} (h : g.nameOf i = some name) : g.hasNode i = true := by
  obtain ⟨n, hn, -⟩ := (nameOf_eq_some i name).mp h
  exact hasNode_of_slot hn

theorem mem_edges_addEdgeInternal (g : Callgraph) (u v : ℕ) (e : ℕ × ℕ) :
    e ∈ (g.addEdgeInternal u v).2.edges ↔ e = (u, v) ∨ e ∈ g.edges := by
  by_cases he : (u, v) ∈ g.edges
  · rw [addEdgeInternal_of_mem he]
    refine ⟨.inr, ?_⟩
    rintro (rfl | h)
    · exact he
    · exact h
  · rw [addEdgeInternal_of_notMem he]
    exact mem_edges_withEdge g u v e

theorem slot_addEdgeInternal (g : Callgraph) (u v i : ℕ) : (g.addEdgeInternal u v).2.slot i = g.slot i := by
  by_cases he : (u, v) ∈ g.edges
  · rw [addEdgeInternal_of_mem he]
  · rw [addEdgeInternal_of_notMem he]
    rfl

theorem nameOf_addEdgeInternal (g : Callgraph) (u v i : ℕ) : (g.addEdgeInternal u v).2.nameOf i = g.nameOf i := by
  rw [nameOf, nameOf, slot_addEdgeInternal]

theorem getNodesNamed_addEdgeInternal (g : Callgraph) (u v : ℕ) (name : String) :
    (g.addEdgeInternal u v).2.getNodesNamed name = g.getNodesNamed name := by
  by_cases he : (u, v) ∈ g.edges
  · rw [addEdgeInternal_of_mem he]
  · rw [addEdgeInternal_of_notMem he]
    rfl

end

/-! ## Sequences of insertions -/

/-- The names in `names` have nodes, the nodes that are not there before being new, and the calls are added. -/
structure Extends (g : Callgraph) (names : Set String) (calls : Set (String × String)) (g' : Callgraph) : Prop where
  wf : g'.Wf
  kept : ∀ i name, g.nameOf i = some name → g'.nameOf i = some name
  new : ∀ i name, g'.nameOf i = some name → g.nameOf i = some name ∨ name ∈ names
  named : ∀ name ∈ names, (g'.getNodesNamed name).length = max 1 (g.getNodesNamed name).length
  others : ∀ name, name ∉ names → (g'.getNodesNamed name).length = (g.getNodesNamed name).length
  calls : g'.callsNamed = g.callsNamed ∪ calls

section
variable {g g' g'' : Callgraph} {names names' : Set String} {calls calls' : Set (String × String)}

theorem Extends.refl (h : g.Wf) : Extends g ∅ ∅ g where
  wf := h
  kept := fun _ _ hname => hname
  new := fun _ _ hname => .inl hname
  named := fun _ hname => absurd hname (Set.notMem_empty _)
  others := fun _ _ => rfl
  calls := (Set.union_empty _).symm

theorem Extends.trans (h : Extends g names calls g') (h' : Extends g' names' calls' g'') :
    Extends g (names ∪ names') (calls ∪ calls') g'' where
  wf := h'.wf
  kept := fun i name hname => h'.kept i name (h.kept i name hname)
  new := by
    intro i name hname
    rcases h'.new i name hname with hname | hin
    · exact (h.new i name hname).imp_right .inl
    · exact .inr (.inr hin)
  named := by
    intro name hname
    by_cases hin : name ∈ names
    · have hfirst := h.named name hin
      by_cases hin' : name ∈ names'
      · rw [h'.named name hin', hfirst]
        omega
      · rw [h'.others name hin', hfirst]
    · rw [h'.named name (hname.resolve_left hin), h.others name hin]
  others := by
    intro name hname
    rw [h'.others name fun hin => hname (.inr hin), h.others name fun hin => hname (.inl hin)]
  calls := by rw [h'.calls, h.calls, Set.union_assoc]

/-- A name has a node afterwards if it had one or is among the names. -/
theorem Extends.named_iff (h : Extends g names calls g') (name : String) :
    g'.getNodesNamed name ≠ [] ↔ g.getNodesNamed name ≠ [] ∨ name ∈ names := by
  rw [← List.length_pos_iff, ← List.length_pos_iff]
  by_cases hin : name ∈ names
  · rw [h.named name hin]
    simp only [hin, or_true, iff_true]
    omega
  · rw [h.others name hin]
    simp only [hin, or_false]

theorem mem_getNodesNamed (h : g.Wf) {i : ℕ} {name : String} : i ∈ g.getNodesNamed name ↔ g.nameOf i = some name :=
  (h.mem_named name i).trans (nameOf_eq_some i name).symm

theorem Wf.getNodesNamed_nodup (h : g.Wf) (name : String) : (g.getNodesNamed name).Nodup := by
  rw [h.names]
  exact List.nodup_range.filter _

/-- A name that has a node need not be counted. -/
theorem Extends.drop {name : String} (hg : g.Wf) (h : Extends g ({name} ∪ names) calls g')
    (hname : g.getNodesNamed name ≠ []) : Extends g names calls g' where
  wf := h.wf
  kept := h.kept
  new := by
    intro i m hm
    rcases h.new i m hm with hold | rfl | hin
    · exact .inl hold
    · have hsub : g.getNodesNamed m ⊆ g'.getNodesNamed m := by
        intro j hj
        exact (mem_getNodesNamed h.wf).mpr (h.kept j m ((mem_getNodesNamed hg).mp hj))
      have hlen : (g'.getNodesNamed m).length ≤ (g.getNodesNamed m).length := by
        have hpos := List.length_pos_of_ne_nil hname
        rw [h.named m (.inl rfl)]
        omega
      have hperm := (List.subperm_of_subset (hg.getNodesNamed_nodup m) hsub).perm_of_length_le hlen
      exact .inl ((mem_getNodesNamed hg).mp (hperm.mem_iff.mpr ((mem_getNodesNamed h.wf).mpr hm)))
    · exact .inr hin
  named := fun m hm => h.named m (.inr hm)
  others := by
    intro m hm
    by_cases he : m = name
    · have hpos := List.length_pos_of_ne_nil hname
      rw [he, h.named name (.inl rfl)]
      omega
    · exact h.others m fun hin => hin.elim he hm
  calls := h.calls

theorem Wf.callsNamed_eq (h : g.Wf) (hkept : ∀ i name, g.nameOf i = some name → g'.nameOf i = some name)
    (hedges : g'.edges = g.edges) : g'.callsNamed = g.callsNamed := by
  refine Set.ext fun p => exists_congr fun u => exists_congr fun v => ?_
  rw [hedges]
  refine and_congr_right fun he => ?_
  obtain ⟨hu, hv⟩ := h.edge_live u v he
  obtain ⟨a, ha⟩ := nameOf_of_hasNode hu
  obtain ⟨b, hb⟩ := nameOf_of_hasNode hv
  rw [hkept u a ha, hkept v b hb, ha, hb]

/-- `getOrInsertNode` finds the first node of the name or appends one. -/
theorem Wf.getOrInsertNode_total (h : g.Wf) {name : String} (hname : name ≠ "") (o : Option String) (v b : Bool) :
    (∃ i n, g.slot i = some n ∧ n.functionName = name ∧ g.getOrInsertNode name o v b = .ok (g, i)) ∨
      (g.firstNamed name = none ∧ g.getOrInsertNode name o v b = .ok (g.insertNode name o v b, g.nodes.length)) := by
  unfold Callgraph.getOrInsertNode
  rw [getFirstNode_eq h, ok_bind]
  cases hfirst : g.firstNamed name with
  | some i =>
    obtain ⟨n, hn, hnn⟩ := h.slot_firstNamed hfirst
    refine .inl ⟨i, n, hn, hnn, ?_⟩
    rw [Option.bind_some, hn, ← h.node_id i n hn]
    rfl
  | none =>
    refine .inr ⟨rfl, ?_⟩
    rw [Option.bind_none, Callgraph.insert, if_neg hname]

/-- `getOrInsertNode` returns a node of the name. -/
theorem Wf.getOrInsertNode_extends (h : g.Wf) {name : String} (hname : name ≠ "") (o : Option String) (v b : Bool) :
    ∃ g' i, g.getOrInsertNode name o v b = .ok (g', i) ∧ g'.nameOf i = some name ∧ Extends g {name} ∅ g' := by
  rcases h.getOrInsertNode_total hname o v b with ⟨i, n, hn, hnn, hr⟩ | ⟨hfirst, hr⟩
  · refine ⟨g, i, hr, (nameOf_eq_some i name).mpr ⟨n, hn, hnn⟩, h, fun i m hm => hm, fun i m hm => .inl hm, fun m hm => ?_,
      fun m _ => rfl, (Set.union_empty _).symm⟩
    have hpos : 0 < (g.getNodesNamed name).length := List.length_pos_of_mem ((h.mem_named name i).mpr ⟨n, hn, hnn⟩)
    rw [Set.mem_singleton_iff.mp hm]
    omega
  · have hslot := slot_insertNode g name o v b
    have hnew := (g.firstNamed_eq_none_iff name).mp hfirst
    have hkept : ∀ i m, g.nameOf i = some m → (g.insertNode name o v b).nameOf i = some m := by
      intro i m hm
      obtain ⟨n, hn, hnn⟩ := (nameOf_eq_some i m).mp hm
      refine (nameOf_eq_some i m).mpr ⟨n, ?_, hnn⟩
      rw [hslot, if_neg (Nat.ne_of_lt (slot_lt hn)), hn]
    have hwf := h.insertNode name o v b hname
    refine ⟨g.insertNode name o v b, g.nodes.length, hr, ?_, hwf, hkept, fun i m hm => ?_, fun m hm => ?_, fun m hm => ?_, ?_⟩
    · exact (nameOf_eq_some _ _).mpr ⟨_, by rw [hslot, if_pos rfl], rfl⟩
    · obtain ⟨n, hn, hnn⟩ := (nameOf_eq_some i m).mp hm
      rw [hslot] at hn
      split_ifs at hn with hi
      · cases hn
        exact .inr hnn.symm
      · exact .inl ((nameOf_eq_some i m).mpr ⟨n, hn, hnn⟩)
    · rw [getNodesNamed_insertNode, if_pos (Set.mem_singleton_iff.mp hm), Set.mem_singleton_iff.mp hm, hnew]
      rfl
    · rw [getNodesNamed_insertNode, if_neg fun heq => hm (Set.mem_singleton_iff.mpr heq)]
    · rw [Set.union_empty]
      exact h.callsNamed_eq hkept rfl

/-- An edge between two nodes adds the call between their names. -/
theorem Wf.addEdgeRef_extends (h : g.Wf) (self : ℕ) {u v : ℕ} {caller callee : String} (hu : g.nameOf u = some caller)
    (hv : g.nameOf v = some callee) : Extends g ∅ {(caller, callee)} (Callgraph.addEdgeRef self g ⟨self, u⟩ ⟨self, v⟩).2 := by
  have hlive := hasNode_of_nameOf hu
  have hlive' := hasNode_of_nameOf hv
  have hadd : Callgraph.addEdgeRef self g ⟨self, u⟩ ⟨self, v⟩ = g.addEdgeInternal u v := by
    rw [Callgraph.addEdgeRef, hasNodeRef, hasNodeRef, hlive, hlive']
    simp
  rw [hadd]
  refine ⟨h.addEdgeInternal hlive hlive', fun i name hname => ?_, fun i name hname => .inl ?_,
    fun name hname => absurd hname (Set.notMem_empty _), fun name _ => ?_, ?_⟩
  · rw [nameOf_addEdgeInternal]
    exact hname
  · rw [nameOf_addEdgeInternal] at hname
    exact hname
  · rw [getNodesNamed_addEdgeInternal]
  · refine Set.ext fun p => ?_
    constructor
    · rintro ⟨a, b, he, ha, hb⟩
      rw [nameOf_addEdgeInternal] at ha hb
      rcases (mem_edges_addEdgeInternal g u v _).mp he with heq | he
      · cases heq
        rw [hu] at ha
        rw [hv] at hb
        exact .inr (Prod.ext (Option.some.inj ha).symm (Option.some.inj hb).symm)
      · exact .inl ⟨a, b, he, ha, hb⟩
    · rintro (⟨a, b, he, ha, hb⟩ | hp)
      · refine ⟨a, b, (mem_edges_addEdgeInternal g u v _).mpr (.inr he), ?_, ?_⟩
        · rw [nameOf_addEdgeInternal]
          exact ha
        · rw [nameOf_addEdgeInternal]
          exact hb
      · rw [Set.mem_singleton_iff.mp hp]
        refine ⟨u, v, (mem_edges_addEdgeInternal g u v _).mpr (.inl rfl), ?_, ?_⟩
        · rw [nameOf_addEdgeInternal]
          exact hu
        · rw [nameOf_addEdgeInternal]
          exact hv

end

end MetaCG.Callgraph
