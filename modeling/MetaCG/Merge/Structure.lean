import MetaCG.Merge.Result

/-! The structure of a merged graph: nodes, names, edges and bodies.

`MergedByName` is the contract of `merge` with the policy `MergeByName` for everything but metadata.
The source is passed by value, so nothing has to be said about it. -/
namespace MetaCG
open Foundations
set_option autoImplicit false
set_option maxHeartbeats 250000
set_option maxRecDepth 120000

namespace Callgraph

/-- The name belongs to a live node. -/
def Has (g : Callgraph) (name : String) : Prop := ∃ n ∈ g.liveNodes, n.functionName = name

/-- `g` is `T` with `S` merged into it along the mapping `m`. -/
structure MergedByName (T S : Callgraph) (m : GraphMapping) (g : Callgraph) : Prop where
  mapping_dom : ∀ i, (∃ t, m.lookup i = some t) ↔ S.hasNode i = true
  mapping_name : ∀ i s, S.slot i = some s →
    ∃ t n, m.lookup i = some t ∧ g.slot t = some n ∧ n.functionName = s.functionName
  kept : ∀ i n, T.slot i = some n →
    ∃ n', g.slot i = some n' ∧ n'.id = n.id ∧ n'.functionName = n.functionName
  edges : ∀ u v, (u, v) ∈ g.edges ↔
    (u, v) ∈ T.edges ∨ ∃ a b, (a, b) ∈ S.edges ∧ m.lookup a = some u ∧ m.lookup b = some v
  created : ∀ name, S.Has name → ¬ T.Has name →
    ∃! i, T.slot i = none ∧ ∃ n', g.slot i = some n' ∧ n'.functionName = name
  no_other : ∀ i n', g.slot i = some n' → T.slot i = none → S.Has n'.functionName ∧ ¬ T.Has n'.functionName
  body : ∀ i n', g.slot i = some n' → (n'.hasBody = true ↔ (∃ n, T.slot i = some n ∧ n.hasBody = true) ∨
    ∃ s ∈ S.liveNodes, m.lookup s.id = some i ∧ s.hasBody = true)

section
variable {T S g : Callgraph} {r : MergeRecorder}

theorem Wf.has_iff (h : g.Wf) (name : String) : g.Has name ↔ g.getNodesNamed name ≠ [] := by
  rw [Has, ← hasName_iff h, hasName, Option.isSome_iff_ne_none, ne_eq, firstNamed_eq_none_iff]

theorem Merged.mapped_some (hS : S.Wf) (h : Merged T S r g) {i : ℕ} {s : CgNode} (hs : S.slot i = some s) :
    ∃ t n, r.mapping.lookup i = some t ∧ g.slot t = some n ∧ n.functionName = s.functionName := by
  have hmem : s ∈ S.liveNodes := (S.mem_liveNodes s).mpr ⟨i, hs⟩
  have hname : g.hasName s.functionName = true := by
    rw [h.hasName, (hasName_iff hS _).mpr ⟨s, hmem, rfl⟩, Bool.or_true]
  obtain ⟨t, ht⟩ := Option.isSome_iff_exists.mp hname
  obtain ⟨n, hn, he⟩ := h.wf.slot_firstNamed ht
  refine ⟨t, n, ?_, hn, he⟩
  rw [← hS.node_id i s hs, h.mapped s hmem, ht]

/-- Every id stored in the metadata of the source is mapped. -/
theorem Merged.mapped_refs (hS : S.Wf) (h : Merged T S r g) {ids : List ℕ}
    (hids : ∀ i ∈ ids, S.hasNode i = true) : Mapped r.mapping ids := by
  intro i hi
  obtain ⟨s, hs⟩ := (S.hasNode_iff i).mp (hids i hi)
  obtain ⟨t, -, ht, -⟩ := h.mapped_some hS hs
  exact ⟨t, ht⟩

/-- The target edge of a source edge, through the mapping. -/
theorem Merged.edgeTarget_iff (hS : S.Wf) (h : Merged T S r g) (u v : ℕ) :
    (∃ e ∈ UMap.toPairs S.edges, (u, v) = edgeTarget r e) ↔
      ∃ a b, (a, b) ∈ S.edges ∧ r.mapping.lookup a = some u ∧ r.mapping.lookup b = some v := by
  have hget : ∀ a, S.hasNode a = true → ∀ t, UMap.getD r.mapping a 0 = t ↔ r.mapping.lookup a = some t := by
    intro a ha t
    obtain ⟨s, hs⟩ := (S.hasNode_iff a).mp ha
    obtain ⟨t', -, ht', -⟩ := h.mapped_some hS hs
    rw [UMap.getD, ht', Option.getD_some, Option.some.injEq]
  constructor
  · rintro ⟨e, he, heq⟩
    have hmem : (e.1.1, e.1.2) ∈ S.edges := UMap.mem_of_lookup ((UMap.mem_toPairs e.1 e.2 S.edges).mp he)
    obtain ⟨ha, hb⟩ := hS.edge_live _ _ hmem
    obtain ⟨h1, h2⟩ := Prod.mk.inj heq
    exact ⟨e.1.1, e.1.2, hmem, (hget _ ha u).mp h1.symm, (hget _ hb v).mp h2.symm⟩
  · rintro ⟨a, b, hmem, hu, hv⟩
    obtain ⟨ha, hb⟩ := hS.edge_live a b hmem
    obtain ⟨fields, hf⟩ := (UMap.mem_iff_lookup (a, b) S.edges).mp hmem
    refine ⟨((a, b), fields), (UMap.mem_toPairs _ _ _).mpr hf, ?_⟩
    rw [edgeTarget, (hget a ha u).mpr hu, (hget b hb v).mpr hv]

theorem Merged.byName (hT : T.Wf) (hS : S.Wf) (h : Merged T S r g) : MergedByName T S r.mapping g where
  mapping_dom := by
    intro i
    constructor
    · rintro ⟨t, ht⟩
      obtain ⟨s, hs, rfl⟩ := h.mapped_dom i t ht
      exact hasNode_of_slot (hS.slot_of_mem hs)
    · intro hi
      obtain ⟨s, hs⟩ := (S.hasNode_iff i).mp hi
      obtain ⟨t, -, ht, -⟩ := h.mapped_some hS hs
      exact ⟨t, ht⟩
  mapping_name := fun i s hs => h.mapped_some hS hs
  kept := by
    intro i n hn
    obtain ⟨n', hn', hname⟩ := h.old i n hn
    exact ⟨n', hn', by rw [h.wf.node_id i n' hn', hT.node_id i n hn], hname⟩
  edges := fun u v => by rw [h.edges, h.edgeTarget_iff hS]
  created := by
    intro name hSn hTn
    rw [hT.has_iff, not_not] at hTn
    have hnew := h.new_names name hTn
    rw [if_pos (show ∃ s ∈ S.liveNodes, s.functionName = name from hSn)] at hnew
    obtain ⟨i, hi, hl⟩ := hnew
    have hmem : ∀ j, (∃ n', g.slot j = some n' ∧ n'.functionName = name) ↔ j = i := by
      intro j
      rw [← h.wf.mem_named name j, hl, List.mem_singleton]
    exact ⟨i, ⟨slot_of_ge hi, (hmem i).mpr rfl⟩, fun j hj => (hmem j).mp hj.2⟩
  no_other := by
    intro i n' hn' hTi
    have hin : i ∈ g.getNodesNamed n'.functionName := (h.wf.mem_named _ i).mpr ⟨n', hn', rfl⟩
    have hTn : T.getNodesNamed n'.functionName = [] := by
      by_contra hne
      rw [h.kept_names _ hne, hT.mem_named] at hin
      obtain ⟨n, hn, -⟩ := hin
      rw [hTi] at hn
      cases hn
    have hnew := h.new_names _ hTn
    split_ifs at hnew with hS'
    · exact ⟨hS', by rw [hT.has_iff, not_not]; exact hTn⟩
    · rw [hnew] at hin
      cases hin
  body := by
    intro i n' hn'
    rw [h.body i n' hn', Bool.or_eq_true, Option.any_eq_true, List.any_eq_true]
    simp only [Bool.and_eq_true, decide_eq_true_eq]

end

/-- `merge` returns, with the structure it should have, iff the edge metadata does not clash. -/
theorem merge_byName_iff {T S : Callgraph} (h : Mergeable T S) :
    (∃ r g, merge mergeByName T S = .ok (r, g) ∧ MergedByName T S r.mapping g) ↔ EdgeMetaMergeable T S := by
  obtain ⟨hret, hspec⟩ := merge_cases h
  constructor
  · rintro ⟨r, g, hrun, -⟩
    exact (hspec r g hrun).1
  · intro hmerge
    obtain ⟨r, g, hrun⟩ := hret hmerge
    exact ⟨r, g, hrun, (hspec r g hrun).2.byName h.target h.source⟩

/-- Without edge metadata there are no entries, and nothing can clash. -/
theorem entriesNamed_of_plain {S : Callgraph} (h : ∀ e ∈ UMap.toPairs S.edges, UMap.toPairs e.2 = [])
    (known : String → Bool) (n₁ n₂ : String) : S.entriesNamed known n₁ n₂ = [] := by
  have hnil : (S.edgesNamed n₁ n₂).flatMap entriesOf = [] := by
    rw [List.flatMap_eq_nil_iff]
    intro e he
    rw [entriesOf, h e (List.mem_filter.mp he).1]
    rfl
  rw [entriesNamed, hnil]
  rfl

theorem EdgeMetaMergeable.of_plain {T S : Callgraph} (h : ∀ e ∈ UMap.toPairs S.edges, UMap.toPairs e.2 = []) :
    EdgeMetaMergeable T S := by
  intro n₁ n₂
  rw [entriesNamed_of_plain h]
  exact Kinds.NoClash.nil _

/-! ## Graphs with one call -/

/-- `f` calls `g`, which has no body. -/
def oneCall : Callgraph :=
  (((Callgraph.empty.insertNode "f" none false true).insertNode "g" none false false).addEdgeInternal 0 1).2

/-- The call carries `md`, as the reader of a file stores it. -/
def oneCallWith (md : MetaData) : Callgraph := (oneCall.addEdgeMetaData MetaData.baseKey (0, 1) md).2

theorem oneCall_wf : oneCall.Wf :=
  ((Wf.empty.insertNode "f" none false true (by decide)).insertNode "g" none false false
    (by decide)).addEdgeInternal (by decide) (by decide)

theorem oneCallWith_wf (md : MetaData) : (oneCallWith md).Wf := oneCall_wf.addEdgeMetaData _ _ _

theorem merge_byName_oneCall :
    ∃ r g, merge mergeByName oneCall oneCall = .ok (r, g) ∧ MergedByName oneCall oneCall r.mapping g :=
  (merge_byName_iff ⟨oneCall_wf, oneCall_wf, by decide, by decide, by decide, by decide⟩).mpr
    (EdgeMetaMergeable.of_plain (by decide))

/-- Two files give the same call metadata of different kinds: the merge aborts. -/
theorem merge_oneCall_aborts :
    Mergeable (oneCallWith (.numStatements 1)) (oneCallWith (.loopDepth 2)) ∧
      ¬ ∃ r g, merge mergeByName (oneCallWith (.numStatements 1)) (oneCallWith (.loopDepth 2)) = .ok (r, g) ∧
        MergedByName (oneCallWith (.numStatements 1)) (oneCallWith (.loopDepth 2)) r.mapping g := by
  refine ⟨⟨oneCallWith_wf _, oneCallWith_wf _, by decide, by decide, by decide, by decide⟩, ?_⟩
  rintro ⟨r, g, hrun, -⟩
  have herr : (merge mergeByName (oneCallWith (.numStatements 1)) (oneCallWith (.loopDepth 2))).isOk = false := by
    decide
  rw [hrun] at herr
  cases herr

end Callgraph
end MetaCG
