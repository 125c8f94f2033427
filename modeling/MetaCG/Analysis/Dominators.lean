import MetaCG.Analysis.DominatorRuns

/-! What `computeDominators` computes: the nodes on all paths from the start.

The sets hold these nodes at any time. If no traversal edge enters the start, they are these nodes
when the loop ends. A backward analysis is a forward analysis of the reversed graph. -/
namespace MetaCG.Analysis
open Foundations
set_option autoImplicit false
set_option maxHeartbeats 250000
set_option maxRecDepth 120000

/-! ## The reversed graph -/

/-- The same nodes with all edges reversed. -/
def reverse (g : Callgraph) : Callgraph :=
  { g with
    edges := ⟨g.edges.entries.map fun e => ⟨e.1.swap, e.2⟩, by
      have hkeys : (g.edges.entries.map fun e => (⟨e.1.swap, e.2⟩ : Σ _ : ℕ × ℕ, NamedMetadata)).keys =
          g.edges.keys.map Prod.swap := by
        simp only [AList.keys, List.keys, List.map_map]
        rfl
      rw [List.NodupKeys, hkeys]
      exact g.edges.keys_nodup.map Prod.swap_injective⟩
    callerList := g.calleeList
    calleeList := g.callerList }

theorem mem_reverse (g : Callgraph) (u v : ℕ) : (u, v) ∈ (reverse g).edges ↔ (v, u) ∈ g.edges := by
  rw [AList.mem_keys, AList.mem_keys]
  have hkeys : (reverse g).edges.keys = g.edges.keys.map Prod.swap := by
    simp only [reverse, AList.keys, List.keys, List.map_map]
    rfl
  rw [hkeys, List.mem_map]
  constructor
  · rintro ⟨e, he, heq⟩
    rw [← Prod.swap_swap e, heq] at he
    exact he
  · exact fun he => ⟨(v, u), he, rfl⟩

theorem reverse_wf {g : Callgraph} (h : g.Wf) : (reverse g).Wf where
  callees_nodup := h.callers_nodup
  callers_nodup := h.callees_nodup
  mem_callees := fun u v => (h.mem_callers v u).trans (mem_reverse g u v).symm
  mem_callers := fun u v => (h.mem_callees v u).trans (mem_reverse g u v).symm
  edge_live := fun u v he => (h.edge_live v u ((mem_reverse g u v).mp he)).symm
  node_id := h.node_id
  node_name := h.node_name
  names := h.names
  erased := h.erased
  main_live := h.main_live

/-- The backward rounds are the forward rounds of the reversed graph. -/
theorem next_reverse (g : Callgraph) : Next g .Backward = Next (reverse g) .Forward := rfl

/-! ## The result -/

/-- The sets of the initialised nodes are the dominators, and the reachable nodes are initialised. -/
structure Exact (g : Callgraph) (dir : TraverseDir) (s : ℕ) (DomMap : DomAnalysisResult) : Prop where
  initialized : ∀ n, (∃ data, DomMap.lookup n = some data ∧ data.initialized = true) ↔
    Reaches (TraversalEdge g dir) s n
  doms : ∀ n data, DomMap.lookup n = some data → data.initialized = true →
    ∀ m, m ∈ data.Doms ↔ Dominates (TraversalEdge g dir) s m n

theorem view_isSome {m : DomAnalysisResult} {n : ℕ} :
    (view m n).isSome = true ↔ ∃ data, m.lookup n = some data ∧ data.initialized = true := by
  rw [Option.isSome_iff_exists]
  simp only [view_eq_some]
  exact ⟨fun ⟨_, data, hl, hi, _⟩ => ⟨data, hl, hi⟩, fun ⟨data, hl, hi⟩ => ⟨_, data, hl, hi, rfl⟩⟩

section
variable {g : Callgraph} {dir : TraverseDir} {s : ℕ} {st : DomState}

theorem RunInv.overApprox (h : g.Wf) (hr : RunInv g dir s st) {n : ℕ} {data : DomData}
    (hl : st.DomMap.lookup n = some data) (hi : data.initialized = true) {m : ℕ}
    (hm : Dominates (TraversalEdge g dir) s m n) : m ∈ data.Doms := by
  rw [← edge_incoming h] at hm
  exact hr.inv.overApprox n data.Doms (view_eq_some.mpr ⟨data, hl, hi, rfl⟩) m hm

theorem KeptInv.exact (h : g.Wf) (hr : KeptInv g dir s st) (hq : st.workQueue = []) :
    Exact g dir s st.DomMap where
  initialized := by
    intro n
    rw [← view_isSome, ← edge_incoming h]
    exact hr.run.inv.isSome_iff hq n
  doms := by
    intro n data hl hi m
    rw [← edge_incoming h]
    exact hr.run.inv.mem_iff_dominates hr.pinned.start hq (view_eq_some.mpr ⟨data, hl, hi, rfl⟩) m

end

theorem computeDominators_dominators {g : Callgraph} (h : g.Wf) (dir : TraverseDir) {s : ℕ} (hs : g.hasNode s = true) :
    (∀ st, Reached g dir s st → ∀ n data, st.DomMap.lookup n = some data → data.initialized = true →
      ∀ m, Dominates (TraversalEdge g dir) s m n → m ∈ data.Doms) ∧
    ((∀ p, ¬ TraversalEdge g dir p s) →
      (∃ N, ∀ (f : ℕ → DomState) (k : ℕ), f 0 = start s → (∀ i < k, Next g dir (f i) (f (i + 1))) → k ≤ N) ∧
      ∀ st, Reached g dir s st → (st.workQueue ≠ [] → GoesOn g dir st) ∧
        (st.workQueue = [] → Exact g dir s st.DomMap)) ∧
    ((reverse g).Wf ∧ (∀ u v, (u, v) ∈ (reverse g).edges ↔ (v, u) ∈ g.edges) ∧
      ∀ st, Reached g .Backward s st ↔ Reached (reverse g) .Forward s st) := by
  refine ⟨fun st hr n data hl hi m hm => (RunInv.reached h hs hr).overApprox h hl hi hm, fun hfree => ?_, ?_⟩
  · have hsafe : StartSafe g dir s := .inr fun p _ => hfree p
    refine ⟨⟨roundsLeft g (start s), fun f k h0 hrun => (keptRun_of_safe h hs hsafe h0 hrun).length_le h hs⟩, ?_⟩
    intro st hr
    have hk := KeptInv.reached h hs hsafe hr
    exact ⟨hk.run.linked.goesOn, hk.exact h⟩
  · refine ⟨reverse_wf h, mem_reverse g, fun st => ?_⟩
    rw [Reached, Reached, next_reverse]

/-- `main` calls `a` and `b`, `a` calls itself and `c`, and `b` calls `c`. -/
def diamond : Callgraph :=
  (((((((((Callgraph.empty.insertNode "main" none false true).insertNode "a" none false true).insertNode "b" none
    false true).insertNode "c" none false true).addEdgeInternal 0 1).2.addEdgeInternal 0 2).2.addEdgeInternal
    1 1).2.addEdgeInternal 1 3).2.addEdgeInternal 2 3).2

theorem diamond_wf : diamond.Wf :=
  ((((((((Callgraph.Wf.empty.insertNode "main" none false true (by decide)).insertNode "a" none false true
    (by decide)).insertNode "b" none false true (by decide)).insertNode "c" none false true
    (by decide)).addEdgeInternal (by decide) (by decide)).addEdgeInternal (by decide) (by decide)).addEdgeInternal
    (by decide) (by decide)).addEdgeInternal (by decide) (by decide)).addEdgeInternal (by decide) (by decide)

theorem diamond_entry (p : ℕ) : ¬ TraversalEdge diamond .Forward p 0 := by
  intro he
  rw [← mem_incoming diamond_wf] at he
  have hnil : incoming diamond .Forward 0 = [] := by decide
  rw [hnil] at he
  cases he

theorem computeDominators_dominators_diamond :
    ∃ st, Reached diamond .Forward 0 st ∧ view st.DomMap 3 = some {0, 3} ∧ Exact diamond .Forward 0 st.DomMap := by
  have hr : Reached diamond .Forward 0 ((round diamond .Forward)^[5] (start 0)) := reached_rounds (by decide +kernel)
  exact ⟨_, hr, by decide +kernel,
    (((computeDominators_dominators diamond_wf .Forward (by decide)).2.1 diamond_entry).2 _ hr).2 (by decide +kernel)⟩

end MetaCG.Analysis
