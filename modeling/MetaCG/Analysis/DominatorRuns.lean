import MetaCG.Graph.EdgeInvariant
import MetaCG.Analysis.DominatorAnalysis

/-! The runs of `computeDominators` over a well-formed call graph.

Every run keeps the dominators inside the computed sets. The analysis is exact, and ends, as long as
the start node, which the loop treats like any other node, is recomputed to itself. -/
namespace MetaCG.Analysis
open Foundations
set_option autoImplicit false
set_option maxHeartbeats 250000
set_option maxRecDepth 120000

/-- The edges in the direction of the traversal. -/
def TraversalEdge (g : Callgraph) : TraverseDir → ℕ → ℕ → Prop
  | .Forward, p, n => (p, n) ∈ g.edges
  | .Backward, p, n => (n, p) ∈ g.edges

section
variable {g : Callgraph} {dir : TraverseDir} {s : ℕ} {st st' : DomState}

theorem mem_getCallers (h : g.Wf) (p n : ℕ) : p ∈ getCallers g n ↔ (p, n) ∈ g.edges := by
  rw [getCallers]
  split_ifs with hn
  · rw [List.mem_dedup, h.mem_callers]
  · exact ⟨fun hp => absurd hp List.not_mem_nil, fun he => absurd (h.edge_live p n he).2 hn⟩

theorem mem_getCallees (h : g.Wf) (n p : ℕ) : p ∈ getCallees g n ↔ (n, p) ∈ g.edges := by
  rw [getCallees]
  split_ifs with hn
  · rw [List.mem_dedup, h.mem_callees]
  · exact ⟨fun hp => absurd hp List.not_mem_nil, fun he => absurd (h.edge_live n p he).1 hn⟩

theorem mem_incoming (h : g.Wf) (dir : TraverseDir) (p n : ℕ) :
    p ∈ incoming g dir n ↔ TraversalEdge g dir p n := by
  cases dir with
  | Forward => exact mem_getCallers h p n
  | Backward => exact mem_getCallees h n p

theorem mem_outgoing (h : g.Wf) (dir : TraverseDir) (p n : ℕ) :
    n ∈ outgoing g dir p ↔ TraversalEdge g dir p n := by
  cases dir with
  | Forward => exact mem_getCallees h p n
  | Backward => exact mem_getCallers h n p

theorem edge_incoming (h : g.Wf) (dir : TraverseDir) :
    DominatorWorklist.Edge (incoming g dir) = TraversalEdge g dir := by
  funext p n
  exact propext (mem_incoming h dir p n)

theorem TraversalEdge.lt (h : g.Wf) {p n : ℕ} (he : TraversalEdge g dir p n) : n < g.nodes.length := by
  cases dir with
  | Forward => exact (h.edge_lt he).2
  | Backward => exact (h.edge_lt he).1

/-- A well-formed call graph is a graph for the worklist in both directions. -/
theorem worklistGraph (h : g.Wf) (dir : TraverseDir) (hs : g.hasNode s = true) :
    DominatorWorklist.Graph (incoming g dir) (outgoing g dir) (Finset.range g.nodes.length) s where
  succ_iff := fun p n => by rw [mem_outgoing h, mem_incoming h]
  start_mem := Finset.mem_range.mpr (Callgraph.hasNode_lt hs)
  closed := fun p n _ hn => Finset.mem_range.mpr (((mem_outgoing h dir p n).mp hn).lt h)

/-! ## All runs -/

/-- What holds in every state of every run. -/
structure RunInv (g : Callgraph) (dir : TraverseDir) (s : ℕ) (st : DomState) : Prop where
  linked : Linked st
  inv : DominatorWorklist.Inv (incoming g dir) (Finset.range g.nodes.length) s st.abs

theorem RunInv.start (h : g.Wf) (hs : g.hasNode s = true) : RunInv g dir s (start s) where
  linked := Linked.start s
  inv := by
    rw [abs_start]
    exact DominatorWorklist.Inv.initial (worklistGraph h dir hs)

theorem Next.spec (hl : Linked st) (hn : Next g dir st st') :
    Linked st' ∧ DominatorWorklist.Step (incoming g dir) (outgoing g dir) st.abs st'.abs := by
  obtain ⟨ins, outs, hord, hstep⟩ := hn
  obtain ⟨st₁, hstep₁, hl₁, hs₁⟩ := step_spec hl hord
  rw [hstep₁] at hstep
  cases hstep
  exact ⟨hl₁, hs₁⟩

theorem RunInv.next (h : g.Wf) (hs : g.hasNode s = true) (hr : RunInv g dir s st) (hn : Next g dir st st') :
    RunInv g dir s st' where
  linked := (Next.spec hr.linked hn).1
  inv := hr.inv.step (worklistGraph h dir hs) (Next.spec hr.linked hn).2

theorem RunInv.reached (h : g.Wf) (hs : g.hasNode s = true) (hr : Reached g dir s st) : RunInv g dir s st :=
  reached_invariant (RunInv.start h hs) (fun _ _ hx hn => hx.next h hs hn) hr

/-- A further round exists, and returns for all orders in which it may walk the neighbours. -/
def GoesOn (g : Callgraph) (dir : TraverseDir) (st : DomState) : Prop :=
  (∃ ins outs, IsOrder g dir st ins outs) ∧
    ∀ ins outs, IsOrder g dir st ins outs → ∃ st', step ins outs st = .ok st'

theorem Linked.goesOn (hl : Linked st) (hq : st.workQueue ≠ []) : GoesOn g dir st := by
  refine ⟨?_, fun ins outs hord => ?_⟩
  · obtain ⟨front, rest, hfront⟩ := List.exists_cons_of_ne_nil hq
    obtain ⟨data, hdata, hnode⟩ := hl.queued front (by rw [hfront]; exact List.mem_cons_self ..)
    exact ⟨_, _, front, rest, data, front, hfront, hdata, hnode, List.Perm.refl _, List.Perm.refl _⟩
  · obtain ⟨st', hstep, -⟩ := step_spec hl hord
    exact ⟨st', hstep⟩

/-! ## Runs that keep the start -/

/-- When the start is next, no other node lies in the sets of all its initialised predecessors. -/
def StartKept (g : Callgraph) (dir : TraverseDir) (s : ℕ) (st : DomState) : Prop :=
  st.workQueue.head? = some s → (∀ p, TraversalEdge g dir p s → view st.DomMap p = none) ∨
    ∀ m, m ≠ s → ∃ p A, TraversalEdge g dir p s ∧ view st.DomMap p = some A ∧ m ∉ A

theorem recompute_start_iff (h : g.Wf) (dir : TraverseDir) (s : ℕ) (m : DomAnalysisResult) :
    DominatorWorklist.recompute (incoming g dir) (view m) s = {s} ↔
      (∀ p, TraversalEdge g dir p s → view m p = none) ∨
        ∀ x, x ≠ s → ∃ p A, TraversalEdge g dir p s ∧ view m p = some A ∧ x ∉ A := by
  by_cases hnone : ∀ p, TraversalEdge g dir p s → view m p = none
  · have hrec : DominatorWorklist.recompute (incoming g dir) (view m) s = {s} :=
      DominatorWorklist.recompute_eq_self fun p hp => hnone p ((mem_incoming h dir p s).mp hp)
    exact ⟨fun _ => .inl hnone, fun _ => hrec⟩
  · have hpred : ∃ p ∈ incoming g dir s, (view m p).isSome = true := by
      push Not at hnone
      obtain ⟨p, hp, hsome⟩ := hnone
      exact ⟨p, (mem_incoming h dir p s).mpr hp, Option.isSome_iff_ne_none.mpr hsome⟩
    rw [Finset.eq_singleton_iff_unique_mem]
    simp only [DominatorWorklist.mem_recompute hpred]
    constructor
    · intro hall
      refine .inr fun x hx => ?_
      by_contra hno
      push Not at hno
      exact hx (hall.2 x (.inr fun p hp A hA => hno p A ((mem_incoming h dir p s).mp hp) hA))
    · rintro (hall | hall)
      · exact absurd hall hnone
      · refine ⟨.inl trivial, fun x hx => ?_⟩
        by_contra hxs
        obtain ⟨p, A, hp, hA, hxA⟩ := hall x hxs
        exact hxA (hx.resolve_left hxs p ((mem_incoming h dir p s).mpr hp) A hA)

theorem startKept_abs (h : g.Wf) :
    StartKept g dir s st ↔ DominatorWorklist.StartKept (incoming g dir) s st.abs := by
  rw [StartKept, ← recompute_start_iff h]
  rfl

/-- What holds in the states of a run in which every round keeps the start. -/
structure KeptInv (g : Callgraph) (dir : TraverseDir) (s : ℕ) (st : DomState) : Prop where
  run : RunInv g dir s st
  pinned : DominatorWorklist.Pinned (incoming g dir) s st.abs

theorem KeptInv.start (h : g.Wf) (hs : g.hasNode s = true) : KeptInv g dir s (start s) where
  run := RunInv.start h hs
  pinned := by
    rw [abs_start]
    exact DominatorWorklist.Pinned.initial

theorem KeptInv.next (h : g.Wf) (hs : g.hasNode s = true) (hr : KeptInv g dir s st)
    (hk : StartKept g dir s st) (hn : Next g dir st st') : KeptInv g dir s st' where
  run := hr.run.next h hs hn
  pinned := hr.pinned.step hr.run.inv ((startKept_abs h).mp hk) (Next.spec hr.run.linked hn).2

/-- The number of rounds that remain. -/
def roundsLeft (g : Callgraph) (st : DomState) : ℕ :=
  DominatorWorklist.measure (Finset.range g.nodes.length) st.abs

theorem KeptInv.roundsLeft_lt (h : g.Wf) (hs : g.hasNode s = true) (hr : KeptInv g dir s st)
    (hk : StartKept g dir s st) (hn : Next g dir st st') : roundsLeft g st' < roundsLeft g st :=
  DominatorWorklist.measure_step (worklistGraph h dir hs) hr.run.inv hr.pinned ((startKept_abs h).mp hk)
    (Next.spec hr.run.linked hn).2

/-- The first `k` rounds of a run from `s`, all of which keep the start. -/
def KeptRun (g : Callgraph) (dir : TraverseDir) (s : ℕ) (f : ℕ → DomState) (k : ℕ) : Prop :=
  f 0 = start s ∧ ∀ i < k, StartKept g dir s (f i) ∧ Next g dir (f i) (f (i + 1))

theorem KeptRun.keptInv (h : g.Wf) (hs : g.hasNode s = true) {f : ℕ → DomState} {k : ℕ}
    (hf : KeptRun g dir s f k) : KeptInv g dir s (f k) := by
  induction k with
  | zero =>
    rw [hf.1]
    exact KeptInv.start h hs
  | succ k ih =>
    have hprev := ih ⟨hf.1, fun i hi => hf.2 i (by omega)⟩
    exact hprev.next h hs (hf.2 k (by omega)).1 (hf.2 k (by omega)).2

theorem KeptRun.length_le (h : g.Wf) (hs : g.hasNode s = true) {f : ℕ → DomState} {k : ℕ}
    (hf : KeptRun g dir s f k) : k ≤ roundsLeft g (Analysis.start s) := by
  have hle := run_length_le (R := fun a b => StartKept g dir s a ∧ Next g dir a b) (J := KeptInv g dir s)
    (fun a b ha hab => ⟨ha.next h hs hab.1 hab.2, ha.roundsLeft_lt h hs hab.1 hab.2⟩)
    (by rw [hf.1]; exact KeptInv.start h hs) hf.2
  rw [hf.1] at hle
  exact hle

theorem KeptInv.start_doms (hr : KeptInv g dir s st) (hq : st.workQueue = []) : view st.DomMap s = some {s} := by
  obtain ⟨A, hA⟩ := Option.isSome_iff_exists.mp ((hr.run.inv.isSome_iff hq s).mpr Reaches.start)
  rw [← hr.pinned.start A hA]
  exact hA

/-- A round that takes the start leaves it with itself alone exactly if the state keeps it. -/
theorem Next.start_iff (h : g.Wf) (hr : RunInv g dir s st) (hn : Next g dir st st')
    (hhead : st.workQueue.head? = some s) : view st'.DomMap s = some {s} ↔ StartKept g dir s st := by
  have hview : view st'.DomMap s =
      some (DominatorWorklist.recompute (incoming g dir) (view st.DomMap) s) := by
    have hfront : ∀ {q rest}, st.abs.queue = q :: rest → q = s := by
      intro q rest hq
      rw [show st.workQueue = q :: rest from hq] at hhead
      exact Option.some.inj hhead
    have hstep := (Next.spec hr.linked hn).2
    generalize hst : st'.abs = a at hstep
    have hdoms : view st'.DomMap = a.doms := by rw [← hst]; rfl
    rw [hdoms]
    cases hstep with
    | same hq heq =>
      rw [hfront hq] at heq
      exact heq
    | change hq hne hnodup hadded =>
      rw [hfront hq]
      exact DominatorWorklist.changed_self ..
  rw [hview, Option.some.injEq, StartKept, recompute_start_iff h]
  exact ⟨fun hk _ => hk, fun hk => hk hhead⟩

/-! ## The start and the calls that lead back to it -/

/-- The start calls itself, or no node that it reaches leads back to it. -/
def StartSafe (g : Callgraph) (dir : TraverseDir) (s : ℕ) : Prop :=
  TraversalEdge g dir s s ∨ ∀ p, Reaches (TraversalEdge g dir) s p → ¬ TraversalEdge g dir p s

theorem KeptInv.startKept (h : g.Wf) (hsafe : StartSafe g dir s) (hr : KeptInv g dir s st) :
    StartKept g dir s st := by
  intro _
  rcases hsafe with hself | hfree
  · cases hD : view st.DomMap s with
    | some A =>
      -- the start is its own predecessor, and its set is itself
      refine .inr fun m hm => ⟨s, A, hself, hD, ?_⟩
      rw [hr.pinned.start A hD, Finset.mem_singleton]
      exact hm
    | none =>
      -- before the first round nothing is initialised
      rcases hr.run.inv.first with hsome | hfirst
      · rw [show st.abs.doms s = none from hD] at hsome
        cases hsome
      · refine .inl fun p _ => ?_
        rw [show view st.DomMap = st.abs.doms from rfl, hfirst]
        rfl
  · refine .inl fun p hp => ?_
    by_contra hne
    obtain ⟨A, hA⟩ := Option.ne_none_iff_exists'.mp hne
    have hreach := hr.run.inv.doms_reaches p A hA
    rw [edge_incoming h] at hreach
    exact hfree p hreach hp

/-- Where the start is safe, all runs are runs that keep it. -/
theorem keptRun_of_safe (h : g.Wf) (hs : g.hasNode s = true) (hsafe : StartSafe g dir s) {f : ℕ → DomState} {k : ℕ}
    (h0 : f 0 = start s) (hrun : ∀ i < k, Next g dir (f i) (f (i + 1))) : KeptRun g dir s f k := by
  induction k with
  | zero => exact ⟨h0, fun i hi => absurd hi (Nat.not_lt_zero i)⟩
  | succ k ih =>
    have hk := ih fun i hi => hrun i (by omega)
    refine ⟨h0, fun i hi => ?_⟩
    by_cases hik : i = k
    · rw [hik]
      exact ⟨(hk.keptInv h hs).startKept h hsafe, hrun k (by omega)⟩
    · exact hk.2 i (by omega)

theorem KeptInv.reached (h : g.Wf) (hs : g.hasNode s = true) (hsafe : StartSafe g dir s)
    (hr : Reached g dir s st) : KeptInv g dir s st :=
  reached_invariant (KeptInv.start h hs) (fun _ _ hx hn => hx.next h hs (hx.startKept h hsafe) hn) hr

/-- No node but the start lies on all ways from the start back to it. -/
def WaysBackDiffer (g : Callgraph) (dir : TraverseDir) (s : ℕ) : Prop :=
  (∀ p, Reaches (TraversalEdge g dir) s p → ¬ TraversalEdge g dir p s) ∨
    ∀ m, m ≠ s → ∃ p, Reaches (TraversalEdge g dir) s p ∧ TraversalEdge g dir p s ∧
      ¬ Dominates (TraversalEdge g dir) s m p

theorem RunInv.waysBackDiffer (h : g.Wf) (hr : RunInv g dir s st) (hq : st.workQueue = [])
    (hstart : view st.DomMap s = some {s}) : WaysBackDiffer g dir s := by
  have hexact : ∀ {n A}, view st.DomMap n = some A → ∀ m, m ∈ A ↔ Dominates (TraversalEdge g dir) s m n := by
    intro n A hA m
    rw [← edge_incoming h]
    refine hr.inv.mem_iff_dominates (fun B hB => ?_) hq hA m
    rw [show view st.DomMap s = some B from hB] at hstart
    exact Option.some.inj hstart
  have hreaches : ∀ n, (view st.DomMap n).isSome = true ↔ Reaches (TraversalEdge g dir) s n := by
    rw [← edge_incoming h]
    exact hr.inv.isSome_iff hq
  have hquiet := hr.inv.quiet s (by rw [show st.abs.queue = [] from hq]; exact List.not_mem_nil) (.inl rfl)
  rw [show st.abs.doms s = some {s} from hstart, Option.some.injEq, eq_comm] at hquiet
  rcases (recompute_start_iff h dir s st.DomMap).mp hquiet with hnone | hall
  · refine .inl fun p hp he => ?_
    have hsome := (hreaches p).mpr hp
    rw [hnone p he] at hsome
    cases hsome
  · refine .inr fun m hm => ?_
    obtain ⟨p, A, he, hA, hmA⟩ := hall m hm
    exact ⟨p, (hreaches p).mp (by rw [hA]; rfl), he, fun hd => hmA ((hexact hA m).mpr hd)⟩

end

/-- As long as every round keeps the start, the run is bounded, goes on until its queue is empty and
leaves the start with itself alone; and a round that takes the start leaves it so only then. A safe
start is kept by all runs, and no run returns the start alone unless the ways back to it differ. -/
theorem computeDominators_start {g : Callgraph} (h : g.Wf) (dir : TraverseDir) {s : ℕ} (hs : g.hasNode s = true) :
    (∃ N, ∀ f k, KeptRun g dir s f k → k ≤ N ∧ (∀ A, view (f k).DomMap s = some A → A = {s}) ∧
      ((f k).workQueue ≠ [] → GoesOn g dir (f k)) ∧
      ((f k).workQueue = [] → view (f k).DomMap s = some {s})) ∧
    (∀ st st', Reached g dir s st → st.workQueue.head? = some s → Next g dir st st' →
      (view st'.DomMap s = some {s} ↔ StartKept g dir s st)) ∧
    (StartSafe g dir s → ∀ f k, f 0 = start s → (∀ i < k, Next g dir (f i) (f (i + 1))) →
      KeptRun g dir s f k) ∧
    (∀ st, Reached g dir s st → st.workQueue = [] → view st.DomMap s = some {s} → WaysBackDiffer g dir s) := by
  refine ⟨⟨roundsLeft g (start s), fun f k hf => ?_⟩, ?_, ?_, ?_⟩
  · have hk := hf.keptInv h hs
    exact ⟨hf.length_le h hs, hk.pinned.start, hk.run.linked.goesOn, hk.start_doms⟩
  · intro st st' hr hhead hn
    exact hn.start_iff h (RunInv.reached h hs hr) hhead
  · exact fun hsafe f k h0 hrun => keptRun_of_safe h hs hsafe h0 hrun
  · exact fun st hr hq hstart => (RunInv.reached h hs hr).waysBackDiffer h hq hstart

/-- The round that walks the neighbours in the order of the lists. -/
def round (g : Callgraph) (dir : TraverseDir) (st : DomState) : DomState :=
  match st.workQueue with
  | [] => st
  | front :: _ =>
    match step (incoming g dir front) (outgoing g dir front) st with
    | .ok st' => st'
    | .error _ => st

theorem Linked.next_round {g : Callgraph} {dir : TraverseDir} {st : DomState} (hl : Linked st)
    (hq : st.workQueue ≠ []) : Next g dir st (round g dir st) := by
  obtain ⟨front, rest, hfront⟩ := List.exists_cons_of_ne_nil hq
  obtain ⟨data, hdata, hnode⟩ := hl.queued front (by rw [hfront]; exact List.mem_cons_self ..)
  have hord : IsOrder g dir st (incoming g dir front) (outgoing g dir front) :=
    ⟨front, rest, data, front, hfront, hdata, hnode, List.Perm.refl _, List.Perm.refl _⟩
  obtain ⟨st', hstep, -⟩ := step_spec hl hord
  refine ⟨_, _, hord, ?_⟩
  rw [round, hfront]
  simp only [hstep]

/-- Rounds with a non-empty queue make up a run. -/
theorem next_rounds {g : Callgraph} {dir : TraverseDir} {s k : ℕ}
    (hq : ∀ i < k, ((round g dir)^[i] (start s)).workQueue ≠ []) :
    Linked ((round g dir)^[k] (start s)) ∧
      ∀ i < k, Next g dir ((round g dir)^[i] (start s)) ((round g dir)^[i + 1] (start s)) := by
  induction k with
  | zero => exact ⟨Linked.start s, fun i hi => absurd hi (Nat.not_lt_zero i)⟩
  | succ k ih =>
    obtain ⟨hl, hrun⟩ := ih fun i hi => hq i (by omega)
    have hn : Next g dir ((round g dir)^[k] (start s)) ((round g dir)^[k + 1] (start s)) := by
      rw [Function.iterate_succ_apply']
      exact hl.next_round (hq k (by omega))
    refine ⟨(Next.spec hl hn).1, fun i hi => ?_⟩
    by_cases hik : i = k
    · rw [hik]
      exact hn
    · exact hrun i (by omega)

theorem reached_rounds {g : Callgraph} {dir : TraverseDir} {s k : ℕ}
    (hq : ∀ i < k, ((round g dir)^[i] (start s)).workQueue ≠ []) :
    Reached g dir s ((round g dir)^[k] (start s)) := by
  induction k with
  | zero => exact Relation.ReflTransGen.refl
  | succ k ih => exact (ih fun i hi => hq i (by omega)).tail ((next_rounds hq).2 k (by omega))

/-- `main` and `a` call each other. -/
def recursivePair : Callgraph :=
  ((((Callgraph.empty.insertNode "main" none false true).insertNode "a" none false true).addEdgeInternal
    0 1).2.addEdgeInternal 1 0).2

theorem recursivePair_wf : recursivePair.Wf :=
  (((Callgraph.Wf.empty.insertNode "main" none false true (by decide)).insertNode "a" none false true
    (by decide)).addEdgeInternal (by decide) (by decide)).addEdgeInternal (by decide) (by decide)

/-- `main` calls `a` and `b`; `a` calls `main`, and `b` calls it through `c`. -/
def twoCycles : Callgraph :=
  (((((recursivePair.insertNode "b" none false true).insertNode "c" none false true).addEdgeInternal
    0 2).2.addEdgeInternal 2 3).2.addEdgeInternal 3 0).2

theorem twoCycles_wf : twoCycles.Wf :=
  ((((recursivePair_wf.insertNode "b" none false true (by decide)).insertNode "c" none false true
    (by decide)).addEdgeInternal (by decide) (by decide)).addEdgeInternal (by decide) (by decide)).addEdgeInternal
    (by decide) (by decide)

theorem twoCycles_period : ∀ i, (round twoCycles .Forward)^[i + 13] (start 0) = (round twoCycles .Forward)^[i + 5] (start 0) := by
  intro i
  rw [Function.iterate_add_apply, Function.iterate_add_apply _ i 5]
  have h : (round twoCycles .Forward)^[13] (start 0) = (round twoCycles .Forward)^[5] (start 0) := by decide +kernel
  rw [h]

theorem twoCycles_queue (i : ℕ) : ((round twoCycles .Forward)^[i] (start 0)).workQueue ≠ [] := by
  have hfirst : ∀ i < 13, ((round twoCycles .Forward)^[i] (start 0)).workQueue ≠ [] := by decide +kernel
  induction i using Nat.strongRecOn with
  | _ i ih =>
    by_cases hi : i < 13
    · exact hfirst i hi
    · obtain ⟨j, rfl⟩ : ∃ j, i = j + 13 := ⟨i - 13, by omega⟩
      rw [twoCycles_period]
      exact ih (j + 5) (by omega)

/-- A recursive `main` as the start: one graph on which the analysis never ends, one on which it
returns a second dominator of `main`. -/
theorem computeDominators_recursiveMain :
    (twoCycles.Wf ∧ ∃ f : ℕ → DomState, f 0 = start 0 ∧ ∀ i, Next twoCycles .Forward (f i) (f (i + 1))) ∧
      recursivePair.Wf ∧ ∃ st, Reached recursivePair .Forward 0 st ∧ st.workQueue = [] ∧ view st.DomMap 0 = some {0, 1} := by
  refine ⟨⟨twoCycles_wf, ?_⟩, recursivePair_wf, ?_⟩
  · exact ⟨fun i => (round twoCycles .Forward)^[i] (start 0), rfl,
      fun i => (next_rounds (k := i + 1) fun j _ => twoCycles_queue j).2 i (by omega)⟩
  · exact ⟨(round recursivePair .Forward)^[4] (start 0), reached_rounds (by decide +kernel), by decide +kernel,
      by decide +kernel⟩

/-- `main` calls itself and `a`, which calls `main`. -/
def selfCall : Callgraph := (recursivePair.addEdgeInternal 0 0).2

theorem selfCall_wf : selfCall.Wf := recursivePair_wf.addEdgeInternal (by decide) (by decide)

theorem computeDominators_start_selfCall :
    ∃ N, ∀ (f : ℕ → DomState) (k : ℕ), f 0 = start 0 → (∀ i < k, Next selfCall .Forward (f i) (f (i + 1))) →
      k ≤ N ∧ ((f k).workQueue = [] → view (f k).DomMap 0 = some {0}) := by
  obtain ⟨⟨N, hN⟩, -, hsafe, -⟩ := computeDominators_start selfCall_wf .Forward (s := 0) (by decide)
  refine ⟨N, fun f k h0 hrun => ?_⟩
  have hf := hN f k (hsafe (.inl (show (0, 0) ∈ selfCall.edges by decide)) f k h0 hrun)
  exact ⟨hf.1, hf.2.2.2⟩

end MetaCG.Analysis
