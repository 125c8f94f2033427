import MetaCG.Analysis.Dominators

/-! Which nodes the result of `computeDominators` has an entry for.

The incoming neighbours are read with `operator[]`, so every traversal predecessor of a reached node
gets an entry, whether or not the traversal reaches it. -/
namespace MetaCG.Analysis
open Foundations
set_option autoImplicit false
set_option maxHeartbeats 250000
set_option maxRecDepth 120000

/-! ## The keys after the loops of a round -/

theorem mem_access (m : DomAnalysisResult) (k n : ℕ) : n ∈ (access m k).2 ↔ n = k ∨ n ∈ m := by
  unfold access
  cases hl : m.lookup k with
  | some data =>
    have hk : k ∈ m := AList.lookup_isSome.mp (by rw [hl]; rfl)
    exact ⟨.inr, fun h => h.elim (fun he => he ▸ hk) id⟩
  | none => exact AList.mem_insert m

theorem mem_collectInitialized (m : DomAnalysisResult) (ins : List ℕ) (n : ℕ) :
    n ∈ (collectInitialized m ins).2 ↔ n ∈ ins ∨ n ∈ m := by
  have key : ∀ (l acc : List ℕ) (m : DomAnalysisResult),
      n ∈ (l.foldl (fun acc calleePtr =>
        (if (access acc.2 calleePtr).1.initialized then acc.1 ++ [calleePtr] else acc.1, (access acc.2 calleePtr).2))
          (acc, m)).2 ↔ n ∈ l ∨ n ∈ m := by
    intro l
    induction l with
    | nil => exact fun acc m => ⟨.inr, fun h => h.resolve_left List.not_mem_nil⟩
    | cons p l ih =>
      intro acc m
      rw [List.foldl_cons, ih, mem_access, List.mem_cons, or_left_comm, or_assoc]
  exact key ins [] m

theorem mem_queueOut (st : DomState) (k n : ℕ) : n ∈ (queueOut st k).DomMap ↔ n = k ∨ n ∈ st.DomMap := by
  have hacc := mem_access st.DomMap k n
  unfold queueOut
  simp only
  split_ifs with hnode
  · rw [AList.mem_insert, hacc, ← or_assoc, or_self]
  · exact hacc

theorem mem_queueOut_loop (outs : List ℕ) (st : DomState) (n : ℕ) :
    n ∈ (outs.foldl queueOut st).DomMap ↔ n ∈ outs ∨ n ∈ st.DomMap := by
  induction outs generalizing st with
  | nil => exact ⟨.inr, fun h => h.resolve_left List.not_mem_nil⟩
  | cons k outs ih => rw [List.foldl_cons, ih, mem_queueOut, List.mem_cons, or_left_comm, or_assoc]

section
variable {g : Callgraph} {dir : TraverseDir} {s : ℕ} {st st' : DomState}

/-- What a round does to the keys and to the set of nodes that are initialised. -/
structure RoundKeys (g : Callgraph) (dir : TraverseDir) (front : ℕ) (st st' : DomState) : Prop where
  keeps : ∀ n ∈ st.DomMap, n ∈ st'.DomMap
  incoming : ∀ p, TraversalEdge g dir p front → p ∈ st'.DomMap
  new : ∀ n ∈ st'.DomMap, n ∈ st.DomMap ∨ TraversalEdge g dir n front ∨ TraversalEdge g dir front n
  view : ∀ n, (view st'.DomMap n).isSome = true → n = front ∨ (Analysis.view st.DomMap n).isSome = true

/-- The round takes the head of the queue. -/
theorem Next.roundKeys (h : g.Wf) (hl : Linked st) (hn : Next g dir st st') :
    ∃ front rest, st.workQueue = front :: rest ∧ RoundKeys g dir front st st' := by
  have hstep := (Next.spec hl hn).2
  obtain ⟨ins, outs, ⟨front, rest, data, node, hq, hlook, hnode, hins, houts⟩, hrun⟩ := hn
  have hself : node = front := by
    obtain ⟨data', hl', hnode'⟩ := hl.queued front (by rw [hq]; exact List.mem_cons_self ..)
    rw [hlook] at hl'
    cases hl'
    rw [hnode] at hnode'
    exact Option.some.inj hnode'
  subst hself
  have hin : ∀ p, p ∈ ins ↔ TraversalEdge g dir p node := fun p => by rw [hins.mem_iff, mem_incoming h]
  have hout : ∀ p, p ∈ outs ↔ TraversalEdge g dir node p := fun p => by rw [houts.mem_iff, mem_outgoing h]
  have hnodeMem : node ∈ st.DomMap := AList.lookup_isSome.mp (by rw [hlook]; rfl)
  have hmem : (∀ n, n ∈ st'.DomMap ↔ n ∈ ins ∨ n ∈ st.DomMap) ∨
      ∀ n, n ∈ st'.DomMap ↔ n ∈ outs ∨ n ∈ ins ∨ n ∈ st.DomMap := by
    unfold step at hrun
    rw [hq] at hrun
    simp only [hlook, hnode, insert_intersection hins] at hrun
    change (if _ then Except.ok _ else Except.ok _) = _ at hrun
    split_ifs at hrun with hif
    · cases hrun
      right
      intro n
      rw [mem_queueOut_loop, AList.mem_insert, mem_collectInitialized]
      refine or_congr_right ⟨fun hn => hn.elim (fun he => .inr (he ▸ hnodeMem)) id, .inr⟩
    · cases hrun
      exact .inl fun n => mem_collectInitialized ..
  refine ⟨node, rest, hq, fun n hn => ?_, fun p hp => ?_, fun n hn => ?_, fun n hn => ?_⟩
  · rcases hmem with hmem | hmem
    · exact (hmem n).mpr (.inr hn)
    · exact (hmem n).mpr (.inr (.inr hn))
  · rcases hmem with hmem | hmem
    · exact (hmem p).mpr (.inl ((hin p).mpr hp))
    · exact (hmem p).mpr (.inr (.inl ((hin p).mpr hp)))
  · rcases hmem with hmem | hmem
    · exact ((hmem n).mp hn).elim (fun hi => .inr (.inl ((hin n).mp hi))) .inl
    · rcases (hmem n).mp hn with ho | hi | ho
      · exact .inr (.inr ((hout n).mp ho))
      · exact .inr (.inl ((hin n).mp hi))
      · exact .inl ho
  · have hdoms : view st'.DomMap = st'.abs.doms := rfl
    rw [hdoms] at hn
    generalize st'.abs = a at hstep hn
    cases hstep with
    | same hq' heq => exact .inr hn
    | @change q rest' added hq' hne hnodup hadded =>
      have hfront : q = node := by
        rw [show st.abs.queue = node :: rest from hq] at hq'
        cases hq'
        rfl
      subst hfront
      by_cases hnq : n = q
      · exact .inl hnq
      · rw [DominatorWorklist.changed_of_ne st.abs hnq] at hn
        exact .inr hn

/-! ## The entries of every run -/

/-- The node is reached, or a traversal edge leads from it to a reached node. -/
def Touched (g : Callgraph) (dir : TraverseDir) (s n : ℕ) : Prop :=
  Reaches (TraversalEdge g dir) s n ∨ ∃ q, Reaches (TraversalEdge g dir) s q ∧ TraversalEdge g dir n q

/-- Every key is touched, and the traversal predecessors of initialised nodes are keys. -/
structure Entries (g : Callgraph) (dir : TraverseDir) (s : ℕ) (st : DomState) : Prop where
  touched : ∀ n ∈ st.DomMap, Touched g dir s n
  incoming : ∀ q, (view st.DomMap q).isSome = true → ∀ p, TraversalEdge g dir p q → p ∈ st.DomMap

theorem Entries.start : Entries g dir s (start s) where
  touched := by
    intro n hn
    rcases (AList.mem_insert _).mp hn with rfl | hn
    · exact .inl Reaches.start
    · exact absurd hn (AList.notMem_empty n)
  incoming := by
    intro q hq
    have hnone : view (Analysis.start s).DomMap q = none := congrFun (congrArg DominatorWorklist.State.doms (abs_start s)) q
    rw [hnone] at hq
    cases hq

theorem Entries.next (h : g.Wf) (hr : RunInv g dir s st) (he : Entries g dir s st) (hn : Next g dir st st') :
    Entries g dir s st' := by
  obtain ⟨front, rest, hq, hkeys⟩ := hn.roundKeys h hr.linked
  have hreach : Reaches (TraversalEdge g dir) s front := by
    rw [← edge_incoming h]
    refine hr.inv.queue_reaches front ?_
    rw [show st.abs.queue = front :: rest from hq]
    exact List.mem_cons_self ..
  refine ⟨fun n hmem => ?_, fun q hsome p hp => ?_⟩
  · rcases hkeys.new n hmem with hold | hin | hout
    · exact he.touched n hold
    · exact .inr ⟨front, hreach, hin⟩
    · exact .inl (hreach.edge hout)
  · rcases hkeys.view q hsome with rfl | hold
    · exact hkeys.incoming p hp
    · exact hkeys.keeps p (he.incoming q hold p hp)

theorem Entries.reached (h : g.Wf) (hs : g.hasNode s = true) (hr : Reached g dir s st) : Entries g dir s st :=
  (reached_invariant (J := fun st => RunInv g dir s st ∧ Entries g dir s st) ⟨RunInv.start h hs, Entries.start⟩
    (fun _ _ hx hn => ⟨hx.1.next h hs hn, hx.2.next h hx.1 hn⟩) hr).2

/-! ## The result -/

/-- The map has an entry for exactly the reached nodes, and none with an empty set. -/
structure ReachedEntries (g : Callgraph) (dir : TraverseDir) (s : ℕ) (DomMap : DomAnalysisResult) : Prop where
  entry : ∀ n, n ∈ DomMap ↔ Reaches (TraversalEdge g dir) s n
  nonempty : ∀ n data, DomMap.lookup n = some data → data.Doms ≠ ∅

/-- No traversal edge leads from an unreached node to a reached one. -/
def PredecessorsReached (g : Callgraph) (dir : TraverseDir) (s : ℕ) : Prop :=
  ∀ p n, Reaches (TraversalEdge g dir) s n → TraversalEdge g dir p n → Reaches (TraversalEdge g dir) s p

/-- With an empty queue the keys are the touched nodes. -/
theorem Entries.mem_iff (h : g.Wf) (hr : RunInv g dir s st) (he : Entries g dir s st) (hq : st.workQueue = [])
    (n : ℕ) : n ∈ st.DomMap ↔ Touched g dir s n := by
  have hsome : ∀ q, Reaches (TraversalEdge g dir) s q → (view st.DomMap q).isSome = true := by
    intro q hreach
    rw [← edge_incoming h] at hreach
    exact (hr.inv.isSome_iff hq q).mpr hreach
  refine ⟨he.touched n, fun ht => ?_⟩
  rcases ht with hreach | ⟨q, hreach, hedge⟩
  · obtain ⟨data, hl, -⟩ := view_isSome.mp (hsome n hreach)
    exact AList.lookup_isSome.mp (by rw [hl]; rfl)
  · exact he.incoming q (hsome q hreach) n hedge

/-- The set of a reached node holds at least the node. -/
theorem RunInv.self_mem (h : g.Wf) (hr : RunInv g dir s st) (hq : st.workQueue = []) {n : ℕ}
    (hreach : Reaches (TraversalEdge g dir) s n) {data : DomData} (hl : st.DomMap.lookup n = some data) :
    n ∈ data.Doms := by
  rw [← edge_incoming h] at hreach
  obtain ⟨data', hl', hi⟩ := view_isSome.mp ((hr.inv.isSome_iff hq n).mpr hreach)
  rw [hl] at hl'
  cases hl'
  exact (hr.inv.doms_mem n data.Doms (view_eq_some.mpr ⟨data, hl, hi, rfl⟩)).2.2

end

theorem computeDominators_entries_iff {g : Callgraph} (h : g.Wf) (dir : TraverseDir) {s : ℕ} (hs : g.hasNode s = true)
    {st : DomState} (hr : Reached g dir s st) (hq : st.workQueue = []) :
    ReachedEntries g dir s st.DomMap ↔ PredecessorsReached g dir s := by
  have hrun := RunInv.reached h hs hr
  have hmem := (Entries.reached h hs hr).mem_iff h hrun hq
  constructor
  · intro hright p n hreach hedge
    exact (hright.entry p).mp ((hmem p).mpr (.inr ⟨n, hreach, hedge⟩))
  · intro hpred
    have hentry : ∀ n, n ∈ st.DomMap ↔ Reaches (TraversalEdge g dir) s n := by
      intro n
      rw [hmem]
      exact ⟨fun ht => ht.elim id fun ⟨q, hreach, hedge⟩ => hpred n q hreach hedge, .inl⟩
    refine ⟨hentry, fun n data hl => ?_⟩
    have hreach : Reaches (TraversalEdge g dir) s n :=
      (hentry n).mp (AList.lookup_isSome.mp (by rw [hl]; rfl))
    exact Finset.ne_empty_of_mem (hrun.self_mem h hq hreach hl)

/-- `main` calls `a`, and `b`, which nothing calls, calls it too. -/
def unreachedCaller : Callgraph :=
  ((((Callgraph.empty.insertNode "main" none false true).insertNode "a" none false true).insertNode "b" none
    false true).addEdgeInternal 0 1).2.addEdgeInternal 2 1 |>.2

theorem unreachedCaller_wf : unreachedCaller.Wf :=
  ((((Callgraph.Wf.empty.insertNode "main" none false true (by decide)).insertNode "a" none false true
    (by decide)).insertNode "b" none false true (by decide)).addEdgeInternal (by decide) (by decide)).addEdgeInternal
    (by decide) (by decide)

theorem unreachedCaller_entry (p : ℕ) : ¬ TraversalEdge unreachedCaller .Forward p 2 := by
  intro he
  rw [← mem_incoming unreachedCaller_wf] at he
  have hnil : incoming unreachedCaller .Forward 2 = [] := by decide
  rw [hnil] at he
  cases he

/-- The caller that `main` does not reach has an entry, with an empty set. -/
theorem computeDominators_unreachedCaller :
    unreachedCaller.Wf ∧ ∃ st, Reached unreachedCaller .Forward 0 st ∧ st.workQueue = [] ∧
      ¬ Reaches (TraversalEdge unreachedCaller .Forward) 0 2 ∧ st.DomMap.lookup 2 = some ⟨none, ∅, false⟩ ∧
      ¬ ReachedEntries unreachedCaller .Forward 0 st.DomMap := by
  have hlook : ((round unreachedCaller .Forward)^[2] (start 0)).DomMap.lookup 2 = some ⟨none, ∅, false⟩ := by
    decide +kernel
  have hunreached : ¬ Reaches (TraversalEdge unreachedCaller .Forward) 0 2 := by
    intro hreach
    have hne : (2 : ℕ) ≠ 2 := hreach.invariant (P := fun n => n ≠ 2) (by decide) fun p n _ _ he hn =>
      unreachedCaller_entry p (hn ▸ he)
    exact hne rfl
  refine ⟨unreachedCaller_wf, _, reached_rounds (by decide +kernel), by decide +kernel, hunreached, hlook, ?_⟩
  exact fun hright => hright.nonempty 2 _ hlook rfl

theorem diamond_reaches {p : ℕ} (hp : p < 4) : Reaches (TraversalEdge diamond .Forward) 0 p := by
  have hedge : ∀ {u v : ℕ}, (u, v) ∈ diamond.edges → TraversalEdge diamond .Forward u v := id
  have h1 : Reaches (TraversalEdge diamond .Forward) 0 1 := Reaches.start.edge (hedge (by decide))
  obtain rfl | rfl | rfl | rfl : p = 0 ∨ p = 1 ∨ p = 2 ∨ p = 3 := by omega
  · exact Reaches.start
  · exact h1
  · exact Reaches.start.edge (hedge (by decide))
  · exact h1.edge (hedge (by decide))

theorem computeDominators_entries_diamond :
    ∃ st, Reached diamond .Forward 0 st ∧ st.workQueue = [] ∧ ReachedEntries diamond .Forward 0 st.DomMap := by
  have hr : Reached diamond .Forward 0 ((round diamond .Forward)^[5] (start 0)) := reached_rounds (by decide +kernel)
  have hq : ((round diamond .Forward)^[5] (start 0)).workQueue = [] := by decide +kernel
  refine ⟨_, hr, hq, (computeDominators_entries_iff diamond_wf .Forward (by decide) hr hq).mpr ?_⟩
  exact fun p n _ hedge => diamond_reaches (diamond_wf.edge_lt hedge).1

end MetaCG.Analysis
