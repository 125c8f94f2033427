import MetaCG.Foundations.BoundedSearch
import MetaCG.Pgis.FillInstrumentationGaps

/-! `LIEstimatorPhase` (`LIEstimatorPhase.cpp`).

The value of the metric is a parameter, since it is computed in floating point from the profile alone. -/
namespace MetaCG.Pgis
open Foundations Analysis
set_option autoImplicit false
set_option maxHeartbeats 250000
set_option maxRecDepth 120000

/-! ## Bounded reachability -/

/-- The loop of `reachableInNSteps`; a task is a node with its remaining steps. -/
def reachableLoop (order : List ℕ → List ℕ) (g : Callgraph) (end_ : ℕ) (visitedSet : Finset ℕ)
    (taskQueue : List (ℕ × ℤ)) : Except Exn Bool :=
  match taskQueue with
  | [] => .ok false
  | (node, remainingSteps) :: taskQueue =>
    if _hnode : node ∈ visitedSet then reachableLoop order g end_ visitedSet taskQueue
    else if node = end_ then .ok true
    else if 0 < remainingSteps then
      match _hchildren : getCallees order g node with
      | .error e => .error e
      | .ok children =>
        reachableLoop order g end_ (insert node visitedSet) (taskQueue ++ children.map fun child => (child, remainingSteps - 1))
    else reachableLoop order g end_ (insert node visitedSet) taskQueue
termination_by Search.pending (Finset.range g.nodes.length) visitedSet (taskQueue.map Prod.fst)
decreasing_by
  · exact Search.pending_skip _ le_rfl
  · exact Search.pending_visit (Finset.mem_range.mpr (Callgraph.hasNode_lt (live_of_neighbours _hchildren))) _hnode ..
  · exact Search.pending_skip _ (Finset.subset_insert ..)

def reachableInNSteps (order : List ℕ → List ℕ) (g : Callgraph) (start end_ : ℕ) (steps : ℤ) : Except Exn Bool :=
  reachableLoop order g end_ ∅ [(start, steps)]

section
variable {order : List ℕ → List ℕ} {g : Callgraph} {start end_ : ℕ} {steps : ℤ}

theorem reachableLoop_spec (h : g.Wf) (hord : ∀ l, (order l).Perm l) {V : Finset ℕ} {R : ℕ → ℤ} {Q : List (ℕ × ℤ)}
    (hf : BoundedSearch.Frontier (Calls g) start steps V R Q) (hnonneg : ∀ x ∈ Q, 0 ≤ x.2)
    (hlive : ∀ x ∈ Q, g.hasNode x.1 = true) (hend : end_ ∉ V) :
    ∃ b, reachableLoop order g end_ V Q = .ok b ∧ (b = true ↔ ∃ k : ℕ, k ≤ steps ∧ PathOf (Calls g) k start end_) := by
  fun_induction reachableLoop order g end_ V Q generalizing R with
  | case1 V =>
    refine ⟨false, rfl, fun hb => absurd hb Bool.false_ne_true, fun ⟨k, hk, hpath⟩ => ?_⟩
    exact absurd (hf.done hpath hk) hend
  | case2 V node r Q hvisited ih =>
    exact ih (hf.skip hvisited) (fun x hx => hnonneg x (List.mem_cons_of_mem _ hx))
      (fun x hx => hlive x (List.mem_cons_of_mem _ hx)) hend
  | case3 V r Q hnew =>
    refine ⟨true, rfl, fun _ => ?_, fun _ => rfl⟩
    obtain ⟨k, hpath, hk⟩ := hf.sound end_ r (List.mem_cons_self ..)
    have hr : 0 ≤ r := hnonneg (end_, r) (List.mem_cons_self ..)
    exact ⟨k, by omega, hpath⟩
  | case4 V node r Q hnew hne hpos e he =>
    obtain ⟨_, hok, -, -⟩ := getCallees_ok h hord (hlive (node, r) (List.mem_cons_self ..))
    rw [he] at hok
    cases hok
  | case5 V node r Q hnew hne hpos children hchildren ih =>
    have hcalls := mem_getCallees h hord hchildren
    have hqueued : ∀ x ∈ Q ++ children.map (fun child => (child, r - 1)), x ∈ Q ∨ (Calls g node x.1 ∧ x.2 = r - 1) := by
      intro x hx
      rcases List.mem_append.mp hx with hx | hx
      · exact .inl hx
      · obtain ⟨child, hchild, rfl⟩ := List.mem_map.mp hx
        exact .inr ⟨(hcalls child).mp hchild, rfl⟩
    refine ih (hf.visit children hnew (fun _ => hcalls) fun hzero => absurd hpos hzero) (fun x hx => ?_) (fun x hx => ?_) ?_
    · rcases hqueued x hx with hx | ⟨-, hx⟩
      · exact hnonneg x (List.mem_cons_of_mem _ hx)
      · omega
    · rcases hqueued x hx with hx | ⟨hcall, -⟩
      · exact hlive x (List.mem_cons_of_mem _ hx)
      · exact (h.edge_live node x.1 hcall).2
    · rw [Finset.mem_insert, not_or]
      exact ⟨Ne.symm hne, hend⟩
  | case6 V node r Q hnew hne hzero ih =>
    have hvisit := hf.visit [] hnew (fun hpos => absurd hpos hzero) fun _ => rfl
    rw [List.map_nil, List.append_nil] at hvisit
    refine ih hvisit (fun x hx => hnonneg x (List.mem_cons_of_mem _ hx)) (fun x hx => hlive x (List.mem_cons_of_mem _ hx)) ?_
    rw [Finset.mem_insert, not_or]
    exact ⟨Ne.symm hne, hend⟩

/-- The search returns and finds exactly the nodes that a call path of at most `steps` edges reaches. -/
theorem reachableInNSteps_exact (h : g.Wf) (hord : ∀ l, (order l).Perm l) (hstart : g.hasNode start = true)
    (hsteps : 0 ≤ steps) :
    ∃ b, reachableInNSteps order g start end_ steps = .ok b ∧
      (b = true ↔ ∃ k : ℕ, k ≤ steps ∧ PathOf (Calls g) k start end_) := by
  refine reachableLoop_spec h hord (.initial (Calls g) start steps fun _ => 0) (fun x hx => ?_) (fun x hx => ?_)
    (Finset.notMem_empty end_)
  · rw [List.mem_singleton.mp hx]
    exact hsteps
  · rw [List.mem_singleton.mp hx]
    exact hstart

end

/-- In the chain of calls `main` reaches `g` in two steps. -/
theorem reachableInNSteps_exact_callChain :
    ∃ b, reachableInNSteps id callChain 0 2 2 = .ok b ∧ (b = true ↔ ∃ k : ℕ, (k : ℤ) ≤ 2 ∧ PathOf (Calls callChain) k 0 2) :=
  reachableInNSteps_exact (Callgraph.run_wf 0 _) (fun l => List.Perm.refl l) (by decide) (by decide)

end MetaCG.Pgis
