import MetaCG.Foundations.Search
import MetaCG.Graph.EdgeInvariant

/-! `ReachabilityAnalysis` (`ReachabilityAnalysis.h`, `ReachabilityAnalysis.cpp`).

A `const CgNode*` is the index of the node's slot. `getCallees` returns a `std::unordered_set`;
`order` is the order in which such a set is walked. The search queues a node once for each visited
caller that sees it unvisited, so its queue may hold a node several times. -/
namespace MetaCG.Analysis
open Foundations
set_option autoImplicit false
set_option maxHeartbeats 250000
set_option maxRecDepth 120000

/-- `getCallees(NodeId)` -/
def getCalleesById (g : Callgraph) (node : ℕ) : Except Exn (List ℕ) :=
  if ∀ elem ∈ g.callees node, elem < g.nodes.length then .ok (g.callees node).dedup else .error .outOfRange

/-- The loop of `runForNode`. -/
def search (order : List ℕ → List ℕ) (g : Callgraph) (visitedNodes : Finset ℕ) (workQueue : List ℕ) :
    Except Exn (Finset ℕ) :=
  match workQueue with
  | [] => .ok visitedNodes
  | node :: workQueue =>
    match _hnode : g.slot node with
    | none => .error .nullDereference
    | some n =>
      match getCalleesById g n.id with
      | .error e => .error e
      | .ok callees =>
        search order g (insert node visitedNodes)
          (workQueue ++ (order callees).filter fun childNode => childNode ∉ insert node visitedNodes)
termination_by Search.remaining (Finset.range g.nodes.length) visitedNodes workQueue
decreasing_by
  refine Search.visit_lt (Finset.mem_range.mpr (Callgraph.hasNode_lt (Callgraph.hasNode_of_slot _hnode))) fun v hv => ?_
  exact of_decide_eq_true (List.mem_filter.mp hv).2

/-- The analysis together with the graph that it points to, whose `getMain` caches. -/
structure ReachabilityAnalysis where
  cg : Callgraph
  reachableNodes : UMap ℕ (Finset ℕ)
  computedFor : Finset ℕ

namespace ReachabilityAnalysis

/-- `ReachabilityAnalysis(Callgraph* graph)` -/
def create (graph : Callgraph) : ReachabilityAnalysis := ⟨graph, ∅, ∅⟩

def runForNode (order : List ℕ → List ℕ) (ra : ReachabilityAnalysis) (n : ℕ) : Except Exn ReachabilityAnalysis := do
  let visitedNodes ← search order ra.cg ∅ [n]
  return { ra with computedFor := insert n ra.computedFor, reachableNodes := ra.reachableNodes.insert n visitedNodes }

/-- `cg->getMain()`: the pointer, and the graph with its cache. -/
def getMain (ra : ReachabilityAnalysis) : Except Exn (Option ℕ × ReachabilityAnalysis) :=
  match ra.cg.getMain false with
  | .ok cg => .ok (cg.mainNode, { ra with cg })
  | .error (e, _) => .error e

def computeReachableFromMain (order : List ℕ → List ℕ) (ra : ReachabilityAnalysis) :
    Except Exn ReachabilityAnalysis := do
  match ← ra.getMain with
  | (none, _) => throw (.assertion "Needs to have main node")
  | (some mainNode, ra) => ra.runForNode order mainNode

/-- `node ∈ reachableNodes.find(src)->second` -/
def isReachable (ra : ReachabilityAnalysis) (src node : ℕ) : Except Exn Bool :=
  match ra.reachableNodes.lookup src with
  | some reachable => .ok (decide (node ∈ reachable))
  | none => .error .undefined

/-- `computedFor.find(cg->getMain()) != computedFor.end()`; the null pointer is never in the set. -/
def computedForMain (ra : ReachabilityAnalysis) : Except Exn (Bool × ReachabilityAnalysis) := do
  let (mainNode, ra) ← ra.getMain
  return (mainNode.any fun n => n ∈ ra.computedFor, ra)

def isReachableFromMain (order : List ℕ → List ℕ) (ra : ReachabilityAnalysis) (node : ℕ) (forceUpdate : Bool) :
    Except Exn (Bool × ReachabilityAnalysis) := do
  let (found, ra) ← (if forceUpdate then .ok (false, ra) else ra.computedForMain)
  let ra ← (if found then .ok ra else ra.computeReachableFromMain order)
  match ← ra.getMain with
  | (none, _) => throw .undefined
  | (some mainNode, ra) => return (← ra.isReachable mainNode node, ra)

def existsPathBetween (order : List ℕ → List ℕ) (ra : ReachabilityAnalysis) (src dest : ℕ) (forceUpdate : Bool) :
    Except Exn (Bool × ReachabilityAnalysis) := do
  let ra := if src ∈ ra.reachableNodes then ra else { ra with reachableNodes := ra.reachableNodes.insert src ∅ }
  let ra ← (if !forceUpdate && decide (src ∈ ra.computedFor) then .ok ra else ra.runForNode order src)
  return (← ra.isReachable src dest, ra)

def getReachableNodesFrom (order : List ℕ → List ℕ) (ra : ReachabilityAnalysis) (node : ℕ) (forceUpdate : Bool) :
    Except Exn (Finset ℕ × ReachabilityAnalysis) := do
  let ra ← (if forceUpdate || decide (node ∉ ra.computedFor) then ra.runForNode order node else .ok ra)
  match ra.reachableNodes.lookup node with
  | some reachable => return (reachable, ra)
  | none => throw (.assertion "it != reachableNodes.end()")

end ReachabilityAnalysis

/-! ## One search -/

/-- The call edges. -/
def Calls (g : Callgraph) (u v : ℕ) : Prop := (u, v) ∈ g.edges

instance (g : Callgraph) (u v : ℕ) : Decidable (Calls g u v) := inferInstanceAs (Decidable ((u, v) ∈ g.edges))

section
variable {order : List ℕ → List ℕ} {g : Callgraph}

theorem mem_getCalleesById (h : g.Wf) {u : ℕ} {callees : List ℕ} (hc : getCalleesById g u = .ok callees) (v : ℕ) :
    v ∈ callees ↔ Calls g u v := by
  unfold getCalleesById at hc
  split_ifs at hc
  cases hc
  rw [List.mem_dedup, h.mem_callees, Calls]

theorem getCalleesById_ok (h : g.Wf) (u : ℕ) : ∃ callees, getCalleesById g u = .ok callees := by
  unfold getCalleesById
  rw [if_pos fun v hv => (h.edge_lt ((h.mem_callees u v).mp hv)).2]
  exact ⟨_, rfl⟩

/-- Whatever the search returns is the set of the nodes that the start reaches. -/
theorem search_exact (h : g.Wf) (hord : ∀ l, (order l).Perm l) {s : ℕ} {V : Finset ℕ} {Q : List ℕ}
    (hf : Search.Frontier (Calls g) s V Q) {R : Finset ℕ} (hr : search order g V Q = .ok R) (n : ℕ) :
    n ∈ R ↔ Relation.ReflTransGen (Calls g) s n := by
  fun_induction search order g V Q with
  | case1 V =>
    cases hr
    exact hf.done n
  | case2 => cases hr
  | case3 => cases hr
  | case4 V node Q p hslot callees hc ih =>
    refine ih (hf.visit fun v => ?_) hr
    rw [List.mem_filter, (hord callees).mem_iff, mem_getCalleesById h hc, h.node_id node p hslot, decide_eq_true_iff]

theorem search_returns (h : g.Wf) (hord : ∀ l, (order l).Perm l) (V : Finset ℕ) (Q : List ℕ)
    (hQ : ∀ n ∈ Q, g.hasNode n = true) : ∃ R, search order g V Q = .ok R := by
  fun_induction search order g V Q with
  | case1 V => exact ⟨V, rfl⟩
  | case2 V node Q hslot =>
    have hlive := hQ node (List.mem_cons_self ..)
    rw [Callgraph.hasNode, hslot] at hlive
    cases hlive
  | case3 V node Q p hslot e hc =>
    obtain ⟨callees, hok⟩ := getCalleesById_ok h p.id
    rw [hc] at hok
    cases hok
  | case4 V node Q p hslot callees hc ih =>
    refine ih fun n hn => ?_
    rcases List.mem_append.mp hn with hn | hn
    · exact hQ n (List.mem_cons_of_mem node hn)
    · rw [List.mem_filter, (hord callees).mem_iff, mem_getCalleesById h hc] at hn
      exact (h.edge_live p.id n hn.1).2

end

namespace ReachabilityAnalysis

section
variable {order : List ℕ → List ℕ} {ra ra' : ReachabilityAnalysis}

/-! ## One query -/

/-- The analysis after a search for `n`. -/
def withResult (ra : ReachabilityAnalysis) (n : ℕ) (R : Finset ℕ) : ReachabilityAnalysis :=
  { ra with computedFor := insert n ra.computedFor, reachableNodes := ra.reachableNodes.insert n R }

theorem lookup_withResult (ra : ReachabilityAnalysis) (n : ℕ) (R : Finset ℕ) :
    (ra.withResult n R).reachableNodes.lookup n = some R := AList.lookup_insert _

/-- What the analysis has cached was right for the graph or a part of it. -/
structure CacheInv (ra : ReachabilityAnalysis) : Prop where
  wf : ra.cg.Wf
  cached : ∀ n ∈ ra.computedFor, ∃ R, ra.reachableNodes.lookup n = some R ∧
    ∀ m ∈ R, Relation.ReflTransGen (Calls ra.cg) n m

theorem CacheInv.create {g : Callgraph} (h : g.Wf) : CacheInv (create g) :=
  ⟨h, fun n hn => absurd hn (Finset.notMem_empty n)⟩

/-- A query with the source `n` answers from the set `R` and leaves `ra'`. -/
inductive Answers (ra : ReachabilityAnalysis) (n : ℕ) (forceUpdate : Bool) (R : Finset ℕ) :
    ReachabilityAnalysis → Prop
  | cached (hforce : forceUpdate = false) (hn : n ∈ ra.computedFor) (hR : ra.reachableNodes.lookup n = some R) :
    Answers ra n forceUpdate R ra
  | computed (hforce : forceUpdate = true ∨ n ∉ ra.computedFor)
    (hR : ∀ m, m ∈ R ↔ Relation.ReflTransGen (Calls ra.cg) n m) :
    Answers ra n forceUpdate R (ra.withResult n R)

theorem runForNode_eq (ra : ReachabilityAnalysis) (n : ℕ) :
    ra.runForNode order n = (search order ra.cg ∅ [n]).map (ra.withResult n) := by
  unfold runForNode
  cases search order ra.cg ∅ [n] <;> rfl

theorem getReachableNodesFrom_cached {n : ℕ} {R : Finset ℕ} (hn : n ∈ ra.computedFor)
    (hR : ra.reachableNodes.lookup n = some R) : ra.getReachableNodesFrom order n false = .ok (R, ra) := by
  unfold getReachableNodesFrom
  rw [if_neg (by simpa using hn)]
  change (match ra.reachableNodes.lookup n with
    | some reachable => Except.ok (reachable, ra)
    | none => _) = _
  rw [hR]

theorem getReachableNodesFrom_computed {n : ℕ} {force : Bool} (hc : force = true ∨ n ∉ ra.computedFor) :
    ra.getReachableNodesFrom order n force =
      (search order ra.cg ∅ [n]).map fun R => (R, ra.withResult n R) := by
  unfold getReachableNodesFrom
  rw [if_pos (by simpa using hc), runForNode_eq]
  cases search order ra.cg ∅ [n] with
  | error e => rfl
  | ok R =>
    change (match (ra.withResult n R).reachableNodes.lookup n with
      | some reachable => Except.ok (reachable, ra.withResult n R)
      | none => _) = _
    rw [lookup_withResult]
    rfl

theorem existsPathBetween_cached {n dest : ℕ} {R : Finset ℕ} (hn : n ∈ ra.computedFor)
    (hR : ra.reachableNodes.lookup n = some R) :
    ra.existsPathBetween order n dest false = .ok (decide (dest ∈ R), ra) := by
  have hmem : n ∈ ra.reachableNodes := AList.lookup_isSome.mp (by rw [hR]; rfl)
  unfold existsPathBetween
  simp only [if_pos hmem]
  rw [if_pos (by simpa using hn)]
  change (ra.isReachable n dest).bind (fun b => .ok (b, ra)) = _
  rw [isReachable, hR]
  rfl

theorem existsPathBetween_computed {n dest : ℕ} {force : Bool} (hc : force = true ∨ n ∉ ra.computedFor) :
    ra.existsPathBetween order n dest force =
      (search order ra.cg ∅ [n]).map fun R => (decide (dest ∈ R), ra.withResult n R) := by
  -- making room for the entry first does not change what a search leaves
  have hentry : (if n ∈ ra.reachableNodes then ra else { ra with reachableNodes := ra.reachableNodes.insert n ∅ } :
      ReachabilityAnalysis).runForNode order n = ra.runForNode order n := by
    split_ifs
    · rfl
    · rw [runForNode_eq, runForNode_eq]
      congr 1
      funext R
      simp only [withResult, AList.insert_insert]
  have hsame : (if n ∈ ra.reachableNodes then ra else { ra with reachableNodes := ra.reachableNodes.insert n ∅ } :
      ReachabilityAnalysis).computedFor = ra.computedFor := by
    split_ifs <;> rfl
  unfold existsPathBetween
  simp only [hsame]
  rw [if_neg (by rcases hc with rfl | hn <;> simp [*]), hentry, runForNode_eq]
  cases search order ra.cg ∅ [n] with
  | error e => rfl
  | ok R =>
    change ((ra.withResult n R).isReachable n dest).bind (fun b => .ok (b, ra.withResult n R)) = _
    rw [isReachable, lookup_withResult]
    rfl

/-- `existsPathBetween` looks its answer up in the set that `getReachableNodesFrom` returns. -/
theorem existsPathBetween_eq (h : CacheInv ra) (src dest : ℕ) (force : Bool) :
    ra.existsPathBetween order src dest force =
      (ra.getReachableNodesFrom order src force).map fun r => (decide (dest ∈ r.1), r.2) := by
  by_cases hc : force = true ∨ src ∉ ra.computedFor
  · rw [existsPathBetween_computed hc, getReachableNodesFrom_computed hc]
    cases search order ra.cg ∅ [src] <;> rfl
  · rw [not_or, not_not, Bool.not_eq_true] at hc
    obtain ⟨hforce, hn⟩ := hc
    obtain ⟨R, hR, -⟩ := h.cached src hn
    rw [hforce, existsPathBetween_cached hn hR, getReachableNodesFrom_cached hn hR]
    rfl

theorem getReachableNodesFrom_spec (h : CacheInv ra) (hord : ∀ l, (order l).Perm l) {n : ℕ} {force : Bool} {R : Finset ℕ}
    (hr : ra.getReachableNodesFrom order n force = .ok (R, ra')) : Answers ra n force R ra' := by
  by_cases hc : force = true ∨ n ∉ ra.computedFor
  · rw [getReachableNodesFrom_computed hc] at hr
    cases hs : search order ra.cg ∅ [n] with
    | error e => rw [hs] at hr; cases hr
    | ok R₁ =>
      rw [hs] at hr
      cases hr
      exact .computed hc (search_exact h.wf hord Search.Frontier.initial hs)
  · rw [not_or, not_not, Bool.not_eq_true] at hc
    obtain ⟨rfl, hn⟩ := hc
    obtain ⟨R₁, hR, -⟩ := h.cached n hn
    rw [getReachableNodesFrom_cached hn hR] at hr
    cases hr
    exact .cached rfl hn hR

theorem getReachableNodesFrom_returns (h : CacheInv ra) (hord : ∀ l, (order l).Perm l) {n : ℕ}
    (hn : ra.cg.hasNode n = true) (force : Bool) : ∃ R ra', ra.getReachableNodesFrom order n force = .ok (R, ra') := by
  by_cases hc : force = true ∨ n ∉ ra.computedFor
  · obtain ⟨R, hR⟩ := search_returns h.wf hord ∅ [n] fun m hm => by rw [List.mem_singleton.mp hm]; exact hn
    rw [getReachableNodesFrom_computed hc, hR]
    exact ⟨_, _, rfl⟩
  · rw [not_or, not_not, Bool.not_eq_true] at hc
    obtain ⟨rfl, hmem⟩ := hc
    obtain ⟨R, hR, -⟩ := h.cached n hmem
    exact ⟨_, _, getReachableNodesFrom_cached hmem hR⟩

/-! ## The main node -/

/-- Only the cached pointer changes, and not once it is set. -/
theorem getMain_frame {g g' : Callgraph} (hr : g.getMain false = .ok g') :
    g' = { g with mainNode := g'.mainNode } ∧ (g'.mainNode = none → g' = g) := by
  have hset : ∀ {p : Option ℕ}, g.mainNode = none → g' = { g with mainNode := p } →
      g' = { g with mainNode := g'.mainNode } ∧ (g'.mainNode = none → g' = g) := by
    rintro p hnone rfl
    refine ⟨rfl, fun hp => ?_⟩
    have hp' : p = none := hp
    rw [hp', ← hnone]
  unfold Callgraph.getMain at hr
  simp only [Bool.false_eq_true, if_false] at hr
  split_ifs at hr with hsome
  · cases hr
    exact ⟨rfl, fun _ => rfl⟩
  · have hnone : g.mainNode = none := by simpa using hsome
    have hname : Outcome.guard g (g.findMain Callgraph.mainNames) (fun node => .ok { g with mainNode := node }) = .ok g' →
        ∃ p, g' = { g with mainNode := p } := by
      intro hguard
      obtain ⟨p, -, hp⟩ := Outcome.guard_eq_ok hguard
      cases hp
      exact ⟨p, rfl⟩
    cases hid : g.entryFunctionId with
    | none =>
      rw [hid] at hr
      obtain ⟨p, hp⟩ := hname hr
      exact hset hnone hp
    | some id =>
      rw [hid] at hr
      obtain ⟨node, -, hnode⟩ := Outcome.guard_eq_ok hr
      cases node with
      | none =>
        obtain ⟨p, hp⟩ := hname hnode
        exact hset hnone hp
      | some n =>
        cases hnode
        exact ⟨rfl, fun hp => by cases hp⟩

/-- `getMain` leaves the edges, the nodes and the cached sets as they are. -/
theorem getMain_eq_ok {p : Option ℕ} (hr : ra.getMain = .ok (p, ra')) :
    ra' = { ra with cg := { ra.cg with mainNode := p } } ∧ (p = none → ra' = ra) ∧
      ra.cg.getMain false = .ok ra'.cg := by
  unfold getMain at hr
  cases hm : ra.cg.getMain false with
  | error e => rw [hm] at hr; cases hr
  | ok cg =>
    rw [hm] at hr
    cases hr
    obtain ⟨hcg, hnone⟩ := getMain_frame hm
    exact ⟨by rw [← hcg], fun hp => by rw [hnone hp], rfl⟩

theorem getMain_of_cached {m : ℕ} (hm : ra.cg.mainNode = some m) : ra.getMain = .ok (some m, ra) := by
  unfold getMain Callgraph.getMain
  simp [hm]

theorem computeReachableFromMain_eq {m : ℕ} (hm : ra.getMain = .ok (some m, ra')) :
    ra.computeReachableFromMain order = (search order ra'.cg ∅ [m]).map (ra'.withResult m) := by
  unfold computeReachableFromMain
  rw [hm]
  exact runForNode_eq ra' m

/-- A query about the main node is a query with the main node as the source. -/
theorem isReachableFromMain_eq (h : CacheInv ra') {m : ℕ} (hm : ra.getMain = .ok (some m, ra')) (node : ℕ) (force : Bool) :
    ra.isReachableFromMain order node force = ra'.existsPathBetween order m node force := by
  have hmain : ra'.cg.mainNode = some m := by rw [(getMain_eq_ok hm).1]
  have hm' : ra'.getMain = .ok (some m, ra') := getMain_of_cached hmain
  -- what is left after a search, whichever state it starts from
  have hsearch : ∀ ra₁ : ReachabilityAnalysis, ra₁.getMain = .ok (some m, ra') →
      (do
        let ra₂ ← ra₁.computeReachableFromMain order
        match ← ra₂.getMain with
        | (none, _) => throw Exn.undefined
        | (some mainNode, ra₂) => return (← ra₂.isReachable mainNode node, ra₂)) =
        (search order ra'.cg ∅ [m]).map fun R => (decide (node ∈ R), ra'.withResult m R) := by
    intro ra₁ h₁
    rw [computeReachableFromMain_eq h₁]
    cases search order ra'.cg ∅ [m] with
    | error e => rfl
    | ok R =>
      have hR : (ra'.withResult m R).getMain = .ok (some m, ra'.withResult m R) := getMain_of_cached hmain
      simp only [Except.map, Except.bind, bind, pure, Except.pure, hR, isReachable, lookup_withResult]
  unfold isReachableFromMain
  cases force with
  | true =>
    rw [existsPathBetween_computed (.inl rfl)]
    exact hsearch ra hm
  | false =>
    have hfound : ra.computedForMain = .ok (decide (m ∈ ra'.computedFor), ra') := by
      unfold computedForMain
      rw [hm]
      rfl
    rw [if_neg Bool.false_ne_true, hfound]
    by_cases hmem : m ∈ ra'.computedFor
    · obtain ⟨R, hR, -⟩ := h.cached m hmem
      rw [existsPathBetween_cached hmem hR]
      simp only [Except.bind, bind, pure, Except.pure, hmem, decide_true, if_true, hm', isReachable, hR]
    · rw [existsPathBetween_computed (.inr hmem), ← hsearch ra' hm']
      simp only [bind, Except.bind, hmem, decide_false, Bool.false_eq_true, if_false]

theorem computeReachableFromMain_error (hm : ∀ m ra', ra.getMain ≠ .ok (some m, ra')) :
    ∃ e, ra.computeReachableFromMain order = .error e := by
  unfold computeReachableFromMain
  cases hr : ra.getMain with
  | error e => exact ⟨e, rfl⟩
  | ok r =>
    obtain ⟨p, ra₁⟩ := r
    cases p with
    | some m => exact absurd hr (hm m ra₁)
    | none => exact ⟨_, rfl⟩

/-- Without a main node a query about it fails: with the exception of `getMain`, or the assertion. -/
theorem isReachableFromMain_error (hm : ∀ m ra', ra.getMain ≠ .ok (some m, ra')) (node : ℕ) (force : Bool) :
    ∃ e, ra.isReachableFromMain order node force = .error e := by
  obtain ⟨e, he⟩ : ∃ e, ra.computeReachableFromMain order = .error e := computeReachableFromMain_error hm
  unfold isReachableFromMain
  cases force with
  | true =>
    refine ⟨e, ?_⟩
    simp only [if_true, he, Bool.false_eq_true, if_false, bind, Except.bind]
  | false =>
    unfold computedForMain
    cases hr : ra.getMain with
    | error x => exact ⟨x, rfl⟩
    | ok r =>
      obtain ⟨p, ra₁⟩ := r
      cases p with
      | some m => exact absurd hr (hm m ra₁)
      | none =>
        refine ⟨e, ?_⟩
        have hsame : ra₁ = ra := (getMain_eq_ok hr).2.1 rfl
        simp only [hsame, Option.any_none, he, Bool.false_eq_true, if_false, bind, Except.bind, pure, Except.pure]

end
end ReachabilityAnalysis
end MetaCG.Analysis
