import MetaCG.Pgis.InclusiveStatements
import MetaCG.Pgis.LoadImbalance

/-! `LIEstimatorPhase::modifyGraph` (`LIEstimatorPhase.cpp`, `LIMetaData.h`, `LIConfig.h`).

The phase compares floating point numbers that come from the profile alone, so the outcomes of these comparisons are
parameters, and so is the product of a number of statements with the configured fraction. The debug output is left out, and
with it the search for synchronization points, which does nothing else. -/
namespace MetaCG.Pgis
open Foundations Analysis
set_option autoImplicit false
set_option maxHeartbeats 250000
set_option maxRecDepth 120000

inductive ContextStrategy where
  | allPathsToMain
  | majorPathsToMain
  | majorParentSteps
  | none
  | findSynchronizationPoints
deriving DecidableEq

inductive ChildRelevanceStrategy where
  | constantThreshold
  | relativeToMain
  | relativeToParent
  | all
deriving DecidableEq

/-- What the phase reads from its configuration; `contextStepCount` is the `int` that is handed on. -/
structure LIConfig where
  contextStrategy : ContextStrategy
  contextStepCount : ℤ
  childRelevanceStrategy : ChildRelevanceStrategy
  childConstantThreshold : ℕ
  /-- `inclusiveStatements * childFraction`, a `double`, converted to `Statements` -/
  timesChildFraction : ℕ → ℕ

/-- Whether the runtime of a function reaches the relevance threshold, whether its metric reaches the imbalance threshold, and
the value of the metric. -/
structure LIProfile where
  relevant : ℕ → Bool
  imbalanced : ℕ → Bool
  assessment : ℕ → ℚ

/-- Change the metadata of one node in place. -/
def LIStore.update (li : LIStore) (node : ℕ) (f : LIMetaData → LIMetaData) : LIStore := Function.update li node (f (li node))

/-- A fraction of the statements, but at least the constant threshold. -/
def relativeThreshold (config : LIConfig) (inclusiveStatements : ℕ) : ℕ :=
  max (config.timesChildFraction inclusiveStatements) config.childConstantThreshold

def statementThreshold (config : LIConfig) (li : LIStore) (mainMethod n : ℕ) : ℕ :=
  match config.childRelevanceStrategy with
  | .all => 0
  | .constantThreshold => config.childConstantThreshold
  | .relativeToParent => relativeThreshold config (li n).inclusiveStatements
  | .relativeToMain => relativeThreshold config (li mainMethod).inclusiveStatements

/-- Possible implementations of a virtual function are children of it. -/
def grandchildren (order : List ℕ → List ℕ) (g : Callgraph) (li : LIStore) (child : ℕ) : Except Exn (List ℕ) :=
  if (li child).isVirtualFunction then getCallees order g child else .ok []

-- An irrelevant child is not instrumented. The flag is that of the moment: it may have been set in the same run.
def instrumentChildIf (li : LIStore) (statementThreshold : ℕ) (md : MetaStore) (child : ℕ) : MetaStore :=
  if statementThreshold ≤ (li child).inclusiveStatements && !(li child).irrelevant then instrumentNode md child else md

/-- The loop of `instrumentRelevantChildren`. -/
def relevantChildrenLoop (order : List ℕ → List ℕ) (g : Callgraph) (li : LIStore) (statementThreshold : ℕ) (md : MetaStore)
    (visitedSet : Finset ℕ) (workQueue : List ℕ) : Except Exn MetaStore :=
  match workQueue with
  | [] => .ok md
  | child :: workQueue =>
    if _hchild : child ∈ visitedSet then relevantChildrenLoop order g li statementThreshold md visitedSet workQueue
    else match _hslot : g.slot child with
      | none => .error .nullDereference
      | some _ =>
        match grandchildren order g li child with
        | .error e => .error e
        | .ok gcs =>
          relevantChildrenLoop order g li statementThreshold (instrumentChildIf li statementThreshold md child)
            (insert child visitedSet) (workQueue ++ gcs)
termination_by Search.pending (Finset.range g.nodes.length) visitedSet workQueue
decreasing_by
  · exact Search.pending_skip _ le_rfl
  · exact Search.pending_visit (Finset.mem_range.mpr (Callgraph.slot_lt _hslot)) _hchild ..

def instrumentRelevantChildren (order : List ℕ → List ℕ) (g : Callgraph) (li : LIStore) (node statementThreshold : ℕ)
    (md : MetaStore) : Except Exn MetaStore := do
  relevantChildrenLoop order g li statementThreshold md ∅ (← getCallees order g node)

def resetNode (g : Callgraph) (md : MetaStore) (node : ℕ) : Except Exn MetaStore := do
  let _ ← deref g node
  return resetInstrumentation md node

/-- A round of the loop that looks for load imbalance. -/
def processNode (order : List ℕ → List ℕ) (g : Callgraph) (config : LIConfig) (profile : LIProfile) (mainMethod : ℕ)
    (s : MetaStore × LIStore) (node : ℕ) : Except Exn (MetaStore × LIStore) := do
  let _ ← deref g node
  if (s.1 node).piraOne.wasInPreviousProfile && !(s.2 node).irrelevant then
    let li := s.2.update node fun l => { l with visited := true }
    if profile.relevant node then
      let md ← instrumentRelevantChildren order g li node (statementThreshold config li mainMethod node) s.1
      if profile.imbalanced node then
        return (instrumentNode md node,
          li.update node fun l => { l with assessment := some (profile.assessment node), imbalanced := true })
      else return (md, li.update node fun l => { l with irrelevant := true })
    else return (s.1, li.update node fun l => { l with irrelevant := true })
  else return s

/-- The strategies that go back to main: which of the nodes on the paths are kept. -/
def relevantPaths (config : LIConfig) (li : LIStore) (nodesOnPathToMain : List ℕ) : List ℕ :=
  match config.contextStrategy with
  | .majorPathsToMain | .majorParentSteps => nodesOnPathToMain.filter fun x => (li x).visited
  | _ => nodesOnPathToMain

def contextHandling (order : List ℕ → List ℕ) (g : Callgraph) (config : LIConfig) (li : LIStore) (mainNode : ℕ)
    (s : MetaStore × ReachabilityAnalysis) (n : ℕ) : Except Exn (MetaStore × ReachabilityAnalysis) :=
  if config.contextStrategy = .none ∨ config.contextStrategy = .findSynchronizationPoints then .ok s
  else do
    let (nodesToMain, ra) ← allNodesToMain order n mainNode g ∅ s.2
    let relevant := relevantPaths config li (order nodesToMain)
    let toInstrument ← (if config.contextStrategy = .majorParentSteps
      then relevant.filterM fun x => reachableInNSteps order g x n config.contextStepCount
      else .ok relevant)
    return (toInstrument.foldl instrumentNode s.1, ra)

/-- A round of the loop over the imbalanced functions. -/
def handleImbalanced (order : List ℕ → List ℕ) (g : Callgraph) (config : LIConfig) (li : LIStore) (mainNode : ℕ)
    (s : MetaStore × ReachabilityAnalysis) (n : ℕ) : Except Exn (MetaStore × ReachabilityAnalysis) := do
  let _ ← deref g n
  if (li n).imbalanced then contextHandling order g config li mainNode s n else return s

def LIEstimatorPhase.modifyGraph (order : List ℕ → List ℕ) (g : Callgraph) (config : LIConfig) (profile : LIProfile)
    (mainMethod : ℕ) (md : MetaStore) (li : LIStore) : Except Exn (MetaStore × LIStore) := do
  let _ ← deref g mainMethod
  let md ← (List.range g.nodes.length).foldlM (resetNode g) md
  let (md, li) ← (List.range g.nodes.length).foldlM (processNode order g config profile mainMethod)
    (instrumentNode md mainMethod, li)
  let (md, _) ← (List.range g.nodes.length).foldlM (handleImbalanced order g config li mainMethod) (md, .create g)
  return (md, li)

/-! ## What is instrumented -/

/-- The nodes of `S` are instrumented and nothing else is changed. -/
def Selects (md md' : MetaStore) (S : ℕ → Prop) : Prop :=
  ∀ n, (S n → md' n = { md n with instrumentation := .instrumented }) ∧ (¬S n → md' n = md n)

section
variable {md md' md'' : MetaStore} {S S' : ℕ → Prop}

theorem Selects.refl (md : MetaStore) : Selects md md fun _ => False := fun _ => ⟨False.elim, fun _ => rfl⟩

theorem Selects.congr (h : Selects md md' S) (hS : ∀ n, S n ↔ S' n) : Selects md md' S' := fun n =>
  ⟨fun hn => (h n).1 ((hS n).mpr hn), fun hn => (h n).2 fun hs => hn ((hS n).mp hs)⟩

theorem Selects.trans (h : Selects md md' S) (h' : Selects md' md'' S') : Selects md md'' fun n => S n ∨ S' n := by
  intro n
  have hfirst : S n ∨ ¬S n := em (S n)
  refine ⟨fun hn => ?_, fun hn => ?_⟩
  · by_cases hs' : S' n
    · rw [(h' n).1 hs']
      rcases hfirst with hs | hs
      · rw [(h n).1 hs]
      · rw [(h n).2 hs]
    · rw [(h' n).2 hs', (h n).1 (hn.resolve_right hs')]
  · rw [not_or] at hn
    rw [(h' n).2 hn.2, (h n).2 hn.1]

theorem Selects.instrumentNode (md : MetaStore) (node : ℕ) : Selects md (instrumentNode md node) fun n => n = node := by
  intro n
  rw [Pgis.instrumentNode, setInstrumentation_apply]
  exact ⟨fun hn => by rw [if_pos hn], fun hn => by rw [if_neg hn]⟩

theorem Selects.foldl (md : MetaStore) (l : List ℕ) : Selects md (l.foldl Pgis.instrumentNode md) fun n => n ∈ l := by
  induction l generalizing md with
  | nil => exact (Selects.refl md).congr fun n => (iff_of_false id List.not_mem_nil)
  | cons a l ih => exact ((Selects.instrumentNode md a).trans (ih _)).congr fun n => List.mem_cons.symm

theorem Selects.piraOne (h : Selects md md' S) (n : ℕ) : (md' n).piraOne = (md n).piraOne := by
  by_cases hn : S n
  · rw [(h n).1 hn]
  · rw [(h n).2 hn]

theorem Selects.isAnyInstrumented (h : Selects md md' S) {n : ℕ} :
    Pgis.isAnyInstrumented md' n = true ↔ S n ∨ Pgis.isAnyInstrumented md n = true := by
  unfold Pgis.isAnyInstrumented
  by_cases hn : S n
  · rw [(h n).1 hn]
    exact iff_of_true rfl (.inl hn)
  · rw [(h n).2 hn]
    exact (or_iff_right hn).symm

end

/-! ## The children of a function -/

/-- `v` may implement the virtual function `u`. -/
def Implements (g : Callgraph) (li : LIStore) (u v : ℕ) : Prop := (li u).isVirtualFunction = true ∧ Calls g u v

/-- `n` is a callee of `p`, where virtual callees are passed on to what they call. -/
def ChildOf (g : Callgraph) (li : LIStore) (p n : ℕ) : Prop :=
  ∃ c, Calls g p c ∧ Relation.ReflTransGen (Implements g li) c n

section
variable {order : List ℕ → List ℕ} {g : Callgraph} {p threshold : ℕ} (li : LIStore)

theorem grandchildren_ok (h : g.Wf) (hord : ∀ l, (order l).Perm l) {child : ℕ} (hlive : g.hasNode child = true) :
    ∃ gcs, grandchildren order g li child = .ok gcs ∧ ∀ v, v ∈ gcs ↔ Implements g li child v := by
  unfold grandchildren Implements
  cases (li child).isVirtualFunction with
  | false => exact ⟨[], rfl, fun v => iff_of_false List.not_mem_nil fun hv => Bool.false_ne_true hv.1⟩
  | true =>
    obtain ⟨callees, hc, -, hmem⟩ := getCallees_ok h hord hlive
    exact ⟨callees, hc, fun v => (hmem v).trans (and_iff_right rfl).symm⟩

/-- The flag that is read is the one that `li` holds. -/
def Instrumentable (li : LIStore) (threshold n : ℕ) : Prop :=
  threshold ≤ (li n).inclusiveStatements ∧ (li n).irrelevant = false

theorem instrumentChildIf_selects (threshold : ℕ) (md : MetaStore) (child : ℕ) :
    Selects md (instrumentChildIf li threshold md child) fun n => n = child ∧ Instrumentable li threshold n := by
  unfold instrumentChildIf Instrumentable
  split_ifs with hchild
  · simp only [Bool.and_eq_true, decide_eq_true_iff, Bool.not_eq_true'] at hchild
    exact (Selects.instrumentNode md child).congr fun n => ⟨fun hn => ⟨hn, hn ▸ hchild⟩, fun hn => hn.1⟩
  · refine (Selects.refl md).congr fun n => iff_of_false id ?_
    rintro ⟨rfl, hle, hirr⟩
    simp [hle, hirr] at hchild

theorem relevantChildrenLoop_spec (threshold : ℕ) (md₀ : MetaStore) (h : g.Wf) (hord : ∀ l, (order l).Perm l)
    {md : MetaStore} {V : Finset ℕ} {Q : List ℕ}
    (hf : Search.FrontierFrom (Implements g li) (Calls g p) V Q) (hlive : ∀ n ∈ Q, g.hasNode n = true)
    (hmd : Selects md₀ md fun n => n ∈ V ∧ Instrumentable li threshold n) :
    ∃ md', relevantChildrenLoop order g li threshold md V Q = .ok md' ∧
      Selects md₀ md' fun n => ChildOf g li p n ∧ Instrumentable li threshold n := by
  fun_induction relevantChildrenLoop order g li threshold md V Q with
  | case1 md V => exact ⟨md, rfl, hmd.congr fun n => and_congr_left' (hf.done n)⟩
  | case2 md V child Q hvisited ih => exact ih (hf.skip hvisited) (fun n hn => hlive n (List.mem_cons_of_mem _ hn)) hmd
  | case3 md V child Q hnew hslot =>
    obtain ⟨n, hn⟩ := (g.hasNode_iff child).mp (hlive child (List.mem_cons_self ..))
    rw [hslot] at hn
    cases hn
  | case4 md V child Q hnew n hslot e he =>
    obtain ⟨_, hok, -⟩ := grandchildren_ok li h hord (hlive child (List.mem_cons_self ..))
    rw [he] at hok
    cases hok
  | case5 md V child Q hnew n hslot gcs hgcs ih =>
    have hchild := hlive child (List.mem_cons_self ..)
    obtain ⟨_, hok, hmem⟩ := grandchildren_ok li h hord hchild
    rw [hgcs] at hok
    cases hok
    refine ih (hf.visitAll hmem) (fun n hn => ?_) ((hmd.trans (instrumentChildIf_selects li threshold md child)).congr fun n => ?_)
    · rcases List.mem_append.mp hn with hn | hn
      · exact hlive n (List.mem_cons_of_mem _ hn)
      · exact (h.edge_live child n ((hmem n).mp hn).2).2
    · rw [Finset.mem_insert, ← or_and_right, or_comm]

/-- The children with enough statements that are not flagged are instrumented. -/
theorem instrumentRelevantChildren_spec (threshold : ℕ) (h : g.Wf) (hord : ∀ l, (order l).Perm l) (hlive : g.hasNode p = true)
    (md : MetaStore) :
    ∃ md', instrumentRelevantChildren order g li p threshold md = .ok md' ∧
      Selects md md' fun n => ChildOf g li p n ∧ Instrumentable li threshold n := by
  obtain ⟨callees, hc, -, hmem⟩ := getCallees_ok h hord hlive
  obtain ⟨md', hloop, hmd'⟩ := relevantChildrenLoop_spec li threshold md h hord
    (.initial hmem) (fun n hn => (h.edge_live p n ((hmem n).mp hn)).2)
    ((Selects.refl md).congr fun n => iff_of_false id fun hn => absurd hn.1 (Finset.notMem_empty n))
  refine ⟨md', ?_, hmd'⟩
  unfold instrumentRelevantChildren
  rw [hc]
  exact hloop

end

/-! ## The loop over the functions -/

/-- The phase looks at the function. -/
def Processed (md : MetaStore) (li : LIStore) (n : ℕ) : Prop :=
  (md n).piraOne.wasInPreviousProfile = true ∧ (li n).irrelevant = false

/-- The function is found to be important and imbalanced. -/
def FoundImbalanced (profile : LIProfile) (md : MetaStore) (li : LIStore) (n : ℕ) : Prop :=
  Processed md li n ∧ profile.relevant n = true ∧ profile.imbalanced n = true

/-- The phase flags the function as irrelevant. -/
def BecomesIrrelevant (profile : LIProfile) (md : MetaStore) (li : LIStore) (n : ℕ) : Prop :=
  Processed md li n ∧ ¬(profile.relevant n = true ∧ profile.imbalanced n = true)

/-- `n` is a child with enough statements of the important function `p`, and not flagged as irrelevant before the phase. -/
def Eligible (g : Callgraph) (config : LIConfig) (profile : LIProfile) (mainMethod : ℕ) (md : MetaStore) (li : LIStore)
    (p n : ℕ) : Prop :=
  Processed md li p ∧ profile.relevant p = true ∧ ChildOf g li p n ∧ Instrumentable li (statementThreshold config li mainMethod p) n

/-- The metadata of a function that has been processed. -/
def settle (profile : LIProfile) (n : ℕ) (l : LIMetaData) : LIMetaData :=
  if profile.relevant n && profile.imbalanced n then
    { l with visited := true, assessment := some (profile.assessment n), imbalanced := true }
  else { l with visited := true, irrelevant := true }

open Classical in
/-- The metadata when the functions with smaller ids than `k` have been processed. -/
noncomputable def LIStore.after (profile : LIProfile) (md : MetaStore) (li : LIStore) (k : ℕ) : LIStore := fun n =>
  if n < k ∧ Processed md li n then settle profile n (li n) else li n

/-- What the round of `p` instruments: a child that has become irrelevant in an earlier round is left out. -/
def AddedBy (g : Callgraph) (config : LIConfig) (profile : LIProfile) (mainMethod : ℕ) (md : MetaStore) (li : LIStore)
    (p n : ℕ) : Prop :=
  (FoundImbalanced profile md li n ∧ n = p) ∨
    (Eligible g config profile mainMethod md li p n ∧ ¬(n < p ∧ BecomesIrrelevant profile md li n))

section
variable {order : List ℕ → List ℕ} {g : Callgraph} {config : LIConfig} {profile : LIProfile} {mainMethod k n : ℕ} {md : MetaStore}
  {li li' : LIStore}

/-- The metadata that is not a flag. -/
def SameCounts (li li' : LIStore) : Prop :=
  ∀ n, (li' n).inclusiveStatements = (li n).inclusiveStatements ∧ (li' n).isVirtualFunction = (li n).isVirtualFunction

theorem settle_fields (profile : LIProfile) (n : ℕ) (l : LIMetaData) :
    (settle profile n l).inclusiveStatements = l.inclusiveStatements ∧
      (settle profile n l).isVirtualFunction = l.isVirtualFunction := by
  unfold settle
  split_ifs <;> exact ⟨rfl, rfl⟩

theorem after_sameCounts (k : ℕ) : SameCounts li (li.after profile md k) := by
  classical
  intro n
  unfold LIStore.after
  split_ifs
  · exact settle_fields profile n (li n)
  · exact ⟨rfl, rfl⟩

theorem SameCounts.update (h : SameCounts li li') (k : ℕ) {f : LIMetaData → LIMetaData}
    (hf : ∀ l, (f l).inclusiveStatements = l.inclusiveStatements ∧ (f l).isVirtualFunction = l.isVirtualFunction) :
    SameCounts li (li'.update k f) := by
  intro n
  unfold LIStore.update
  by_cases hn : n = k
  · subst hn
    rw [Function.update_self]
    exact ⟨(hf _).1.trans (h n).1, (hf _).2.trans (h n).2⟩
  · rw [Function.update_of_ne hn]
    exact h n

theorem SameCounts.childOf (h : SameCounts li li') : ChildOf g li' = ChildOf g li := by
  have himpl : Implements g li' = Implements g li := by
    funext u v
    unfold Implements
    rw [(h u).2]
  unfold ChildOf
  rw [himpl]

theorem SameCounts.statementThreshold (h : SameCounts li li') :
    statementThreshold config li' mainMethod = statementThreshold config li mainMethod := by
  funext n
  unfold Pgis.statementThreshold
  rw [(h n).1, (h mainMethod).1]

/-- Whether a function is irrelevant when `k` is processed. -/
theorem after_irrelevant (k n : ℕ) :
    ((li.after profile md k) n).irrelevant = false ↔ (li n).irrelevant = false ∧ ¬(n < k ∧ BecomesIrrelevant profile md li n) := by
  classical
  unfold LIStore.after
  by_cases hn : n < k ∧ Processed md li n
  · rw [if_pos hn]
    unfold settle BecomesIrrelevant
    have hirr := hn.2.2
    cases profile.relevant n <;> cases profile.imbalanced n <;> simp [hn, hirr]
  · rw [if_neg hn]
    unfold BecomesIrrelevant
    exact ⟨fun hirr => ⟨hirr, fun hk => hn ⟨hk.1, hk.2.1⟩⟩, fun h => h.1⟩

theorem after_visited {size : ℕ} (hn : n < size) :
    ((li.after profile md size) n).visited = true ↔ (li n).visited = true ∨ Processed md li n := by
  classical
  unfold LIStore.after
  by_cases hp : Processed md li n
  · rw [if_pos ⟨hn, hp⟩]
    unfold settle
    split_ifs <;> exact iff_of_true rfl (.inr hp)
  · rw [if_neg fun hk => hp hk.2]
    exact (or_iff_left hp).symm

theorem after_imbalanced {size : ℕ} (hn : n < size) :
    ((li.after profile md size) n).imbalanced = true ↔ (li n).imbalanced = true ∨ FoundImbalanced profile md li n := by
  classical
  unfold LIStore.after FoundImbalanced
  by_cases hp : Processed md li n
  · rw [if_pos ⟨hn, hp⟩]
    unfold settle
    cases profile.relevant n <;> cases profile.imbalanced n <;> simp [hp]
  · rw [if_neg fun hk => hp hk.2]
    exact (or_iff_left fun hfound => hp hfound.1).symm

/-- The round of `k` settles it. -/
theorem after_succ (k : ℕ) (hk : Processed md li k) :
    li.after profile md (k + 1) = Function.update (li.after profile md k) k (settle profile k (li k)) := by
  classical
  funext n
  unfold LIStore.after
  by_cases hn : n = k
  · subst hn
    rw [Function.update_self, if_pos ⟨Nat.lt_succ_self n, hk⟩]
  · rw [Function.update_of_ne hn]
    have hlt : n < k + 1 ↔ n < k := by omega
    simp only [hlt]

theorem after_succ_skip (k : ℕ) (hk : ¬Processed md li k) : li.after profile md (k + 1) = li.after profile md k := by
  classical
  funext n
  unfold LIStore.after
  have hiff : n < k + 1 ∧ Processed md li n ↔ n < k ∧ Processed md li n := by
    refine and_congr_left fun hn => ?_
    have hne : n ≠ k := fun he => hk (he ▸ hn)
    omega
  simp only [hiff]

theorem after_self (k : ℕ) : (li.after profile md k) k = li k := by
  classical
  unfold LIStore.after
  exact if_neg fun h => lt_irrefl k h.1

theorem update_update (li : LIStore) (k : ℕ) (f f' : LIMetaData → LIMetaData) :
    (li.update k f).update k f' = Function.update li k (f' (f (li k))) := by
  unfold LIStore.update
  rw [Function.update_self, Function.update_idem]

/-- The children that the round of `k` instruments. -/
theorem processChildren_spec (config : LIConfig) (mainMethod : ℕ) (h : g.Wf) (hord : ∀ l, (order l).Perm l)
    (hlive : g.hasNode k = true) (hk : Processed md li k)
    (hrel : profile.relevant k = true) (md₁ : MetaStore) {A : LIStore}
    (hA : A = (li.after profile md k).update k fun l => { l with visited := true }) :
    ∃ md', instrumentRelevantChildren order g A k (statementThreshold config A mainMethod k) md₁ = .ok md' ∧
      Selects md₁ md' fun n => Eligible g config profile mainMethod md li k n ∧ ¬(n < k ∧ BecomesIrrelevant profile md li n) := by
  have hsame : SameCounts li A := hA ▸ (after_sameCounts k).update k fun _ => ⟨rfl, rfl⟩
  have hirr : ∀ n, (A n).irrelevant = ((li.after profile md k) n).irrelevant := by
    intro n
    rw [hA]
    unfold LIStore.update
    by_cases hn : n = k
    · subst hn
      rw [Function.update_self]
    · rw [Function.update_of_ne hn]
  obtain ⟨md', hok, hmd'⟩ := instrumentRelevantChildren_spec A (statementThreshold config A mainMethod k) h hord hlive md₁
  refine ⟨md', hok, hmd'.congr fun n => ?_⟩
  unfold Instrumentable Eligible
  rw [hsame.childOf, hsame.statementThreshold, (hsame n).1, hirr, after_irrelevant]
  unfold Instrumentable
  constructor
  · rintro ⟨hchild, hle, hirr, hnot⟩
    exact ⟨⟨hk, hrel, hchild, hle, hirr⟩, hnot⟩
  · rintro ⟨⟨-, -, hchild, hle, hirr⟩, hnot⟩
    exact ⟨hchild, hle, hirr, hnot⟩

/-- One round: the function is settled, and what it adds is instrumented. -/
theorem processNode_spec (h : g.Wf) (hord : ∀ l, (order l).Perm l) (hlive : g.hasNode k = true) {md₁ : MetaStore}
    (hpira : (md₁ k).piraOne = (md k).piraOne) :
    ∃ md', processNode order g config profile mainMethod (md₁, li.after profile md k) k = .ok (md', li.after profile md (k + 1)) ∧
      Selects md₁ md' (AddedBy g config profile mainMethod md li k) := by
  obtain ⟨node, hnode⟩ := deref_ok hlive
  unfold processNode
  rw [hnode]
  simp only [ok_bind, hpira, after_self]
  by_cases hk : Processed md li k
  · have hcond : ((md k).piraOne.wasInPreviousProfile && !(li k).irrelevant) = true := by
      rw [hk.1, hk.2]
      rfl
    rw [if_pos hcond, after_succ k hk]
    cases hrel : profile.relevant k with
    | false =>
      refine ⟨md₁, ?_, (Selects.refl md₁).congr fun n => iff_of_false id ?_⟩
      · rw [if_neg Bool.false_ne_true, update_update, after_self, settle, hrel]
        rfl
      · rintro (⟨himb, rfl⟩ | ⟨helig, -⟩)
        · exact Bool.false_ne_true (hrel.symm.trans himb.2.1)
        · exact Bool.false_ne_true (hrel.symm.trans helig.2.1)
    | true =>
      obtain ⟨md', hok, hmd'⟩ := processChildren_spec config mainMethod h hord hlive hk hrel md₁ rfl
      rw [if_pos rfl, hok]
      simp only [ok_bind]
      cases himb : profile.imbalanced k with
      | false =>
        refine ⟨md', ?_, hmd'.congr fun n => (or_iff_right ?_).symm⟩
        · rw [if_neg Bool.false_ne_true, update_update, after_self, settle, hrel, himb]
          rfl
        · rintro ⟨hfound, rfl⟩
          exact Bool.false_ne_true (himb.symm.trans hfound.2.2)
      | true =>
        refine ⟨instrumentNode md' k, ?_, (hmd'.trans (Selects.instrumentNode md' k)).congr fun n => ?_⟩
        · rw [if_pos rfl, update_update, after_self, settle, hrel, himb]
          rfl
        · rw [or_comm]
          refine or_congr_left ⟨?_, fun hn => hn.2⟩
          rintro rfl
          exact ⟨⟨hk, hrel, himb⟩, rfl⟩
  · have hcond : ¬((md k).piraOne.wasInPreviousProfile && !(li k).irrelevant) = true := by
      intro hcond
      rw [Bool.and_eq_true, Bool.not_eq_true'] at hcond
      exact hk hcond
    rw [if_neg hcond, after_succ_skip k hk]
    refine ⟨md₁, rfl, (Selects.refl md₁).congr fun n => iff_of_false id ?_⟩
    rintro (⟨himb, rfl⟩ | ⟨helig, -⟩)
    · exact hk himb.1
    · exact hk helig.1

/-- The loop: a function is settled in its round, and everything that a round adds stays. -/
theorem processNodes_spec (h : g.Wf) (hord : ∀ l, (order l).Perm l) {size : ℕ} (hall : ∀ i < size, g.hasNode i = true)
    {md₁ : MetaStore} (hpira : ∀ i, (md₁ i).piraOne = (md i).piraOne) :
    ∃ md', (List.range size).foldlM (processNode order g config profile mainMethod) (md₁, li) =
        .ok (md', li.after profile md size) ∧
      Selects md₁ md' fun n => ∃ p < size, AddedBy g config profile mainMethod md li p n := by
  have hstart : li.after profile md 0 = li := by
    classical
    funext n
    exact if_neg fun hn => Nat.not_lt_zero n hn.1
  have hloop := foldlM_range_total (f := processNode order g config profile mainMethod) (n := size) (s := (md₁, li))
    (J := fun k s => s.2 = li.after profile md k ∧ Selects md₁ s.1 fun n => ∃ p < k, AddedBy g config profile mainMethod md li p n)
    ⟨hstart.symm, (Selects.refl md₁).congr fun n => iff_of_false id fun ⟨p, hp, _⟩ => Nat.not_lt_zero p hp⟩ fun k hk s hJ => ?_
  · obtain ⟨⟨md', li'⟩, hok, rfl, hmd'⟩ := hloop
    exact ⟨md', hok, hmd'⟩
  · obtain ⟨md₂, li₂⟩ := s
    obtain ⟨rfl, hmd₂⟩ := hJ
    obtain ⟨md₃, hok, hmd₃⟩ := processNode_spec h hord (hall k hk) ((hmd₂.piraOne k).trans (hpira k))
    refine ⟨_, hok, rfl, (hmd₂.trans hmd₃).congr fun n => ?_⟩
    simp only [Nat.lt_succ_iff_lt_or_eq, or_and_right, exists_or, exists_eq_left]

end

/-! ## The context of the imbalanced functions -/

/-- The strategy instruments `n` in the context of the function `m`. -/
def InContext (g : Callgraph) (config : LIConfig) (visited : ℕ → Prop) (mainNode m n : ℕ) : Prop :=
  match config.contextStrategy with
  | .none | .findSynchronizationPoints => False
  | .allPathsToMain => ToMain g mainNode m n
  | .majorPathsToMain => ToMain g mainNode m n ∧ visited n
  | .majorParentSteps => (ToMain g mainNode m n ∧ visited n) ∧
      ∃ k : ℕ, k ≤ max config.contextStepCount 0 ∧ PathOf (Calls g) k n m

section
variable {order : List ℕ → List ℕ} {g : Callgraph} {mainNode m : ℕ} {s : MetaStore × ReachabilityAnalysis}

/-- A negative number of steps counts as none. -/
theorem reachableInNSteps_spec (h : g.Wf) (hord : ∀ l, (order l).Perm l) {start : ℕ} (hstart : g.hasNode start = true) (end_ : ℕ)
    (steps : ℤ) :
    ∃ b, reachableInNSteps order g start end_ steps = .ok b ∧
      (b = true ↔ ∃ k : ℕ, k ≤ max steps 0 ∧ PathOf (Calls g) k start end_) := by
  rcases le_or_gt 0 steps with hsteps | hsteps
  · rw [max_eq_left hsteps]
    exact reachableInNSteps_exact h hord hstart hsteps
  · rw [max_eq_right hsteps.le]
    -- without steps left the first round decides
    have hstop : ∀ r : ℤ, ¬0 < r → reachableInNSteps order g start end_ r =
        if start = end_ then .ok true else .ok false := by
      intro r hr
      unfold reachableInNSteps
      rw [reachableLoop, dif_neg (Finset.notMem_empty start), if_neg hr, reachableLoop]
    rw [hstop steps (not_lt.mpr hsteps.le), ← hstop 0 (lt_irrefl 0)]
    exact reachableInNSteps_exact h hord hstart le_rfl

theorem contextHandling_spec (config : LIConfig) (li : LIStore) (h : g.Wf) (hord : ∀ l, (order l).Perm l)
    (hmain : g.hasNode mainNode = true) (hinv : MainInv g mainNode s.2) (hlive : g.hasNode m = true) :
    ∃ s', contextHandling order g config li mainNode s m = .ok s' ∧ MainInv g mainNode s'.2 ∧
      Selects s.1 s'.1 (InContext g config (fun x => (li x).visited = true) mainNode m) := by
  have hinit : PathsRight g mainNode ∅ := fun _ _ hl => (by cases hl)
  obtain ⟨l, ra, hl, hra, hmem⟩ := allNodesToMain_spec h hord hlive hinv hinit
  have hpath : ∀ n, n ∈ order l ↔ ToMain g mainNode m n := fun n => (hord l).mem_iff.trans (hmem n)
  have hvisited : ∀ n, n ∈ (order l).filter (fun x => (li x).visited) ↔ ToMain g mainNode m n ∧ (li n).visited = true := by
    intro n
    rw [List.mem_filter, hpath]
  unfold contextHandling relevantPaths InContext
  cases config.contextStrategy with
  | none => exact ⟨s, if_pos (.inl rfl), hinv, Selects.refl s.1⟩
  | findSynchronizationPoints => exact ⟨s, if_pos (.inr rfl), hinv, Selects.refl s.1⟩
  | allPathsToMain =>
    rw [hl]
    exact ⟨_, rfl, hra, (Selects.foldl s.1 (order l)).congr hpath⟩
  | majorPathsToMain =>
    rw [hl]
    exact ⟨_, rfl, hra, (Selects.foldl s.1 _).congr hvisited⟩
  | majorParentSteps =>
    obtain ⟨kept, hkept, hin⟩ := filterM_ok (l := (order l).filter fun x => (li x).visited)
      (f := fun x => reachableInNSteps order g x m config.contextStepCount) fun x hx =>
        reachableInNSteps_spec h hord (((hvisited x).mp hx).1.live h hmain) m config.contextStepCount
    refine ⟨(kept.foldl instrumentNode s.1, ra), ?_, hra, (Selects.foldl s.1 kept).congr fun n => ?_⟩
    · rw [hl]
      simp only [ok_bind]
      rw [if_neg (by simp), if_pos trivial]
      exact congrArg (· >>= fun toInstrument => .ok (toInstrument.foldl instrumentNode s.1, ra)) hkept
    · rw [hin, hvisited]

/-- The loop over the imbalanced functions. -/
theorem handleImbalanced_spec (config : LIConfig) (li : LIStore) (h : g.Wf) (hord : ∀ l, (order l).Perm l) {size : ℕ}
    (hall : ∀ i < size, g.hasNode i = true) (hmain : g.hasNode mainNode = true) (hinv : MainInv g mainNode s.2) :
    ∃ s', (List.range size).foldlM (handleImbalanced order g config li mainNode) s = .ok s' ∧
      Selects s.1 s'.1 fun n => ∃ m < size, (li m).imbalanced = true ∧
        InContext g config (fun x => (li x).visited = true) mainNode m n := by
  have hloop := foldlM_range_total (f := handleImbalanced order g config li mainNode) (n := size) (s := s) (J := fun k s' =>
    MainInv g mainNode s'.2 ∧ Selects s.1 s'.1 fun n => ∃ m < k, (li m).imbalanced = true ∧
      InContext g config (fun x => (li x).visited = true) mainNode m n)
    ⟨hinv, (Selects.refl s.1).congr fun n => iff_of_false id fun ⟨m, hm, _⟩ => Nat.not_lt_zero m hm⟩ fun k hk t hJ => ?_
  · obtain ⟨s', hok, -, hs'⟩ := hloop
    exact ⟨s', hok, hs'⟩
  · obtain ⟨node, hnode⟩ := deref_ok (hall k hk)
    simp only [Nat.lt_succ_iff_lt_or_eq, or_and_right, exists_or, exists_eq_left]
    unfold handleImbalanced
    rw [hnode]
    simp only [ok_bind]
    by_cases himb : (li k).imbalanced = true
    · obtain ⟨t', hok, hinv', ht'⟩ := contextHandling_spec config li h hord hmain hJ.1 (hall k hk)
      refine ⟨t', ?_, hinv', (hJ.2.trans ht').congr fun n => or_congr_right (and_iff_right himb).symm⟩
      rw [if_pos himb]
      exact hok
    · exact ⟨t, if_neg himb, hJ.1, hJ.2.congr fun n => (or_iff_left fun hn => himb hn.1).symm⟩

end

/-! ## The whole phase -/

/-- The nodes before `k` are not instrumented. -/
def resetBelow (md : MetaStore) (k : ℕ) : MetaStore := fun n => if n < k then { md n with instrumentation := .none } else md n

/-- `n` is instrumented for the context of a function that is flagged as imbalanced, before the phase or by it. -/
def InSomeContext (g : Callgraph) (config : LIConfig) (profile : LIProfile) (mainNode : ℕ) (md : MetaStore) (li : LIStore)
    (n : ℕ) : Prop :=
  ∃ m < g.nodes.length, ((li m).imbalanced = true ∨ FoundImbalanced profile md li m) ∧
    InContext g config (fun x => (li x).visited = true ∨ Processed md li x) mainNode m n

/-- What the phase instruments if it takes the functions in the order of `rank`. -/
def Selected (g : Callgraph) (config : LIConfig) (profile : LIProfile) (mainMethod : ℕ) (md : MetaStore) (li : LIStore)
    (rank : ℕ → ℕ) (n : ℕ) : Prop :=
  n = mainMethod ∨ FoundImbalanced profile md li n ∨
    (∃ p, Eligible g config profile mainMethod md li p n ∧ ¬(rank n < rank p ∧ BecomesIrrelevant profile md li n)) ∨
    InSomeContext g config profile mainMethod md li n

section
variable {order : List ℕ → List ℕ} {g : Callgraph} {config : LIConfig} {profile : LIProfile} {main n p : ℕ} {md : MetaStore}
  {li : LIStore}

theorem resetNodes_ok {size : ℕ} (hall : ∀ i < size, g.hasNode i = true) (md : MetaStore) :
    (List.range size).foldlM (resetNode g) md = .ok (resetBelow md size) := by
  have hstart : md = resetBelow md 0 := funext fun n => (if_neg (Nat.not_lt_zero n)).symm
  have hloop := foldlM_range_total (f := resetNode g) (n := size) (J := fun k s => s = resetBelow md k) hstart fun k hk s hs => ?_
  · obtain ⟨_, hok, rfl⟩ := hloop
    exact hok
  · obtain ⟨node, hnode⟩ := deref_ok (hall k hk)
    refine ⟨resetInstrumentation s k, ?_, ?_⟩
    · unfold resetNode
      rw [hnode]
      rfl
    · subst hs
      funext n
      rw [resetInstrumentation, setInstrumentation_apply]
      unfold resetBelow
      rcases lt_trichotomy n k with hn | rfl | hn
      · rw [if_neg hn.ne, if_pos hn, if_pos (Nat.lt_succ_of_lt hn)]
      · rw [if_pos rfl, if_neg (lt_irrefl n), if_pos (Nat.lt_succ_self n)]
      · rw [if_neg hn.ne', if_neg hn.not_gt, if_neg (by omega)]

theorem ChildOf.live (h : g.Wf) (hn : ChildOf g li p n) : g.hasNode p = true ∧ g.hasNode n = true := by
  obtain ⟨c, hcall, himpl⟩ := hn
  refine ⟨(h.edge_live p c hcall).1, ?_⟩
  rcases himpl.cases_tail with rfl | ⟨u, -, hstep⟩
  · exact (h.edge_live p _ hcall).2
  · exact (h.edge_live u n hstep.2).2

/-- The rounds add the imbalanced functions and the children that are not flagged at that time. -/
theorem addedBy_iff (h : g.Wf) (hn : n < g.nodes.length) :
    (∃ p < g.nodes.length, AddedBy g config profile main md li p n) ↔ FoundImbalanced profile md li n ∨
      ∃ p, Eligible g config profile main md li p n ∧ ¬(n < p ∧ BecomesIrrelevant profile md li n) := by
  constructor
  · rintro ⟨p, -, ⟨hfound, -⟩ | helig⟩
    · exact .inl hfound
    · exact .inr ⟨p, helig⟩
  · rintro (hfound | ⟨p, helig, hnot⟩)
    · exact ⟨n, hn, .inl ⟨hfound, rfl⟩⟩
    · exact ⟨p, Callgraph.hasNode_lt (helig.2.2.1.live h).1, .inr ⟨helig, hnot⟩⟩

theorem InContext.congr {visited visited' : ℕ → Prop} {m : ℕ} (hvisited : visited n ↔ visited' n) :
    InContext g config visited main m n ↔ InContext g config visited' main m n := by
  unfold InContext
  cases config.contextStrategy <;> simp only [hvisited]

/-- The flags after the loop in terms of those before it. -/
theorem after_context (hn : n < g.nodes.length) :
    (∃ m < g.nodes.length, ((li.after profile md g.nodes.length) m).imbalanced = true ∧
        InContext g config (fun x => ((li.after profile md g.nodes.length) x).visited = true) main m n) ↔
      InSomeContext g config profile main md li n := by
  refine exists_congr fun m => and_congr_right fun hm => ?_
  rw [after_imbalanced hm]
  exact and_congr_right fun _ => InContext.congr (after_visited hn)

/-- The phase settles every function and instruments the selected ones. -/
theorem modifyGraph_selects (h : g.Wf) (hord : ∀ l, (order l).Perm l) (hmain : g.mainNode = some main)
    (hall : ∀ i < g.nodes.length, g.hasNode i = true) :
    ∃ md', LIEstimatorPhase.modifyGraph order g config profile main md li = .ok (md', li.after profile md g.nodes.length) ∧
      ∀ n < g.nodes.length, (isAnyInstrumented md' n = true ↔ Selected g config profile main md li id n) := by
  obtain ⟨node, hnode⟩ := deref_ok (h.main_live main hmain)
  have hreset := resetNodes_ok hall md
  have hinv : MainInv g main (.create g) :=
    .create h (ReachabilityAnalysis.main_eq_some.mpr ⟨_, ReachabilityAnalysis.getMain_of_cached hmain⟩)
  have hfirst := Selects.instrumentNode (resetBelow md g.nodes.length) main
  have hpira : ∀ i, ((instrumentNode (resetBelow md g.nodes.length) main) i).piraOne = (md i).piraOne := by
    intro i
    rw [hfirst.piraOne]
    unfold resetBelow
    split_ifs <;> rfl
  obtain ⟨md₂, hprocess, hmd₂⟩ := processNodes_spec h hord hall hpira
  obtain ⟨⟨md₃, ra⟩, hcontext, hmd₃⟩ := handleImbalanced_spec (s := (md₂, .create g)) config (li.after profile md g.nodes.length) h
    hord hall (h.main_live main hmain) hinv
  refine ⟨md₃, ?_, fun n hn => ?_⟩
  · unfold LIEstimatorPhase.modifyGraph
    rw [hnode]
    simp only [ok_bind]
    rw [hreset]
    simp only [ok_bind]
    rw [hprocess]
    simp only [ok_bind]
    rw [hcontext]
    rfl
  · have hnone : isAnyInstrumented (resetBelow md g.nodes.length) n = false := by
      unfold isAnyInstrumented resetBelow
      rw [if_pos hn]
      rfl
    rw [((hfirst.trans hmd₂).trans hmd₃).isAnyInstrumented, hnone, addedBy_iff h hn, after_context hn]
    unfold Selected
    simp only [id, Bool.false_eq_true, or_false, or_assoc]

/-- A null pointer in the node list stops the phase before it looks at anything. -/
theorem modifyGraph_erased (h : g.Wf) (hmain : g.mainNode = some main) {i : ℕ} (hi : i < g.nodes.length)
    (hdead : g.hasNode i = false) :
    LIEstimatorPhase.modifyGraph order g config profile main md li = .error .nullDereference := by
  have hnull : ∀ node, g.hasNode node = false → deref g node = .error .nullDereference := by
    intro node hnode
    unfold deref
    cases hslot : g.slot node with
    | none => rfl
    | some n => exact absurd (Callgraph.hasNode_of_slot hslot) (Bool.eq_false_iff.mp hnode)
  have herr : ∀ (s : MetaStore) node e, resetNode g s node = .error e → e = .nullDereference := by
    intro s node e he
    unfold resetNode at he
    cases hnode : g.hasNode node with
    | true =>
      obtain ⟨n, hn⟩ := deref_ok hnode
      rw [hn] at he
      cases he
    | false =>
      rw [hnull node hnode] at he
      cases he
      rfl
  have hreset := foldlM_fails md herr ⟨i, List.mem_range.mpr hi, fun s => (by unfold resetNode; rw [hnull i hdead]; rfl)⟩
  obtain ⟨node, hnode⟩ := deref_ok (h.main_live main hmain)
  unfold LIEstimatorPhase.modifyGraph
  rw [hnode]
  simp only [ok_bind]
  rw [hreset]
  rfl

end

end MetaCG.Pgis
