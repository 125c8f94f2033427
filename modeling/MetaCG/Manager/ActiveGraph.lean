import MetaCG.Foundations.Run
import MetaCG.Manager.MCGManager

/-! The active graph over whole sequences of calls to the manager.

The manager owns its graphs through `managedGraphs` while `activeGraph` is a plain pointer. An entry
that is overwritten or cleared destroys its graph. Where a call creates a graph or is handed one, the
address at which that graph lies is an argument, so that nothing depends on the allocator. -/
namespace MetaCG
open Foundations
set_option autoImplicit false
set_option maxHeartbeats 250000
set_option maxRecDepth 120000

namespace MCGManager

def initial : MCGManager := ⟨∅, ∅, none⟩

def resetManager (_ : MCGManager) : MCGManager := ⟨∅, ∅, none⟩

def resetActiveGraph (m : MCGManager) : Except (Exn × MCGManager) MCGManager :=
  match m.activeGraph with
  | none =>
    .error (.assertion "Graph manager could not reset active Graph, no active graph exists", m)
  | some graph =>
    match m.heap.lookup graph with
    | some g => .ok (m.setGraph graph g.clear)
    | none => .error (.undefined, m)

def setActive (m : MCGManager) (callgraph : String) : Except (Exn × MCGManager) MCGManager :=
  match m.managedGraphs.lookup callgraph with
  | some graph => .ok { m with activeGraph := some graph }
  | none => .error (.assertion "Could not set graph to active, graph does not exist", m)

/-- The state after `getCallgraph(name, setActive)`; the pointer it returns is `getCallgraph`. -/
def afterGetCallgraph (m : MCGManager) (name : String) (setActive : Bool) : Except (Exn × MCGManager) MCGManager :=
  if name = "" then .ok m
  else match m.managedGraphs.lookup name with
    | some _ => if setActive then m.setActive name else .ok m
    | none => .ok m

/-- `managedGraphs[name] = std::move(callgraph)` -/
def manage (m : MCGManager) (name : String) (graph : ℕ) (g : Callgraph) : MCGManager :=
  let heap := match m.managedGraphs.lookup name with
    | some old => m.heap.erase old
    | none => m.heap
  { m with heap := heap.insert graph g, managedGraphs := m.managedGraphs.insert name graph }

-- `graph` is where `std::make_unique` puts a new graph.
def getOrCreateCallgraph (m : MCGManager) (name : String) (setActive : Bool) (graph : ℕ) : ℕ × MCGManager :=
  match m.managedGraphs.lookup name with
  | some found => (found, if setActive then { m with activeGraph := some found } else m)
  | none =>
    let m := m.manage name graph Callgraph.empty
    (graph, if setActive then { m with activeGraph := some graph } else m)

def addToManagedGraphs (m : MCGManager) (name : String) (callgraph : Option (ℕ × Callgraph)) (setActive : Bool) :
    Except (Exn × MCGManager) MCGManager :=
  match callgraph with
  | none => .error (.assertion "Could not add to managed graphs, given graph was null", m)
  | some (graph, g) =>
    let m := m.manage name graph g
    .ok (if setActive then { m with activeGraph := some graph } else m)

def getActiveGraphName (m : MCGManager) : Except Exn String :=
  match m.activeGraph with
  | none => .error (.assertion "activeGraph")
  | some graph =>
    match (UMap.toPairs m.managedGraphs).find? fun elem => decide (graph = elem.2) with
    | some elem => .ok elem.1
    | none => .error (.assertion "false")

/-! ## Sequences of calls -/

inductive Call where
  | resetManager
  | resetActiveGraph
  | getCallgraph (name : String) (setActive : Bool)
  | getOrCreateCallgraph (name : String) (setActive : Bool) (graph : ℕ)
  | setActive (callgraph : String)
  | addToManagedGraphs (name : String) (callgraph : Option (ℕ × Callgraph)) (setActive : Bool)
  | mergeIntoActiveGraph (policy : MergePolicy) (order : List String)

/-- The state a call leaves behind, also when it throws. -/
def Call.apply (m : MCGManager) : Call → MCGManager
  | .resetManager => m.resetManager
  | .resetActiveGraph => Outcome.final m.resetActiveGraph
  | .getCallgraph name active => Outcome.final (m.afterGetCallgraph name active)
  | .getOrCreateCallgraph name active graph => (m.getOrCreateCallgraph name active graph).2
  | .setActive callgraph => Outcome.final (m.setActive callgraph)
  | .addToManagedGraphs name callgraph active => Outcome.final (m.addToManagedGraphs name callgraph active)
  | .mergeIntoActiveGraph policy order => Outcome.final (MCGManager.mergeIntoActiveGraph policy order m)

/-- A new graph lies at an address where no managed graph lies. -/
def Permits (m : MCGManager) : Call → Prop
  | .getOrCreateCallgraph _ _ graph => graph ∉ m.heap
  | .addToManagedGraphs _ (some (graph, _)) _ => graph ∉ m.heap
  | _ => True

def runCalls (calls : List Call) : MCGManager := calls.foldl Call.apply initial

def Permitted (calls : List Call) : Prop :=
  ∀ pre call, pre ++ [call] <+: calls → (runCalls pre).Permits call

/-- The active graph exists, is managed under exactly one name, and that name is reported. -/
def ActiveManaged (m : MCGManager) : Prop :=
  ∀ graph, m.activeGraph = some graph → graph ∈ m.heap ∧ ∃ name,
    (∀ name', m.managedGraphs.lookup name' = some graph ↔ name' = name) ∧ m.getActiveGraphName = .ok name

/-- The call puts another graph under the name of the active one and does not make it active. -/
def ReplacesActive (m : MCGManager) : Call → Prop
  | .addToManagedGraphs name (some _) false => ∃ graph, m.activeGraph = some graph ∧ m.managedGraphs.lookup name = some graph
  | _ => False

/-- Each managed name owns a graph of its own. -/
structure Ownership (m : MCGManager) : Prop where
  live : ∀ name graph, m.managedGraphs.lookup name = some graph → graph ∈ m.heap
  unique : ∀ name₁ name₂ graph, m.managedGraphs.lookup name₁ = some graph →
    m.managedGraphs.lookup name₂ = some graph → name₁ = name₂

/-! ## What one call changes -/

/-- Nothing but the contents of graphs differs. -/
structure SameGraphs (m m' : MCGManager) : Prop where
  heap : ∀ graph, graph ∈ m'.heap ↔ graph ∈ m.heap
  managed : m'.managedGraphs = m.managedGraphs
  active : m'.activeGraph = m.activeGraph

theorem SameGraphs.refl (m : MCGManager) : SameGraphs m m := ⟨fun _ => Iff.rfl, rfl, rfl⟩

theorem SameGraphs.setGraph {m₀ m : MCGManager} (h : SameGraphs m₀ m) {graph : ℕ} (hg : graph ∈ m.heap) (g : Callgraph) :
    SameGraphs m₀ (m.setGraph graph g) where
  heap := by
    intro a
    rw [← h.heap a, MCGManager.setGraph, AList.mem_insert]
    constructor
    · rintro (rfl | ha)
      · exact hg
      · exact ha
    · exact Or.inr
  managed := h.managed
  active := h.active

theorem mergeNamed_same {m₀ m : MCGManager} (h : SameGraphs m₀ m) (policy : MergePolicy) (a : ℕ) (name : String) :
    SameGraphs m₀ (Outcome.final (mergeNamed policy a m name)) := by
  unfold mergeNamed
  refine Outcome.final_guard h (fun active _ => ?_)
  split_ifs
  · exact h
  · cases m.getCallgraph name with
    | none => exact h
    | some current =>
      simp only
      split
      · next g other hg _ =>
        have hlive : a ∈ m.heap := UMap.mem_of_lookup hg
        split
        · exact h.setGraph hlive _
        · exact h.setGraph hlive _
      · exact h

theorem mergeIntoActiveGraph_same (m : MCGManager) (policy : MergePolicy) (order : List String) :
    SameGraphs m (Outcome.final (mergeIntoActiveGraph policy order m)) := by
  unfold mergeIntoActiveGraph
  cases m.activeGraph with
  | none => exact .refl m
  | some a =>
    exact Outcome.final_foldlM (I := SameGraphs m) (fun s name hs => mergeNamed_same hs policy a name) order m (.refl m)

theorem resetActiveGraph_same (m : MCGManager) : SameGraphs m (Outcome.final m.resetActiveGraph) := by
  unfold resetActiveGraph
  cases m.activeGraph with
  | none => exact .refl m
  | some a =>
    cases hg : m.heap.lookup a with
    | none => simp only [hg]; exact .refl m
    | some g => simp only [hg]; exact (SameGraphs.refl m).setGraph (UMap.mem_of_lookup hg) _

theorem SameGraphs.ownership {m m' : MCGManager} (h : SameGraphs m m') (ho : m.Ownership) : m'.Ownership where
  live := by
    intro name graph hl
    rw [h.managed] at hl
    exact (h.heap graph).mpr (ho.live name graph hl)
  unique := by
    rw [h.managed]
    exact ho.unique

section
variable {m : MCGManager}

theorem lookup_manage (name name' : String) (graph : ℕ) (g : Callgraph) :
    (m.manage name graph g).managedGraphs.lookup name' = if name' = name then some graph else m.managedGraphs.lookup name' :=
  UMap.lookup_insert_ite name name' graph m.managedGraphs

/-- The graph of any other name survives. -/
theorem mem_heap_manage (ho : m.Ownership) {name name' : String} {graph a : ℕ} (hne : name' ≠ name)
    (ha : m.managedGraphs.lookup name' = some a) (g : Callgraph) : a ∈ (m.manage name graph g).heap := by
  have hlive : a ∈ m.heap := ho.live name' a ha
  unfold manage
  refine (AList.mem_insert _).mpr (.inr ?_)
  cases hold : m.managedGraphs.lookup name with
  | none => exact hlive
  | some old =>
    refine AList.mem_erase.mpr ⟨fun he => hne ?_, hlive⟩
    rw [he] at ha
    exact ho.unique name' name old ha hold

theorem Ownership.manage (ho : m.Ownership) {graph : ℕ} (hfresh : graph ∉ m.heap) (name : String) (g : Callgraph) :
    (m.manage name graph g).Ownership where
  live := by
    intro name' a ha
    rw [lookup_manage] at ha
    split_ifs at ha with hn
    · cases ha
      exact (AList.mem_insert _).mpr (.inl rfl)
    · exact mem_heap_manage ho hn ha g
  unique := by
    intro name₁ name₂ a h₁ h₂
    rw [lookup_manage] at h₁ h₂
    split_ifs at h₁ h₂ with hn₁ hn₂ hn₂
    · rw [hn₁, hn₂]
    · cases h₁
      exact absurd (ho.live name₂ _ h₂) hfresh
    · cases h₂
      exact absurd (ho.live name₁ _ h₁) hfresh
    · exact ho.unique name₁ name₂ a h₁ h₂

theorem Ownership.withActive (ho : m.Ownership) (p : Option ℕ) : Ownership { m with activeGraph := p } :=
  ⟨ho.live, ho.unique⟩

/-- The name that the loop finds is the one name of the active graph. -/
theorem getActiveGraphName_eq (ho : m.Ownership) {graph : ℕ} {name : String} (ha : m.activeGraph = some graph)
    (hn : m.managedGraphs.lookup name = some graph) : m.getActiveGraphName = .ok name := by
  unfold getActiveGraphName
  simp only [ha]
  cases hf : (UMap.toPairs m.managedGraphs).find? fun elem => decide (graph = elem.2) with
  | none =>
    rw [List.find?_eq_none] at hf
    exact absurd (decide_eq_true rfl) (hf (name, graph) ((UMap.mem_toPairs name graph _).mpr hn))
  | some elem =>
    have hmem : (elem.1, elem.2) ∈ UMap.toPairs m.managedGraphs := List.mem_of_find?_eq_some hf
    have hgraph : graph = elem.2 := by simpa using List.find?_some hf
    rw [UMap.mem_toPairs, ← hgraph] at hmem
    exact congrArg Except.ok (ho.unique elem.1 name graph hmem hn)

theorem activeManaged_iff (ho : m.Ownership) :
    m.ActiveManaged ↔ ∀ graph, m.activeGraph = some graph → ∃ name, m.managedGraphs.lookup name = some graph := by
  constructor
  · intro h graph ha
    obtain ⟨-, name, hname, -⟩ := h graph ha
    exact ⟨name, (hname name).mpr rfl⟩
  · intro h graph ha
    obtain ⟨name, hname⟩ := h graph ha
    refine ⟨ho.live name graph hname, name, fun name' => ?_, getActiveGraphName_eq ho ha hname⟩
    constructor
    · exact fun hn => ho.unique name' name graph hn hname
    · intro he
      rw [he]
      exact hname

theorem SameGraphs.activeManaged {m' : MCGManager} (h : SameGraphs m m') (ho : m.Ownership) (ha : m.ActiveManaged) :
    m'.ActiveManaged := by
  rw [activeManaged_iff (h.ownership ho), h.active, h.managed]
  exact (activeManaged_iff ho).mp ha

theorem activeManaged_of_lookup (ho : m.Ownership) {name : String} {graph : ℕ}
    (hn : m.managedGraphs.lookup name = some graph) : ActiveManaged { m with activeGraph := some graph } := by
  rw [activeManaged_iff (ho.withActive _)]
  intro a ha
  cases ha
  exact ⟨name, hn⟩

/-- Managing a graph under `name` keeps the active graph managed unless it was the one of that name. -/
theorem activeManaged_manage_iff (ho : m.Ownership) (ha : m.ActiveManaged) {graph : ℕ} (hfresh : graph ∉ m.heap)
    (name : String) (g : Callgraph) : (m.manage name graph g).ActiveManaged ↔
      ¬ ∃ a, m.activeGraph = some a ∧ m.managedGraphs.lookup name = some a := by
  rw [activeManaged_iff (ho.manage hfresh name g)]
  constructor
  · rintro h ⟨a, hact, hname⟩
    obtain ⟨name', hname'⟩ := h a hact
    rw [lookup_manage] at hname'
    split_ifs at hname' with hn
    · cases hname'
      exact hfresh (ho.live name _ hname)
    · exact hn (ho.unique name' name a hname' hname)
  · intro h a hact
    obtain ⟨name', hname'⟩ := (activeManaged_iff ho).mp ha a hact
    refine ⟨name', ?_⟩
    rw [lookup_manage, if_neg ?_]
    · exact hname'
    · intro he
      exact h ⟨a, hact, he ▸ hname'⟩

end

/-! ## One call and whole sequences -/

section
variable {m : MCGManager}

theorem setActive_spec (ho : m.Ownership) (ha : m.ActiveManaged) (name : String) :
    (Outcome.final (m.setActive name)).Ownership ∧ (Outcome.final (m.setActive name)).ActiveManaged := by
  unfold setActive
  cases hl : m.managedGraphs.lookup name with
  | none => exact ⟨ho, ha⟩
  | some graph => exact ⟨ho.withActive _, activeManaged_of_lookup ho hl⟩

theorem afterGetCallgraph_spec (ho : m.Ownership) (ha : m.ActiveManaged) (name : String) (active : Bool) :
    (Outcome.final (m.afterGetCallgraph name active)).Ownership ∧
      (Outcome.final (m.afterGetCallgraph name active)).ActiveManaged := by
  unfold afterGetCallgraph
  by_cases hn : name = ""
  · rw [if_pos hn]
    exact ⟨ho, ha⟩
  · rw [if_neg hn]
    cases m.managedGraphs.lookup name with
    | none => exact ⟨ho, ha⟩
    | some graph =>
      cases active with
      | true => exact setActive_spec ho ha name
      | false => exact ⟨ho, ha⟩

theorem getOrCreateCallgraph_spec (ho : m.Ownership) (ha : m.ActiveManaged) (name : String) (active : Bool) {graph : ℕ}
    (hfresh : graph ∉ m.heap) : (m.getOrCreateCallgraph name active graph).2.Ownership ∧
      (m.getOrCreateCallgraph name active graph).2.ActiveManaged := by
  unfold getOrCreateCallgraph
  cases hl : m.managedGraphs.lookup name with
  | some found =>
    cases active with
    | true => exact ⟨ho.withActive _, activeManaged_of_lookup ho hl⟩
    | false => exact ⟨ho, ha⟩
  | none =>
    have hown := ho.manage hfresh name Callgraph.empty
    have hlook : (m.manage name graph Callgraph.empty).managedGraphs.lookup name = some graph := by
      rw [lookup_manage, if_pos rfl]
    cases active with
    | true => exact ⟨hown.withActive _, activeManaged_of_lookup hown hlook⟩
    | false =>
      refine ⟨hown, (activeManaged_manage_iff ho ha hfresh name _).mpr ?_⟩
      rintro ⟨a, -, hname⟩
      rw [hl] at hname
      cases hname

theorem addToManagedGraphs_spec (ho : m.Ownership) (ha : m.ActiveManaged) (name : String) (active : Bool) {graph : ℕ}
    (hfresh : graph ∉ m.heap) (g : Callgraph) :
    (Outcome.final (m.addToManagedGraphs name (some (graph, g)) active)).Ownership ∧
      ((Outcome.final (m.addToManagedGraphs name (some (graph, g)) active)).ActiveManaged ↔
        ¬ m.ReplacesActive (.addToManagedGraphs name (some (graph, g)) active)) := by
  have hown := ho.manage hfresh name g
  have hlook : (m.manage name graph g).managedGraphs.lookup name = some graph := by
    rw [lookup_manage, if_pos rfl]
  cases active with
  | true => exact ⟨hown.withActive _, iff_of_true (activeManaged_of_lookup hown hlook) not_false⟩
  | false => exact ⟨hown, activeManaged_manage_iff ho ha hfresh name g⟩

/-- The step lemma: exactly one kind of call loses the active graph. -/
theorem apply_spec (ho : m.Ownership) (ha : m.ActiveManaged) (call : Call) (hp : m.Permits call) :
    (call.apply m).Ownership ∧ ((call.apply m).ActiveManaged ↔ ¬ m.ReplacesActive call) := by
  have keep : ∀ {m' : MCGManager}, m'.Ownership ∧ m'.ActiveManaged → m'.Ownership ∧ (m'.ActiveManaged ↔ ¬ False) :=
    fun h => ⟨h.1, iff_of_true h.2 not_false⟩
  cases call with
  | resetManager =>
    refine keep ⟨⟨fun name graph hl => ?_, fun name _ graph hl => ?_⟩, fun graph hg => ?_⟩
    · exact absurd hl (by simp [Call.apply, resetManager])
    · exact absurd hl (by simp [Call.apply, resetManager])
    · exact absurd hg (by simp [Call.apply, resetManager])
  | resetActiveGraph =>
    have h := resetActiveGraph_same m
    exact keep ⟨h.ownership ho, h.activeManaged ho ha⟩
  | getCallgraph name active =>
    exact keep (afterGetCallgraph_spec ho ha name active)
  | getOrCreateCallgraph name active graph => exact keep (getOrCreateCallgraph_spec ho ha name active hp)
  | setActive name => exact keep (setActive_spec ho ha name)
  | addToManagedGraphs name callgraph active =>
    cases callgraph with
    | none => exact keep ⟨ho, ha⟩
    | some p =>
      have hfresh : p.1 ∉ m.heap := hp
      exact addToManagedGraphs_spec ho ha name active hfresh p.2
  | mergeIntoActiveGraph policy order =>
    have h := mergeIntoActiveGraph_same m policy order
    exact keep ⟨h.ownership ho, h.activeManaged ho ha⟩

end

theorem initial_ownership : initial.Ownership :=
  ⟨fun name graph hl => absurd hl (by simp [initial]), fun name _ graph hl => absurd hl (by simp [initial])⟩

theorem initial_activeManaged : initial.ActiveManaged := fun graph hg => absurd hg (by simp [initial])

theorem runCalls_concat (pre : List Call) (call : Call) : runCalls (pre ++ [call]) = call.apply (runCalls pre) := by
  simp [runCalls]

theorem runCalls_ownership {calls : List Call} (hp : Permitted calls) (hm : ∀ pre, pre <+: calls → (runCalls pre).ActiveManaged) :
    ∀ pre, pre <+: calls → (runCalls pre).Ownership := by
  intro pre
  induction pre using List.reverseRecOn with
  | nil => exact fun _ => initial_ownership
  | append_singleton pre call ih =>
    intro hpre
    have hpre' : pre <+: calls := (List.prefix_append pre [call]).trans hpre
    rw [runCalls_concat]
    exact (apply_spec (ih hpre') (hm pre hpre') call (hp pre call hpre)).1

/-- The run lemma, for the ownership and the active graph together. -/
theorem runCalls_inv_iff {calls : List Call} (hp : Permitted calls) :
    (∀ pre, pre <+: calls → (runCalls pre).Ownership ∧ (runCalls pre).ActiveManaged) ↔
      ∀ pre call, pre ++ [call] <+: calls → ¬ (runCalls pre).ReplacesActive call := by
  refine Run.inv_iff (f := Call.apply) (I := fun m : MCGManager => m.Ownership ∧ m.ActiveManaged)
    (K := fun m call => ¬ m.ReplacesActive call)
    ⟨initial_ownership, initial_activeManaged⟩ (fun pre call hpre hinv => ?_)
  have hstep := apply_spec hinv.1 hinv.2 call (hp pre call hpre)
  exact ⟨fun h => hstep.2.mp h.2, fun hkeep => ⟨hstep.1, hstep.2.mpr hkeep⟩⟩

/-- The active graph stays managed throughout a sequence of calls iff no call replaces it under its name. -/
theorem runCalls_activeManaged_iff {calls : List Call} (hp : Permitted calls) :
    (∀ pre, pre <+: calls → (runCalls pre).ActiveManaged) ↔
      ∀ pre call, pre ++ [call] <+: calls → ¬ (runCalls pre).ReplacesActive call := by
  rw [← runCalls_inv_iff hp]
  constructor
  · exact fun hm pre hpre => ⟨runCalls_ownership hp hm pre hpre, hm pre hpre⟩
  · exact fun h pre hpre => (h pre hpre).2

/-- The graph `a` is made active, then a second graph is added and made active by name. -/
def switches : List Call :=
  [.getOrCreateCallgraph "a" true 0, .addToManagedGraphs "b" (some (1, Callgraph.empty)) false, .setActive "b"]

theorem runCalls_activeManaged_switches :
    (runCalls switches).activeGraph = some 1 ∧ ∀ pre, pre <+: switches → (runCalls pre).ActiveManaged := by
  have hp : Run.EachStep Call.apply Permits initial switches :=
    ⟨show 0 ∉ initial.heap by decide, show 1 ∉ (runCalls [.getOrCreateCallgraph "a" true 0]).heap by decide, trivial, trivial⟩
  refine ⟨by decide, (runCalls_activeManaged_iff hp.at_prefix).mpr ?_⟩
  have hk : Run.EachStep Call.apply (fun m call => ¬ m.ReplacesActive call) initial switches := by
    refine ⟨not_false, ?_, not_false, trivial⟩
    rintro ⟨graph, -, hb⟩
    have hnone : (runCalls [.getOrCreateCallgraph "a" true 0]).managedGraphs.lookup "b" = none := by decide
    rw [show Call.apply initial _ = runCalls [.getOrCreateCallgraph "a" true 0] from rfl, hnone] at hb
    cases hb
  exact hk.at_prefix

/-- The graph `a` is active when a new graph is put under its name. -/
def renews : List Call :=
  [.getOrCreateCallgraph "a" true 0, .addToManagedGraphs "a" (some (1, Callgraph.empty)) false]

/-- The active pointer is left behind: nothing is managed there and no name is found for it. -/
theorem runCalls_renews_dangles :
    Permitted renews ∧ (runCalls renews).activeGraph = some 0 ∧ 0 ∉ (runCalls renews).heap ∧
      (∀ name, (runCalls renews).managedGraphs.lookup name ≠ some 0) ∧
      ¬ (runCalls renews).ActiveManaged := by
  have hp : Run.EachStep Call.apply Permits initial renews :=
    ⟨show 0 ∉ initial.heap by decide, show 1 ∉ (runCalls [.getOrCreateCallgraph "a" true 0]).heap by decide, trivial⟩
  have hgone : 0 ∉ (runCalls renews).heap := by decide
  refine ⟨hp.at_prefix, rfl, hgone, fun name hname => ?_, fun h => hgone (h 0 rfl).1⟩
  have hpairs : UMap.toPairs (runCalls renews).managedGraphs = [("a", 1)] := rfl
  have hmem := (UMap.mem_toPairs name 0 _).mpr hname
  rw [hpairs] at hmem
  simp at hmem

end MCGManager
end MetaCG
