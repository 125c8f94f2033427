import MetaCG.Format.DotIO
import MetaCG.Graph.History
import MetaCG.Pgis.NodeMetaData

/-! `WLInstrEstimatorPhase` (`EstimatorPhase.h`, `LegacyEstimatorPhases.cpp`).

`init` puts the hashes of the lines of a file into the white list, and `modifyGraph` looks for the ids of the nodes in it. The
constructor leaves `isInitialized` without a value, and the graph of the phase is a null pointer then. -/
namespace MetaCG.Pgis
open Foundations
set_option autoImplicit false
set_option maxHeartbeats 250000
set_option maxRecDepth 120000

structure WLInstrEstimatorPhase where
  graph : Option Callgraph
  isInitialized : Bool
  whiteList : Finset ℕ

/-- The lines that `getline` reads from a file, which is `none` if it cannot be opened. -/
def linesOf (file : Option String) : List String :=
  match file with
  | none => []
  | some content => (Dot.getlines [] content.toList).map String.ofList

namespace WLInstrEstimatorPhase

/-- The constructor; `isInitialized` is the value that happens to be there. -/
def create (isInitialized : Bool) : WLInstrEstimatorPhase := ⟨none, isInitialized, ∅⟩

def init (hash : String → ℕ) (phase : WLInstrEstimatorPhase) (file : Option String) : Except Exn WLInstrEstimatorPhase :=
  if phase.isInitialized then .ok phase
  else if file.isNone then .error .exit
  else .ok { phase with
    isInitialized := true
    whiteList := (linesOf file).foldl (fun whiteList buff => insert (hash buff) whiteList) phase.whiteList }

/-- One round of the loop of `modifyGraph`. -/
def selectNode (g : Callgraph) (whiteList : Finset ℕ) (md : MetaStore) (elem : ℕ) : Except Exn MetaStore := do
  let node ← deref g elem
  if node.id ∈ whiteList then return instrumentNode md elem else return md

def modifyGraph (phase : WLInstrEstimatorPhase) (md : MetaStore) : Except Exn MetaStore :=
  match phase.graph with
  | none => .error .nullDereference
  | some g => (List.range g.nodes.length).foldlM (selectNode g phase.whiteList) md

/-- After `init` and `modifyGraph` the listed functions are the ones that are newly instrumented. -/
def InstrumentsListed (hash : String → ℕ) (phase : WLInstrEstimatorPhase) (file : Option String) (md : MetaStore) : Prop :=
  ∃ phase' md' g, phase.init hash file = .ok phase' ∧ phase'.modifyGraph md = .ok md' ∧ phase.graph = some g ∧
    ∀ i node, g.slot i = some node → isAnyInstrumented md i = false →
      (isAnyInstrumented md' i = true ↔ node.functionName ∈ linesOf file)

/-! ## One graph -/

section
variable {g : Callgraph} {whiteList : Finset ℕ} {md md' : MetaStore}

theorem mem_foldl_insert {α β : Type} [DecidableEq β] (f : α → β) (l : List α) (s : Finset β) (b : β) :
    b ∈ l.foldl (fun s a => insert (f a) s) s ↔ b ∈ s ∨ ∃ a ∈ l, f a = b := by
  induction l generalizing s with
  | nil => simp
  | cons a l ih =>
    rw [List.foldl_cons, ih, Finset.mem_insert, List.exists_mem_cons_iff, eq_comm (a := b), or_assoc, or_left_comm]

theorem selectNode_ok {i : ℕ} (h : selectNode g whiteList md i = .ok md') : g.hasNode i = true := by
  obtain ⟨node, hnode, -⟩ := bind_eq_ok.mp h
  exact hasNode_of_deref hnode

theorem selectNode_spec (whiteList : Finset ℕ) (md : MetaStore) {i : ℕ} {node : CgNode} (hnode : g.slot i = some node) :
    ∃ md', selectNode g whiteList md i = .ok md' ∧
      ∀ n, isAnyInstrumented md' n = true ↔ isAnyInstrumented md n = true ∨ (n = i ∧ node.id ∈ whiteList) := by
  unfold selectNode
  rw [deref_eq_ok.mpr hnode]
  simp only [bind, Except.bind]
  split_ifs with hid
  · refine ⟨_, rfl, fun n => ?_⟩
    rw [isAnyInstrumented_instrumentNode, Bool.or_eq_true, decide_eq_true_iff, or_comm, and_iff_left hid]
  · exact ⟨md, rfl, fun n => (or_iff_left fun hn => hid hn.2).symm⟩

theorem selectNodes_spec (whiteList : Finset ℕ) (md : MetaStore) (hall : ∀ i < g.nodes.length, g.hasNode i = true) :
    ∃ md', (List.range g.nodes.length).foldlM (selectNode g whiteList) md = .ok md' ∧
      ∀ i node, g.slot i = some node → (isAnyInstrumented md' i = true ↔ isAnyInstrumented md i = true ∨ node.id ∈ whiteList) := by
  have hloop := foldlM_total (f := selectNode g whiteList) (l := List.range g.nodes.length) (s := md) (J := fun pre md' =>
    ∀ i node, g.slot i = some node →
      (isAnyInstrumented md' i = true ↔ isAnyInstrumented md i = true ∨ (i ∈ pre ∧ node.id ∈ whiteList)))
    (fun i node _ => by simp) fun pre k md₁ hpre hJ => ?_
  · obtain ⟨md', hok, hmd'⟩ := hloop
    refine ⟨md', hok, fun i node hnode => (hmd' i node hnode).trans (or_congr_right (and_iff_right ?_))⟩
    exact List.mem_range.mpr (Callgraph.slot_lt hnode)
  · have hk : k ∈ List.range g.nodes.length := hpre.subset (List.mem_append_right _ (List.mem_singleton_self k))
    obtain ⟨knode, hknode⟩ := (g.hasNode_iff k).mp (hall k (List.mem_range.mp hk))
    obtain ⟨md₂, hok, hins⟩ := selectNode_spec whiteList md₁ hknode
    refine ⟨md₂, hok, fun i node hnode => ?_⟩
    rw [hins, hJ i node hnode, List.mem_append, List.mem_singleton, or_assoc, or_and_right]
    refine or_congr_right (or_congr_right (and_congr_right fun hik => ?_))
    subst hik
    rw [hnode] at hknode
    cases hknode
    exact Iff.rfl

/-- `modifyGraph` follows a list of names if and only if the ids in the white list are those of the functions in the list. -/
theorem modifyGraph_iff {phase : WLInstrEstimatorPhase} (hgraph : phase.graph = some g) (md : MetaStore) (names : List String) :
    (∃ md', phase.modifyGraph md = .ok md' ∧ ∀ i node, g.slot i = some node → isAnyInstrumented md i = false →
        (isAnyInstrumented md' i = true ↔ node.functionName ∈ names)) ↔
      (∀ i < g.nodes.length, g.hasNode i = true) ∧ ∀ i node, g.slot i = some node → isAnyInstrumented md i = false →
        (node.functionName ∈ names ↔ node.id ∈ phase.whiteList) := by
  have hmodify : phase.modifyGraph md = (List.range g.nodes.length).foldlM (selectNode g phase.whiteList) md := by
    unfold modifyGraph
    rw [hgraph]
  rw [hmodify]
  constructor
  · rintro ⟨md', hok, hlaw⟩
    have hall : ∀ i < g.nodes.length, g.hasNode i = true := by
      intro i hi
      obtain ⟨_, _, hround⟩ := foldlM_ok_mem hok i (List.mem_range.mpr hi)
      exact selectNode_ok hround
    obtain ⟨md'', hok', hspec⟩ := selectNodes_spec phase.whiteList md hall
    cases hok.symm.trans hok'
    refine ⟨hall, fun i node hnode hnot => ?_⟩
    rw [← hlaw i node hnode hnot, hspec i node hnode, hnot]
    simp
  · rintro ⟨hall, hids⟩
    obtain ⟨md', hok, hspec⟩ := selectNodes_spec phase.whiteList md hall
    refine ⟨md', hok, fun i node hnode hnot => ?_⟩
    rw [hspec i node hnode, hnot, hids i node hnode hnot]
    simp

end

/-- What `init` makes of a new phase. -/
theorem init_fresh (hash : String → ℕ) (graph : Option Callgraph) (isInitialized : Bool) (file : Option String) :
    ((isInitialized = true ∨ file.isSome = true) ∧
      ∃ phase', init hash ⟨graph, isInitialized, ∅⟩ file = .ok phase' ∧ phase'.graph = graph ∧
        ∀ k, k ∈ phase'.whiteList ↔ isInitialized = false ∧ ∃ line ∈ linesOf file, hash line = k) ∨
    (¬(isInitialized = true ∨ file.isSome = true) ∧ init hash ⟨graph, isInitialized, ∅⟩ file = .error .exit) := by
  unfold init
  cases isInitialized with
  | true => exact .inl ⟨.inl rfl, _, rfl, rfl, by simp⟩
  | false =>
    cases file with
    | none => exact .inr ⟨by simp, rfl⟩
    | some content =>
      refine .inl ⟨.inr rfl, _, rfl, rfl, fun k => ?_⟩
      rw [mem_foldl_insert, or_iff_right (Finset.notMem_empty k), and_iff_right rfl]

/-- The law on one graph: the functions that are listed are those whose ids are hashes of lines. -/
theorem instrumentsListed_iff (hash : String → ℕ) (graph : Option Callgraph) (isInitialized : Bool) (file : Option String)
    (md : MetaStore) : InstrumentsListed hash ⟨graph, isInitialized, ∅⟩ file md ↔
      (isInitialized = true ∨ file.isSome = true) ∧ ∃ g, graph = some g ∧ (∀ i < g.nodes.length, g.hasNode i = true) ∧
        ∀ i node, g.slot i = some node → isAnyInstrumented md i = false →
          (node.functionName ∈ linesOf file ↔ isInitialized = false ∧ ∃ line ∈ linesOf file, hash line = node.id) := by
  unfold InstrumentsListed
  rcases init_fresh hash graph isInitialized file with ⟨hopen, phase', hinit, hgraph, hlist⟩ | ⟨hopen, hinit⟩
  · rw [and_iff_right hopen]
    simp only [← hlist]
    constructor
    · rintro ⟨phase₁, md', g, hinit₁, hmodify, hg, hlaw⟩
      cases hinit.symm.trans hinit₁
      exact ⟨g, hg, (modifyGraph_iff (hgraph.trans hg) md (linesOf file)).mp ⟨md', hmodify, hlaw⟩⟩
    · rintro ⟨g, hg, hcond⟩
      obtain ⟨md', hmodify, hlaw⟩ := (modifyGraph_iff (hgraph.trans hg) md (linesOf file)).mpr hcond
      exact ⟨phase', md', g, hinit, hmodify, hg, hlaw⟩
  · refine iff_of_false ?_ fun h => hopen h.1
    rintro ⟨phase₁, md', g, hinit₁, -⟩
    cases hinit.symm.trans hinit₁

/-! ## All orders of insertion -/

/-- The graph of functions that are inserted one after the other. -/
def insertAll (functions : List String) : Callgraph := Callgraph.run 0 (functions.map fun f => .insert f none false true)

theorem slot_insertAll {functions : List String} (h : ∀ f ∈ functions, f ≠ "") :
    (insertAll functions).nodes.length = functions.length ∧
      ∀ i, (insertAll functions).slot i = functions[i]?.map fun f => CgNode.create i f none false true := by
  induction functions using List.reverseRecOn with
  | nil => exact ⟨rfl, fun i => by simp [insertAll, Callgraph.run, Callgraph.slot, Callgraph.empty]⟩
  | append_singleton functions f ih =>
    obtain ⟨hlen, hslot⟩ := ih fun k hk => h k (List.mem_append_left _ hk)
    have hf : f ≠ "" := h f (List.mem_append_right _ (List.mem_singleton_self f))
    have hlast : insertAll (functions ++ [f]) = (insertAll functions).insertNode f none false true := by
      unfold insertAll Callgraph.run
      rw [List.map_append, List.foldl_append]
      change Callgraph.orKeep _ (Callgraph.insert _ f none false true) Prod.fst = _
      unfold Callgraph.insert
      rw [if_neg hf]
      rfl
    rw [hlast]
    refine ⟨?_, fun i => ?_⟩
    · change ((insertAll functions).nodes ++ [_]).length = _
      rw [List.length_append, List.length_append, hlen]
      rfl
    · rw [Callgraph.slot_insertNode, hlen, hslot]
      split_ifs with hi
      · subst hi
        simp
      · rcases Nat.lt_or_gt_of_ne hi with hlt | hgt
        · rw [List.getElem?_append_left hlt]
        · rw [List.getElem?_eq_none hgt.le, List.getElem?_eq_none (by simp; omega)]

/-- Every function can be inserted at every position. -/
theorem exists_order {functions : List String} {f : String} {i : ℕ} (hf : f ∈ functions) (hi : i < functions.length) :
    ∃ l : List String, l.Perm functions ∧ l[i]? = some f := by
  have hlen : (functions.erase f).length = functions.length - 1 := List.length_erase_of_mem hf
  refine ⟨(functions.erase f).insertIdx i f, ?_, ?_⟩
  · exact (List.perm_insertIdx f (functions.erase f) (by omega)).trans (List.perm_cons_erase hf).symm
  · rw [List.getElem?_insertIdx_self, if_pos (by omega)]

/-- With nothing instrumented before, the law survives all orders of insertion only if it selects all functions or none. -/
theorem instrumentsListed_orders_iff (hash : String → ℕ) {functions : List String} (h : ∀ f ∈ functions, f ≠ "") (content : String) :
    (∀ l : List String, l.Perm functions → InstrumentsListed hash ⟨some (insertAll l), false, ∅⟩ (some content) fun _ => .create) ↔
      ((∀ f ∈ functions, f ∈ linesOf (some content)) ∧ ∀ i < functions.length, ∃ line ∈ linesOf (some content), hash line = i) ∨
      ((∀ f ∈ functions, f ∉ linesOf (some content)) ∧ ∀ i < functions.length, ¬∃ line ∈ linesOf (some content), hash line = i) := by
  have hone : ∀ l : List String, l.Perm functions →
      (InstrumentsListed hash ⟨some (insertAll l), false, ∅⟩ (some content) (fun _ => .create) ↔
        ∀ i f, l[i]? = some f → (f ∈ linesOf (some content) ↔ ∃ line ∈ linesOf (some content), hash line = i)) := by
    intro l hl
    obtain ⟨hlen, hslot⟩ := slot_insertAll fun f hf => h f (hl.mem_iff.mp hf)
    have hlive : ∀ i < (insertAll l).nodes.length, (insertAll l).hasNode i = true := by
      intro i hi
      rw [Callgraph.hasNode_iff, hslot, List.getElem?_eq_getElem (hlen ▸ hi)]
      exact ⟨_, rfl⟩
    rw [instrumentsListed_iff, and_iff_right (.inr rfl)]
    constructor
    · rintro ⟨g, hg, -, hids⟩ i f hf
      cases hg
      have hid := hids i (CgNode.create i f none false true) (by rw [hslot, hf]; rfl) rfl
      exact hid.trans (and_iff_right rfl)
    · intro hids
      refine ⟨insertAll l, rfl, hlive, fun i node hnode _ => ?_⟩
      rw [hslot] at hnode
      obtain ⟨f, hf, rfl⟩ := Option.map_eq_some_iff.mp hnode
      exact (hids i f hf).trans (and_iff_right rfl).symm
  constructor
  · intro hall
    have hmix : ∀ f ∈ functions, ∀ i < functions.length,
        (f ∈ linesOf (some content) ↔ ∃ line ∈ linesOf (some content), hash line = i) := by
      intro f hf i hi
      obtain ⟨l, hl, hlf⟩ := exists_order hf hi
      exact (hone l hl).mp (hall l hl) i f hlf
    by_cases hnone : functions = []
    · subst hnone
      exact .inl ⟨by simp, by simp⟩
    · obtain ⟨f₀, hf₀⟩ := List.exists_mem_of_ne_nil _ hnone
      have hpos : 0 < functions.length := List.length_pos_iff.mpr hnone
      by_cases hlisted : f₀ ∈ linesOf (some content)
      · have hids : ∀ i < functions.length, ∃ line ∈ linesOf (some content), hash line = i :=
          fun i hi => (hmix f₀ hf₀ i hi).mp hlisted
        exact .inl ⟨fun f hf => (hmix f hf 0 hpos).mpr (hids 0 hpos), hids⟩
      · have hids : ∀ i < functions.length, ¬∃ line ∈ linesOf (some content), hash line = i :=
          fun i hi hid => hlisted ((hmix f₀ hf₀ i hi).mpr hid)
        exact .inr ⟨fun f hf hin => hids 0 hpos ((hmix f hf 0 hpos).mp hin), hids⟩
  · intro hcases l hl
    refine (hone l hl).mpr fun i f hf => ?_
    have hmem : f ∈ functions := hl.mem_iff.mp (List.mem_of_getElem? hf)
    have hi : i < functions.length := by
      rw [← hl.length_eq]
      exact (List.getElem?_eq_some_iff.mp hf).1
    rcases hcases with ⟨hlisted, hids⟩ | ⟨hlisted, hids⟩
    · exact iff_of_true (hlisted f hmem) (hids i hi)
    · exact iff_of_false (hlisted f hmem) (hids i hi)

/-- The white list holds hashes of names and is asked for ids: on one graph the two must select the same functions, and over
all orders of insertion they must select all functions or none. -/
theorem whiteList_iff (hash : String → ℕ) :
    (∀ graph isInitialized file md, InstrumentsListed hash ⟨graph, isInitialized, ∅⟩ file md ↔
      (isInitialized = true ∨ file.isSome = true) ∧ ∃ g, graph = some g ∧ (∀ i < g.nodes.length, g.hasNode i = true) ∧
        ∀ i node, g.slot i = some node → isAnyInstrumented md i = false →
          (node.functionName ∈ linesOf file ↔ isInitialized = false ∧ ∃ line ∈ linesOf file, hash line = node.id)) ∧
    ∀ functions content, (∀ f ∈ functions, f ≠ "") →
      ((∀ l : List String, l.Perm functions → InstrumentsListed hash ⟨some (insertAll l), false, ∅⟩ (some content) fun _ => .create) ↔
        ((∀ f ∈ functions, f ∈ linesOf (some content)) ∧ ∀ i < functions.length, ∃ line ∈ linesOf (some content), hash line = i) ∨
        ((∀ f ∈ functions, f ∉ linesOf (some content)) ∧ ∀ i < functions.length, ¬∃ line ∈ linesOf (some content), hash line = i)) :=
  ⟨instrumentsListed_iff hash, fun _ content h => instrumentsListed_orders_iff hash h content⟩

/-- The file lists `f`, whose id is 1 and whose hash is 8: nothing is instrumented. A phase without a graph gets no further. -/
theorem not_instrumentsListed :
    linesOf (some "f\n") = ["f"] ∧
    (∃ phase' md', init (fun name => name.length + 7) ⟨some (insertAll ["main", "f"]), false, ∅⟩ (some "f\n") = .ok phase' ∧
      phase'.modifyGraph (fun _ => .create) = .ok md' ∧ (insertAll ["main", "f"]).nameOf 1 = some "f" ∧
      isAnyInstrumented md' 1 = false) ∧
    ∃ phase', init (fun name => name.length + 7) (create false) (some "f\n") = .ok phase' ∧
      phase'.modifyGraph (fun _ => .create) = .error .nullDereference :=
  ⟨by decide, ⟨_, _, rfl, rfl, by decide, by decide⟩, _, rfl, rfl⟩

end WLInstrEstimatorPhase
end MetaCG.Pgis
