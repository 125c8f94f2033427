import Mathlib.Data.Finset.Sort
import MetaCG.Analysis.Dominators
import MetaCG.Analysis.ReachabilityAnalysis
import MetaCG.Format.MCGReader
import MetaCG.Graph.Boundary
import MetaCG.Graph.ByName

/-! The query tool (`Utils.h`, `ReachesCommand.cpp`, `DomCommand.cpp`, `PostDomCommand.cpp` of `cgquery`).

The theorems relate what a command prints and returns to the call graph file. A node that is given as a number
is the node in this place of the file, whatever the strings of the file are. `walk` is the order in which a set
of nodes is printed. -/
namespace MetaCG.CGQuery
open Foundations Callgraph Analysis
set_option autoImplicit false
set_option maxHeartbeats 250000
set_option maxRecDepth 120000

inductive ExitCode where
  | Success
  | Error
  | Usage
deriving DecidableEq, Repr

/-- The lines that a command writes to its two streams, and what it returns. -/
structure Output where
  out : List String
  err : List String
  code : ExitCode
deriving DecidableEq, Repr

/-- The help of a command, and the message of the exception for an option without a value. -/
structure Cxxopts where
  help : String
  noValue : String → String

/-! ## Nodes (`Utils.h`) -/

def isNumber (s : String) : Bool := !s.toList.isEmpty && s.toList.all Char.isDigit

/-- The value of a string of digits. -/
def number (s : String) : ℕ := s.toList.foldl (fun value c => 10 * value + (c.toNat - '0'.toNat)) 0

/-- `std::stoul` of a string of digits -/
def stoul (s : String) : Except Exn ℕ := if number s < 2 ^ 64 then .ok (number s) else .error .outOfRange

def findNode (cg : Callgraph) (spec : String) : Except Exn (Option CgNode) := do
  if isNumber spec then cg.getNode (← stoul spec)
  else cg.getFirstNode spec

/-- `n->getFunctionName()` for the pointers of a walk. -/
def functionNames (cg : Callgraph) (nodes : List ℕ) : Except Exn (List String) :=
  nodes.mapM fun n => match cg.slot n with
    | some node => .ok node.functionName
    | none => .error .nullDereference

/-! ## The commands -/

namespace ReachesCommand

/-- The parsed options. -/
structure Options where
  help : Bool
  input : Option Json
  source : Option String
  toNode : Option String

def run (order : List ℕ → List ℕ) (walk : Finset ℕ → List ℕ) (cxx : Cxxopts) (result : Options) : Except Exn Output := do
  if result.help then return ⟨[cxx.help], [], .Success⟩
  match result.input with
  | none => return ⟨[], ["Error: " ++ cxx.noValue "input", cxx.help], .Error⟩
  | some input =>
    let cg ← readFile input
    match result.source with
    | none => return ⟨[cxx.help], ["Please specify the source node"], .Usage⟩
    | some sourceStr =>
      match ← findNode cg sourceStr with
      | none => return ⟨[], ["Node '" ++ sourceStr ++ "' not found in CG."], .Error⟩
      | some sourceNode =>
        let reachabilityAnalysis := ReachabilityAnalysis.create cg
        match result.toNode with
        | some toName =>
          match ← findNode cg toName with
          | none => return ⟨[], ["Entry node '" ++ toName ++ "' not found in CG."], .Error⟩
          | some toNode =>
            let (exists_, _) ← reachabilityAnalysis.existsPathBetween order sourceNode.id toNode.id true
            return ⟨[], [], if exists_ then .Success else .Error⟩
        | none =>
          let (reachableNodes, _) ← reachabilityAnalysis.getReachableNodesFrom order sourceNode.id true
          let names ← functionNames cg (walk reachableNodes)
          return ⟨"Reachable nodes:" :: names, [], .Success⟩

end ReachesCommand

namespace DomCommand

/-- The parsed options of `dom` and, with `exit` for `entry`, of `postdom`. -/
structure Options where
  help : Bool
  input : Option Json
  node : Option String
  ref : Option String

/-- A command ends before the analysis, or analyses `cg` from one node for another. -/
inductive Prepared where
  | done (output : Output)
  | query (cg : Callgraph) (targetNode refNode : CgNode) (nodeName refName : String)

/-- `run` up to the call of `computeDominators`. Both commands ask for an entry node. -/
def prepare (cxx : Cxxopts) (result : Options) : Except Exn Prepared := do
  if result.help then return .done ⟨[cxx.help], [], .Success⟩
  match result.node, result.ref with
  | some nodeName, some refName =>
    match result.input with
    | none => return .done ⟨[], ["Error: " ++ cxx.noValue "input", cxx.help], .Error⟩
    | some input =>
      let cg ← readFile input
      let targetNodePtr ← findNode cg nodeName
      let refNodePtr ← findNode cg refName
      match targetNodePtr, refNodePtr with
      | none, _ => return .done ⟨[], ["Node '" ++ nodeName ++ "' not found in CG. "], .Error⟩
      | some _, none => return .done ⟨[], ["Node '" ++ refName ++ "' not found in CG. "], .Error⟩
      | some targetNode, some refNode => return .query cg targetNode refNode nodeName refName
  | _, _ => return .done ⟨[], ["Specify target node and entry node.", cxx.help], .Success⟩

/-- How the two commands name their analysis in the message. -/
def analysisName : TraverseDir → String
  | .Forward => "dominator"
  | .Backward => "post-dominator"

/-- `run` from the result of `computeDominators` on. -/
def report (dir : TraverseDir) (walk : Finset ℕ → List ℕ) (cg : Callgraph) (targetNode : CgNode) (nodeName refName : String)
    (dom : DomAnalysisResult) : Except Exn Output := do
  let data := (access dom targetNode.id).1
  if !data.initialized then
    return ⟨[], ["Node '" ++ nodeName ++ "' is not reachable from entry node '" ++ refName ++ "' in " ++ analysisName dir ++
      " analysis."], .Error⟩
  return ⟨← functionNames cg (walk data.Doms), [], .Success⟩

/-- The command can end with `output`: the order in which the analysis walks its sets is open. -/
inductive Run (dir : TraverseDir) (walk : Finset ℕ → List ℕ) (cxx : Cxxopts) (result : Options) : Except Exn Output → Prop
  | throws {e : Exn} (h : prepare cxx result = .error e) : Run dir walk cxx result (.error e)
  | stops {output : Output} (h : prepare cxx result = .ok (.done output)) : Run dir walk cxx result (.ok output)
  | answers {cg : Callgraph} {targetNode refNode : CgNode} {nodeName refName : String} {st : DomState}
    (h : prepare cxx result = .ok (.query cg targetNode refNode nodeName refName))
    (hrun : Reached cg dir refNode.id st) (hq : st.workQueue = []) :
    Run dir walk cxx result (report dir walk cg targetNode nodeName refName st.DomMap)

end DomCommand

/-! ## The place of a node in the file -/

/-- The place of the node that an option selects. -/
def placeOf (j : Json) (spec : String) : Option ℕ :=
  if isNumber spec then (if number spec < (nodesOf j).length then some (number spec) else none)
  else (List.range (nodesOf j).length).find? fun k => decide (nameAt j k = some spec)

/-- The numbers on which a command stops with an exception: the number of nodes, and those that do not fit. -/
def Throws (j : Json) (spec : String) : Prop :=
  isNumber spec = true ∧ (number spec = (nodesOf j).length ∨ 2 ^ 64 ≤ number spec)

instance (j : Json) (spec : String) : Decidable (Throws j spec) := inferInstanceAs (Decidable (_ ∧ _))

section
variable {j : Json} {m : StrToNode} {r : Callgraph}

theorem placeOf_lt {spec : String} {k : ℕ} (h : placeOf j spec = some k) : k < (nodesOf j).length := by
  unfold placeOf at h
  split_ifs at h with hnum hlt
  · cases h
    exact hlt
  · exact List.mem_range.mp (List.mem_of_find?_eq_some h)

theorem firstNamed_file (h : FileGraph j m r) (name : String) :
    r.firstNamed name = (List.range (nodesOf j).length).find? fun k => decide (nameAt j k = some name) := by
  rw [firstNamed, h.wf.names, List.head?_filter, h.length]
  congr 1
  funext k
  rw [Bool.eq_iff_iff, isNamed_iff, decide_eq_true_iff, ← h.nameOf, nameOf_eq_some]

theorem findNode_file (h : FileGraph j m r) (spec : String) :
    findNode r spec = if Throws j spec then .error .outOfRange else .ok ((placeOf j spec).bind r.slot) := by
  by_cases hnum : isNumber spec = true
  · rw [findNode, if_pos hnum, placeOf, if_pos hnum, stoul]
    have hthrows : Throws j spec ↔ number spec = (nodesOf j).length ∨ 2 ^ 64 ≤ number spec := and_iff_right hnum
    by_cases hfits : number spec < 2 ^ 64
    · rw [if_pos hfits, ok_bind]
      by_cases heq : number spec = (nodesOf j).length
      · rw [if_pos (hthrows.mpr (.inl heq)), heq, ← h.length]
        exact getNode_size r
      · have hsize : number spec ≠ r.size := fun he => heq (he.trans h.length)
        rw [if_neg fun ht => (hthrows.mp ht).elim heq fun hle => absurd hfits (Nat.not_lt.mpr hle), getNode_of_ne_size hsize]
        by_cases hlt : number spec < (nodesOf j).length
        · rw [if_pos hlt, Option.bind_some]
        · rw [if_neg hlt, Option.bind_none, slot_of_ge (h.length ▸ Nat.not_lt.mp hlt)]
    · rw [if_neg hfits, if_pos (hthrows.mpr (.inr (Nat.not_lt.mp hfits)))]
      rfl
  · rw [findNode, if_neg hnum, placeOf, if_neg hnum, if_neg fun ht => hnum ht.1, getFirstNode_eq h.wf, firstNamed_file h]

/-- A node that is found is the one in its place. -/
theorem findNode_place (h : FileGraph j m r) {spec : String} (hthrows : ¬ Throws j spec) :
    (placeOf j spec = none ∧ findNode r spec = .ok none) ∨
      ∃ k n, placeOf j spec = some k ∧ r.slot k = some n ∧ n.id = k ∧ findNode r spec = .ok (some n) := by
  rw [findNode_file h, if_neg hthrows]
  cases hp : placeOf j spec with
  | none => exact .inl ⟨rfl, rfl⟩
  | some k =>
    obtain ⟨n, hn⟩ := (r.hasNode_iff k).mp ((h.hasNode_iff k).mpr (placeOf_lt hp))
    exact .inr ⟨k, n, rfl, hn, h.wf.node_id k n hn, by rw [Option.bind_some, hn]⟩

/-- The names of nodes of the graph are those in the file. -/
theorem functionNames_file (h : FileGraph j m r) {nodes : List ℕ} (hlive : ∀ n ∈ nodes, r.hasNode n = true) :
    ∃ names, functionNames r nodes = .ok names ∧ names.map some = nodes.map (nameAt j) := by
  induction nodes with
  | nil => exact ⟨[], rfl, rfl⟩
  | cons k nodes ih =>
    obtain ⟨names, hnames, hmap⟩ := ih fun n hn => hlive n (List.mem_cons_of_mem k hn)
    obtain ⟨n, hn⟩ := (r.hasNode_iff k).mp (hlive k (List.mem_cons_self ..))
    refine ⟨n.functionName :: names, ?_, ?_⟩
    · unfold functionNames at hnames ⊢
      rw [List.mapM_cons, hn, hnames]
      rfl
    · rw [List.map_cons, List.map_cons, hmap, ← h.nameOf, Callgraph.nameOf, hn]
      rfl

theorem throws_of_placeOf {spec : String} {k : ℕ} (hsize : (nodesOf j).length < 2 ^ 64) (h : placeOf j spec = some k) :
    ¬ Throws j spec := by
  rintro ⟨hnum, hbad⟩
  rw [placeOf, if_pos hnum] at h
  split_ifs at h with hlt
  omega

theorem calls_file (h : FileGraph j m r) : Calls r = CallsIn j := by
  funext u v
  exact propext (h.edges u v)

end

/-! ## What `reaches` answers -/

/-- An order in which a set of nodes is printed. -/
def IsWalk (walk : Finset ℕ → List ℕ) : Prop := ∀ s, (walk s).Nodup ∧ ∀ n, n ∈ walk s ↔ n ∈ s

namespace ReachesCommand

section
variable {order : List ℕ → List ℕ} {walk : Finset ℕ → List ℕ} {j : Json} {m : StrToNode} {r : Callgraph}

theorem search_file (h : FileGraph j m r) (hord : ∀ l, (order l).Perm l) {p : ℕ} (hp : p < (nodesOf j).length) :
    ∃ R, search order r ∅ [p] = .ok R ∧ ∀ n, n ∈ R ↔ Relation.ReflTransGen (CallsIn j) p n := by
  have hstart : ∀ n ∈ [p], r.hasNode n = true := fun n hn => by
    rw [List.mem_singleton.mp hn]
    exact (h.hasNode_iff p).mpr hp
  obtain ⟨R, hR⟩ := search_returns h.wf hord ∅ [p] hstart
  exact ⟨R, hR, fun n => by rw [search_exact h.wf hord Search.Frontier.initial hR, calls_file h]⟩

theorem existsPath_file (h : FileGraph j m r) (hord : ∀ l, (order l).Perm l) {p : ℕ} (hp : p < (nodesOf j).length) (q : ℕ) :
    ∃ b ra, (ReachabilityAnalysis.create r).existsPathBetween order p q true = .ok (b, ra) ∧
      (b = true ↔ Relation.ReflTransGen (CallsIn j) p q) := by
  obtain ⟨R, hR, hiff⟩ := search_file h hord hp
  refine ⟨decide (q ∈ R), (ReachabilityAnalysis.create r).withResult p R, ?_, by rw [decide_eq_true_iff, hiff]⟩
  rw [ReachabilityAnalysis.existsPathBetween_computed (.inl rfl), ReachabilityAnalysis.create, hR]
  rfl

theorem reachable_file (h : FileGraph j m r) (hord : ∀ l, (order l).Perm l) {p : ℕ} (hp : p < (nodesOf j).length) :
    ∃ R ra, (ReachabilityAnalysis.create r).getReachableNodesFrom order p true = .ok (R, ra) ∧
      (∀ n ∈ R, r.hasNode n = true) ∧ ∀ n, n ∈ R ↔ Relation.ReflTransGen (CallsIn j) p n := by
  obtain ⟨R, hR, hiff⟩ := search_file h hord hp
  refine ⟨R, (ReachabilityAnalysis.create r).withResult p R, ?_, fun n hn => ?_, hiff⟩
  · rw [ReachabilityAnalysis.getReachableNodesFrom_computed (.inl rfl), ReachabilityAnalysis.create, hR]
    rfl
  · rcases Relation.ReflTransGen.cases_tail ((hiff n).mp hn) with rfl | ⟨u, -, hcalls⟩
    · exact (h.hasNode_iff _).mpr hp
    · exact (h.wf.edge_live u n ((h.edges u n).mpr hcalls)).2

/-- With a file of version 4, `reaches` decides and lists the reflexive and transitive closure of the listed callees. -/
theorem reaches_file (hord : ∀ l, (order l).Perm l) (hwalk : IsWalk walk) (cxx : Cxxopts)
    (hv : createReader j = .ok (some .versionFour)) (hread : MetaCG.read j = .ok r) (source : String) :
    (∀ toNode, if Throws j source ∨ placeOf j source ≠ none ∧ Throws j toNode then
        run order walk cxx ⟨false, some j, some source, some toNode⟩ = .error .outOfRange
      else ∃ o, run order walk cxx ⟨false, some j, some source, some toNode⟩ = .ok o ∧
        (o.code = .Success ↔ ∃ p q, placeOf j source = some p ∧ placeOf j toNode = some q ∧
          Relation.ReflTransGen (CallsIn j) p q)) ∧
    if Throws j source then run order walk cxx ⟨false, some j, some source, none⟩ = .error .outOfRange
    else ∃ o, run order walk cxx ⟨false, some j, some source, none⟩ = .ok o ∧
      (o.code = .Success ↔ ∃ p, placeOf j source = some p) ∧
      ∀ p, placeOf j source = some p → ∃ (nodes : List ℕ) (names : List String), nodes.Nodup ∧
        (∀ k, k ∈ nodes ↔ Relation.ReflTransGen (CallsIn j) p k) ∧ names.map some = nodes.map (nameAt j) ∧
        o.out = "Reachable nodes:" :: names := by
  obtain ⟨m, h⟩ := read_fileGraph hread
  have hfile : readFile j = .ok r := (readFile_eq hv).trans hread
  have hthrow : ∀ {spec}, Throws j spec → findNode r spec = .error .outOfRange := fun ht => by
    rw [findNode_file h, if_pos ht]
  refine ⟨fun toNode => ?_, ?_⟩
  · split_ifs with hbad
    · rcases hbad with hs | ⟨hs, ht⟩
      · simp only [run, hfile, ok_bind, hthrow hs, Bool.false_eq_true, if_false]
        rfl
      · have hs' : ¬ Throws j source ∨ Throws j source := (em (Throws j source)).symm
        rcases hs' with hs' | hs'
        · obtain ⟨hnone, -⟩ | ⟨p, n, -, -, -, hfind⟩ := findNode_place h hs'
          · exact absurd hnone hs
          · simp only [run, hfile, ok_bind, hfind, hthrow ht, Bool.false_eq_true, if_false]
            rfl
        · simp only [run, hfile, ok_bind, hthrow hs', Bool.false_eq_true, if_false]
          rfl
    · rw [not_or, not_and] at hbad
      obtain ⟨hnone, hfind⟩ | ⟨p, n, hp, -, hid, hfind⟩ := findNode_place h hbad.1
      · refine ⟨⟨[], ["Node '" ++ source ++ "' not found in CG."], .Error⟩, ?_, ?_⟩
        · simp only [run, hfile, ok_bind, hfind, Bool.false_eq_true, if_false]
          rfl
        · simp [hnone]
      · obtain ⟨hnone, hfind'⟩ | ⟨q, n', hq, -, hid', hfind'⟩ := findNode_place h (hbad.2 (by simp [hp]))
        · refine ⟨⟨[], ["Entry node '" ++ toNode ++ "' not found in CG."], .Error⟩, ?_, ?_⟩
          · simp only [run, hfile, ok_bind, hfind, hfind', Bool.false_eq_true, if_false]
            rfl
          · simp [hnone]
        · obtain ⟨b, ra, hpath, hiff⟩ := existsPath_file h hord (placeOf_lt hp) q
          refine ⟨⟨[], [], if b then .Success else .Error⟩, ?_, ?_⟩
          · simp only [run, hfile, ok_bind, hfind, hfind', hid, hid', hpath, Bool.false_eq_true, if_false]
            rfl
          · simp only [hp, hq, Option.some.injEq, exists_and_left, exists_eq_left', ← hiff]
            cases b <;> simp
  · split_ifs with hs
    · simp only [run, hfile, ok_bind, hthrow hs, Bool.false_eq_true, if_false]
      rfl
    · obtain ⟨hnone, hfind⟩ | ⟨p, n, hp, -, hid, hfind⟩ := findNode_place h hs
      · refine ⟨⟨[], ["Node '" ++ source ++ "' not found in CG."], .Error⟩, ?_, by simp [hnone], by simp [hnone]⟩
        simp only [run, hfile, ok_bind, hfind, Bool.false_eq_true, if_false]
        rfl
      · obtain ⟨R, ra, hreach, hlive, hiff⟩ := reachable_file h hord (placeOf_lt hp)
        obtain ⟨names, hnames, hmap⟩ := functionNames_file h fun k hk => hlive k (((hwalk R).2 k).mp hk)
        refine ⟨⟨"Reachable nodes:" :: names, [], .Success⟩, ?_, by simp [hp], fun p' hp' => ?_⟩
        · simp only [run, hfile, ok_bind, hfind, hid, hreach, hnames, Bool.false_eq_true, if_false]
          rfl
        · rw [hp] at hp'
          cases hp'
          exact ⟨walk R, names, (hwalk R).1, fun k => ((hwalk R).2 k).trans (hiff k), hmap, rfl⟩

end

end ReachesCommand

/-! ## What `dom` and `postdom` answer -/

namespace DomCommand

/-- The listed calls in the direction of the analysis. -/
def FileEdge (j : Json) : TraverseDir → ℕ → ℕ → Prop
  | .Forward, p, n => CallsIn j p n
  | .Backward, p, n => CallsIn j n p

/-- The start has itself as a neighbour, or no node that it reaches leads back to it. -/
def StartSafeIn (j : Json) (dir : TraverseDir) (s : ℕ) : Prop :=
  FileEdge j dir s s ∨ ∀ p, Reaches (FileEdge j dir) s p → ¬ FileEdge j dir p s

section
variable {walk : Finset ℕ → List ℕ} {j : Json} {m : StrToNode} {r : Callgraph} {dir : TraverseDir} {s t : ℕ}

theorem traversal_file (h : FileGraph j m r) (dir : TraverseDir) : TraversalEdge r dir = FileEdge j dir := by
  funext p n
  cases dir with
  | Forward => exact propext (h.edges p n)
  | Backward => exact propext (h.edges n p)

/-- From a safe start some run of the analysis ends. -/
theorem exists_end (h : FileGraph j m r) (hs : r.hasNode s = true) (hsafe : StartSafe r dir s) :
    ∃ st, Reached r dir s st ∧ st.workQueue = [] := by
  by_contra hnone
  push Not at hnone
  have hall : ∀ i, ((round r dir)^[i] (start s)).workQueue ≠ [] := by
    intro i
    induction i using Nat.strongRecOn with
    | _ i ih => exact hnone _ (reached_rounds ih)
  let k := roundsLeft r (start s) + 1
  have hrun := @next_rounds r dir s k fun i _ => hall i
  have hle := (keptRun_of_safe h.wf hs hsafe (f := fun i => (round r dir)^[i] (start s)) rfl hrun.2).length_le h.wf hs
  omega

/-- The report on a run that ended: the node is reached exactly if it has a set, and the set is printed. -/
theorem report_file (h : FileGraph j m r) (hwalk : IsWalk walk) (hs : r.hasNode s = true) {n : CgNode} (hn : n.id = t)
    {st : DomState} (hrun : Reached r dir s st) (hq : st.workQueue = []) (nodeName refName : String) :
    ∃ o, report dir walk r n nodeName refName st.DomMap = .ok o ∧
      (o.code = .Success ↔ Reaches (FileEdge j dir) s t) ∧
      (o.code = .Success → ∃ (nodes : List ℕ) (names : List String), nodes.Nodup ∧ names.map some = nodes.map (nameAt j) ∧
        o.out = names ∧ (∀ k, Dominates (FileEdge j dir) s k t → k ∈ nodes) ∧
        (StartSafeIn j dir s → ∀ k, k ∈ nodes ↔ Dominates (FileEdge j dir) s k t)) := by
  have hinv := RunInv.reached h.wf hs hrun
  have hedge := traversal_file h dir
  have hsome : (view st.DomMap t).isSome = true ↔ Reaches (FileEdge j dir) s t := by
    rw [← hedge, ← edge_incoming h.wf]
    exact hinv.inv.isSome_iff hq t
  unfold report
  dsimp only
  rw [hn, access_initialized]
  cases hv : view st.DomMap t with
  | none =>
    rw [hv] at hsome
    refine ⟨_, rfl, ?_, fun hcode => ?_⟩
    · rw [← hsome]
      simp
    · cases hcode
  | some A =>
    rw [hv] at hsome
    obtain ⟨data, hl, hi, hA⟩ := view_eq_some.mp hv
    have hdata : (access st.DomMap t).1 = data := by rw [access, hl]
    have hlive : ∀ k ∈ walk A, r.hasNode k = true := by
      intro k hk
      have hmem := (hinv.inv.doms_mem t A hv).2.1 (((hwalk A).2 k).mp hk)
      exact (h.hasNode_iff k).mpr (h.length ▸ Finset.mem_range.mp hmem)
    obtain ⟨names, hnames, hmap⟩ := functionNames_file h hlive
    refine ⟨⟨names, [], .Success⟩, ?_, by rw [← hsome]; simp, fun _ => ?_⟩
    · rw [hdata, hA, hnames]
      rfl
    · refine ⟨walk A, names, (hwalk A).1, hmap, rfl, fun k hk => ?_, fun hsafe k => ?_⟩
      · rw [(hwalk A).2, ← hA]
        exact hinv.overApprox h.wf hl hi (hedge ▸ hk)
      · rw [(hwalk A).2, ← hA, ← hedge]
        refine ((KeptInv.reached h.wf hs ?_ hrun).exact h.wf hq).doms t data hl hi k
        rw [StartSafe, hedge]
        exact hsafe

theorem prepare_file (h : FileGraph j m r) (hfile : readFile j = .ok r) (hsize : (nodesOf j).length < 2 ^ 64) (cxx : Cxxopts)
    {nodeName refName : String} (ht : placeOf j nodeName = some t) (hs : placeOf j refName = some s) :
    ∃ target ref, target.id = t ∧ ref.id = s ∧
      prepare cxx ⟨false, some j, some nodeName, some refName⟩ = .ok (.query r target ref nodeName refName) := by
  obtain ⟨hnone, -⟩ | ⟨k, target, hk, -, htarget, hfind⟩ := findNode_place h (throws_of_placeOf hsize ht)
  · rw [ht] at hnone
    cases hnone
  obtain ⟨hnone, -⟩ | ⟨k', ref, hk', -, href, hfind'⟩ := findNode_place h (throws_of_placeOf hsize hs)
  · rw [hs] at hnone
    cases hnone
  rw [ht] at hk
  rw [hs] at hk'
  cases hk
  cases hk'
  refine ⟨target, ref, htarget, href, ?_⟩
  simp only [prepare, hfile, ok_bind, hfind, hfind', Bool.false_eq_true, if_false]
  rfl

/-- With a file of version 4, `dom` and `postdom` tell whether the node is reached from the other one, print all
nodes on every path between them, and from a safe start end and print no others. -/
theorem dominators_file (dir : TraverseDir) (hwalk : IsWalk walk) (cxx : Cxxopts) (hv : createReader j = .ok (some .versionFour))
    (hread : MetaCG.read j = .ok r) (hsize : (nodesOf j).length < 2 ^ 64) {nodeName refName : String}
    (ht : placeOf j nodeName = some t) (hs : placeOf j refName = some s) :
    (∀ result, Run dir walk cxx ⟨false, some j, some nodeName, some refName⟩ result →
      ∃ o, result = .ok o ∧ (o.code = .Success ↔ Reaches (FileEdge j dir) s t) ∧
        (o.code = .Success → ∃ (nodes : List ℕ) (names : List String), nodes.Nodup ∧ names.map some = nodes.map (nameAt j) ∧
          o.out = names ∧ (∀ k, Dominates (FileEdge j dir) s k t → k ∈ nodes) ∧
          (StartSafeIn j dir s → ∀ k, k ∈ nodes ↔ Dominates (FileEdge j dir) s k t))) ∧
    (StartSafeIn j dir s →
      (∃ N, ∀ (f : ℕ → DomState) (k : ℕ), f 0 = start s → (∀ i < k, Next r dir (f i) (f (i + 1))) → k ≤ N) ∧
      ∃ result, Run dir walk cxx ⟨false, some j, some nodeName, some refName⟩ result) := by
  obtain ⟨m, h⟩ := read_fileGraph hread
  have hlive : r.hasNode s = true := (h.hasNode_iff s).mpr (placeOf_lt hs)
  obtain ⟨target, ref, htarget, href, hprep⟩ := prepare_file h ((readFile_eq hv).trans hread) hsize cxx ht hs
  refine ⟨fun result hrun => ?_, fun hsafe => ?_⟩
  · cases hrun with
    | throws hp =>
      rw [hprep] at hp
      cases hp
    | stops hp =>
      rw [hprep] at hp
      cases hp
    | answers hp hreached hq =>
      rw [hprep] at hp
      cases hp
      exact report_file h hwalk hlive htarget (href ▸ hreached) hq nodeName refName
  · have hsafe' : StartSafe r dir s := by
      rw [StartSafe, traversal_file h]
      exact hsafe
    refine ⟨⟨roundsLeft r (start s), fun f k h0 hf => (keptRun_of_safe h.wf hlive hsafe' h0 hf).length_le h.wf hlive⟩, ?_⟩
    obtain ⟨st, hreached, hq⟩ := exists_end h hlive hsafe'
    exact ⟨_, .answers hprep (href ▸ hreached) hq⟩

end

end DomCommand

/-! ## A file -/

/-- `main` calls `f`, which calls itself and `g`; the strings are not the places. -/
def threeCalls : Json :=
  plainFile [("1", plainNode "main" ["2"]), ("2", plainNode "f" ["2", "5"]), ("5", plainNode "g" [])]

def sortedWalk (s : Finset ℕ) : List ℕ := s.sort (· ≤ ·)

theorem sortedWalk_isWalk : IsWalk sortedWalk := fun s => ⟨s.sort_nodup _, fun _ => Finset.mem_sort _⟩

/-- `1` is the node in place one, `f`, not the one with the string `1`. -/
theorem ReachesCommand.reaches_file_threeCalls :
    ∃ o, ReachesCommand.run id sortedWalk ⟨"", id⟩ ⟨false, some threeCalls, some "main", some "1"⟩ = .ok o ∧
      (o.code = .Success ↔ ∃ p q, placeOf threeCalls "main" = some p ∧ placeOf threeCalls "1" = some q ∧
        Relation.ReflTransGen (CallsIn threeCalls) p q) := by
  have hord : ∀ l : List ℕ, (id l).Perm l := List.Perm.refl
  have hread : MetaCG.read threeCalls = .ok (graphOf threeCalls) := by rfl
  have h := (ReachesCommand.reaches_file hord sortedWalk_isWalk ⟨"", id⟩ (by rfl) hread "main").1 "1"
  rwa [if_neg (by decide)] at h

theorem DomCommand.dominators_file_threeCalls :
    ∃ result, DomCommand.Run .Forward sortedWalk ⟨"", id⟩ ⟨false, some threeCalls, some "g", some "1"⟩ result := by
  have hread : MetaCG.read threeCalls = .ok (graphOf threeCalls) := by rfl
  have ht : placeOf threeCalls "g" = some 2 := by decide
  have hs : placeOf threeCalls "1" = some 1 := by decide
  have hself : CallsIn threeCalls 1 1 :=
    ⟨("2", plainNode "f" ["2", "5"]), rfl, ("2", .obj []), List.mem_of_getElem? (i := 0) rfl, rfl⟩
  exact ((DomCommand.dominators_file .Forward sortedWalk_isWalk ⟨"", id⟩ (by rfl) hread (by decide) ht hs).2 (.inl hself)).2

end MetaCG.CGQuery
