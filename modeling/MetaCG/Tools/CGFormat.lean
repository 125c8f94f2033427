import MetaCG.Foundations.Occurrence
import MetaCG.Graph.History
import MetaCG.Merge.NodeLoop

/-! The origins that cgformat rewrites (`CGFormat.cpp`).

The loop over the nodes either checks the origins or rewrites them. Reading and writing the file are
those of the graph library; log output is not modelled. -/
namespace MetaCG.CGFormat
open Foundations
set_option autoImplicit false
set_option maxHeartbeats 250000
set_option maxRecDepth 120000

/-- The command line options that the loop over the nodes reads. -/
structure Options where
  originPrefix : String
  prefixToReplace : String
  ignoreSysInclues : Bool
  checkOnly : Bool
  abortCheckAfterError : Bool

def replacePathPrefix (originalPath targetDir newPrefix : String) : Option String :=
  let search := '/' :: targetDir.toList
  (firstOccurrence search originalPath.toList).map fun pos =>
    newPrefix ++ String.ofList (originalPath.toList.drop (pos + search.length))

/-- The node comes from a system header, if that matters. -/
def isSysInclude (options : Options) (node : CgNode) : Bool :=
  options.ignoreSysInclues && match node.metaFields.lookup "fileProperties" with
    | some (.fileProperties fromSystemInclude) => fromSystemInclude
    | _ => false

/-- One round of the loop: whether the node passes the check, and the node that it leaves. -/
def visitNode (options : Options) (node : CgNode) : Bool × CgNode :=
  match node.origin with
  | none => (true, node)
  | some origin =>
    if origin = "" then
      if options.checkOnly then (false, node) else (true, { node with origin := none })
    else if !isSysInclude options node && !(options.originPrefix.toList.isPrefixOf origin.toList) then
      if options.checkOnly then (false, node)
      else if options.prefixToReplace ≠ "" then
        match replacePathPrefix origin options.prefixToReplace options.originPrefix with
        | some newOrigin => (true, { node with origin := some newOrigin })
        | none => (true, node)
      else (true, node)
    else (true, node)

/-- The loop; a failed check may end it. -/
def visitNodes (options : Options) : List (Option CgNode) → Except Exn (Bool × List (Option CgNode))
  | [] => .ok (true, [])
  | none :: _ => .error .nullDereference
  | some node :: rest =>
    let (passed, node) := visitNode options node
    if !passed && options.abortCheckAfterError then .ok (false, some node :: rest)
    else do
      let (checkSucceeded, rest) ← visitNodes options rest
      return (passed && checkSucceeded, some node :: rest)

/-- `checkSucceeded` and the graph after the loop. -/
def formatOrigins (options : Options) (graph : Callgraph) : Except Exn (Bool × Callgraph) :=
  if options.originPrefix = "" then .ok (true, graph)
  else do
    let (checkSucceeded, nodes) ← visitNodes options graph.nodes
    return (checkSucceeded, { graph with nodes := nodes })

/-! ## Components of a path -/

/-- A component ends here. -/
def AtEnd (rest : List Char) : Prop := rest = [] ∨ ∃ rest', rest = '/' :: rest'

/-- `dir` is the component between `pre` and `rest`. -/
structure ComponentAt (dir path pre rest : List Char) : Prop where
  occurs : path = pre ++ (dir ++ rest)
  starts : pre = [] ∨ ∃ pre', pre = pre' ++ ['/']
  ends : AtEnd rest

structure FirstComponent (dir path pre rest : List Char) : Prop extends ComponentAt dir path pre rest where
  first : ∀ pre' rest', ComponentAt dir path pre' rest' → pre.length ≤ pre'.length

/-- A new origin is the prefix and what follows the first component `dir`. -/
def AtComponents (newPrefix dir origin : String) (newOrigin : Option String) : Prop :=
  newOrigin ≠ some origin → ∃ pre rest, FirstComponent dir.toList origin.toList pre rest ∧
    newOrigin = some (newPrefix ++ String.ofList rest)

/-- The origin is one that the options ask to rewrite. -/
def Candidate (options : Options) (node : CgNode) (origin : String) : Prop :=
  options.originPrefix ≠ "" ∧ isSysInclude options node = false ∧ ¬ options.originPrefix.toList <+: origin.toList ∧
    options.prefixToReplace ≠ ""

/-- The first `/dir` in the path is a component, and the path does not begin with one. -/
def FoundAtComponent (dir path : List Char) : Prop :=
  ∀ pre rest, FirstAt ('/' :: dir) path pre rest → AtEnd rest ∧ ∀ rest', path = dir ++ rest' → ¬ AtEnd rest'

/-- Where the search finds a component, it is the first component. -/
theorem foundAtComponent_iff {dir path pre rest : List Char} (h : FirstAt ('/' :: dir) path pre rest) :
    (AtEnd rest ∧ ∀ rest', path = dir ++ rest' → ¬ AtEnd rest') ↔ ∃ pre', FirstComponent dir path pre' rest := by
  have hocc : path = (pre ++ ['/']) ++ (dir ++ rest) := by
    rw [h.occurs, List.append_assoc]
    rfl
  constructor
  · rintro ⟨hend, hbegin⟩
    refine ⟨pre ++ ['/'], ⟨hocc, .inr ⟨pre, rfl⟩, hend⟩, fun pre' rest' hcomp => ?_⟩
    rcases hcomp.starts with rfl | ⟨pre', rfl⟩
    · exact absurd hcomp.ends (hbegin rest' hcomp.occurs)
    · have hle := h.first pre' rest' (by rw [hcomp.occurs, List.append_assoc]; rfl)
      rw [List.length_append, List.length_append]
      omega
  · rintro ⟨pre', hcomp⟩
    refine ⟨hcomp.ends, fun rest' hbegin hend => ?_⟩
    have hnil : pre'.length ≤ 0 := hcomp.first [] rest' ⟨hbegin, .inl rfl, hend⟩
    have hlen := congrArg List.length (hcomp.occurs.symm.trans hocc)
    simp only [List.length_append, List.length_singleton] at hlen
    omega

/-! ## One node -/

section
variable {options : Options} {node : CgNode} {origin : String}

theorem replacePathPrefix_first {pre rest : List Char} {dir path : String} (h : FirstAt ('/' :: dir.toList) path.toList pre rest)
    (newPrefix : String) : replacePathPrefix path dir newPrefix = some (newPrefix ++ String.ofList rest) := by
  rcases firstOccurrence_spec ('/' :: dir.toList) path.toList with ⟨pre', rest', hfirst, hat⟩ | ⟨-, hall⟩
  · obtain ⟨rfl, rfl⟩ := h.unique hat
    simp only [replacePathPrefix, hfirst, Option.map_some, h.drop]
  · exact absurd h.occurs (hall pre rest)

theorem visitNode_candidate (happly : options.checkOnly = false) (ho : node.origin = some origin) (hne : origin ≠ "")
    (h : Candidate options node origin) : visitNode options node =
      (true, ((replacePathPrefix origin options.prefixToReplace options.originPrefix).map fun newOrigin =>
        { node with origin := some newOrigin }).getD node) := by
  obtain ⟨-, hsys, hgiven, hreplace⟩ := h
  have hstarts : options.originPrefix.toList.isPrefixOf origin.toList = false := by
    rw [Bool.eq_false_iff, ne_eq, List.isPrefixOf_iff_prefix]
    exact hgiven
  rw [visitNode, ho]
  simp only [hne, happly, hsys, hstarts, hreplace, if_false, Bool.not_false, Bool.and_self, Bool.false_eq_true, if_true, ne_eq,
    not_false_eq_true]
  cases replacePathPrefix origin options.prefixToReplace options.originPrefix <;> rfl

theorem visitNode_skip (happly : options.checkOnly = false) (ho : node.origin = some origin) (hne : origin ≠ "")
    (h : ¬ Candidate options node origin) : visitNode options node = (true, node) := by
  rw [visitNode, ho]
  simp only [hne, happly, Bool.false_eq_true, if_false]
  split_ifs with hcond hreplace
  · refine absurd ⟨fun hempty => ?_, ?_, ?_, hreplace⟩ h
    · simp [hempty] at hcond
    · simp only [Bool.and_eq_true, Bool.not_eq_true'] at hcond
      exact hcond.1
    · intro hgiven
      rw [← List.isPrefixOf_iff_prefix] at hgiven
      simp [hgiven] at hcond
  · rfl
  · rfl

theorem visitNode_none (ho : node.origin = none) : visitNode options node = (true, node) := by
  rw [visitNode, ho]

theorem visitNode_empty (happly : options.checkOnly = false) (ho : node.origin = some "") :
    visitNode options node = (true, { node with origin := none }) := by
  rw [visitNode, ho]
  simp [happly]

/-- What rewriting does to a path. -/
theorem visitNode_cases (happly : options.checkOnly = false) (ho : node.origin = some origin) (hne : origin ≠ "") :
    visitNode options node = (true, node) ∨ (Candidate options node origin ∧ ∃ pre rest,
      FirstAt ('/' :: options.prefixToReplace.toList) origin.toList pre rest ∧
      visitNode options node = (true, { node with origin := some (options.originPrefix ++ String.ofList rest) })) := by
  by_cases hcand : Candidate options node origin
  · rw [visitNode_candidate happly ho hne hcand]
    rcases firstOccurrence_spec ('/' :: options.prefixToReplace.toList) origin.toList with ⟨pre, rest, -, hat⟩ | ⟨hnone, -⟩
    · exact .inr ⟨hcand, pre, rest, hat, by rw [replacePathPrefix_first hat]; rfl⟩
    · left
      simp only [replacePathPrefix, hnone, Option.map_none, Option.getD_none]
  · exact .inl (visitNode_skip happly ho hne hcand)

/-- A node that has been rewritten is left as it is. -/
theorem visitNode_again (happly : options.checkOnly = false) (node : CgNode) :
    (visitNode options node).1 = true ∧ visitNode options (visitNode options node).2 = (true, (visitNode options node).2) := by
  cases ho : node.origin with
  | none => exact ⟨by rw [visitNode_none ho], by rw [visitNode_none ho, visitNode_none ho]⟩
  | some origin =>
    by_cases hne : origin = ""
    · subst hne
      rw [visitNode_empty happly ho]
      exact ⟨rfl, visitNode_none rfl⟩
    · rcases visitNode_cases happly ho hne with hsame | ⟨hcand, pre, rest, -, hnew⟩
      · rw [hsame]
        exact ⟨rfl, hsame⟩
      · rw [hnew]
        refine ⟨rfl, visitNode_skip happly rfl (fun hempty => ?_) fun hagain => hagain.2.2.1 ?_⟩
        · exact hcand.1 (String.append_eq_empty_iff.mp hempty).1
        · rw [String.toList_append]
          exact List.prefix_append _ _

/-- A path is rewritten at a component iff the search finds one. -/
theorem visitNode_atComponents_iff (happly : options.checkOnly = false) (ho : node.origin = some origin) (hne : origin ≠ "") :
    AtComponents options.originPrefix options.prefixToReplace origin (visitNode options node).2.origin ↔
      (Candidate options node origin → FoundAtComponent options.prefixToReplace.toList origin.toList) := by
  constructor
  · intro hat hcand pre rest hfirst
    have hnew : (visitNode options node).2.origin = some (options.originPrefix ++ String.ofList rest) := by
      rw [visitNode_candidate happly ho hne hcand, replacePathPrefix_first hfirst]
      rfl
    rw [hnew] at hat
    obtain ⟨pre', rest', hcomp, hrest⟩ := hat fun hsame => hcand.2.2.1 (by
      rw [← Option.some.inj hsame, String.toList_append]
      exact List.prefix_append _ _)
    have heq : rest = rest' := by
      have htail := congrArg String.toList (Option.some.inj hrest)
      rw [String.toList_append, String.toList_append, String.toList_ofList, String.toList_ofList] at htail
      exact List.append_cancel_left htail
    exact (foundAtComponent_iff hfirst).mpr ⟨pre', heq ▸ hcomp⟩
  · intro hfound hchanged
    rcases visitNode_cases happly ho hne with hsame | ⟨hcand, pre, rest, hfirst, hnew⟩
    · rw [hsame] at hchanged
      exact absurd ho hchanged
    · obtain ⟨pre', hcomp⟩ := (foundAtComponent_iff hfirst).mp (hfound hcand pre rest hfirst)
      exact ⟨pre', rest, hcomp, by rw [hnew]⟩

end

/-! ## The graph -/

theorem visitNodes_apply {options : Options} (happly : options.checkOnly = false) (nodes : List CgNode) :
    visitNodes options (nodes.map some) = .ok (true, nodes.map fun node => some (visitNode options node).2) := by
  induction nodes with
  | nil => rfl
  | cons node nodes ih =>
    have hpair : visitNode options node = (true, (visitNode options node).2) := Prod.ext (visitNode_again happly node).1 rfl
    rw [List.map_cons, visitNodes, hpair, ih]
    rfl

/-- The graph with its origins rewritten. -/
def rewritten (options : Options) (graph : Callgraph) : Callgraph :=
  if options.originPrefix = "" then graph
  else { graph with nodes := graph.liveNodes.map fun node => some (visitNode options node).2 }

theorem formatOrigins_apply {options : Options} (happly : options.checkOnly = false) {graph : Callgraph} (hn : graph.NoErased) :
    formatOrigins options graph = .ok (true, rewritten options graph) := by
  unfold formatOrigins rewritten
  split_ifs
  · rfl
  · rw [hn.nodes_eq, visitNodes_apply happly]
    rfl

section
variable {options : Options} {graph : Callgraph}

theorem slot_rewritten (hn : graph.NoErased) (hgiven : options.originPrefix ≠ "") (i : ℕ) :
    (rewritten options graph).slot i = (graph.slot i).map fun node => (visitNode options node).2 := by
  have hslot : ∀ l : List CgNode, ((l.map some)[i]?).join = l[i]? := by
    intro l
    rw [List.getElem?_map]
    cases l[i]? <;> rfl
  have hmap : graph.liveNodes.map (fun node => some (visitNode options node).2) =
      (graph.liveNodes.map fun node => (visitNode options node).2).map some := by
    rw [List.map_map]
    rfl
  rw [rewritten, if_neg hgiven]
  change ((graph.liveNodes.map fun node => some (visitNode options node).2)[i]?).join =
    ((graph.nodes[i]?).join).map fun node => (visitNode options node).2
  rw [hmap, hslot, List.getElem?_map]
  conv_rhs => rw [hn.nodes_eq, hslot]

theorem rewritten_again (happly : options.checkOnly = false) (graph : Callgraph) :
    formatOrigins options (rewritten options graph) = .ok (true, rewritten options graph) := by
  unfold formatOrigins rewritten
  split_ifs with hgiven
  · rfl
  · have hmap : graph.liveNodes.map (fun node => some (visitNode options node).2) =
        (graph.liveNodes.map fun node => (visitNode options node).2).map some := by
      rw [List.map_map]
      rfl
    have hsame : ∀ node : CgNode, some (visitNode options (visitNode options node).2).2 = some (visitNode options node).2 :=
      fun node => by rw [(visitNode_again happly node).2]
    rw [hmap, visitNodes_apply happly, List.map_map, ← hmap]
    simp only [Function.comp_def, hsame]
    rfl

/-- The origins are rewritten at components, and only once, iff the search finds only components. -/
theorem formatOrigins_atComponents_iff (happly : options.checkOnly = false) (hn : graph.NoErased) :
    (∃ graph', formatOrigins options graph = .ok (true, graph') ∧
      (∀ i node origin, graph.slot i = some node → node.origin = some origin → origin ≠ "" →
        ∃ node', graph'.slot i = some node' ∧
          AtComponents options.originPrefix options.prefixToReplace origin node'.origin) ∧
      formatOrigins options graph' = .ok (true, graph')) ↔
    ∀ node ∈ graph.liveNodes, ∀ origin, node.origin = some origin → origin ≠ "" → Candidate options node origin →
      FoundAtComponent options.prefixToReplace.toList origin.toList := by
  constructor
  · rintro ⟨graph', hrun, hat, -⟩ node hnode origin ho hne hcand
    rw [formatOrigins_apply happly hn] at hrun
    cases hrun
    obtain ⟨i, hi⟩ := (graph.mem_liveNodes node).mp hnode
    obtain ⟨node', hnode', hcomp⟩ := hat i node origin hi ho hne
    rw [slot_rewritten hn hcand.1, hi] at hnode'
    cases hnode'
    exact (visitNode_atComponents_iff happly ho hne).mp hcomp hcand
  · intro hfound
    refine ⟨_, formatOrigins_apply happly hn, fun i node origin hi ho hne => ?_, rewritten_again happly graph⟩
    by_cases hgiven : options.originPrefix = ""
    · refine ⟨node, by rw [rewritten, if_pos hgiven, hi], fun hchanged => absurd ho hchanged⟩
    · refine ⟨(visitNode options node).2, by rw [slot_rewritten hn hgiven, hi]; rfl, ?_⟩
      exact (visitNode_atComponents_iff happly ho hne).mpr
        (hfound node ((graph.mem_liveNodes node).mpr ⟨i, hi⟩) origin ho hne)

end

/-- A function in the directory `src`, and one in the directory `srcs`. -/
def inDirectory (directory : String) : Callgraph :=
  Callgraph.run 0 [.insert "f" (some ("/home/" ++ directory ++ "/f.cpp")) false true]

def toNewPrefix : Options := ⟨"/new", "src", true, false, false⟩

theorem formatOrigins_atComponents_src :
    ∃ graph', formatOrigins toNewPrefix (inDirectory "src") = .ok (true, graph') ∧
      (∀ i node origin, (inDirectory "src").slot i = some node → node.origin = some origin → origin ≠ "" →
        ∃ node', graph'.slot i = some node' ∧ AtComponents "/new" "src" origin node'.origin) ∧
      formatOrigins toNewPrefix graph' = .ok (true, graph') := by
  refine (formatOrigins_atComponents_iff rfl (by decide)).mpr fun node hnode origin ho _ _ pre rest hfirst => ?_
  have horigin : ∀ node ∈ (inDirectory "src").liveNodes, node.origin = some "/home/src/f.cpp" := by decide
  rw [horigin node hnode] at ho
  cases ho
  rcases firstOccurrence_spec "/src".toList "/home/src/f.cpp".toList with ⟨pre', rest', hat, hfirst'⟩ | ⟨hnone, -⟩
  · obtain ⟨rfl, rfl⟩ := hfirst'.unique hfirst
    have hfive : firstOccurrence "/src".toList "/home/src/f.cpp".toList = some 5 := by decide
    have hdrop := hfirst'.drop
    rw [← Option.some.inj (hfive.symm.trans hat)] at hdrop
    refine ⟨.inr ⟨"f.cpp".toList, by rw [← hdrop]; decide⟩, fun rest' hbegin => ?_⟩
    exact absurd (List.cons.inj hbegin).1 (by decide)
  · exact absurd hnone (by decide)

/-- The directory `srcs` is rewritten, and its last letter stays. -/
theorem formatOrigins_srcs :
    ∃ graph' node', formatOrigins toNewPrefix (inDirectory "srcs") = .ok (true, graph') ∧ graph'.slot 0 = some node' ∧
      node'.origin = some "/news/f.cpp" ∧ ¬ AtComponents "/new" "src" "/home/srcs/f.cpp" node'.origin := by
  refine ⟨_, ⟨0, "f", some "/news/f.cpp", true, ∅⟩, formatOrigins_apply rfl (by decide), ?_, rfl, fun hat => ?_⟩
  · rw [slot_rewritten (by decide) (by decide)]
    rfl
  · obtain ⟨pre, rest, hcomp, hnew⟩ := hat (by decide)
    have hrest : "s/f.cpp".toList = rest := by
      have htail := congrArg String.toList (Option.some.inj hnew)
      rw [String.toList_append, String.toList_ofList (l := rest)] at htail
      have hnews : "/news/f.cpp".toList = "/new".toList ++ "s/f.cpp".toList := by decide
      exact List.append_cancel_left (hnews.symm.trans htail)
    rcases hcomp.ends with hnil | ⟨rest', hslash⟩
    · rw [hnil] at hrest
      exact absurd hrest (by decide)
    · rw [hslash] at hrest
      exact absurd (List.cons.inj hrest).1 (by decide)

end MetaCG.CGFormat
