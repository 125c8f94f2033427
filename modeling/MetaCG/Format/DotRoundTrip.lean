import MetaCG.Graph.History
import MetaCG.Format.DotGenerator
import MetaCG.Format.DotTokens

/-! Reading a generated DOT file back.

Every line of a generated file ends with a name. On the line of a node it stands in quotes; on the
line of a call nothing follows it, so the tokenizer drops it, and the connector left on the stack
waits for the next line. -/
namespace MetaCG.Dot
open Foundations
set_option autoImplicit false
set_option maxHeartbeats 250000
set_option maxRecDepth 120000

/-- The lines of a generated file. -/
theorem getlines_dotLines {g : Callgraph} {names : List String} {edges : List (ℕ × ℕ)} (hn : ∀ s ∈ names, Word s)
    (he : ∀ e ∈ edges, Word (nodeName g e.1) ∧ Word (nodeName g e.2)) :
    getlines [] (joinLines (dotLines g names edges)).toList = (dotLines g names edges).map String.toList := by
  refine getlines_join fun l hl => ?_
  simp only [dotLines, List.mem_cons, List.mem_append, List.mem_map, List.not_mem_nil, or_false] at hl
  rcases hl with rfl | ⟨s, hs, rfl⟩ | hl | ⟨e, hmem, rfl⟩ | rfl
  · decide
  · simp [nodeLine, String.toList_append, (hn s hs).no_newline]
  · split_ifs at hl
    · cases hl
    · rw [List.mem_singleton.mp hl]
      decide
  · simp [edgeText, String.toList_append, (he e hmem).1.no_newline, (he e hmem).2.no_newline]
  · decide

/-! ## The parser over the nodes -/

/-- The parser has read `pre` as nodes and is waiting for an entity. -/
structure NodesParsed (pre : List String) (p : DotParser) : Prop where
  state : p.state = .GRAPH
  stack : p.seenTokens.length < 2 ∧ ∀ t ∈ p.seenTokens, t.type = .ENTITY
  wf : p.callgraph.Wf
  names : p.callgraph.liveNodes.map CgNode.functionName = pre
  edges : p.callgraph.edges = ∅

theorem getNodesNamed_eq_nil {g : Callgraph} (h : g.Wf) {name : String} (hn : name ∉ g.liveNodes.map CgNode.functionName) :
    g.getNodesNamed name = [] := by
  refine List.eq_nil_iff_forall_not_mem.mpr fun i hi => hn ?_
  obtain ⟨n, hslot, hname⟩ := (h.mem_named name i).mp hi
  exact List.mem_map.mpr ⟨n, (g.mem_liveNodes n).mpr ⟨i, hslot⟩, hname⟩

theorem getOrInsertNode_new {g : Callgraph} (h : g.Wf) {name : String} (hne : name ≠ "")
    (hn : name ∉ g.liveNodes.map CgNode.functionName) :
    g.getOrInsertNode name none false false = .ok (g.insertNode name none false false, g.nodes.length) := by
  rw [Callgraph.getOrInsertNode, Callgraph.getFirstNode, getNodesNamed_eq_nil h hn]
  simp only [ok_bind, Callgraph.insert, if_neg hne]

theorem liveNodes_insertNode (g : Callgraph) (f : String) (o : Option String) (v b : Bool) :
    (g.insertNode f o v b).liveNodes = g.liveNodes ++ [CgNode.create g.nodes.length f o v b] := by
  rw [Callgraph.liveNodes, Callgraph.insertNode, List.reduceOption_append]
  rfl

theorem reduceStack_short {p : DotParser} (h : p.seenTokens.length < 3) : reduceStack p = .ok p := by
  rw [reduceStack, if_pos h]

/-- An entity that follows no connector is inserted and takes the place of the top of the stack. -/
theorem handleEntity_plain {p : DotParser} (hs : p.state = .GRAPH) (hl : p.seenTokens.length < 2)
    (he : ∀ t ∈ p.seenTokens, t.type = .ENTITY) (token : ParsedToken) (ht : token.type = .ENTITY) :
    handleEntity p token = (do
      let (callgraph, _) ← p.callgraph.getOrInsertNode token.spelling none false false
      return { p with callgraph := callgraph, seenTokens := [token] }) := by
  unfold handleEntity
  rw [hs]
  cases hst : p.seenTokens with
  | nil => simp [ht]
  | cons top rest =>
    rw [hst] at hl he
    have htop : top.type = .ENTITY := he top (List.mem_cons_self ..)
    have hrest : rest = [] := List.eq_nil_of_length_eq_zero (by rw [List.length_cons] at hl; omega)
    simp [htop, hrest]

theorem NodesParsed.step {pre : List String} {p : DotParser} (h : NodesParsed pre p) {name : String} (hw : Word name)
    (hn : name ∉ pre) (ls : LastSeen) :
    ∃ p', parse ls p (nodeLine name).toList = .ok p' ∧ NodesParsed (pre ++ [name]) p' := by
  have hne := hw.unbroken.ne_empty
  have hnew := getOrInsertNode_new h.wf hne (h.names ▸ hn)
  refine ⟨{ p with callgraph := p.callgraph.insertNode name none false false, seenTokens := [⟨.ENTITY, name⟩] }, ?_, ?_⟩
  · have hlt : p.seenTokens.length < 3 := by have := h.stack.1; omega
    have hentity := handleEntity_plain h.state h.stack.1 h.stack.2 ⟨.ENTITY, name⟩ rfl
    simp only [hnew, ok_bind] at hentity
    rw [parse, tokenize_nodeLine ls hw, List.foldlM_cons, handleToken, reduceStack_short hlt, ok_bind, List.foldlM_cons,
      handleToken, hentity]
    rfl
  · refine ⟨h.state, ⟨by simp, by simp⟩, h.wf.insertNode name none false false hne, ?_, h.edges⟩
    change (p.callgraph.insertNode name none false false).liveNodes.map CgNode.functionName = _
    rw [liveNodes_insertNode, List.map_append, h.names]
    rfl

theorem NodesParsed.run {names : List String} (hw : ∀ s ∈ names, Word s) (hd : names.Nodup) (ls : List Char → LastSeen)
    {p : DotParser} (h : NodesParsed [] p) :
    ∃ p', ((names.map nodeLine).map String.toList).foldlM (fun p line => parse (ls line) p line) p = .ok p' ∧
      NodesParsed names p' := by
  rw [List.map_map, List.foldlM_map]
  refine foldlM_total (J := NodesParsed) h fun pre name t hpre ht => ?_
  have hmem : name ∈ names := hpre.subset (List.mem_append_right _ (List.mem_singleton_self name))
  have hnew : name ∉ pre := by
    have hnodup := hpre.sublist.nodup hd
    rw [List.nodup_append] at hnodup
    exact fun hin => hnodup.2.2 name hin name (List.mem_singleton_self name) rfl
  exact ht.step (hw name hmem) hnew _

theorem parse_header (ls : LastSeen) :
    parse ls ⟨.INIT, Callgraph.empty, []⟩ "digraph callgraph \x7b".toList = .ok ⟨.GRAPH, Callgraph.empty, []⟩ := by
  rw [parse, tokenize_header]
  rfl

theorem parse_closing (ls : LastSeen) (p : DotParser) : parse ls p "\x7d".toList = .ok p := by
  rw [parse, tokenize_closing]
  rfl

/-! ## The parser over the calls -/

/-- After `k` lines of calls at most `k - 1` calls are read. -/
structure EdgesParsed (k : ℕ) (p : DotParser) : Prop where
  state : p.state = .GRAPH
  start : k = 0 → p.seenTokens.length < 2 ∧ ∀ t ∈ p.seenTokens, t.type = .ENTITY
  stack : 0 < k → ∃ source, p.seenTokens = [⟨.CONNECTOR, "->"⟩, ⟨.ENTITY, source⟩]
  count : p.callgraph.edges.keys.length ≤ k - 1

theorem getOrInsertNode_edges {g g' : Callgraph} {name : String} {o : Option String} {v b : Bool} {id : ℕ}
    (h : g.getOrInsertNode name o v b = .ok (g', id)) : g'.edges = g.edges := by
  rcases Callgraph.getOrInsertNode_cases h with rfl | ⟨-, rfl⟩
  · rfl
  · rfl

theorem addEdgeRef_edges (g : Callgraph) (u v : NodeRef) :
    (Callgraph.addEdgeRef 0 g u v).2.edges.keys.length ≤ g.edges.keys.length + 1 := by
  unfold Callgraph.addEdgeRef
  split_ifs
  · exact Nat.le_succ _
  · unfold Callgraph.addEdgeInternal
    split_ifs
    · exact Nat.le_succ _
    · change (AList.insert (u.id, v.id) ∅ g.edges).keys.length ≤ _
      rw [AList.keys_insert, List.length_cons]
      exact Nat.add_le_add_right (@List.length_erase_le _ instBEqOfDecidableEq _ _) 1

theorem connect_edges {g g' : Callgraph} {src target : String} (h : connect g src target = .ok g') :
    g'.edges.keys.length ≤ g.edges.keys.length + 1 := by
  obtain ⟨⟨g₁, srcId⟩, h₁, h⟩ := bind_eq_ok.mp h
  obtain ⟨⟨g₂, targetId⟩, h₂, h⟩ := bind_eq_ok.mp h
  cases h
  have hcount := addEdgeRef_edges g₂ ⟨0, srcId⟩ ⟨0, targetId⟩
  rw [getOrInsertNode_edges h₂, getOrInsertNode_edges h₁] at hcount
  exact hcount

/-- An entity that follows a connector: the call is read, and the entity waits for a connector. -/
theorem handleEntity_target {p p' : DotParser} (hs : p.state = .GRAPH) {source : String}
    (hst : p.seenTokens = [⟨.CONNECTOR, "->"⟩, ⟨.ENTITY, source⟩]) {target : String}
    (h : handleEntity p ⟨.ENTITY, target⟩ = .ok p') :
    p'.state = .GRAPH ∧ p'.seenTokens = [⟨.ENTITY, target⟩] ∧
      p'.callgraph.edges.keys.length ≤ p.callgraph.edges.keys.length + 1 := by
  unfold handleEntity at h
  rw [hs, hst] at h
  simp only [List.isEmpty_cons, Bool.false_eq_true, if_false, if_true] at h
  obtain ⟨p₁, hreduce, h⟩ := bind_eq_ok.mp h
  obtain ⟨g', hloop, hp₁⟩ := bind_eq_ok.mp (show (do
    let callgraph ← reduceLoop p.callgraph [⟨.ENTITY, target⟩, ⟨.CONNECTOR, "->"⟩, ⟨.ENTITY, source⟩]
    return (⟨.GRAPH, callgraph, []⟩ : DotParser)) = Except.ok p₁ from hreduce)
  obtain ⟨g₁, hconnect, hend⟩ := bind_eq_ok.mp (show (do
    let callgraph ← connect p.callgraph source target
    reduceLoop callgraph []) = Except.ok g' from hloop)
  cases hend
  cases hp₁
  cases h
  exact ⟨rfl, rfl, connect_edges hconnect⟩

theorem EdgesParsed.step {g : Callgraph} {k : ℕ} {p p' : DotParser} (h : EdgesParsed k p) {e : ℕ × ℕ}
    (hu : Word (nodeName g e.1)) (hv : Word (nodeName g e.2)) {ls : LastSeen}
    (hparse : parse ls p (edgeText g e).toList = .ok p') : EdgesParsed (k + 1) p' := by
  rw [parse, edgeText, tokenize_edgeLine ls hu hv, List.foldlM_cons, handleToken] at hparse
  obtain ⟨p₁, hentity, hrest⟩ := bind_eq_ok.mp hparse
  cases hrest
  have hspec : p₁.state = .GRAPH ∧ p₁.seenTokens = [⟨.ENTITY, nodeName g e.1⟩] ∧ p₁.callgraph.edges.keys.length ≤ k := by
    have hcount := h.count
    cases Nat.eq_zero_or_pos k with
    | inl hk =>
      obtain ⟨hlen, hall⟩ := h.start hk
      rw [handleEntity_plain h.state hlen hall _ rfl] at hentity
      obtain ⟨⟨g', id⟩, hinsert, hp₁⟩ := bind_eq_ok.mp hentity
      cases hp₁
      refine ⟨h.state, rfl, ?_⟩
      rw [getOrInsertNode_edges hinsert]
      omega
    | inr hk =>
      obtain ⟨source, hst⟩ := h.stack hk
      obtain ⟨hstate, hstack, hle⟩ := handleEntity_target h.state hst hentity
      exact ⟨hstate, hstack, by omega⟩
  refine ⟨hspec.1, fun hk => by omega, fun _ => ⟨nodeName g e.1, ?_⟩, hspec.2.2⟩
  exact congrArg _ hspec.2.1

theorem EdgesParsed.run {g : Callgraph} {edges : List (ℕ × ℕ)} (hw : ∀ e ∈ edges, Word (nodeName g e.1) ∧ Word (nodeName g e.2))
    (ls : List Char → LastSeen) {p p' : DotParser} (h : EdgesParsed 0 p)
    (hrun : ((edges.map (edgeText g)).map String.toList).foldlM (fun p line => parse (ls line) p line) p = .ok p') :
    EdgesParsed edges.length p' := by
  rw [List.map_map, List.foldlM_map] at hrun
  refine foldlM_ok_inv (J := fun pre p => EdgesParsed pre.length p) h (fun pre e t t' hpre ht hparse => ?_) hrun
  obtain ⟨hu, hv⟩ := hw e (hpre.subset (List.mem_append_right _ (List.mem_singleton_self e)))
  rw [List.length_append]
  exact ht.step hu hv hparse

/-! ## The round trip -/

/-- `r` has the functions and the calls of `g`, by name. -/
structure SameByName (g r : Callgraph) : Prop where
  names : (r.liveNodes.map CgNode.functionName).Perm (g.liveNodes.map CgNode.functionName)
  calls : r.callsNamed = g.callsNamed

/-- A graph that can be drawn: no erased nodes, and distinct names of letters followed by digits. -/
structure Drawable (g : Callgraph) : Prop where
  live : g.NoErased
  distinct : (g.liveNodes.map CgNode.functionName).Nodup
  words : ∀ n ∈ g.liveNodes, Word n.functionName

section
variable {g : Callgraph} {names : List String} {edges : List (ℕ × ℕ)}

theorem nodeName_of_slot {i : ℕ} {n : CgNode} (hn : g.slot i = some n) : nodeName g i = n.functionName := by
  rw [nodeName, Callgraph.nameOf, hn]
  rfl

theorem Drawable.word (hd : Drawable g) {i : ℕ} (hi : g.hasNode i = true) : Word (nodeName g i) := by
  obtain ⟨n, hn⟩ := (g.hasNode_iff i).mp hi
  rw [nodeName_of_slot hn]
  exact hd.words n ((g.mem_liveNodes n).mpr ⟨i, hn⟩)

theorem Drawable.nodeName_inj (h : g.Wf) (hd : Drawable g) {i k : ℕ} (hi : g.hasNode i = true) (hk : g.hasNode k = true)
    (he : nodeName g i = nodeName g k) : i = k := by
  obtain ⟨n, hn⟩ := (g.hasNode_iff i).mp hi
  obtain ⟨m, hm⟩ := (g.hasNode_iff k).mp hk
  rw [nodeName_of_slot hn, nodeName_of_slot hm] at he
  have heq : n = m := List.inj_on_of_nodup_map hd.distinct ((g.mem_liveNodes n).mpr ⟨i, hn⟩)
    ((g.mem_liveNodes m).mpr ⟨k, hm⟩) he
  rw [← h.node_id i n hn, heq, h.node_id k m hm]

theorem Contents.names_perm (hd : Drawable g) (hc : Contents g names edges) :
    names.Perm (g.liveNodes.map CgNode.functionName) := hd.distinct.dedup ▸ hc.names

theorem Contents.word (hd : Drawable g) (hc : Contents g names edges) : ∀ s ∈ names, Word s := by
  intro s hs
  obtain ⟨n, hn, rfl⟩ := List.mem_map.mp ((hc.names_perm hd).mem_iff.mp hs)
  exact hd.words n hn

theorem Contents.edge_words (h : g.Wf) (hd : Drawable g) (hc : Contents g names edges) :
    ∀ e ∈ edges, Word (nodeName g e.1) ∧ Word (nodeName g e.2) := by
  intro e he
  obtain ⟨hu, hv⟩ := h.edge_live e.1 e.2 (hc.edges_sound e he)
  exact ⟨hd.word hu, hd.word hv⟩

/-- The names of the end points of an edge form a call, and so does every call come from an edge. -/
theorem mem_callsNamed_of_edge (h : g.Wf) {e : ℕ × ℕ} (he : e ∈ g.edges) :
    (nodeName g e.1, nodeName g e.2) ∈ g.callsNamed := by
  obtain ⟨hu, hv⟩ := h.edge_live e.1 e.2 he
  obtain ⟨n, hn⟩ := (g.hasNode_iff e.1).mp hu
  obtain ⟨m, hm⟩ := (g.hasNode_iff e.2).mp hv
  refine ⟨e.1, e.2, he, ?_, ?_⟩
  · rw [nodeName_of_slot hn, Callgraph.nameOf, hn]
    rfl
  · rw [nodeName_of_slot hm, Callgraph.nameOf, hm]
    rfl

theorem mem_edges_of_callsNamed {p : String × String} (hp : p ∈ g.callsNamed) :
    p ∈ g.edges.keys.map fun e => (nodeName g e.1, nodeName g e.2) := by
  obtain ⟨u, v, he, hu, hv⟩ := hp
  refine List.mem_map.mpr ⟨(u, v), AList.mem_keys.mp he, ?_⟩
  simp only [nodeName, hu, hv, Option.getD_some]

/-- A graph with the same calls has at least as many edges. -/
theorem Drawable.edges_le (h : g.Wf) (hd : Drawable g) {r : Callgraph} (hr : r.callsNamed = g.callsNamed) :
    g.edges.keys.length ≤ r.edges.keys.length := by
  have hnodup : (g.edges.keys.map fun e => (nodeName g e.1, nodeName g e.2)).Nodup := by
    refine (g.edges.keys_nodup).map_on fun e he e' he' heq => ?_
    obtain ⟨hu, hv⟩ := h.edge_live e.1 e.2 (AList.mem_keys.mpr he)
    obtain ⟨hu', hv'⟩ := h.edge_live e'.1 e'.2 (AList.mem_keys.mpr he')
    obtain ⟨h₁, h₂⟩ := Prod.mk.inj heq
    exact Prod.ext (hd.nodeName_inj h hu hu' h₁) (hd.nodeName_inj h hv hv' h₂)
  have hsub : (g.edges.keys.map fun e => (nodeName g e.1, nodeName g e.2)) ⊆
      r.edges.keys.map fun e => (nodeName r e.1, nodeName r e.2) := by
    intro p hp
    obtain ⟨e, he, rfl⟩ := List.mem_map.mp hp
    exact mem_edges_of_callsNamed (hr ▸ mem_callsNamed_of_edge h (AList.mem_keys.mpr he))
  have hle := (List.subperm_of_subset hnodup hsub).length_le
  simpa using hle

/-- The loop over the lines, cut at the last node. -/
theorem readGraph_dotLines (h : g.Wf) (hd : Drawable g) (hc : Contents g names edges) (ls : List Char → LastSeen) :
    ∃ p, NodesParsed names p ∧ readGraph ls (joinLines (dotLines g names edges)) = (do
      let p ← ((edges.map (edgeText g)).map String.toList).foldlM (fun p line => parse (ls line) p line) p
      return p.callgraph) := by
  have hstart : NodesParsed [] ⟨.GRAPH, Callgraph.empty, []⟩ := ⟨rfl, ⟨by simp, by simp⟩, Callgraph.Wf.empty, rfl, rfl⟩
  have hnodup : names.Nodup := (hc.names_perm hd).nodup_iff.mpr hd.distinct
  obtain ⟨p, hrun, hp⟩ := NodesParsed.run (hc.word hd) hnodup ls hstart
  refine ⟨p, hp, ?_⟩
  have hblank : ((if edges.isEmpty then [] else [""] : List String).map String.toList).foldlM
      (fun p line => parse (ls line) p line) p = .ok p := by
    split_ifs <;> rfl
  rw [readGraph, getlines_dotLines (hc.word hd) (hc.edge_words h hd), dotLines, List.map_cons, List.map_append, List.map_append,
    List.map_append, List.foldlM_cons, parse_header, ok_bind, List.foldlM_append, hrun, ok_bind, List.foldlM_append, hblank,
    ok_bind, List.foldlM_append, bind_assoc]
  refine congrArg _ (funext fun p' => ?_)
  rw [List.map_singleton, List.foldlM_cons, parse_closing]
  rfl

/-- What the reader builds from a generated file, if it returns: one call less than there are lines of calls. -/
theorem readGraph_edges_le (h : g.Wf) (hd : Drawable g) (hc : Contents g names edges) {ls : List Char → LastSeen} {r : Callgraph}
    (hr : readGraph ls (joinLines (dotLines g names edges)) = .ok r) : r.edges.keys.length ≤ edges.length - 1 := by
  obtain ⟨p, hp, hread⟩ := readGraph_dotLines h hd hc ls
  rw [hread] at hr
  obtain ⟨p', hrun, hr⟩ := bind_eq_ok.mp hr
  cases hr
  have hstart : EdgesParsed 0 p := ⟨hp.state, fun _ => hp.stack, fun h0 => absurd h0 (lt_irrefl 0), by rw [hp.edges]; simp⟩
  exact (hstart.run (hc.edge_words h hd) ls hrun).count

theorem lookup_addToManagedGraphs {manager m' : MCGManager} {cgName : String} {graph : ℕ} {r : Callgraph} {setActive : Bool}
    (h : manager.addToManagedGraphs cgName (some (graph, r)) setActive = .ok m') :
    m'.managedGraphs.lookup cgName = some graph ∧ m'.heap.lookup graph = some r := by
  cases h
  cases setActive with
  | true => exact ⟨AList.lookup_insert _, AList.lookup_insert _⟩
  | false => exact ⟨AList.lookup_insert _, AList.lookup_insert _⟩

/-- The graph that is managed after reading the generated file has the functions and the calls of `g` iff
`g` has no calls. -/
theorem readAndManage_generate_iff (h : g.Wf) (hd : Drawable g) (outputSorted : Bool) (order : HashOrder)
    (manager : MCGManager) (ls : List Char → LastSeen) (cgName : String) (graph : ℕ) (setActive : Bool) :
    (∃ dotString m' r, generate g outputSorted order = .ok dotString ∧
      readAndManage manager ls dotString cgName graph setActive = .ok m' ∧
      m'.managedGraphs.lookup cgName = some graph ∧ m'.heap.lookup graph = some r ∧ SameByName g r) ↔
    ∀ e, e ∉ g.edges := by
  obtain ⟨names, edges, hgen, hc⟩ := generate_spec h hd.live outputSorted order
  constructor
  · rintro ⟨dotString, m', r, hgen', hread, -, hheap, hsame⟩ e he
    rw [hgen] at hgen'
    cases hgen'
    obtain ⟨r', hgraph, hadd⟩ := Outcome.guard_eq_ok hread
    rw [(lookup_addToManagedGraphs hadd).2] at hheap
    cases hheap
    have hlt := readGraph_edges_le h hd hc hgraph
    have hle := hd.edges_le h hsame.calls
    have hprinted : edges.length ≤ g.edges.keys.length :=
      (List.subperm_of_subset hc.edges_nodup fun e he => AList.mem_keys.mp (hc.edges_sound e he)).length_le
    have hpos : 0 < edges.length := List.length_pos_iff.mpr fun hnil => hc.edges_nil hnil e he
    omega
  · intro hnone
    have hnil : edges = [] := List.eq_nil_iff_forall_not_mem.mpr fun e he => hnone e (hc.edges_sound e he)
    obtain ⟨p, hp, hread⟩ := readGraph_dotLines h hd hc ls
    rw [hnil] at hread hgen
    have hgraph : readGraph ls (joinLines (dotLines g names [])) = .ok p.callgraph := hread
    obtain ⟨m', hadd⟩ : ∃ m', manager.addToManagedGraphs cgName (some (graph, p.callgraph)) setActive = .ok m' := ⟨_, rfl⟩
    obtain ⟨hmanaged, hheap⟩ := lookup_addToManagedGraphs hadd
    refine ⟨_, m', p.callgraph, hgen, ?_, hmanaged, hheap, ?_, ?_⟩
    · rw [readAndManage, hgraph, Outcome.guard_ok, hadd]
    · rw [hp.names]
      exact hc.names_perm hd
    · ext q
      constructor
      · rintro ⟨u, v, he, -, -⟩
        rw [hp.edges] at he
        exact absurd he (AList.notMem_empty _)
      · rintro ⟨u, v, he, -, -⟩
        exact absurd he (hnone (u, v))

end

/-! ## Two graphs -/

/-- Hash sets that are walked in the order in which `List.dedup` leaves their elements. -/
def dedupOrder : HashOrder where
  neighbours := List.dedup
  names := List.dedup
  edges := List.dedup
  neighbours_perm := fun _ => .refl _
  names_perm := fun _ => .refl _
  edges_perm := fun _ => .refl _

/-- Two functions that do not call each other. -/
def twoFunctions : Callgraph := Callgraph.run 0 [.insert "main" none false true, .insert "f1" none false false]

/-- One function calls the other. -/
def fooBar : Callgraph := Callgraph.run 0 [.insert "foo" none false true, .insert "bar" none false false, .addEdge 0 1]

theorem drawable_of_names {g : Callgraph} (hn : g.NoErased) {a b : String}
    (hnames : g.liveNodes.map CgNode.functionName = [a, b]) (hab : a ≠ b) (ha : Word a) (hb : Word b) : Drawable g where
  live := hn
  distinct := by
    rw [hnames]
    simpa using hab
  words := by
    intro n hmem
    have hname : n.functionName ∈ g.liveNodes.map CgNode.functionName := List.mem_map.mpr ⟨n, hmem, rfl⟩
    rw [hnames, List.mem_cons, List.mem_singleton] at hname
    rcases hname with hname | hname
    · rw [hname]
      exact ha
    · rw [hname]
      exact hb

theorem twoFunctions_drawable : Drawable twoFunctions :=
  drawable_of_names (by decide) (a := "main") (b := "f1") (by decide) (by decide)
    (word_of_all ['m', 'a', 'i', 'n'] [] (by decide) (by decide) (by decide) (by decide))
    (word_of_all ['f'] ['1'] (by decide) (by decide) (by decide) (by decide))

theorem fooBar_drawable : Drawable fooBar :=
  drawable_of_names (by decide) (a := "foo") (b := "bar") (by decide) (by decide)
    (word_of_all ['f', 'o', 'o'] [] (by decide) (by decide) (by decide) (by decide))
    (word_of_all ['b', 'a', 'r'] [] (by decide) (by decide) (by decide) (by decide))

theorem readAndManage_generate_twoFunctions :
    ∃ dotString m' r, generate twoFunctions true dedupOrder = .ok dotString ∧
      readAndManage MCGManager.initial (fun _ => .CNTRL) dotString "copy" 0 true = .ok m' ∧
      m'.managedGraphs.lookup "copy" = some 0 ∧ m'.heap.lookup 0 = some r ∧ SameByName twoFunctions r := by
  refine (readAndManage_generate_iff (Callgraph.run_wf 0 _) twoFunctions_drawable true dedupOrder MCGManager.initial
    (fun _ => .CNTRL) "copy" 0 true).mpr fun e he => ?_
  have hkeys : twoFunctions.edges.keys = [] := by decide
  have hmem : e ∈ twoFunctions.edges.keys := AList.mem_keys.mp he
  rw [hkeys] at hmem
  cases hmem

/-- The generated file with the one call `foo -> bar` is read as a graph without calls. -/
theorem readGraph_fooBar :
    fooBar.Wf ∧ Drawable fooBar ∧ fooBar.edges.keys = [(0, 1)] ∧
      ∃ dotString r, generate fooBar true dedupOrder = .ok dotString ∧ readGraph (fun _ => .CNTRL) dotString = .ok r ∧
        r.edges.keys = [] ∧ ¬ SameByName fooBar r := by
  have hrun : ((generate fooBar true dedupOrder).toOption.bind fun dotString =>
      (readGraph (fun _ => .CNTRL) dotString).toOption.map fun r => r.edges.keys) = some [] := by decide +kernel
  obtain ⟨dotString, hgen, hread⟩ := Option.bind_eq_some_iff.mp hrun
  obtain ⟨r, hr, hnil⟩ := Option.map_eq_some_iff.mp hread
  have hok : ∀ {α : Type} {x : Except Exn α} {a : α}, x.toOption = some a → x = .ok a := by
    intro α x a hx
    cases x with
    | error e => cases hx
    | ok b =>
      cases hx
      rfl
  refine ⟨Callgraph.run_wf 0 _, fooBar_drawable, by decide, dotString, r, hok hgen, hok hr, hnil, fun hsame => ?_⟩
  have hcall : (0, 1) ∈ fooBar.edges := by decide
  have hmem := mem_edges_of_callsNamed (hsame.calls ▸ mem_callsNamed_of_edge (Callgraph.run_wf 0 _) hcall)
  rw [hnil] at hmem
  cases hmem

end MetaCG.Dot
