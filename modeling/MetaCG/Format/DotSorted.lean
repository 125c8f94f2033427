import MetaCG.Format.DotRoundTrip

/-! Sorted and unsorted output.

The sorted edge set takes two edges for the same when the concatenations of their names are equal, and keeps the one
that is inserted first. The walk inserts the edge (u, v) at the node of the smaller id: with the callees of u, or after
them with the callers of v. Which edges are met together does not depend on the order of hash sets. -/
namespace MetaCG.Dot
open Foundations Callgraph
set_option autoImplicit false
set_option maxHeartbeats 250000
set_option maxRecDepth 120000

/-! ## The first of its key -/

section
variable {α : Type} {key : α → String}

/-- An element with a new key is inserted, and only then. -/
theorem mem_setInsert_new {x y : α} {l : List α} (hs : KeySorted key l) (h : y ∈ setInsert key x l) :
    y ∈ l ∨ (y = x ∧ ∀ z ∈ l, key z ≠ key x) := by
  induction l with
  | nil => exact .inr ⟨List.mem_singleton.mp h, fun z hz => absurd hz List.not_mem_nil⟩
  | cons a t ih =>
    obtain ⟨ha, ht⟩ := List.pairwise_cons.mp hs
    rw [setInsert] at h
    split_ifs at h with hlt hgt
    · rcases List.mem_cons.mp h with rfl | h
      · refine .inr ⟨rfl, fun z hz he => ?_⟩
        rcases List.mem_cons.mp hz with rfl | hz
        · exact absurd he (ne_of_gt hlt)
        · exact absurd he (ne_of_gt (lt_trans hlt (ha z hz)))
      · exact .inl h
    · rcases List.mem_cons.mp h with rfl | h
      · exact .inl (List.mem_cons_self ..)
      · rcases ih ht h with h | ⟨rfl, hnew⟩
        · exact .inl (List.mem_cons_of_mem a h)
        · exact .inr ⟨rfl, List.forall_mem_cons.mpr ⟨ne_of_lt hgt, hnew⟩⟩
    · exact .inl h

/-- Of the elements with one key the set keeps the first. -/
theorem setOf_first {xs : List α} {x : α} (h : x ∈ setOf key xs) :
    ∃ pre post, xs = pre ++ x :: post ∧ ∀ y ∈ pre, key y ≠ key x := by
  induction xs using List.reverseRecOn with
  | nil => cases h
  | append_singleton xs a ih =>
    rw [setOf_concat] at h
    rcases mem_setInsert_new (setOf_sorted xs) h with h | ⟨rfl, hnew⟩
    · obtain ⟨pre, post, hxs, hpre⟩ := ih h
      exact ⟨pre, post ++ [a], by rw [hxs, List.append_assoc, List.cons_append], hpre⟩
    · refine ⟨xs, [], rfl, fun y hy he => ?_⟩
      obtain ⟨z, hz, hkey⟩ := (exists_mem_setOf y hy : ∃ z ∈ setOf key xs, key z = key y)
      exact hnew z hz (hkey.trans he)

end

/-! ## The order of the insertions -/

section
variable {g : Callgraph} {order : HashOrder}

/-- The insertions of one node, with their place in the walk. -/
def insertionsOf (g : Callgraph) (order : HashOrder) (u : ℕ) : List (ℕ × (ℕ × ℕ)) :=
  (order.neighbours (g.callees u)).map (fun c => (2 * u, (u, c))) ++
    (order.neighbours (g.callers u)).map fun p => (2 * u + 1, (p, u))

def insertions (g : Callgraph) (order : HashOrder) : List (ℕ × (ℕ × ℕ)) :=
  g.liveNodes.flatMap fun n => insertionsOf g order n.id

/-- The first place at which an edge is inserted. -/
def rank (e : ℕ × ℕ) : ℕ := if e.1 ≤ e.2 then 2 * e.1 else 2 * e.2 + 1

theorem fillNodesAndEdges_eq (h : g.Wf) (hn : g.NoErased) (order : HashOrder) : fillNodesAndEdges g order =
    .ok (g.liveNodes.map CgNode.functionName, (insertions g order).map Prod.snd) := by
  have key : ∀ (l : List CgNode) (st : List String × List (ℕ × ℕ)), (l.map some).foldlM (fillNode g order) st =
      .ok (st.1 ++ l.map CgNode.functionName, st.2 ++ (l.flatMap fun n => insertionsOf g order n.id).map Prod.snd) := by
    intro l
    induction l with
    | nil =>
      intro st
      simp
      rfl
    | cons n l ih =>
      intro st
      rw [List.map_cons, List.foldlM_cons, fillNode_eq h, ok_bind, ih]
      simp [insertionsOf, Function.comp_def]
  rw [fillNodesAndEdges, hn.nodes_eq, key]
  rfl

theorem mem_insertionsOf (h : g.Wf) {u k : ℕ} {e : ℕ × ℕ} : (k, e) ∈ insertionsOf g order u ↔
    e ∈ g.edges ∧ ((k = 2 * u ∧ e.1 = u) ∨ (k = 2 * u + 1 ∧ e.2 = u)) := by
  obtain ⟨a, b⟩ := e
  rw [insertionsOf, List.mem_append, List.mem_map, List.mem_map]
  simp only [mem_calleeNeighbours h, mem_callerNeighbours h, Prod.mk.injEq]
  constructor
  · rintro (⟨c, hc, rfl, rfl, rfl⟩ | ⟨p, hp, rfl, rfl, rfl⟩)
    · exact ⟨hc, .inl ⟨rfl, rfl⟩⟩
    · exact ⟨hp, .inr ⟨rfl, rfl⟩⟩
  · rintro ⟨he, ⟨rfl, rfl⟩ | ⟨rfl, rfl⟩⟩
    · exact .inl ⟨b, he, rfl, rfl, rfl⟩
    · exact .inr ⟨a, he, rfl, rfl, rfl⟩

theorem rank_le_of_mem (h : g.Wf) {k : ℕ} {e : ℕ × ℕ} (he : (k, e) ∈ insertions g order) : e ∈ g.edges ∧ rank e ≤ k := by
  obtain ⟨n, -, hmem⟩ := List.mem_flatMap.mp he
  obtain ⟨hedge, hplace⟩ := (mem_insertionsOf h).mp hmem
  refine ⟨hedge, ?_⟩
  unfold rank
  split_ifs <;> omega

theorem rank_mem (h : g.Wf) (order : HashOrder) {e : ℕ × ℕ} (he : e ∈ g.edges) : (rank e, e) ∈ insertions g order := by
  obtain ⟨hu, hv⟩ := h.edge_live e.1 e.2 he
  have hnode : ∀ {i}, g.hasNode i = true → ∃ n ∈ g.liveNodes, n.id = i := by
    intro i hi
    obtain ⟨n, hn⟩ := (g.hasNode_iff i).mp hi
    exact ⟨n, (g.mem_liveNodes n).mpr ⟨i, hn⟩, h.node_id i n hn⟩
  unfold rank
  split_ifs
  · obtain ⟨n, hn, hid⟩ := hnode hu
    exact List.mem_flatMap.mpr ⟨n, hn, (mem_insertionsOf h).mpr ⟨he, .inl ⟨by rw [hid], hid.symm⟩⟩⟩
  · obtain ⟨n, hn, hid⟩ := hnode hv
    exact List.mem_flatMap.mpr ⟨n, hn, (mem_insertionsOf h).mpr ⟨he, .inr ⟨by rw [hid], hid.symm⟩⟩⟩

theorem insertions_sorted (h : g.Wf) (order : HashOrder) : (insertions g order).Pairwise fun a b => a.1 ≤ b.1 := by
  have hplace : ∀ {u : ℕ} {x : ℕ × (ℕ × ℕ)}, x ∈ insertionsOf g order u → 2 * u ≤ x.1 ∧ x.1 ≤ 2 * u + 1 := by
    intro u x hx
    have hk := ((mem_insertionsOf (k := x.1) (e := x.2) h).mp hx).2
    omega
  refine List.pairwise_flatMap.mpr ⟨fun n _ => List.pairwise_append.mpr ⟨?_, ?_, fun x hx y hy => ?_⟩, ?_⟩
  · exact List.pairwise_map.mpr (List.pairwise_of_forall_mem_list fun _ _ _ _ => le_rfl)
  · exact List.pairwise_map.mpr (List.pairwise_of_forall_mem_list fun _ _ _ _ => le_rfl)
  · obtain ⟨c, -, rfl⟩ := List.mem_map.mp hx
    obtain ⟨p, -, rfl⟩ := List.mem_map.mp hy
    exact Nat.le_succ _
  · refine (List.pairwise_map.mp h.liveNodes_id_sorted).imp fun {n m} hlt x hx y hy => ?_
    have hxn := hplace hx
    have hym := hplace hy
    omega

/-- An edge of the sorted set is the first of its key in the walk. -/
theorem rank_le_of_survivor (h : g.Wf) {x : ℕ × ℕ} (hx : x ∈ setOf (edgeKey g) ((insertions g order).map Prod.snd))
    {z : ℕ × ℕ} (hz : z ∈ g.edges) (hkey : edgeKey g z = edgeKey g x) : rank x ≤ rank z := by
  obtain ⟨pre, post, hsplit, hpre⟩ := setOf_first hx
  obtain ⟨before, rest, hins, rfl, hrest⟩ := List.map_eq_append_iff.mp hsplit
  obtain ⟨⟨k, x'⟩, after, rfl, hx', -⟩ := List.map_eq_cons_iff.mp hrest
  obtain rfl : x' = x := hx'
  have hsorted := insertions_sorted h order
  rw [hins, List.pairwise_append] at hsorted
  have hinserted : (k, x') ∈ insertions g order := by
    rw [hins]
    simp
  have hk : rank x' ≤ k := (rank_le_of_mem h hinserted).2
  by_contra hlt
  have hmem := rank_mem h order hz
  rw [hins, List.mem_append, List.mem_cons] at hmem
  rcases hmem with hmem | heq | hmem
  · exact hpre z (List.mem_map.mpr ⟨_, hmem, rfl⟩) hkey
  · cases heq
    omega
  · have hle : k ≤ rank z := (List.pairwise_cons.mp hsorted.2.1).1 _ hmem
    omega

/-- Edges with the same key and the same place have the same names. -/
theorem edgeText_eq_of_rank {x y : ℕ × ℕ} (hkey : edgeKey g x = edgeKey g y) (hrank : rank x = rank y) :
    edgeText g x = edgeText g y := by
  obtain ⟨a, b⟩ := x
  obtain ⟨c, d⟩ := y
  have hnames : nodeName g a ++ nodeName g b = nodeName g c ++ nodeName g d := hkey
  have hends : a = c ∨ b = d := by
    simp only [rank] at hrank
    split_ifs at hrank <;> omega
  unfold edgeText
  dsimp only
  rcases hends with rfl | rfl
  · rw [(String.append_right_inj _).mp hnames]
  · rw [(String.append_left_inj _).mp hnames]

/-! ## The lines -/

/-- The node lines and the edge lines of the generated file. -/
def writtenLines (cg : Callgraph) (outputSorted : Bool) (order : HashOrder) : Except Exn (List String × List String) := do
  let (nodes, edges) ← dotContents cg outputSorted order
  let edgeLines ← edges.mapM (edgeLine cg)
  return (nodes.map nodeLine, edgeLines)

/-- The file with the given node lines and edge lines. -/
def fileOf (lines : List String × List String) : String :=
  "digraph callgraph \x7b\n" ++ String.join (lines.1.map fun l => l ++ "\n") ++
    (if lines.2.isEmpty then "" else "\n") ++ String.join (lines.2.map fun l => l ++ "\n") ++ "\x7d\n"

theorem fileOf_map_nodeLine (nodes edgeLines : List String) : fileOf (nodes.map nodeLine, edgeLines) =
    "digraph callgraph \x7b\n" ++ String.join (nodes.map fun n => nodeLine n ++ "\n") ++
      (if edgeLines.isEmpty then "" else "\n") ++ String.join (edgeLines.map fun l => l ++ "\n") ++ "\x7d\n" := by
  unfold fileOf
  rw [List.map_map]
  simp only [Function.comp_def]

/-- The generated string is made of these lines. -/
theorem generate_eq_writtenLines (cg : Callgraph) (outputSorted : Bool) (order : HashOrder) :
    generate cg outputSorted order = (writtenLines cg outputSorted order).map fileOf := by
  unfold generate writtenLines
  cases dotContents cg outputSorted order with
  | error e => rfl
  | ok contents =>
    obtain ⟨nodes, edges⟩ := contents
    rw [ok_bind, ok_bind]
    dsimp only
    cases hedges : edges.mapM (edgeLine cg) with
    | error e => rfl
    | ok edgeLines =>
      have hempty : edges.isEmpty = edgeLines.isEmpty := by
        cases edges with
        | nil =>
          cases hedges
          rfl
        | cons e edges =>
          rw [List.mapM_cons] at hedges
          obtain ⟨l, -, hedges⟩ := bind_eq_ok.mp hedges
          obtain ⟨ls, -, hedges⟩ := bind_eq_ok.mp hedges
          cases hedges
          rfl
      rw [ok_bind, hempty, ← fileOf_map_nodeLine]
      rfl

/-- The edges that are written. -/
def writtenEdges (g : Callgraph) (outputSorted : Bool) (order : HashOrder) : List (ℕ × ℕ) :=
  if outputSorted then setOf (edgeKey g) ((insertions g order).map Prod.snd)
  else order.edges ((insertions g order).map Prod.snd)

theorem mem_insertions_iff (h : g.Wf) (e : ℕ × ℕ) : e ∈ (insertions g order).map Prod.snd ↔ e ∈ g.edges := by
  constructor
  · intro he
    obtain ⟨p, hp, rfl⟩ := List.mem_map.mp he
    exact (rank_le_of_mem (k := p.1) h hp).1
  · exact fun he => List.mem_map.mpr ⟨_, rank_mem h order he, rfl⟩

theorem mem_writtenEdges_unsorted (h : g.Wf) (e : ℕ × ℕ) : e ∈ writtenEdges g false order ↔ e ∈ g.edges := by
  rw [writtenEdges, if_neg Bool.false_ne_true, (order.edges_perm _).mem_iff, List.mem_dedup, mem_insertions_iff h]

theorem writtenEdges_sound (h : g.Wf) (outputSorted : Bool) {e : ℕ × ℕ} (he : e ∈ writtenEdges g outputSorted order) :
    e ∈ g.edges := by
  cases outputSorted with
  | true => exact (mem_insertions_iff h e).mp (mem_of_mem_setOf e he)
  | false => exact (mem_writtenEdges_unsorted h e).mp he

theorem writtenEdges_nodup (outputSorted : Bool) : (writtenEdges g outputSorted order).Nodup := by
  cases outputSorted with
  | true => exact (setOf_sorted _).nodup
  | false => exact (order.edges_perm _).nodup_iff.mpr (List.nodup_dedup _)

theorem writtenLines_eq (h : g.Wf) (hn : g.NoErased) (outputSorted : Bool) (order : HashOrder) :
    ∃ nodeLines, writtenLines g outputSorted order = .ok (nodeLines, (writtenEdges g outputSorted order).map (edgeText g)) ∧
      ∀ l, l ∈ nodeLines ↔ ∃ n ∈ g.liveNodes, l = nodeLine n.functionName := by
  have hlines : (writtenEdges g outputSorted order).mapM (edgeLine g) =
      .ok ((writtenEdges g outputSorted order).map (edgeText g)) := edgeLines_eq h fun e he => writtenEdges_sound h _ he
  have hnames : ∀ names : List String, names.Perm (g.liveNodes.map CgNode.functionName).dedup →
      ∀ l, l ∈ names.map nodeLine ↔ ∃ n ∈ g.liveNodes, l = nodeLine n.functionName := by
    intro names hperm l
    simp only [List.mem_map, hperm.mem_iff, List.mem_dedup]
    constructor
    · rintro ⟨name, ⟨n, hn, rfl⟩, rfl⟩
      exact ⟨n, hn, rfl⟩
    · rintro ⟨n, hn, rfl⟩
      exact ⟨n.functionName, ⟨n, hn, rfl⟩, rfl⟩
  rw [writtenLines, dotContents, fillNodesAndEdges_eq h hn, ok_bind]
  cases outputSorted with
  | true =>
    refine ⟨(setOf id (g.liveNodes.map CgNode.functionName)).map nodeLine, ?_, hnames _ (setOf_id_perm _)⟩
    rw [writtenEdges, if_pos rfl] at hlines ⊢
    change (do
      let edgeLines ← (setOf (edgeKey g) ((insertions g order).map Prod.snd)).mapM (edgeLine g)
      return ((setOf id (g.liveNodes.map CgNode.functionName)).map nodeLine, edgeLines)) = _
    rw [hlines]
    rfl
  | false =>
    refine ⟨(order.names (g.liveNodes.map CgNode.functionName)).map nodeLine, ?_, hnames _ (order.names_perm _)⟩
    rw [writtenEdges, if_neg Bool.false_ne_true] at hlines ⊢
    change (do
      let edgeLines ← (order.edges ((insertions g order).map Prod.snd)).mapM (edgeLine g)
      return ((order.names (g.liveNodes.map CgNode.functionName)).map nodeLine, edgeLines)) = _
    rw [hlines]
    rfl

/-! ## When the two outputs agree -/

/-- Both outputs have the same node lines and the same edge lines, and a line for each call. -/
def SameLines (g : Callgraph) (order order' : HashOrder) : Prop :=
  ∃ nodes edges nodes' edges', writtenLines g true order = .ok (nodes, edges) ∧
    writtenLines g false order' = .ok (nodes', edges') ∧ (∀ l, l ∈ nodes ↔ l ∈ nodes') ∧ (∀ l, l ∈ edges ↔ l ∈ edges') ∧
      ∀ e ∈ g.edges, edgeText g e ∈ edges ∧ edgeText g e ∈ edges'

/-- In both outputs each call has a line of its own, and there are no other edge lines. -/
def LineForEach (g : Callgraph) (order order' : HashOrder) : Prop :=
  ∃ nodes edges nodes' edges', writtenLines g true order = .ok (nodes, edges) ∧
    writtenLines g false order' = .ok (nodes', edges') ∧ edges.Perm (g.edges.keys.map (edgeText g)) ∧
      edges'.Perm (g.edges.keys.map (edgeText g))

/-- No edge with the same key comes before `e` in the walk. -/
def Leads (g : Callgraph) (e : ℕ × ℕ) : Prop := ∀ z ∈ g.edges, edgeKey g z = edgeKey g e → rank e ≤ rank z

theorem sameLines_iff (h : g.Wf) (hn : g.NoErased) (order order' : HashOrder) : SameLines g order order' ↔
    ∀ e ∈ g.edges, ∃ y ∈ g.edges, edgeText g y = edgeText g e ∧ Leads g y := by
  obtain ⟨nodes, hsorted, hnodes⟩ := writtenLines_eq h hn true order
  obtain ⟨nodes', hunsorted, hnodes'⟩ := writtenLines_eq h hn false order'
  constructor
  · rintro ⟨_, _, _, _, hs, -, -, -, hlines⟩ e he
    rw [hsorted] at hs
    cases hs
    obtain ⟨y, hy, htext⟩ := List.mem_map.mp (hlines e he).1
    exact ⟨y, writtenEdges_sound h true hy, htext, fun z hz hkey => rank_le_of_survivor h hy hz hkey⟩
  · intro hlead
    have hline : ∀ e ∈ g.edges, edgeText g e ∈ (writtenEdges g true order).map (edgeText g) := by
      intro e he
      obtain ⟨y, hy, htext, hfirst⟩ := hlead e he
      obtain ⟨x, hx, hkey⟩ : ∃ x ∈ setOf (edgeKey g) ((insertions g order).map Prod.snd), edgeKey g x = edgeKey g y :=
        exists_mem_setOf y ((mem_insertions_iff h y).mpr hy)
      have hxe := writtenEdges_sound h true hx
      have hrank : rank x = rank y := le_antisymm (rank_le_of_survivor h hx hy hkey.symm) (hfirst x hxe hkey)
      exact List.mem_map.mpr ⟨x, hx, (edgeText_eq_of_rank hkey hrank).trans htext⟩
    have hline' : ∀ e ∈ g.edges, edgeText g e ∈ (writtenEdges g false order').map (edgeText g) := fun e he =>
      List.mem_map.mpr ⟨e, (mem_writtenEdges_unsorted h e).mpr he, rfl⟩
    refine ⟨_, _, _, _, hsorted, hunsorted, fun l => (hnodes l).trans (hnodes' l).symm, fun l => ⟨fun hl => ?_, fun hl => ?_⟩,
      fun e he => ⟨hline e he, hline' e he⟩⟩
    · obtain ⟨e, he, rfl⟩ := List.mem_map.mp hl
      exact hline' e (writtenEdges_sound h true he)
    · obtain ⟨e, he, rfl⟩ := List.mem_map.mp hl
      exact hline e (writtenEdges_sound h false he)

theorem lineForEach_iff (h : g.Wf) (hn : g.NoErased) (order order' : HashOrder) : LineForEach g order order' ↔
    ∀ e ∈ g.edges, ∀ z ∈ g.edges, edgeKey g z = edgeKey g e → z = e := by
  obtain ⟨nodes, hsorted, -⟩ := writtenLines_eq h hn true order
  obtain ⟨nodes', hunsorted, -⟩ := writtenLines_eq h hn false order'
  have hsub : ∀ {outputSorted : Bool} {order : HashOrder}, writtenEdges g outputSorted order ⊆ g.edges.keys := fun he =>
    AList.mem_keys.mp (writtenEdges_sound h _ he)
  constructor
  · rintro ⟨_, _, _, _, hs, -, hperm, -⟩ e he z hz hkey
    rw [hsorted] at hs
    cases hs
    have hlen := hperm.length_eq
    rw [List.length_map, List.length_map] at hlen
    have hall := (List.subperm_of_subset (writtenEdges_nodup true) hsub).perm_of_length_le hlen.ge
    have hmem : ∀ {x}, x ∈ g.edges → x ∈ writtenEdges g true order := fun hx => hall.mem_iff.mpr (AList.mem_keys.mp hx)
    have hsorted : KeySorted (edgeKey g) (writtenEdges g true order) := setOf_sorted _
    have hnodup : ((writtenEdges g true order).map (edgeKey g)).Nodup := List.pairwise_map.mpr (hsorted.imp ne_of_lt)
    exact List.inj_on_of_nodup_map hnodup (hmem hz) (hmem he) hkey
  · intro hinj
    have hperm : ∀ outputSorted order, (∀ e ∈ g.edges, e ∈ writtenEdges g outputSorted order) →
        ((writtenEdges g outputSorted order).map (edgeText g)).Perm (g.edges.keys.map (edgeText g)) := by
      intro outputSorted order hall
      refine List.Perm.map _ ((List.perm_ext_iff_of_nodup (writtenEdges_nodup outputSorted) g.edges.nodupKeys).mpr fun e => ?_)
      exact ⟨fun he => hsub he, fun he => hall e (AList.mem_keys.mpr he)⟩
    refine ⟨_, _, _, _, hsorted, hunsorted, hperm true order fun e he => ?_,
      hperm false order' fun e he => (mem_writtenEdges_unsorted h e).mpr he⟩
    obtain ⟨x, hx, hkey⟩ : ∃ x ∈ setOf (edgeKey g) ((insertions g order).map Prod.snd), edgeKey g x = edgeKey g e :=
      exists_mem_setOf e ((mem_insertions_iff h e).mpr he)
    rw [← hinj e he x (writtenEdges_sound h true hx) hkey]
    exact hx

/-- The two outputs have the same lines, one for each call, iff each edge has the line of an edge that leads its key;
counted with repetitions there is a line for each call iff no two edges have the same key. The lines make up the generated
files. -/
theorem generate_sorted_iff (h : g.Wf) (hn : g.NoErased) (order order' : HashOrder) :
    (SameLines g order order' ↔ ∀ e ∈ g.edges, ∃ y ∈ g.edges, edgeText g y = edgeText g e ∧ Leads g y) ∧
      (LineForEach g order order' ↔ ∀ e ∈ g.edges, ∀ z ∈ g.edges, edgeKey g z = edgeKey g e → z = e) ∧
      ∀ outputSorted order, generate g outputSorted order = (writtenLines g outputSorted order).map fileOf :=
  ⟨sameLines_iff h hn order order', lineForEach_iff h hn order order', generate_eq_writtenLines g⟩

end

theorem generate_sorted_fooBar : SameLines fooBar dedupOrder dedupOrder ∧ LineForEach fooBar dedupOrder dedupOrder := by
  have hkeys : fooBar.edges.keys = [(0, 1)] := by decide
  have honly : ∀ e, e ∈ fooBar.edges → e = (0, 1) := by
    intro e he
    have hmem : e ∈ fooBar.edges.keys := AList.mem_keys.mp he
    rw [hkeys] at hmem
    exact List.mem_singleton.mp hmem
  obtain ⟨hsame, heach, -⟩ := generate_sorted_iff (Callgraph.run_wf 0 _ : fooBar.Wf) fooBar_drawable.live dedupOrder dedupOrder
  refine ⟨hsame.mpr fun e he => ⟨e, he, rfl, fun z hz _ => ?_⟩, heach.mpr fun e he z hz _ => ?_⟩
  · rw [honly e he, honly z hz]
  · rw [honly e he, honly z hz]

/-- `a` calls `bc` and `ab` calls `c`. -/
def sameKey : Callgraph := Callgraph.run 0 [.insert "a" none false true, .insert "bc" none false true,
  .insert "ab" none false true, .insert "c" none false true, .addEdge 0 1, .addEdge 2 3]

/-- The second call has no line in the sorted output. -/
theorem generate_sorted_sameKey : sameKey.Wf ∧ sameKey.NoErased ∧ (sameKey.liveNodes.map CgNode.functionName).Nodup ∧
    ¬ SameLines sameKey dedupOrder dedupOrder ∧ ¬ LineForEach sameKey dedupOrder dedupOrder := by
  have hwf : sameKey.Wf := Callgraph.run_wf 0 _
  have hlive : sameKey.NoErased := by decide
  have hkeys : sameKey.edges.keys = [(2, 3), (0, 1)] := by decide
  have hfirst : (0, 1) ∈ sameKey.edges := by decide
  have hsecond : (2, 3) ∈ sameKey.edges := by decide
  have hkey : edgeKey sameKey (0, 1) = edgeKey sameKey (2, 3) := by decide
  refine ⟨hwf, hlive, by decide, fun hsame => ?_, fun heach => ?_⟩
  · obtain ⟨y, hy, htext, hlead⟩ := (sameLines_iff hwf hlive dedupOrder dedupOrder).mp hsame (2, 3) hsecond
    have hmem : y ∈ sameKey.edges.keys := AList.mem_keys.mp hy
    rw [hkeys, List.mem_cons, List.mem_singleton] at hmem
    rcases hmem with rfl | rfl
    · exact absurd (hlead (0, 1) hfirst hkey) (by decide)
    · exact absurd htext (by decide)
  · exact absurd ((lineForEach_iff hwf hlive dedupOrder dedupOrder).mp heach (2, 3) hsecond (0, 1) hfirst hkey) (by decide)

end MetaCG.Dot
