import MetaCG.Merge.Sequence
import MetaCG.Format.DotIO

/-! What the DOT generator writes for a graph without erased nodes.

The walk over `getNodes()` dereferences every slot. Without erased slots it collects the names of all
nodes and each call once or twice; the sets then hold each of them once. -/
namespace MetaCG.Dot
open Foundations
set_option autoImplicit false
set_option maxHeartbeats 250000
set_option maxRecDepth 120000

/-! ## Ordered sets -/

section
variable {α : Type} {key : α → String}

/-- The elements of a `std::set`, in order. -/
def KeySorted (key : α → String) (l : List α) : Prop := l.Pairwise fun a b => key a < key b

theorem mem_of_mem_setInsert {x y : α} {l : List α} (h : y ∈ setInsert key x l) : y = x ∨ y ∈ l := by
  induction l with
  | nil => exact .inl (List.mem_singleton.mp h)
  | cons z t ih =>
    simp only [setInsert] at h
    split_ifs at h
    · exact List.mem_cons.mp h
    · rcases List.mem_cons.mp h with rfl | h
      · exact .inr (List.mem_cons_self ..)
      · exact (ih h).imp_right (List.mem_cons_of_mem z)
    · exact .inr h

theorem mem_setInsert_of_mem {x y : α} {l : List α} (h : y ∈ l) : y ∈ setInsert key x l := by
  induction l with
  | nil => cases h
  | cons z t ih =>
    simp only [setInsert]
    split_ifs
    · exact List.mem_cons_of_mem x h
    · rcases List.mem_cons.mp h with rfl | h
      · exact List.mem_cons_self ..
      · exact List.mem_cons_of_mem z (ih h)
    · exact h

/-- After an insertion some element has the key. -/
theorem exists_mem_setInsert (x : α) (l : List α) : ∃ y ∈ setInsert key x l, key y = key x := by
  induction l with
  | nil => exact ⟨x, List.mem_singleton_self x, rfl⟩
  | cons z t ih =>
    simp only [setInsert]
    split_ifs with h₁ h₂
    · exact ⟨x, List.mem_cons_self .., rfl⟩
    · obtain ⟨y, hy, hkey⟩ := ih
      exact ⟨y, List.mem_cons_of_mem z hy, hkey⟩
    · exact ⟨z, List.mem_cons_self .., le_antisymm (not_lt.mp h₁) (not_lt.mp h₂)⟩

theorem KeySorted.setInsert {l : List α} (h : KeySorted key l) (x : α) : KeySorted key (setInsert key x l) := by
  induction l with
  | nil => exact List.pairwise_singleton _ _
  | cons z t ih =>
    obtain ⟨hz, ht⟩ := List.pairwise_cons.mp h
    simp only [Dot.setInsert]
    split_ifs with h₁ h₂
    · refine List.pairwise_cons.mpr ⟨fun y hy => ?_, h⟩
      rcases List.mem_cons.mp hy with rfl | hy
      · exact h₁
      · exact lt_trans h₁ (hz y hy)
    · refine List.pairwise_cons.mpr ⟨fun y hy => ?_, ih ht⟩
      rcases mem_of_mem_setInsert hy with rfl | hy
      · exact h₂
      · exact hz y hy
    · exact h

theorem KeySorted.nodup {l : List α} (h : KeySorted key l) : l.Nodup := h.imp fun hab he => by
  subst he
  exact lt_irrefl _ hab

/-- The set after the insertion of all elements of `xs`. -/
def setOf (key : α → String) (xs : List α) : List α := xs.foldl (fun s x => setInsert key x s) []

theorem setOf_concat (xs : List α) (x : α) : setOf key (xs ++ [x]) = setInsert key x (setOf key xs) := by
  rw [setOf, List.foldl_append]
  rfl

theorem setOf_sorted (xs : List α) : KeySorted key (setOf key xs) := by
  induction xs using List.reverseRecOn with
  | nil => exact List.Pairwise.nil
  | append_singleton xs x ih =>
    rw [setOf_concat]
    exact ih.setInsert x

theorem mem_of_mem_setOf {xs : List α} : ∀ x ∈ setOf key xs, x ∈ xs := by
  induction xs using List.reverseRecOn with
  | nil => exact fun x hx => hx
  | append_singleton xs a ih =>
    intro x hx
    rw [setOf_concat] at hx
    rw [List.mem_append, List.mem_singleton]
    exact (mem_of_mem_setInsert hx).symm.imp_left (ih x)

theorem exists_mem_setOf {xs : List α} : ∀ x ∈ xs, ∃ y ∈ setOf key xs, key y = key x := by
  induction xs using List.reverseRecOn with
  | nil => exact fun x hx => by cases hx
  | append_singleton xs a ih =>
    intro x hx
    rw [setOf_concat]
    rcases List.mem_append.mp hx with hx | hx
    · obtain ⟨y, hy, hkey⟩ := ih x hx
      exact ⟨y, mem_setInsert_of_mem hy, hkey⟩
    · rw [List.mem_singleton.mp hx]
      exact exists_mem_setInsert a _

end

theorem setOf_id_perm (xs : List String) : (setOf id xs).Perm xs.dedup := by
  refine (List.perm_ext_iff_of_nodup (setOf_sorted xs).nodup xs.nodup_dedup).mpr fun x => ?_
  rw [List.mem_dedup]
  constructor
  · exact fun hx => mem_of_mem_setOf x hx
  · intro hx
    obtain ⟨y, hy, hkey⟩ := (exists_mem_setOf x hx : ∃ y ∈ setOf id xs, id y = id x)
    exact show x ∈ setOf id xs from (show y = x from hkey) ▸ hy

/-! ## The walk over the nodes -/

section
variable {g : Callgraph}

/-- What the walk has inserted after the nodes of `pre`. -/
structure Filled (g : Callgraph) (pre : List CgNode) (st : List String × List (ℕ × ℕ)) : Prop where
  names : st.1 = pre.map CgNode.functionName
  sound : ∀ e ∈ st.2, e ∈ g.edges
  complete : ∀ e, e ∈ g.edges → (∃ n ∈ pre, n.id = e.1) → e ∈ st.2

theorem getNeighbours_eq {ids : List ℕ} (h : ∀ i ∈ ids, g.hasNode i = true) :
    getNeighbours g ids = .ok (ids.map g.slot) := by
  refine mapM_eq_map fun i hi => ?_
  obtain ⟨n, hn⟩ := (g.hasNode_iff i).mp (h i hi)
  rw [(Callgraph.slot_eq_some_iff g i n).mp hn, hn]

theorem getId_slots (h : g.Wf) {ids : List ℕ} (hlive : ∀ i ∈ ids, g.hasNode i = true) :
    (ids.map g.slot).mapM getId = .ok ids := by
  induction ids with
  | nil => rfl
  | cons i ids ih =>
    obtain ⟨n, hn⟩ := (g.hasNode_iff i).mp (hlive i (List.mem_cons_self ..))
    rw [List.map_cons, List.mapM_cons, ih (fun k hk => hlive k (List.mem_cons_of_mem i hk)), hn]
    simp only [getId, ok_bind, h.node_id i n hn]
    rfl

theorem mem_neighbours (order : HashOrder) (l : List ℕ) (i : ℕ) : i ∈ order.neighbours l ↔ i ∈ l :=
  (order.neighbours_perm l).mem_iff.trans List.mem_dedup

theorem mem_calleeNeighbours (h : g.Wf) (order : HashOrder) (u i : ℕ) :
    i ∈ order.neighbours (g.callees u) ↔ (u, i) ∈ g.edges := (mem_neighbours order _ i).trans (h.mem_callees u i)

theorem mem_callerNeighbours (h : g.Wf) (order : HashOrder) (v i : ℕ) :
    i ∈ order.neighbours (g.callers v) ↔ (i, v) ∈ g.edges := (mem_neighbours order _ i).trans (h.mem_callers i v)

theorem fillNode_eq (h : g.Wf) (order : HashOrder) (st : List String × List (ℕ × ℕ)) (n : CgNode) :
    fillNode g order st (some n) = .ok (st.1 ++ [n.functionName],
      st.2 ++ (order.neighbours (g.callees n.id)).map (fun c => (n.id, c)) ++
        (order.neighbours (g.callers n.id)).map (fun p => (p, n.id))) := by
  have hcallees : ∀ i ∈ order.neighbours (g.callees n.id), g.hasNode i = true := fun i hi =>
    (h.edge_live n.id i ((mem_calleeNeighbours h order n.id i).mp hi)).2
  have hcallers : ∀ i ∈ order.neighbours (g.callers n.id), g.hasNode i = true := fun i hi =>
    (h.edge_live i n.id ((mem_callerNeighbours h order n.id i).mp hi)).1
  rw [fillNode, getNeighbours_eq hcallees, ok_bind, getNeighbours_eq hcallers, ok_bind, getId_slots h hcallees, ok_bind,
    getId_slots h hcallers, ok_bind]
  rfl

theorem fillNode_spec (h : g.Wf) (order : HashOrder) {pre : List CgNode} {st : List String × List (ℕ × ℕ)}
    (hst : Filled g pre st) (n : CgNode) :
    ∃ st', fillNode g order st (some n) = .ok st' ∧ Filled g (pre ++ [n]) st' := by
  refine ⟨_, fillNode_eq h order st n, ?_, ?_, ?_⟩
  · simp [hst.names]
  · intro e he
    rcases List.mem_append.mp he with he | he
    · rcases List.mem_append.mp he with he | he
      · exact hst.sound e he
      · obtain ⟨c, hc, rfl⟩ := List.mem_map.mp he
        exact (mem_calleeNeighbours h order n.id c).mp hc
    · obtain ⟨p, hp, rfl⟩ := List.mem_map.mp he
      exact (mem_callerNeighbours h order n.id p).mp hp
  · rintro ⟨u, v⟩ he ⟨m, hm, hid⟩
    refine List.mem_append_left _ (List.mem_append.mpr ?_)
    rcases List.mem_append.mp hm with hm | hm
    · exact .inl (hst.complete (u, v) he ⟨m, hm, hid⟩)
    · rw [List.mem_singleton.mp hm] at hid
      have hid' : n.id = u := hid
      subst hid'
      exact .inr (List.mem_map.mpr ⟨v, (mem_calleeNeighbours h order n.id v).mpr he, rfl⟩)

theorem fillNodesAndEdges_spec (h : g.Wf) (hn : g.NoErased) (order : HashOrder) :
    ∃ st, fillNodesAndEdges g order = .ok st ∧ Filled g g.liveNodes st := by
  rw [fillNodesAndEdges, hn.nodes_eq, List.foldlM_map]
  refine foldlM_total (J := Filled g) ⟨rfl, fun e he => absurd he List.not_mem_nil, fun e _ he => ?_⟩
    (fun pre n t _ ht => fillNode_spec h order ht n)
  obtain ⟨n, hn, -⟩ := he
  exact absurd hn List.not_mem_nil

/-- The written names and edges: each name and each edge once, no other edge. -/
structure Contents (g : Callgraph) (names : List String) (edges : List (ℕ × ℕ)) : Prop where
  names : names.Perm (g.liveNodes.map CgNode.functionName).dedup
  edges_nodup : edges.Nodup
  edges_sound : ∀ e ∈ edges, e ∈ g.edges
  edges_nil : edges = [] → ∀ e, e ∉ g.edges

theorem Filled.complete_all (h : g.Wf) {st : List String × List (ℕ × ℕ)} (hst : Filled g g.liveNodes st) {e : ℕ × ℕ}
    (he : e ∈ g.edges) : e ∈ st.2 := by
  obtain ⟨n, hn⟩ := (g.hasNode_iff e.1).mp (h.edge_live e.1 e.2 he).1
  exact hst.complete e he ⟨n, (g.mem_liveNodes n).mpr ⟨e.1, hn⟩, h.node_id e.1 n hn⟩

theorem dotContents_spec (h : g.Wf) (hn : g.NoErased) (outputSorted : Bool) (order : HashOrder) :
    ∃ names edges, dotContents g outputSorted order = .ok (names, edges) ∧ Contents g names edges := by
  obtain ⟨st, hfill, hst⟩ := fillNodesAndEdges_spec h hn order
  rw [dotContents, hfill, ok_bind]
  cases outputSorted with
  | true =>
    refine ⟨setOf id st.1, setOf (edgeKey g) st.2, rfl, hst.names ▸ setOf_id_perm st.1, (setOf_sorted st.2).nodup,
      fun e he => hst.sound e (mem_of_mem_setOf e he), fun hnil e he => ?_⟩
    obtain ⟨y, hy, -⟩ := (exists_mem_setOf e (hst.complete_all h he) : ∃ y ∈ setOf (edgeKey g) st.2, edgeKey g y = edgeKey g e)
    rw [hnil] at hy
    cases hy
  | false =>
    have hedges := order.edges_perm st.2
    refine ⟨order.names st.1, order.edges st.2, rfl, hst.names ▸ order.names_perm st.1, hedges.nodup_iff.mpr st.2.nodup_dedup,
      fun e he => hst.sound e (List.mem_dedup.mp (hedges.mem_iff.mp he)), fun hnil e he => ?_⟩
    have hmem : e ∈ order.edges st.2 := hedges.mem_iff.mpr (List.mem_dedup.mpr (hst.complete_all h he))
    rw [hnil] at hmem
    cases hmem

/-! ## The written string -/

/-- The name of a node; empty for an id without one. -/
def nodeName (g : Callgraph) (i : ℕ) : String := (g.nameOf i).getD ""

theorem getFunctionName_eq {i : ℕ} (hi : g.hasNode i = true) : getFunctionName g i = .ok (nodeName g i) := by
  obtain ⟨n, hn⟩ := (g.hasNode_iff i).mp hi
  rw [getFunctionName, Callgraph.getNode_of_lt (Callgraph.slot_lt hn), hn, nodeName, Callgraph.nameOf, hn]
  rfl

def edgeText (g : Callgraph) (e : ℕ × ℕ) : String := "  " ++ (nodeName g e.1 ++ " -> " ++ nodeName g e.2)

theorem edgeLines_eq (h : g.Wf) {edges : List (ℕ × ℕ)} (hedges : ∀ e ∈ edges, e ∈ g.edges) :
    edges.mapM (edgeLine g) = .ok (edges.map (edgeText g)) := by
  refine mapM_eq_map fun e he => ?_
  obtain ⟨hu, hv⟩ := h.edge_live e.1 e.2 (hedges e he)
  simp only [edgeLine, getFunctionName_eq hu, getFunctionName_eq hv, ok_bind, edgeText, pure, Except.pure]

/-- The lines of the generated file. -/
def dotLines (g : Callgraph) (names : List String) (edges : List (ℕ × ℕ)) : List String :=
  "digraph callgraph \x7b" :: (names.map nodeLine ++ ((if edges.isEmpty then [] else [""]) ++
    (edges.map (edgeText g) ++ ["\x7d"])))

def joinLines (lines : List String) : String := String.join (lines.map fun l => l ++ "\n")

theorem joinLines_append (l m : List String) : joinLines (l ++ m) = joinLines l ++ joinLines m := by
  rw [joinLines, List.map_append, String.join_append]
  rfl

theorem joinLines_cons (l : String) (m : List String) : joinLines (l :: m) = l ++ "\n" ++ joinLines m := by
  rw [joinLines, List.map_cons, String.join_cons]
  rfl

theorem generate_spec (h : g.Wf) (hn : g.NoErased) (outputSorted : Bool) (order : HashOrder) :
    ∃ names edges, generate g outputSorted order = .ok (joinLines (dotLines g names edges)) ∧ Contents g names edges := by
  obtain ⟨names, edges, hcontents, hspec⟩ := dotContents_spec h hn outputSorted order
  refine ⟨names, edges, ?_, hspec⟩
  have hlines := edgeLines_eq h hspec.edges_sound
  have hopen : "digraph callgraph \x7b\n" = "digraph callgraph \x7b" ++ "\n" := by decide
  have hclose : joinLines ["\x7d"] = "\x7d\n" := by decide
  have hnames : String.join (names.map fun n => nodeLine n ++ "\n") = joinLines (names.map nodeLine) := by
    rw [joinLines, List.map_map]
    rfl
  have hblank : (if edges.isEmpty then "" else "\n") = joinLines (if edges.isEmpty then [] else [""]) := by
    cases edges with
    | nil => rfl
    | cons e rest => exact show "\n" = joinLines [""] by decide
  unfold generate dotLines
  simp only [hcontents, hlines, ok_bind, joinLines_cons, joinLines_append, hopen, hclose, hnames, hblank, String.append_assoc]
  rfl

end
end MetaCG.Dot
