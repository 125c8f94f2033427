import Mathlib.Data.List.ReduceOption
import MetaCG.Merge.Merge

/-! The node loop of `merge` with the policy `MergeByName`.

The policy looks at the target while the target grows, so a source node may be merged into a node
that the same loop inserted before. `NodesMerged T P g r` says what target and recorder look like
once the source nodes `P` have been processed: every processed node is mapped to the first node of
its name, and that first node never changes once it exists. -/
namespace MetaCG
open Foundations
set_option autoImplicit false
set_option maxHeartbeats 250000
set_option maxRecDepth 120000

namespace Callgraph

/-! ## The nodes of a graph without erased slots -/

def NoErased (g : Callgraph) : Prop := ∀ p ∈ g.nodes, p ≠ none

instance (g : Callgraph) : Decidable g.NoErased :=
  decidable_of_iff (∀ p ∈ g.nodes, Option.isSome p = true) (by simp [NoErased, Option.isSome_iff_ne_none])

/-- The live nodes in slot order. -/
def liveNodes (g : Callgraph) : List CgNode := g.nodes.reduceOption

theorem NoErased.nodes_eq {g : Callgraph} (h : g.NoErased) : g.nodes = g.liveNodes.map some := by
  have key : ∀ l : List (Option CgNode), (∀ p ∈ l, p ≠ none) → l = l.reduceOption.map some := by
    intro l
    induction l with
    | nil => intro _; rfl
    | cons p l ih =>
      intro hl
      cases p with
      | none => exact absurd rfl (hl none (List.mem_cons_self ..))
      | some n =>
        rw [List.reduceOption_cons_of_some, List.map_cons, ← ih (fun p hp => hl p (List.mem_cons_of_mem _ hp))]
  exact key g.nodes h

theorem mem_liveNodes (g : Callgraph) (n : CgNode) : n ∈ g.liveNodes ↔ ∃ i, g.slot i = some n := by
  rw [liveNodes, List.reduceOption_mem_iff, List.mem_iff_getElem?]
  simp only [slot_eq_some_iff]

theorem Wf.slot_of_mem {g : Callgraph} (h : g.Wf) {n : CgNode} (hn : n ∈ g.liveNodes) :
    g.slot n.id = some n := by
  obtain ⟨i, hi⟩ := (g.mem_liveNodes n).mp hn
  rw [h.node_id i n hi]
  exact hi

/-- The live nodes are listed by increasing id. -/
theorem Wf.liveNodes_id_sorted {g : Callgraph} (h : g.Wf) :
    (g.liveNodes.map CgNode.id).Pairwise (· < ·) := by
  have hnode : ∀ (i : ℕ) (n : CgNode), g.nodes[i]? = some (some n) → n.id = i := fun i n hn =>
    h.node_id i n ((slot_eq_some_iff g i n).mpr hn)
  have key : ∀ (l : List (Option CgNode)) (k : ℕ), (∀ i n, l[i]? = some (some n) → n.id = k + i) →
      (l.reduceOption.map CgNode.id).Pairwise (· < ·) ∧ ∀ x ∈ l.reduceOption.map CgNode.id, k ≤ x := by
    intro l
    induction l with
    | nil => intro k _; simp
    | cons p l ih =>
      intro k hk
      obtain ⟨hnd, hge⟩ := ih (k + 1) (fun i n hi => by
        have := hk (i + 1) n (by rw [List.getElem?_cons_succ]; exact hi)
        omega)
      cases p with
      | none =>
        rw [List.reduceOption_cons_of_none]
        exact ⟨hnd, fun x hx => by have := hge x hx; omega⟩
      | some n =>
        have hid : n.id = k := by
          have := hk 0 n rfl
          omega
        rw [List.reduceOption_cons_of_some, List.map_cons, List.pairwise_cons, hid]
        refine ⟨⟨fun x hx => by have := hge x hx; omega, hnd⟩, ?_⟩
        intro x hx
        rcases List.mem_cons.mp hx with rfl | hx
        · exact le_rfl
        · have := hge x hx
          omega
  exact (key g.nodes 0 (fun i n hi => by rw [hnode i n hi]; omega)).1

/-- The nodes before `s` in the list are those with a smaller id. -/
theorem Wf.id_lt_of_split {g : Callgraph} (h : g.Wf) {pre post : List CgNode} {s : CgNode}
    (hl : g.liveNodes = pre ++ s :: post) : ∀ n ∈ g.liveNodes, (n ∈ pre ↔ n.id < s.id) := by
  have hsort := h.liveNodes_id_sorted
  rw [hl, List.map_append, List.map_cons, List.pairwise_append, List.pairwise_cons] at hsort
  obtain ⟨-, ⟨hpost, -⟩, hpre⟩ := hsort
  intro n hn
  constructor
  · intro hmem
    exact hpre n.id (List.mem_map_of_mem hmem) s.id (List.mem_cons_self ..)
  · intro hlt
    rw [hl] at hn
    rcases List.mem_append.mp hn with hn | hn
    · exact hn
    · rcases List.mem_cons.mp hn with rfl | hn
      · omega
      · have := hpost n.id (List.mem_map_of_mem hn)
        omega

/-! ## One round -/

def firstNamed (g : Callgraph) (name : String) : Option ℕ := (g.getNodesNamed name).head?

theorem firstNamed_eq_none_iff (g : Callgraph) (name : String) :
    g.firstNamed name = none ↔ g.getNodesNamed name = [] := List.head?_eq_none_iff

theorem Wf.slot_firstNamed {g : Callgraph} (h : g.Wf) {name : String} {t : ℕ}
    (ht : g.firstNamed name = some t) : ∃ n, g.slot t = some n ∧ n.functionName = name :=
  (h.mem_named name t).mp (List.mem_of_head? ht)

/-- The target after a source node is merged into its node `t` with attributes `n`. -/
def absorb (g : Callgraph) (t : ℕ) (n source : CgNode) : Callgraph :=
  if !n.hasBody && source.hasBody then g.updateNode t (replaceCore source) else g

theorem mergeNode_copy {g : Callgraph} {r : MergeRecorder} {s : CgNode} (hs : s.functionName ≠ "")
    (hf : g.firstNamed s.functionName = none) :
    mergeNode mergeByName (g, r) (some s) =
      .ok (g.insertNode s.functionName s.origin false s.hasBody, r.recordCopy s.id g.nodes.length) := by
  have hl := (g.firstNamed_eq_none_iff _).mp hf
  have hp : mergeByName g s = .ok none := by simp only [mergeByName, hl]
  simp only [mergeNode, hp, Outcome.guard_ok, insert, if_neg hs]

theorem mergeNode_merge {g : Callgraph} (h : g.Wf) {r : MergeRecorder} {s n : CgNode} {t : ℕ}
    (hf : g.firstNamed s.functionName = some t) (hn : g.slot t = some n) :
    mergeNode mergeByName (g, r) (some s) =
      .ok (g.absorb t n s, r.recordMerge s.id ⟨t, !n.hasBody && s.hasBody⟩) := by
  obtain ⟨rest, hl⟩ : ∃ rest, g.getNodesNamed s.functionName = t :: rest := by
    rw [firstNamed] at hf
    exact List.head?_eq_some_iff.mp hf
  have hid : n.id = t := h.node_id t n hn
  have hg : g.getNode t = .ok (some n) := by rw [getNode_of_lt (slot_lt hn), hn]
  have hp : mergeByName g s = .ok (some ⟨t, !n.hasBody && s.hasBody⟩) := by
    simp only [mergeByName, hl, hg, bind, Except.bind, hid]
    cases n.hasBody <;> cases s.hasBody <;> rfl
  simp only [mergeNode, hp, Outcome.guard_ok, hg, absorb]

theorem slot_absorb (g : Callgraph) (t : ℕ) (n source : CgNode) (hn : g.slot t = some n)
    (hname : n.functionName = source.functionName) (i : ℕ) :
    ∃ o, (g.absorb t n source).slot i = if i = t then
      some { n with hasBody := n.hasBody || source.hasBody, origin := o } else g.slot i := by
  unfold absorb
  split_ifs with hc hi hi
  · refine ⟨source.origin, ?_⟩
    rw [slot_updateNode, if_pos hi, hi, hn]
    simp only [Bool.and_eq_true, Bool.not_eq_true'] at hc
    simp [replaceCore, hname, hc.1, hc.2]
  · exact ⟨none, by rw [slot_updateNode, if_neg hi]⟩
  · refine ⟨n.origin, ?_⟩
    subst hi
    rw [hn]
    have hb : (n.hasBody || source.hasBody) = n.hasBody := by
      cases hnb : n.hasBody <;> cases hsb : source.hasBody <;> simp_all
    rw [hb]
  · exact ⟨none, rfl⟩

theorem absorb_frame (g : Callgraph) (t : ℕ) (n source : CgNode) :
    g.absorb t n source = { g with nodes := (g.absorb t n source).nodes } := by
  unfold absorb
  split_ifs <;> rfl

theorem getNodesNamed_absorb (g : Callgraph) (t : ℕ) (n source : CgNode) (name : String) :
    (g.absorb t n source).getNodesNamed name = g.getNodesNamed name := by
  rw [absorb_frame]
  rfl

/-! ## The loop -/

/-- Target `g` and recorder `r` after the source nodes `P` were merged into `T`. -/
structure NodesMerged (T : Callgraph) (P : List CgNode) (g : Callgraph) (r : MergeRecorder) : Prop where
  wf : g.Wf
  edges : g.edges = T.edges
  global : g.metaFields = T.metaFields
  grows : T.nodes.length ≤ g.nodes.length
  old : ∀ i n, T.slot i = some n →
    ∃ n', g.slot i = some n' ∧ n'.functionName = n.functionName ∧ n'.metaFields = n.metaFields
  dead : ∀ i, i < T.nodes.length → T.slot i = none → g.slot i = none
  fresh : ∀ i n', T.nodes.length ≤ i → g.slot i = some n' → n'.metaFields = ∅
  kept_names : ∀ name, T.getNodesNamed name ≠ [] → g.getNodesNamed name = T.getNodesNamed name
  new_names : ∀ name, T.getNodesNamed name = [] →
    if (∃ s ∈ P, s.functionName = name) then ∃ i, T.nodes.length ≤ i ∧ g.getNodesNamed name = [i]
    else g.getNodesNamed name = []
  mapped : ∀ s ∈ P, r.mapping.lookup s.id = g.firstNamed s.functionName
  mapped_dom : ∀ i t, r.mapping.lookup i = some t → ∃ s ∈ P, s.id = i
  body : ∀ i n', g.slot i = some n' → n'.hasBody = ((T.slot i).any CgNode.hasBody ||
    P.any fun s => decide (r.mapping.lookup s.id = some i) && s.hasBody)
  action_dom : ∀ i a, r.getAction i = some a → ∃ s ∈ P, s.id = i
  action : ∀ pre s post, P = pre ++ s :: post → (r.getAction s.id = none ↔
    T.getNodesNamed s.functionName = [] ∧ ∀ s' ∈ pre, s'.functionName ≠ s.functionName)

theorem NodesMerged.start {T : Callgraph} (h : T.Wf) : NodesMerged T [] T MergeRecorder.empty where
  wf := h
  edges := rfl
  global := rfl
  grows := le_rfl
  old := fun i n hn => ⟨n, hn, rfl, rfl⟩
  dead := fun _ _ h => h
  fresh := fun i n' hi hn => by rw [slot_of_ge hi] at hn; cases hn
  kept_names := fun _ _ => rfl
  new_names := fun name hn => by simpa using hn
  mapped := fun s hs => absurd hs List.not_mem_nil
  mapped_dom := fun i t h => by simp [MergeRecorder.empty] at h
  body := fun i n' hn => by simp [hn]
  action_dom := fun i a h => by simp [MergeRecorder.empty, MergeRecorder.getAction] at h
  action := fun pre s post h => by simp at h

/-- The first node of a name stays the first one while the target grows. -/
theorem firstNamed_insertNode {g : Callgraph} (f name : String) (o : Option String) (v b : Bool) {t : ℕ}
    (ht : g.firstNamed name = some t) : (g.insertNode f o v b).firstNamed name = some t := by
  unfold firstNamed at ht ⊢
  rw [getNodesNamed_insertNode]
  split_ifs with hn
  · subst hn
    rw [List.head?_append, ht]
    rfl
  · exact ht

section Step
variable {T g : Callgraph} {P : List CgNode} {r : MergeRecorder} {s : CgNode}

theorem NodesMerged.first_some (h : NodesMerged T P g r) {s' : CgNode} (hs : s' ∈ P) :
    ∃ t, g.firstNamed s'.functionName = some t := by
  by_cases hT : T.getNodesNamed s'.functionName = []
  · have hn := h.new_names _ hT
    rw [if_pos ⟨s', hs, rfl⟩] at hn
    obtain ⟨i, -, hi⟩ := hn
    exact ⟨i, by rw [firstNamed, hi]; rfl⟩
  · cases hl : T.getNodesNamed s'.functionName with
    | nil => exact absurd hl hT
    | cons t rest => exact ⟨t, by rw [firstNamed, h.kept_names _ hT, hl]; rfl⟩

/-- Split the processed list at a node of `P ++ [s]`: it lies in `P`, or it is `s`. -/
theorem split_concat {pre post : List CgNode} {x : CgNode} (h : P ++ [s] = pre ++ x :: post) :
    (∃ post', P = pre ++ x :: post') ∨ (pre = P ∧ x = s) := by
  rcases List.eq_nil_or_concat post with rfl | ⟨post', y, rfl⟩
  · obtain ⟨h1, h2⟩ := List.append_inj' h rfl
    exact .inr ⟨h1.symm, (List.cons.inj h2).1.symm⟩
  · left
    have h' : P ++ [s] = (pre ++ x :: post') ++ [y] := by simpa using h
    exact ⟨post', (List.append_inj' h' rfl).1⟩

theorem any_congr_mem {f f' : CgNode → Bool} (h : ∀ x ∈ P, f x = f' x) : P.any f = P.any f' := by
  induction P with
  | nil => rfl
  | cons x P ih =>
    rw [List.any_cons, List.any_cons, h x (List.mem_cons_self ..),
      ih (fun y hy => h y (List.mem_cons_of_mem x hy))]

theorem named_concat (name : String) : (∃ s' ∈ P ++ [s], s'.functionName = name) ↔
    (∃ s' ∈ P, s'.functionName = name) ∨ s.functionName = name := by
  simp only [List.mem_append, List.mem_singleton, or_and_right, exists_or, exists_eq_left]

/-- A table that gets an entry for `s` has entries for the processed nodes alone. -/
theorem dom_concat {β : Type} {m m' : ℕ → Option β} {b : β} (hmap : ∀ i, m' i = if i = s.id then some b else m i)
    (hdom : ∀ i x, m i = some x → ∃ s' ∈ P, s'.id = i) (i : ℕ) (x : β) (hi : m' i = some x) : ∃ s' ∈ P ++ [s], s'.id = i := by
  rw [hmap] at hi
  split_ifs at hi with he
  · exact ⟨s, List.mem_append_right _ (List.mem_singleton_self s), he.symm⟩
  · obtain ⟨s', hs', he'⟩ := hdom i x hi
    exact ⟨s', List.mem_append_left _ hs', he'⟩

/-- Whether a node of the source that goes to `j` has a body, once `s` goes to `t`. -/
theorem bodies_concat {m m' : ℕ → Option ℕ} {t : ℕ} (hmap : ∀ i, m' i = if i = s.id then some t else m i)
    (hid : ∀ s' ∈ P, s'.id ≠ s.id) (j : ℕ) :
    ((P ++ [s]).any fun s' => decide (m' s'.id = some j) && s'.hasBody) =
      ((P.any fun s' => decide (m s'.id = some j) && s'.hasBody) || (decide (t = j) && s.hasBody)) := by
  have hP : (P.any fun s' => decide (m' s'.id = some j) && s'.hasBody) = P.any fun s' => decide (m s'.id = some j) && s'.hasBody := by
    refine any_congr_mem fun s' hs' => ?_
    rw [hmap, if_neg (hid s' hs')]
  rw [List.any_append, hP, List.any_cons, List.any_nil, hmap, if_pos rfl, Bool.or_false]
  simp only [Option.some.injEq]

theorem NodesMerged.copy (h : NodesMerged T P g r) (hs : s.functionName ≠ "")
    (hid : ∀ s' ∈ P, s'.id ≠ s.id) (hf : g.firstNamed s.functionName = none) :
    NodesMerged T (P ++ [s]) (g.insertNode s.functionName s.origin false s.hasBody)
      (r.recordCopy s.id g.nodes.length) := by
  have hl : g.getNodesNamed s.functionName = [] := (g.firstNamed_eq_none_iff _).mp hf
  have hT : T.getNodesNamed s.functionName = [] := by
    by_contra hne
    rw [h.kept_names _ hne] at hl
    exact hne hl
  have hfreshName : ∀ s' ∈ P, s'.functionName ≠ s.functionName := by
    intro s' hs' he
    obtain ⟨t, ht⟩ := h.first_some hs'
    rw [he, hf] at ht
    cases ht
  have hmap : ∀ i, (r.recordCopy s.id g.nodes.length).mapping.lookup i =
      if i = s.id then some g.nodes.length else r.mapping.lookup i := fun i => UMap.lookup_insert_ite _ _ _ _
  have hold : ∀ i, i < g.nodes.length →
      (g.insertNode s.functionName s.origin false s.hasBody).slot i = g.slot i := by
    intro i hi
    rw [slot_insertNode, if_neg (by omega)]
  exact {
    wf := h.wf.insertNode _ _ _ _ hs
    edges := h.edges
    global := h.global
    grows := by
      have := h.grows
      simp only [insertNode, List.length_append, List.length_singleton]
      omega
    old := by
      intro i n hn
      obtain ⟨n', hn', h1, h2⟩ := h.old i n hn
      exact ⟨n', by rw [hold i (slot_lt hn'), hn'], h1, h2⟩
    dead := by
      intro i hi hn
      rw [hold i (by have := h.grows; omega)]
      exact h.dead i hi hn
    fresh := by
      intro i n' hi hn
      rw [slot_insertNode] at hn
      split_ifs at hn
      · cases hn
        rfl
      · exact h.fresh i n' hi hn
    kept_names := by
      intro name hne
      have hname : name ≠ s.functionName := fun he => hne (he ▸ hT)
      rw [getNodesNamed_insertNode, if_neg hname]
      exact h.kept_names name hne
    new_names := by
      intro name hTn
      rw [getNodesNamed_insertNode]
      by_cases hname : name = s.functionName
      · rw [if_pos ⟨s, by simp, hname.symm⟩, if_pos hname, hl]
        exact ⟨g.nodes.length, h.grows, rfl⟩
      · rw [if_neg hname]
        simp only [named_concat, or_iff_left (Ne.symm hname)]
        exact h.new_names name hTn
    mapped := by
      intro s' hs'
      rw [hmap]
      rcases List.mem_append.mp hs' with hs' | hs'
      · rw [if_neg (hid s' hs'), h.mapped s' hs']
        obtain ⟨t, ht⟩ := h.first_some hs'
        rw [ht, firstNamed_insertNode _ _ _ _ _ ht]
      · rw [List.mem_singleton.mp hs', if_pos rfl, firstNamed, getNodesNamed_insertNode, if_pos rfl, hl]
        rfl
    mapped_dom := dom_concat hmap h.mapped_dom
    body := by
      intro i n' hn
      rw [bodies_concat hmap hid]
      rw [slot_insertNode] at hn
      split_ifs at hn with hi
      · cases hn
        subst hi
        have hTi : T.slot g.nodes.length = none := slot_of_ge h.grows
        have hnone : (P.any fun s' => decide (r.mapping.lookup s'.id = some g.nodes.length) && s'.hasBody) = false := by
          rw [List.any_eq_false]
          intro s' hs' hc
          simp only [Bool.and_eq_true, decide_eq_true_eq] at hc
          rw [h.mapped s' hs'] at hc
          obtain ⟨n, hn, -⟩ := h.wf.slot_firstNamed hc.1
          exact absurd (slot_lt hn) (by omega)
        rw [hTi, hnone]
        simp [CgNode.create]
      · rw [h.body i n' hn]
        have hne : ¬ g.nodes.length = i := fun he => hi he.symm
        simp [hne]
    action_dom := by
      intro i a hi
      obtain ⟨s', hs', he⟩ := h.action_dom i a hi
      exact ⟨s', List.mem_append_left _ hs', he⟩
    action := by
      intro pre x post hP
      rcases split_concat hP with ⟨post', hP'⟩ | ⟨rfl, rfl⟩
      · exact h.action pre x post' hP'
      · have hnone : r.getAction x.id = none := by
          cases ha : r.getAction x.id with
          | none => rfl
          | some a =>
            obtain ⟨s', hs', he⟩ := h.action_dom _ a ha
            exact absurd he (hid s' hs')
        exact ⟨fun _ => ⟨hT, hfreshName⟩, fun _ => hnone⟩ }

theorem NodesMerged.merge (h : NodesMerged T P g r) {n : CgNode} {t : ℕ} {a : MergeAction}
    (hid : ∀ s' ∈ P, s'.id ≠ s.id) (hf : g.firstNamed s.functionName = some t) (hn : g.slot t = some n)
    (hname : n.functionName = s.functionName) (ha : a.targetNode = t) :
    NodesMerged T (P ++ [s]) (g.absorb t n s) (r.recordMerge s.id a) := by
  have hmap : ∀ i, (r.recordMerge s.id a).mapping.lookup i =
      if i = s.id then some t else r.mapping.lookup i := by
    intro i
    rw [← ha]
    exact UMap.lookup_insert_ite _ _ _ _
  have hact : ∀ i, (r.recordMerge s.id a).getAction i = if i = s.id then some a else r.getAction i :=
    fun i => UMap.lookup_insert_ite _ _ _ _
  have hslot := slot_absorb g t n s hn hname
  have hnames := getNodesNamed_absorb g t n s
  have hlen : (g.absorb t n s).nodes.length = g.nodes.length := by
    unfold absorb
    split_ifs <;> simp [updateNode]
  -- the name of `s` is known: it was in `T`, or an earlier node of `P` brought it
  have hknown : T.getNodesNamed s.functionName = [] → ∃ s' ∈ P, s'.functionName = s.functionName := by
    intro hT
    by_contra hno
    have hnew := h.new_names _ hT
    rw [if_neg hno] at hnew
    rw [firstNamed, hnew] at hf
    cases hf
  have hcore : ∀ i m, (g.absorb t n s).slot i = some m → ∃ m', g.slot i = some m' ∧
      m.functionName = m'.functionName ∧ m.metaFields = m'.metaFields ∧
      m.hasBody = (m'.hasBody || (decide (i = t) && s.hasBody)) := by
    intro i m hm
    obtain ⟨o, ho⟩ := hslot i
    rw [ho] at hm
    split_ifs at hm with hi
    · subst hi
      cases hm
      exact ⟨n, hn, rfl, rfl, by simp⟩
    · exact ⟨m, hm, rfl, rfl, by simp [hi]⟩
  have hcore' : ∀ i m, g.slot i = some m → ∃ m', (g.absorb t n s).slot i = some m' ∧
      m'.functionName = m.functionName ∧ m'.metaFields = m.metaFields := by
    intro i m hm
    obtain ⟨o, ho⟩ := hslot i
    by_cases hi : i = t
    · subst hi
      rw [hn] at hm
      cases hm
      rw [if_pos rfl] at ho
      exact ⟨_, ho, rfl, rfl⟩
    · rw [if_neg hi] at ho
      exact ⟨m, by rw [ho, hm], rfl, rfl⟩
  exact {
    wf := by
      unfold absorb
      split_ifs
      · refine h.wf.updateNode _ _ (fun m hm => ⟨rfl, ?_⟩)
        rw [hn] at hm
        cases hm
        exact hname.symm
      · exact h.wf
    edges := by rw [absorb_frame]; exact h.edges
    global := by rw [absorb_frame]; exact h.global
    grows := by rw [hlen]; exact h.grows
    old := by
      intro i m hm
      obtain ⟨m', hm', h1, h2⟩ := h.old i m hm
      obtain ⟨m'', hm'', h3, h4⟩ := hcore' i m' hm'
      exact ⟨m'', hm'', h3.trans h1, h4.trans h2⟩
    dead := by
      intro i hi hTi
      have hgi := h.dead i hi hTi
      obtain ⟨o, ho⟩ := hslot i
      rw [ho, if_neg (fun he => by rw [he, hn] at hgi; cases hgi)]
      exact hgi
    fresh := by
      intro i m hi hm
      obtain ⟨m', hm', -, h2, -⟩ := hcore i m hm
      rw [h2]
      exact h.fresh i m' hi hm'
    kept_names := fun name hne => by rw [hnames]; exact h.kept_names name hne
    new_names := by
      intro name hTn
      rw [hnames]
      have hiff : (∃ s' ∈ P ++ [s], s'.functionName = name) ↔ ∃ s' ∈ P, s'.functionName = name := by
        rw [named_concat]
        refine or_iff_left_of_imp ?_
        rintro rfl
        exact hknown hTn
      simp only [hiff]
      exact h.new_names name hTn
    mapped := by
      intro s' hs'
      rw [hmap, firstNamed, hnames]
      rcases List.mem_append.mp hs' with hs' | hs'
      · rw [if_neg (hid s' hs')]
        exact h.mapped s' hs'
      · rw [List.mem_singleton.mp hs', if_pos rfl]
        exact hf.symm
    mapped_dom := dom_concat hmap h.mapped_dom
    body := by
      intro i m hm
      obtain ⟨m', hm', -, -, hb⟩ := hcore i m hm
      rw [bodies_concat hmap hid, hb, h.body i m' hm', Bool.or_assoc]
      have hti : decide (t = i) = decide (i = t) := decide_eq_decide.mpr eq_comm
      rw [hti]
    action_dom := dom_concat hact h.action_dom
    action := by
      intro pre x post hP
      rw [hact]
      rcases split_concat hP with ⟨post', hP'⟩ | ⟨rfl, rfl⟩
      · have hxP : x ∈ P := by rw [hP']; simp
        rw [if_neg (hid x hxP)]
        exact h.action pre x post' hP'
      · rw [if_pos rfl]
        refine ⟨fun hc => by (cases hc), fun hc => ?_⟩
        obtain ⟨s', hs', he⟩ := hknown hc.1
        exact absurd he (hc.2 s' hs') }

end Step

/-- The node loop never fails on a well-formed source without erased slots. -/
theorem mergeNodes_spec {T S : Callgraph} (hT : T.Wf) (hS : S.Wf) (hlive : S.NoErased) :
    ∃ g r, mergeNodes mergeByName T S = .ok (g, r) ∧ NodesMerged T S.liveNodes g r := by
  have hloop := foldlM_total (f := mergeNode mergeByName)
    (J := fun pre st => ∃ P, pre = P.map some ∧ NodesMerged T P st.1 st.2)
    (l := S.nodes) (s := (T, MergeRecorder.empty)) ⟨[], rfl, NodesMerged.start hT⟩ ?_
  · obtain ⟨⟨g, r⟩, hrun, P, hP, hinv⟩ := hloop
    have hPS : P = S.liveNodes := by
      rw [hlive.nodes_eq] at hP
      exact (List.map_injective_iff.mpr (Option.some_injective _) hP).symm
    exact ⟨g, r, hrun, hPS ▸ hinv⟩
  · rintro pre a ⟨g, r⟩ hpre ⟨P, rfl, hinv⟩
    rw [hlive.nodes_eq] at hpre
    obtain ⟨post, hpost⟩ := hpre
    obtain ⟨s, hs⟩ : ∃ s, a = some s := by
      have ha : a ∈ S.liveNodes.map some := by rw [← hpost]; simp
      obtain ⟨s, -, hs⟩ := List.mem_map.mp ha
      exact ⟨s, hs.symm⟩
    subst hs
    obtain ⟨Q, hQ⟩ : ∃ Q, S.liveNodes = P ++ s :: Q := by
      have hpost' : S.liveNodes.map some = (P ++ [s]).map some ++ post := by rw [← hpost]; simp
      obtain ⟨l₁, l₂, hl, h1, -⟩ := List.map_eq_append_iff.mp hpost'
      have hl₁ : l₁ = P ++ [s] := List.map_injective_iff.mpr (Option.some_injective _) h1
      exact ⟨l₂, by rw [hl, hl₁, List.append_assoc]; rfl⟩
    have hmem : s ∈ S.liveNodes := by rw [hQ]; simp
    have hne : s.functionName ≠ "" := hS.node_name s.id s (hS.slot_of_mem hmem)
    have hid : ∀ s' ∈ P, s'.id ≠ s.id := by
      intro s' hs' he
      have hlt := (hS.id_lt_of_split hQ s' (by rw [hQ]; exact List.mem_append_left _ hs')).mp hs'
      omega
    have hcat : P.map some ++ [some s] = (P ++ [s]).map some := by simp
    cases hf : g.firstNamed s.functionName with
    | none => exact ⟨_, mergeNode_copy hne hf, P ++ [s], hcat, hinv.copy hne hid hf⟩
    | some t =>
      obtain ⟨n, hn, hname⟩ := hinv.wf.slot_firstNamed hf
      exact ⟨_, mergeNode_merge hinv.wf hf hn, P ++ [s], hcat, hinv.merge hid hf hn hname rfl⟩

/-- The node loop stops at the first erased slot of the source. -/
theorem merge_erased {g : Callgraph} (h : g.Wf) (hn : ¬ g.NoErased) {T : Callgraph} (hT : T.Wf) :
    ∃ T', merge mergeByName T g = .error (.nullDereference, T') := by
  have hnull : none ∈ g.nodes := by
    by_contra hnot
    exact hn fun p hp he => hnot (he ▸ hp)
  have hstep : ∀ (st : Callgraph × MergeRecorder) (p : Option CgNode), p ∈ g.nodes → p ≠ none → st.1.Wf →
      ∃ st', mergeNode mergeByName st p = .ok st' ∧ st'.1.Wf := by
    intro st p hp hne hst
    obtain ⟨node, rfl⟩ := Option.ne_none_iff_exists'.mp hne
    obtain ⟨i, hi⟩ := (g.mem_liveNodes node).mp (List.reduceOption_mem_iff.mpr hp)
    have hname := h.node_name i node hi
    obtain ⟨st', hrun⟩ : ∃ st', mergeNode mergeByName st (some node) = .ok st' := by
      cases hf : st.1.firstNamed node.functionName with
      | none => exact ⟨_, mergeNode_copy hname hf⟩
      | some t =>
        obtain ⟨n, ht⟩ := (hst.slot_firstNamed hf).imp fun _ h => h.1
        exact ⟨_, mergeNode_merge hst hf ht⟩
    have hwf := Wf.mergeNode hst (some node)
    rw [hrun] at hwf
    exact ⟨st', hrun, hwf⟩
  obtain ⟨st, -, hrun⟩ := foldlM_stops (s := (T, MergeRecorder.empty)) (I := fun st : Callgraph × MergeRecorder => st.1.Wf)
    hT hstep (fun st => ⟨_, rfl⟩) hnull
  exact ⟨st.1, by rw [merge, mergeNodes, hrun]; rfl⟩

end Callgraph
end MetaCG
