import MetaCG.Graph.Invariant
import MetaCG.Analysis.DominatorWorklist

/-! `computeDominators` (`DominatorAnalysis.h`) and its relation to the abstract worklist.

A `const NodeT*` is the index of the node's slot. The neighbour sets are `std::unordered_set`s, so a
round takes the orders in which it walks them as arguments, and `Next` allows all of them. The queue
holds pointers into `DomMap`, which are the keys of its entries. -/
namespace MetaCG.Analysis
open Foundations
set_option autoImplicit false
set_option maxHeartbeats 250000
set_option maxRecDepth 120000

inductive TraverseDir where
  | Forward
  | Backward
deriving DecidableEq, Repr

structure DomData where
  node : Option ℕ
  Doms : Finset ℕ
  initialized : Bool

instance : DecidableEq DomData := fun a b =>
  decidable_of_iff (a.node = b.node ∧ a.Doms = b.Doms ∧ a.initialized = b.initialized)
    (by cases a; cases b; simp)

/-- The value that `operator[]` creates for a missing key. -/
def DomData.fresh : DomData := ⟨none, ∅, false⟩

abbrev DomAnalysisResult := UMap ℕ DomData

def unorderedIntersection (a b : Finset ℕ) : Finset ℕ := a.filter fun item => item ∈ b

/-- `DomMap.at(node).Doms` -/
def domsAt (DomMap : DomAnalysisResult) (node : ℕ) : Except Exn (Finset ℕ) :=
  match DomMap.lookup node with
  | some data => .ok data.Doms
  | none => .error .outOfRange

def intersection (nodes : List ℕ) (DomMap : DomAnalysisResult) : Except Exn (Finset ℕ) :=
  match nodes with
  | [] => .ok ∅
  | node :: nodes => do
    let first ← domsAt DomMap node
    nodes.foldlM (fun last node => do
      let currSet ← domsAt DomMap node
      return unorderedIntersection last currSet) first

/-- `getCallers(const CgNode&)` -/
def getCallers (g : Callgraph) (node : ℕ) : List ℕ := if g.hasNode node then (g.callers node).dedup else []

/-- `getCallees(const CgNode&)` -/
def getCallees (g : Callgraph) (node : ℕ) : List ℕ := if g.hasNode node then (g.callees node).dedup else []

def incoming (g : Callgraph) : TraverseDir → ℕ → List ℕ
  | .Forward => getCallers g
  | .Backward => getCallees g

def outgoing (g : Callgraph) : TraverseDir → ℕ → List ℕ
  | .Forward => getCallees g
  | .Backward => getCallers g

structure DomState where
  DomMap : DomAnalysisResult
  workQueue : List ℕ

instance : DecidableEq DomState := fun a b =>
  decidable_of_iff (a.workQueue = b.workQueue ∧ a.DomMap.entries = b.DomMap.entries)
    (by cases a; cases b; simp [AList.ext_iff, and_comm])

/-- `DomMap[key]`: the entry, and the map in which it exists. -/
def access (DomMap : DomAnalysisResult) (key : ℕ) : DomData × DomAnalysisResult :=
  match DomMap.lookup key with
  | some data => (data, DomMap)
  | none => (DomData.fresh, DomMap.insert key DomData.fresh)

def collectInitialized (DomMap : DomAnalysisResult) (callees : List ℕ) : List ℕ × DomAnalysisResult :=
  callees.foldl (fun acc calleePtr =>
    let (data, DomMap) := access acc.2 calleePtr
    (if data.initialized then acc.1 ++ [calleePtr] else acc.1, DomMap)) ([], DomMap)

/-- One round of the loop over the outgoing neighbours. -/
def queueOut (st : DomState) (callerPtr : ℕ) : DomState :=
  let (data, DomMap) := access st.DomMap callerPtr
  { DomMap := if data.node.isNone then DomMap.insert callerPtr { data with node := some callerPtr } else DomMap
    workQueue := if callerPtr ∈ st.workQueue then st.workQueue else st.workQueue ++ [callerPtr] }

/-- One round of the worklist loop, with the orders in which the neighbours are walked. -/
def step (ins outs : List ℕ) (st : DomState) : Except Exn DomState :=
  match st.workQueue with
  | [] => .error .undefined
  | front :: rest =>
    match st.DomMap.lookup front with
    | none => .error .undefined
    | some nodeData =>
      match nodeData.node with
      | none => .error .nullDereference
      | some node => do
        let (initializedCallees, DomMap) := collectInitialized st.DomMap ins
        let common ← intersection initializedCallees DomMap
        let DomNew := insert node common
        if !nodeData.initialized || decide (nodeData.Doms ≠ DomNew) then
          let DomMap := DomMap.insert front { nodeData with Doms := DomNew, initialized := true }
          return outs.foldl queueOut ⟨DomMap, rest⟩
        else return ⟨DomMap, rest⟩

/-- The state before the loop. -/
def start (exitNode : ℕ) : DomState := ⟨(∅ : DomAnalysisResult).insert exitNode ⟨some exitNode, ∅, false⟩, [exitNode]⟩

/-- `ins` and `outs` are orders in which the next round may walk the neighbour sets. -/
def IsOrder (g : Callgraph) (dir : TraverseDir) (st : DomState) (ins outs : List ℕ) : Prop :=
  ∃ front rest data node, st.workQueue = front :: rest ∧ st.DomMap.lookup front = some data ∧
    data.node = some node ∧ ins.Perm (incoming g dir node) ∧ outs.Perm (outgoing g dir node)

def Next (g : Callgraph) (dir : TraverseDir) (st st' : DomState) : Prop :=
  ∃ ins outs, IsOrder g dir st ins outs ∧ step ins outs st = .ok st'

/-- The states of all runs from `exitNode`. -/
def Reached (g : Callgraph) (dir : TraverseDir) (exitNode : ℕ) (st : DomState) : Prop :=
  Relation.ReflTransGen (Next g dir) (start exitNode) st

/-! ## The sets of a state -/

/-- The set of an initialised node. -/
def view (DomMap : DomAnalysisResult) (n : ℕ) : Option (Finset ℕ) :=
  (DomMap.lookup n).bind fun data => if data.initialized then some data.Doms else none

/-- The state of the abstract worklist. -/
def DomState.abs (st : DomState) : DominatorWorklist.State ℕ := ⟨view st.DomMap, st.workQueue⟩

theorem view_eq_some {DomMap : DomAnalysisResult} {n : ℕ} {A : Finset ℕ} :
    view DomMap n = some A ↔ ∃ data, DomMap.lookup n = some data ∧ data.initialized = true ∧ data.Doms = A := by
  unfold view
  constructor
  · intro h
    obtain ⟨data, hl, hd⟩ := Option.bind_eq_some_iff.mp h
    split_ifs at hd with hi
    exact ⟨data, hl, hi, Option.some.inj hd⟩
  · rintro ⟨data, hl, hi, rfl⟩
    rw [hl, Option.bind_some, if_pos hi]

theorem view_of_fresh {DomMap : DomAnalysisResult} {n : ℕ} (h : DomMap.lookup n = none) : view DomMap n = none := by
  rw [view, h]
  rfl

theorem view_insert (DomMap : DomAnalysisResult) (k : ℕ) (data : DomData) (n : ℕ) :
    view (DomMap.insert k data) n =
      if n = k then (if data.initialized then some data.Doms else none) else view DomMap n := by
  unfold view
  rw [UMap.lookup_insert_ite]
  split_ifs <;> simp_all

/-- Later maps know all entries of earlier ones and have the same sets; new entries know no node. -/
structure Extends (m m' : DomAnalysisResult) : Prop where
  lookup : ∀ n data, m.lookup n = some data → m'.lookup n = some data
  view : ∀ n, view m' n = view m n
  new : ∀ n data, m'.lookup n = some data → m.lookup n = some data ∨ data.node = none

theorem Extends.refl (m : DomAnalysisResult) : Extends m m :=
  ⟨fun _ _ h => h, fun _ => rfl, fun _ _ h => .inl h⟩

theorem Extends.trans {m m₁ m₂ : DomAnalysisResult} (h₁ : Extends m m₁) (h₂ : Extends m₁ m₂) : Extends m m₂ where
  lookup := fun n d h => h₂.lookup n d (h₁.lookup n d h)
  view := fun n => (h₂.view n).trans (h₁.view n)
  new := fun n d h => (h₂.new n d h).elim (h₁.new n d) .inr

theorem access_extends (m : DomAnalysisResult) (k : ℕ) : Extends m (access m k).2 := by
  unfold access
  cases hl : m.lookup k with
  | some data => exact Extends.refl m
  | none =>
    refine ⟨fun n data hn => ?_, fun n => ?_, fun n data hn => ?_⟩
    · have hne : n ≠ k := fun he => by rw [he, hl] at hn; cases hn
      rw [UMap.lookup_insert_ite, if_neg hne, hn]
    · rw [view_insert]
      split_ifs with hn hi
      · cases hi
      · rw [hn, view_of_fresh hl]
      · rfl
    · rw [UMap.lookup_insert_ite] at hn
      split_ifs at hn
      · cases hn
        exact .inr rfl
      · exact .inl hn

theorem access_initialized (m : DomAnalysisResult) (k : ℕ) :
    (access m k).1.initialized = (view m k).isSome := by
  unfold access view
  cases m.lookup k with
  | none => rfl
  | some data => cases hi : data.initialized <;> simp [hi]

/-! ## The loop over the incoming neighbours -/

theorem collectInitialized_spec (m : DomAnalysisResult) (ins : List ℕ) :
    (collectInitialized m ins).1 = ins.filter (fun p => (view m p).isSome) ∧
      Extends m (collectInitialized m ins).2 := by
  have key : ∀ (l acc : List ℕ) (m₁ : DomAnalysisResult), Extends m m₁ →
      let r := l.foldl (fun acc calleePtr =>
        let (data, DomMap) := access acc.2 calleePtr
        (if data.initialized then acc.1 ++ [calleePtr] else acc.1, DomMap)) (acc, m₁)
      r.1 = acc ++ l.filter (fun p => (view m p).isSome) ∧ Extends m r.2 := by
    intro l
    induction l with
    | nil => exact fun acc m₁ h => ⟨by simp, h⟩
    | cons p l ih =>
      intro acc m₁ h
      have hacc := ih (if (access m₁ p).1.initialized then acc ++ [p] else acc) (access m₁ p).2
        (h.trans (access_extends m₁ p))
      refine ⟨?_, hacc.2⟩
      rw [access_initialized, h.view p] at hacc
      rw [List.foldl_cons, List.filter_cons]
      refine Eq.trans ?_ (hacc.1.trans ?_)
      · rw [← h.view p, ← access_initialized]
      · cases (view m p).isSome <;> simp
  have hall := key ins [] m (Extends.refl m)
  rw [List.nil_append] at hall
  exact hall

theorem domsAt_of_view {m : DomAnalysisResult} {n : ℕ} {A : Finset ℕ} (h : view m n = some A) :
    domsAt m n = .ok A := by
  obtain ⟨data, hl, -, rfl⟩ := view_eq_some.mp h
  rw [domsAt, hl]

theorem intersection_spec {m : DomAnalysisResult} {nodes : List ℕ} (h : ∀ n ∈ nodes, (view m n).isSome = true) :
    intersection nodes m = .ok (meet (nodes.filterMap (view m))) := by
  have key : ∀ (l : List ℕ) (A : Finset ℕ), (∀ n ∈ l, (view m n).isSome = true) →
      l.foldlM (fun last node => do
        let currSet ← domsAt m node
        return unorderedIntersection last currSet) A = .ok ((l.filterMap (view m)).foldl (· ∩ ·) A) := by
    intro l
    induction l with
    | nil => exact fun A _ => rfl
    | cons n l ih =>
      intro A hl
      obtain ⟨B, hB⟩ := Option.isSome_iff_exists.mp (hl n (List.mem_cons_self ..))
      have hAB : unorderedIntersection A B = A ∩ B := Finset.filter_mem_eq_inter
      rw [List.foldlM_cons, domsAt_of_view hB, List.filterMap_cons_some hB, List.foldl_cons, ← hAB]
      exact ih _ (fun k hk => hl k (List.mem_cons_of_mem n hk))
  cases nodes with
  | nil => rfl
  | cons n nodes =>
    obtain ⟨A, hA⟩ := Option.isSome_iff_exists.mp (h n (List.mem_cons_self ..))
    rw [intersection, domsAt_of_view hA, List.filterMap_cons_some hA]
    exact key nodes A (fun k hk => h k (List.mem_cons_of_mem n hk))

theorem meet_perm {l l' : List (Finset ℕ)} (h : l.Perm l') : meet l = meet l' := by
  by_cases hl : l = []
  · subst hl
    rw [List.nil_perm.mp h]
  · have hl' : l' ≠ [] := fun he => hl (List.perm_nil.mp (he ▸ h))
    ext x
    rw [mem_meet hl, mem_meet hl']
    exact ⟨fun hx a ha => hx a (h.mem_iff.mpr ha), fun hx a ha => hx a (h.mem_iff.mp ha)⟩

/-- The recomputed set does not depend on the order of the walk. -/
theorem insert_intersection {g : Callgraph} {dir : TraverseDir} {m : DomAnalysisResult} {ins : List ℕ} {n : ℕ}
    (hins : ins.Perm (incoming g dir n)) :
    intersection (collectInitialized m ins).1 (collectInitialized m ins).2 =
      .ok (meet ((incoming g dir n).filterMap (view m))) := by
  obtain ⟨hlist, hext⟩ := collectInitialized_spec m ins
  have hview : view (collectInitialized m ins).2 = view m := funext hext.view
  rw [hlist, intersection_spec (fun k hk => by rw [hview]; exact (List.mem_filter.mp hk).2), hview]
  have hfilter : (ins.filter fun p => (view m p).isSome).filterMap (view m) = ins.filterMap (view m) := by
    rw [List.filterMap_filter]
    refine List.filterMap_congr fun p _ => ?_
    cases view m p <;> rfl
  rw [hfilter, meet_perm (hins.filterMap _)]

/-! ## The loop over the outgoing neighbours -/

/-- Entries know no other node than their key, and the queued ones know it. -/
structure Linked (st : DomState) : Prop where
  node : ∀ k data, st.DomMap.lookup k = some data → data.node = none ∨ data.node = some k
  queued : ∀ q ∈ st.workQueue, ∃ data, st.DomMap.lookup q = some data ∧ data.node = some q

theorem Linked.start (s : ℕ) : Linked (start s) where
  node := by
    intro k data hk
    rw [Analysis.start, UMap.lookup_insert_ite] at hk
    split_ifs at hk with hks
    · cases hk
      exact .inr (congrArg some hks.symm)
    · cases hk
  queued := by
    intro q hq
    rw [List.mem_singleton.mp hq]
    exact ⟨_, by rw [Analysis.start, UMap.lookup_insert_ite, if_pos rfl], rfl⟩

theorem Linked.extends {st : DomState} (h : Linked st) {m : DomAnalysisResult} (hm : Extends st.DomMap m)
    {rest : List ℕ} (hrest : ∀ q ∈ rest, q ∈ st.workQueue) : Linked ⟨m, rest⟩ where
  node := fun k data hk => (hm.new k data hk).elim (h.node k data) .inl
  queued := by
    intro q hq
    obtain ⟨data, hl, hn⟩ := h.queued q (hrest q hq)
    exact ⟨data, hm.lookup q data hl, hn⟩

/-- An entry is written with its own key as the node. -/
theorem Linked.insert {m : DomAnalysisResult} {rest : List ℕ} (h : Linked ⟨m, rest⟩) {k : ℕ} {data : DomData}
    (hdata : data.node = some k) : Linked ⟨m.insert k data, rest⟩ where
  node := by
    intro n d hn
    rw [UMap.lookup_insert_ite] at hn
    split_ifs at hn with hnk
    · cases hn
      rw [hnk]
      exact .inr hdata
    · exact h.node n d hn
  queued := by
    intro q hq
    by_cases hqk : q = k
    · exact ⟨data, by rw [UMap.lookup_insert_ite, if_pos hqk], by rw [hqk]; exact hdata⟩
    · obtain ⟨d, hl, hn⟩ := h.queued q hq
      exact ⟨d, by rw [UMap.lookup_insert_ite, if_neg hqk]; exact hl, hn⟩

theorem Linked.push {m : DomAnalysisResult} {rest : List ℕ} (h : Linked ⟨m, rest⟩) {k : ℕ} {data : DomData}
    (hl : m.lookup k = some data) (hdata : data.node = some k) :
    Linked ⟨m, if k ∈ rest then rest else rest ++ [k]⟩ where
  node := h.node
  queued := by
    intro q hq
    split_ifs at hq
    · exact h.queued q hq
    · rcases List.mem_append.mp hq with hq | hq
      · exact h.queued q hq
      · rw [List.mem_singleton.mp hq]
        exact ⟨data, hl, hdata⟩

/-- Reading an entry creates it if needed. -/
theorem access_lookup (m : DomAnalysisResult) (k : ℕ) : (access m k).2.lookup k = some (access m k).1 := by
  unfold access
  cases hl : m.lookup k with
  | some data => exact hl
  | none => exact (UMap.lookup_insert_ite ..).trans (if_pos rfl)

theorem queueOut_linked {st : DomState} (h : Linked st) (k : ℕ) : Linked (queueOut st k) := by
  have hlinked : Linked ⟨(access st.DomMap k).2, st.workQueue⟩ :=
    h.extends (access_extends st.DomMap k) (fun q hq => hq)
  have hlook := access_lookup st.DomMap k
  unfold queueOut
  cases hnode : (access st.DomMap k).1.node with
  | none =>
    simp only [hnode, Option.isNone_none, if_true]
    have hlook' : ((access st.DomMap k).2.insert k { (access st.DomMap k).1 with node := some k }).lookup k =
        some { (access st.DomMap k).1 with node := some k } := (UMap.lookup_insert_ite ..).trans (if_pos rfl)
    exact Linked.push (hlinked.insert rfl) hlook' rfl
  | some n =>
    have hkey : (access st.DomMap k).1.node = some k := by
      rcases hlinked.node k _ hlook with hn | hn
      · rw [hnode] at hn
        cases hn
      · exact hn
    simp only [hnode, Option.isNone_some, Bool.false_eq_true, if_false]
    exact hlinked.push hlook hkey

theorem queueOut_view (st : DomState) (k : ℕ) : view (queueOut st k).DomMap = view st.DomMap := by
  have hext := access_extends st.DomMap k
  have hlook := access_lookup st.DomMap k
  funext n
  rw [← hext.view n]
  unfold queueOut
  simp only
  split_ifs with hnode
  · rw [view_insert]
    by_cases hn : n = k
    · rw [if_pos hn, hn, view, hlook]
      rfl
    · rw [if_neg hn]
  · rfl

theorem queueOut_workQueue (st : DomState) (k : ℕ) :
    (queueOut st k).workQueue = if k ∈ st.workQueue then st.workQueue else st.workQueue ++ [k] := rfl

/-- The loop queues the neighbours that are not queued and leaves all sets as they are. -/
theorem queueOut_loop (outs : List ℕ) (st : DomState) (h : Linked st) :
    Linked (outs.foldl queueOut st) ∧ view (outs.foldl queueOut st).DomMap = view st.DomMap ∧
      ∃ added : List ℕ, added.Nodup ∧ (∀ x, x ∈ added ↔ x ∈ outs ∧ x ∉ st.workQueue) ∧
        (outs.foldl queueOut st).workQueue = st.workQueue ++ added := by
  induction outs generalizing st with
  | nil => exact ⟨h, rfl, [], List.nodup_nil, by simp, (List.append_nil _).symm⟩
  | cons k outs ih =>
    obtain ⟨hlinked, hview, added, hnodup, hmem, hqueue⟩ := ih (queueOut st k) (queueOut_linked h k)
    refine ⟨hlinked, hview.trans (queueOut_view st k), ?_⟩
    rw [List.foldl_cons, hqueue]
    rw [queueOut_workQueue] at hmem ⊢
    by_cases hk : k ∈ st.workQueue
    · rw [if_pos hk] at hmem ⊢
      refine ⟨added, hnodup, fun x => ?_, rfl⟩
      rw [hmem, List.mem_cons]
      exact ⟨fun hx => ⟨.inr hx.1, hx.2⟩, fun hx => ⟨hx.1.resolve_left fun he => hx.2 (he ▸ hk), hx.2⟩⟩
    · rw [if_neg hk] at hmem ⊢
      refine ⟨k :: added, List.nodup_cons.mpr ⟨fun hka => ?_, hnodup⟩, fun x => ?_, List.append_assoc ..⟩
      · exact ((hmem k).mp hka).2 (List.mem_append_right _ (List.mem_singleton_self k))
      · rw [List.mem_cons, List.mem_cons, hmem, List.mem_append, List.mem_singleton]
        by_cases hxk : x = k
        · rw [hxk]
          simp [hk]
        · simp [hxk]

/-! ## A round is a step of the worklist -/

theorem abs_start (s : ℕ) : (start s).abs = DominatorWorklist.initial s := by
  have hview : view (start s).DomMap = fun _ => none := by
    funext n
    rw [start, view_insert]
    split_ifs with hn hi
    · cases hi
    · rfl
    · rfl
  rw [DomState.abs, hview]
  rfl

/-- The test before the sets are written. -/
theorem changed_iff {m : DomAnalysisResult} {n : ℕ} {data : DomData} (hl : m.lookup n = some data) (A : Finset ℕ) :
    (!data.initialized || decide (data.Doms ≠ A)) = true ↔ view m n ≠ some A := by
  rw [view, hl]
  cases hi : data.initialized <;> simp [hi]

/-- Whatever the orders, a round of the loop returns and is a step of the abstract worklist. -/
theorem step_spec {g : Callgraph} {dir : TraverseDir} {st : DomState} {ins outs : List ℕ} (h : Linked st)
    (hord : IsOrder g dir st ins outs) :
    ∃ st', step ins outs st = .ok st' ∧ Linked st' ∧
      DominatorWorklist.Step (incoming g dir) (outgoing g dir) st.abs st'.abs := by
  obtain ⟨front, rest, data, node, hq, hl, hnode, hins, houts⟩ := hord
  have hself : node = front := by
    obtain ⟨data', hl', hnode'⟩ := h.queued front (by rw [hq]; exact List.mem_cons_self ..)
    rw [hl] at hl'
    cases hl'
    rw [hnode] at hnode'
    exact Option.some.inj hnode'
  subst hself
  have hext := (collectInitialized_spec st.DomMap ins).2
  have hview : view (collectInitialized st.DomMap ins).2 = view st.DomMap := funext hext.view
  have hlinked : Linked ⟨(collectInitialized st.DomMap ins).2, rest⟩ :=
    h.extends hext (fun q hmem => by rw [hq]; exact List.mem_cons_of_mem node hmem)
  have hstep : step ins outs st =
      if !data.initialized || decide (data.Doms ≠ DominatorWorklist.recompute (incoming g dir) (view st.DomMap) node) then
        .ok (outs.foldl queueOut ⟨(collectInitialized st.DomMap ins).2.insert node
          { data with Doms := DominatorWorklist.recompute (incoming g dir) (view st.DomMap) node, initialized := true }, rest⟩)
      else .ok ⟨(collectInitialized st.DomMap ins).2, rest⟩ := by
    unfold step
    rw [hq]
    simp only [hl, hnode]
    rw [insert_intersection hins]
    rfl
  rw [hstep]
  split_ifs with hif
  · rw [changed_iff hl] at hif
    obtain ⟨hlinked', hview', added, hnodup, hmem, hqueue⟩ := queueOut_loop outs
      ⟨(collectInitialized st.DomMap ins).2.insert node
        { data with Doms := DominatorWorklist.recompute (incoming g dir) (view st.DomMap) node, initialized := true }, rest⟩
      (hlinked.insert hnode)
    refine ⟨_, rfl, hlinked', ?_⟩
    have habs : (outs.foldl queueOut ⟨(collectInitialized st.DomMap ins).2.insert node
        { data with Doms := DominatorWorklist.recompute (incoming g dir) (view st.DomMap) node, initialized := true }, rest⟩).abs =
        DominatorWorklist.changed st.abs node (DominatorWorklist.recompute (incoming g dir) (view st.DomMap) node) rest added := by
      rw [DomState.abs, hview', hqueue, DominatorWorklist.changed]
      congr 1
      funext n
      rw [view_insert, hview, Function.update_apply]
      rfl
    rw [habs]
    refine DominatorWorklist.Step.change hq hif hnodup fun x => ?_
    rw [hmem, houts.mem_iff]
  · rw [changed_iff hl, not_not] at hif
    refine ⟨_, rfl, hlinked, ?_⟩
    have habs : (DomState.mk (collectInitialized st.DomMap ins).2 rest).abs = ⟨st.abs.doms, rest⟩ := by
      rw [DomState.abs, hview]
      rfl
    rw [habs]
    exact DominatorWorklist.Step.same hq hif

end MetaCG.Analysis
