import MetaCG.Tools.CGPatchRuntime

/-! The calls of all ranks in the graph of rank 0 (`MPI_Finalize` of `CGPatchRuntime.cpp`).

A message is the value that its text is parsed to. The graph of the message of rank `i` lies in the heap
of rank 0 under `i`. -/
namespace MetaCG
open Foundations
set_option autoImplicit false
set_option maxHeartbeats 250000
set_option maxRecDepth 120000

namespace CGPatch

/-- What a rank other than 0 sends. -/
def Rank.message (info v4Info : MCGGeneratorVersionInfo) (rank : Rank) : Except Exn Json := do
  let rt ← rank.run
  match rt.globalCallgraph.bind rt.manager.heap.lookup with
  | none => .error .undefined
  | some g => VersionTwo.write info v4Info false g

/-- One round of the loop of rank 0. -/
def receive (m : MCGManager) (msg : Json × ℕ) : Except (Exn × MCGManager) MCGManager :=
  Outcome.guard m (VersionTwo.read msg.1) fun g => m.addToManagedGraphs (toString msg.2) (some (msg.2, g)) false

/-- The messages of the ranks 1, 2, and so on, one after the other. -/
def receiveAll (m : MCGManager) (messages : List Json) : Except (Exn × MCGManager) MCGManager :=
  (messages.zipIdx 1).foldlM receive m

/-- One node for every name that was seen, with a body, and the calls of all ranks. -/
structure Gathered (ranks : List Rank) (g : Callgraph) : Prop where
  wf : g.Wf
  seen : ∀ name, Seen {p | ∃ rank ∈ ranks, p ∈ rank.calls} name → ∃ i, g.getNodesNamed name = [i]
  unseen : ∀ name, ¬ Seen {p | ∃ rank ∈ ranks, p ∈ rank.calls} name → g.getNodesNamed name = []
  body : ∀ n ∈ g.liveNodes, n.hasBody = true
  calls : g.callsNamed = {p | ∃ rank ∈ ranks, p ∈ rank.calls}

/-! ## Calls by name -/

/-- The view of a graph with the calls `calls`. -/
structure Shows (calls : Set (String × String)) (v : NameView) : Prop where
  one : ∀ name, Seen calls name → v.count name = 1
  zero : ∀ name, ¬ Seen calls name → v.count name = 0
  body : ∀ name, Seen calls name → v.body name = true
  calls : v.calls = calls

/-- What a graph with the calls `calls` contributes. -/
structure Contributes (calls : Set (String × String)) (s : SourceView) : Prop where
  names : ∀ name, s.names name = true ↔ Seen calls name
  body : ∀ name, Seen calls name → s.body name = true
  calls : s.calls = calls

theorem seen_union (c d : Set (String × String)) (name : String) : Seen (c ∪ d) name ↔ Seen c name ∨ Seen d name := by
  unfold Seen
  simp only [Set.mem_union, or_and_right, exists_or]

theorem Shows.absorb {c d : Set (String × String)} {v : NameView} {s : SourceView} (h : Shows c v) (hs : Contributes d s) :
    Shows (c ∪ d) (v.absorb s) where
  one := by
    intro name hname
    by_cases hc : Seen c name
    · have hone := h.one name hc
      refine (if_neg fun hnew => ?_).trans hone
      omega
    · have hd := ((seen_union c d name).mp hname).resolve_left hc
      exact if_pos ⟨h.zero name hc, (hs.names name).mpr hd⟩
  zero := by
    intro name hname
    rw [seen_union, not_or] at hname
    exact (if_neg fun hnew => hname.2 ((hs.names name).mp hnew.2)).trans (h.zero name hname.1)
  body := by
    intro name hname
    rw [NameView.absorb, Bool.or_eq_true]
    exact ((seen_union c d name).mp hname).imp (h.body name) (hs.body name)
  calls := by rw [NameView.absorb, h.calls, hs.calls]

/-- The calls accumulate over the sources. -/
theorem Shows.foldl_absorb {L : List Callgraph} (hL : ∀ S ∈ L, Contributes S.callsNamed S.sourceView) {c : Set (String × String)}
    {v : NameView} (h : Shows c v) :
    Shows (c ∪ {p | ∃ S ∈ L, p ∈ S.callsNamed}) ((L.map Callgraph.sourceView).foldl NameView.absorb v) := by
  induction L generalizing c v with
  | nil => simpa using h
  | cons S L ih =>
    have hS := h.absorb (hL S (List.mem_cons_self ..))
    have hunion : c ∪ {p | ∃ S' ∈ S :: L, p ∈ S'.callsNamed} = c ∪ S.callsNamed ∪ {p | ∃ S' ∈ L, p ∈ S'.callsNamed} := by
      rw [Set.union_assoc]
      congr 1
      ext p
      simp
    rw [hunion]
    exact ih (fun S' hS' => hL S' (List.mem_cons_of_mem S hS')) hS

/-! ## Graphs that have recorded calls -/

open Callgraph

section
variable {g : Callgraph} {calls : Set (String × String)}

theorem Bare.metaKeyed (h : Bare g) : g.MetaKeyed where
  node := by
    intro n hn e he
    obtain ⟨i, hi⟩ := (g.mem_liveNodes n).mp hn
    rw [(h.node i n hi).2] at he
    exact absurd he List.not_mem_nil
  global := by
    intro e he
    rw [h.globals] at he
    exact absurd he List.not_mem_nil

theorem Bare.refsLive (h : Bare g) : g.RefsLive where
  node := by
    intro n hn e he
    obtain ⟨i, hi⟩ := (g.mem_liveNodes n).mp hn
    rw [(h.node i n hi).2] at he
    exact absurd he List.not_mem_nil
  edge := by
    intro p hp e he
    rw [(plainEdges_iff g).mp h.plain p hp] at he
    exact absurd he List.not_mem_nil
  global := by
    intro e he
    rw [h.globals] at he
    exact absurd he List.not_mem_nil

theorem Bare.target (h : Bare g) : g.Target := ⟨h.wf, h.metaKeyed⟩

theorem Bare.noErased (h : Bare g) : g.NoErased := by
  intro p hp hnone
  obtain ⟨i, hi, he⟩ := List.mem_iff_getElem.mp hp
  have hlive := h.live i hi
  rw [hasNode, slot, List.getElem?_eq_getElem hi, he, hnone] at hlive
  cases hlive

theorem Bare.source (h : Bare g) : g.Source := ⟨h.wf, h.noErased, h.metaKeyed, h.refsLive⟩

theorem Bare.uniqueNames (h : Bare g) : VersionTwo.UniqueNames g := by
  have hnd : g.liveNodes.Nodup := List.Nodup.of_map CgNode.id (h.wf.liveNodes_id_sorted.imp ne_of_lt)
  refine (List.nodup_map_iff_inj_on hnd).mpr fun n hn m hm he => ?_
  obtain ⟨i, hi⟩ := (g.mem_liveNodes n).mp hn
  obtain ⟨k, hk⟩ := (g.mem_liveNodes m).mp hm
  have hik := h.unique i k n m hi hk he
  rw [hik, hk] at hi
  exact (Option.some.inj hi).symm

theorem Recorded.callsNamed (h : Recorded calls g) : g.callsNamed = calls := Set.ext fun p => (h.calls p).symm

theorem Recorded.getNodesNamed (h : Recorded calls g) {name : String} (hname : Seen calls name) :
    ∃ i n, g.slot i = some n ∧ n.hasBody = true ∧ g.getNodesNamed name = [i] := by
  obtain ⟨i, n, hn, hnn⟩ := (h.names name).mpr hname
  refine ⟨i, n, hn, h.body i n hn, ?_⟩
  have hnd : (g.getNodesNamed name).Nodup := by
    rw [h.wf.names]
    exact List.nodup_range.filter _
  refine List.perm_singleton.mp ((List.perm_ext_iff_of_nodup hnd (List.nodup_singleton i)).mpr fun k => ?_)
  rw [h.wf.mem_named, List.mem_singleton]
  constructor
  · rintro ⟨m, hm, he⟩
    exact h.unique k i m n hm hn (he.trans hnn.symm)
  · rintro rfl
    exact ⟨n, hn, hnn⟩

theorem Recorded.getNodesNamed_unseen (h : Recorded calls g) {name : String} (hname : ¬ Seen calls name) :
    g.getNodesNamed name = [] := by
  refine List.eq_nil_iff_forall_not_mem.mpr fun i hi => ?_
  obtain ⟨n, hn, he⟩ := (h.wf.mem_named name i).mp hi
  exact hname ((h.names name).mp ⟨i, n, hn, he⟩)

theorem Recorded.shows (h : Recorded calls g) : Shows calls g.view where
  one := by
    intro name hname
    obtain ⟨i, n, -, -, hl⟩ := h.getNodesNamed hname
    change (g.getNodesNamed name).length = 1
    rw [hl, List.length_singleton]
  zero := by
    intro name hname
    change (g.getNodesNamed name).length = 0
    rw [h.getNodesNamed_unseen hname, List.length_nil]
  body := by
    intro name hname
    obtain ⟨i, n, hn, hbody, hl⟩ := h.getNodesNamed hname
    change g.firstBody name = true
    rw [firstBody, firstNamed, hl, List.head?_cons, Option.any_some, hn, Option.any_some, hbody]
  calls := h.callsNamed

theorem Recorded.contributes (h : Recorded calls g) : Contributes g.callsNamed g.sourceView := by
  have hnames : ∀ name, g.hasName name = true ↔ Seen calls name := by
    intro name
    rw [hasName_iff h.wf, ← h.names]
    constructor
    · rintro ⟨n, hn, he⟩
      exact ⟨n.id, n, h.wf.slot_of_mem hn, he⟩
    · rintro ⟨i, n, hn, he⟩
      exact ⟨n, (g.mem_liveNodes n).mpr ⟨i, hn⟩, he⟩
  rw [h.callsNamed]
  refine ⟨hnames, fun name hname => ?_, h.callsNamed⟩
  obtain ⟨i, n, hn, he⟩ := (h.names name).mpr hname
  change (g.liveNodes.any fun n => decide (n.functionName = name) && n.hasBody) = true
  refine List.any_eq_true.mpr ⟨n, (g.mem_liveNodes n).mpr ⟨i, hn⟩, ?_⟩
  rw [decide_eq_true he, h.body i n hn]
  rfl

end

/-! ## The message of a rank -/

/-- What is read back from a message has recorded the same calls. -/
theorem Recorded.readBack {g r : Callgraph} {calls : Set (String × String)} (h : Recorded calls g)
    (hback : ReadBack (VersionTwo.lossy g) (g.idStr true) r) : Recorded calls r := by
  have hwf := VersionTwo.lossy_wf h.wf
  have hs := VersionTwo.lossy_strInj (h.uniqueNames.strInj h.wf)
  have hiso := hback.isomorphic hwf hs
  have hglobals : r.metaFields = ∅ := UMap.eq_empty_of_lookup fun key => hback.globals key
  have hr : { r with metaFields := ∅ } = r := by rw [← hglobals]
  have hdata := hback.data
  rw [hr] at hdata
  have hto : ∀ i n, g.slot i = some n → ∃ n', r.slot ((VersionTwo.lossy g).readId (g.idStr true) i) = some n' ∧
      n'.functionName = n.functionName ∧ n'.hasBody = true ∧ n'.origin = none ∧ n'.metaFields = ∅ := by
    intro i n hn
    obtain ⟨n', hn', hname, horigin, hbody, hmeta⟩ := hiso.node i { n with origin := VersionTwo.originOf n } (by
      rw [VersionTwo.slot_lossy, hn]
      rfl)
    obtain ⟨hno, hnm⟩ := h.node i n hn
    refine ⟨n', hn', hname, hbody.trans (h.body i n hn), ?_, UMap.eq_empty_of_lookup fun key => ?_⟩
    · rw [horigin, VersionTwo.originOf, hno]
      rfl
    · rw [hmeta, hnm]
      rfl
  have hfrom : ∀ k n', r.slot k = some n' → ∃ i n, g.slot i = some n ∧ (VersionTwo.lossy g).readId (g.idStr true) i = k ∧
      n'.functionName = n.functionName ∧ n'.hasBody = true ∧ n'.origin = none ∧ n'.metaFields = ∅ := by
    intro k n' hn'
    obtain ⟨i, hi, rfl⟩ := hiso.onto k (hasNode_of_slot hn')
    rw [VersionTwo.hasNode_lossy] at hi
    obtain ⟨n, hn⟩ := (g.hasNode_iff i).mp hi
    obtain ⟨m, hm, hmn⟩ := hto i n hn
    rw [hn'] at hm
    cases hm
    exact ⟨i, n, hn, rfl, hmn⟩
  have hedges : ∀ u v, g.hasNode u = true → g.hasNode v = true →
      (((VersionTwo.lossy g).readId (g.idStr true) u, (VersionTwo.lossy g).readId (g.idStr true) v) ∈ r.edges ↔
        (u, v) ∈ g.edges) := by
    intro u v hu hv
    rw [← VersionTwo.hasNode_lossy] at hu hv
    rw [hiso.edges u v hu hv, VersionTwo.mem_edges_lossy]
  refine {
    wf := hdata.wf
    live := fun k hk => ?_
    unique := fun k k' n' m' hn' hm' he => ?_
    node := fun k n' hn' => ?_
    plain := hdata.plain
    globals := hglobals
    body := fun k n' hn' => ?_
    names := fun name => ?_
    calls := fun p => ?_ }
  · rw [hdata.length] at hk
    obtain ⟨i, hi, rfl⟩ := readId_onto hwf hs hk
    exact hiso.live i hi
  · obtain ⟨i, n, hn, rfl, hname, -⟩ := hfrom k n' hn'
    obtain ⟨i', m, hm, rfl, hname', -⟩ := hfrom k' m' hm'
    rw [h.unique i i' n m hn hm (by rw [← hname, ← hname', he])]
  · obtain ⟨-, -, -, -, -, -, horigin, hmeta⟩ := hfrom k n' hn'
    exact ⟨horigin, hmeta⟩
  · obtain ⟨-, -, -, -, -, hbody, -⟩ := hfrom k n' hn'
    exact hbody
  · rw [← h.names]
    constructor
    · rintro ⟨k, n', hn', he⟩
      obtain ⟨i, n, hn, -, hname, -⟩ := hfrom k n' hn'
      exact ⟨i, n, hn, hname.symm.trans he⟩
    · rintro ⟨i, n, hn, he⟩
      obtain ⟨n', hn', hname, -⟩ := hto i n hn
      exact ⟨_, n', hn', hname.trans he⟩
  · rw [h.calls]
    constructor
    · rintro ⟨u, v, he, hu, hv⟩
      obtain ⟨n, hn, hnn⟩ := (nameOf_eq_some u _).mp hu
      obtain ⟨m, hm, hmm⟩ := (nameOf_eq_some v _).mp hv
      obtain ⟨n', hn', hname, -⟩ := hto u n hn
      obtain ⟨m', hm', hname', -⟩ := hto v m hm
      exact ⟨_, _, (hedges u v (hasNode_of_slot hn) (hasNode_of_slot hm)).mpr he,
        (nameOf_eq_some _ _).mpr ⟨n', hn', hname.trans hnn⟩, (nameOf_eq_some _ _).mpr ⟨m', hm', hname'.trans hmm⟩⟩
    · rintro ⟨x, y, he, hx, hy⟩
      obtain ⟨n', hn', hnn⟩ := (nameOf_eq_some x _).mp hx
      obtain ⟨m', hm', hmm⟩ := (nameOf_eq_some y _).mp hy
      obtain ⟨u, n, hn, rfl, hname, -⟩ := hfrom x n' hn'
      obtain ⟨v, m, hm, rfl, hname', -⟩ := hfrom y m' hm'
      exact ⟨u, v, (hedges u v (hasNode_of_slot hn) (hasNode_of_slot hm)).mp he,
        (nameOf_eq_some _ _).mpr ⟨n, hn, hname.symm.trans hnn⟩, (nameOf_eq_some _ _).mpr ⟨m, hm, hname'.symm.trans hmm⟩⟩

/-- The message of a rank is sent and read, with all its calls. -/
theorem Rank.message_read (info v4Info : MCGGeneratorVersionInfo) (rank : Rank) (hnames : ∀ e ∈ rank.events, rank.text e.name ≠ "") :
    ∃ j r, rank.message info v4Info = .ok j ∧ VersionTwo.read j = .ok r ∧ Recorded rank.calls r := by
  obtain ⟨rt, g, hrun, hstate⟩ := rank.run_recorded hnames
  have hrec := hstate.recorded
  have hu := hrec.uniqueNames
  have hkept : VersionTwo.OriginsKept g := by
    intro n hn horigin
    obtain ⟨i, hi⟩ := (g.mem_liveNodes n).mp hn
    exact absurd (hrec.node i n hi).1 horigin
  obtain ⟨r, hread, hback⟩ := VersionTwo.read_of_kept hrec.wf hrec.metaKeyed hu hrec.refsLive hkept info
  refine ⟨_, r, ?_, hread, hrec.readBack hback⟩
  rw [Rank.message, hrun, ok_bind, hstate.globalCallgraph, Option.bind_some, hstate.lookup]
  exact VersionTwo.write_eq hrec.wf (hu.strInj hrec.wf) hrec.metaKeyed hrec.refsLive info v4Info false

/-! ## The manager of rank 0 -/

theorem toString_ne_of_notDigit {name : String} {c : Char} (hc : c ∈ name.toList) (hd : c.isDigit = false) (k : ℕ) :
    toString k ≠ name := by
  rintro rfl
  rw [isDigit_of_mem_toString hc] at hd
  cases hd

/-- The manager once the graphs `rs` have been received. -/
structure Received (T : Callgraph) (rs : List Callgraph) (m : MCGManager) : Prop where
  active : m.activeGraph = some 0
  own : m.heap.lookup 0 = some T
  graph : ∀ k r, rs[k]? = some r → m.heap.lookup (k + 1) = some r
  managed : ∀ name graph, m.managedGraphs.lookup name = some graph ↔
    (name = "globalCallGraph" ∧ graph = 0) ∨ ∃ k, k < rs.length ∧ name = toString (k + 1) ∧ graph = k + 1

theorem Received.start (T : Callgraph) :
    Received T [] ⟨(∅ : UMap ℕ Callgraph).insert 0 T, (∅ : UMap String ℕ).insert "globalCallGraph" 0, some 0⟩ where
  active := rfl
  own := AList.lookup_insert ∅
  graph := fun k r h => by cases h
  managed := by
    intro name graph
    rw [UMap.lookup_insert_ite]
    split_ifs with h
    · simp [h, eq_comm]
    · simp [h]

section
variable {T r : Callgraph} {rs : List Callgraph} {m : MCGManager} {j : Json}

theorem Received.receive (h : Received T rs m) (hread : VersionTwo.read j = .ok r) :
    ∃ m', CGPatch.receive m (j, rs.length + 1) = .ok m' ∧ Received T (rs ++ [r]) m' := by
  have hnew : m.managedGraphs.lookup (toString (rs.length + 1)) = none := by
    rw [Option.eq_none_iff_forall_ne_some]
    intro graph hgraph
    rcases (h.managed _ graph).mp hgraph with ⟨hname, -⟩ | ⟨k, hk, hname, -⟩
    · exact toString_ne_of_notDigit (c := 'g') (by decide) (by decide) _ hname
    · have := toString_nat_injective hname
      omega
  refine ⟨m.manage (toString (rs.length + 1)) (rs.length + 1) r, ?_, ?_⟩
  · rw [CGPatch.receive, hread, Outcome.guard_ok]
    rfl
  · rw [MCGManager.manage, hnew]
    refine ⟨h.active, ?_, fun k r' hr' => ?_, fun name graph => ?_⟩
    · rw [UMap.lookup_insert_ite, if_neg (by omega)]
      exact h.own
    · rw [UMap.lookup_insert_ite]
      have hlt := (List.getElem?_eq_some_iff.mp hr').1
      rw [List.length_append, List.length_singleton] at hlt
      split_ifs with hk
      · rw [show k = rs.length by omega, List.getElem?_concat_length] at hr'
        exact hr'
      · rw [List.getElem?_append_left (by omega)] at hr'
        exact h.graph k r' hr'
    · rw [UMap.lookup_insert_ite, List.length_append, List.length_singleton]
      split_ifs with hname
      · subst hname
        constructor
        · intro he
          exact .inr ⟨rs.length, by omega, rfl, (Option.some.inj he).symm⟩
        · rintro (⟨hname, -⟩ | ⟨k, -, hname, rfl⟩)
          · exact absurd hname (toString_ne_of_notDigit (c := 'g') (by decide) (by decide) _)
          · rw [toString_nat_injective hname]
      · rw [h.managed]
        refine or_congr_right (exists_congr fun k => ?_)
        constructor
        · rintro ⟨hk, he⟩
          exact ⟨by omega, he⟩
        · rintro ⟨hk, rfl, he⟩
          have hne : k ≠ rs.length := fun heq => hname (by rw [heq])
          exact ⟨by omega, rfl, he⟩

theorem Received.receiveAll {rs' : List Callgraph} {messages : List Json}
    (hread : List.Forall₂ (fun j r => VersionTwo.read j = .ok r) messages rs') (h : Received T rs m) :
    ∃ m', (messages.zipIdx (rs.length + 1)).foldlM CGPatch.receive m = .ok m' ∧ Received T (rs ++ rs') m' := by
  induction hread generalizing rs m with
  | nil => exact ⟨m, rfl, by rw [List.append_nil]; exact h⟩
  | cons hj _ ih =>
    obtain ⟨m₁, hm₁, h₁⟩ := h.receive hj
    obtain ⟨m', hm', h'⟩ := ih h₁
    rw [List.length_append, List.length_singleton] at hm'
    refine ⟨m', ?_, by rw [List.append_assoc] at h'; exact h'⟩
    rw [List.zipIdx_cons, List.foldlM_cons, hm₁]
    exact hm'

theorem Received.other (h : Received T rs m) (name : String) (S : Callgraph) :
    m.other name = some S ↔ ∃ k, rs[k]? = some S ∧ name = toString (k + 1) := by
  unfold MCGManager.other
  rw [Option.bind_eq_some_iff, h.active]
  constructor
  · rintro ⟨graph, hgraph, hS⟩
    rcases (h.managed name graph).mp hgraph with ⟨-, rfl⟩ | ⟨k, hk, hname, rfl⟩
    · rw [if_pos rfl] at hS
      cases hS
    · rw [if_neg (by simp), h.graph k rs[k] (List.getElem?_eq_getElem hk)] at hS
      exact ⟨k, by rw [List.getElem?_eq_getElem hk, hS], hname⟩
  · rintro ⟨k, hk, hname⟩
    refine ⟨k + 1, (h.managed name (k + 1)).mpr (.inr ⟨k, (List.getElem?_eq_some_iff.mp hk).1, hname, rfl⟩), ?_⟩
    rw [if_neg (by simp)]
    exact h.graph k S hk

theorem Received.mem_others (h : Received T rs m) {order : List String} (ho : m.Order order) (S : Callgraph) :
    S ∈ m.others order ↔ S ∈ rs := by
  rw [MCGManager.others, List.mem_filterMap]
  constructor
  · rintro ⟨name, -, hS⟩
    obtain ⟨k, hk, -⟩ := (h.other name S).mp hS
    exact List.mem_of_getElem? hk
  · intro hS
    obtain ⟨k, hk⟩ := List.mem_iff_getElem?.mp hS
    refine ⟨toString (k + 1), ho.mem_iff.mpr ?_, (h.other _ S).mpr ⟨k, hk, rfl⟩⟩
    exact AList.mem_keys.mp (UMap.mem_of_lookup
      ((h.managed _ (k + 1)).mpr (.inr ⟨k, (List.getElem?_eq_some_iff.mp hk).1, rfl, rfl⟩)))

theorem Received.wholeProgram (h : Received T rs m) (hT : T.Target) (hrs : ∀ S ∈ rs, S.Source) : MCGManager.WholeProgram m T where
  managed := by
    refine ⟨?_, fun hmem => ?_⟩
    · rintro ⟨name, graph⟩ he
      rcases (h.managed name graph).mp ((UMap.mem_toPairs _ _ _).mp he) with ⟨-, rfl⟩ | ⟨k, hk, -, rfl⟩
      · exact UMap.mem_of_lookup h.own
      · exact UMap.mem_of_lookup (h.graph k rs[k] (List.getElem?_eq_getElem hk))
    · obtain ⟨graph, hgraph⟩ := (UMap.mem_iff_lookup "" m.managedGraphs).mp hmem
      rcases (h.managed "" graph).mp hgraph with ⟨hname, -⟩ | ⟨k, -, hname, -⟩
      · exact absurd hname (by decide)
      · exact absurd hname.symm Nat.repr_ne_empty
  active := by rw [MCGManager.active, h.active, Option.bind_some, h.own]
  target := hT
  source := fun S hS => hrs S ((h.mem_others (List.Perm.refl _) S).mp hS)

end

/-! ## The job -/

theorem Gathered.of_shows {ranks : List Rank} {g : Callgraph} (hwf : g.Wf)
    (h : Shows {p | ∃ rank ∈ ranks, p ∈ rank.calls} g.view) : Gathered ranks g where
  wf := hwf
  seen := fun name hname => List.length_eq_one_iff.mp (h.one name hname)
  unseen := fun name hname => List.length_eq_zero_iff.mp (h.zero name hname)
  body := by
    intro n hn
    have hmem : n.id ∈ g.getNodesNamed n.functionName := (hwf.mem_named _ n.id).mpr ⟨n, hwf.slot_of_mem hn, rfl⟩
    by_cases hname : Seen {p | ∃ rank ∈ ranks, p ∈ rank.calls} n.functionName
    · obtain ⟨i, hi⟩ := List.length_eq_one_iff.mp (h.one _ hname)
      rw [hi, List.mem_singleton] at hmem
      have hbody : g.firstBody n.functionName = true := h.body _ hname
      rw [firstBody, firstNamed, hi, List.head?_cons, Option.any_some, ← hmem, hwf.slot_of_mem hn, Option.any_some] at hbody
      exact hbody
    · rw [List.length_eq_zero_iff.mp (h.zero _ hname)] at hmem
      cases hmem
  calls := h.calls

/-- The messages of the ranks are read, with all their calls. -/
theorem messages_read (info v4Info : MCGGeneratorVersionInfo) (ranks : List Rank)
    (hnames : ∀ rank ∈ ranks, ∀ e ∈ rank.events, rank.text e.name ≠ "") :
    ∃ messages rs, List.Forall₂ (fun rank j => Rank.message info v4Info rank = .ok j) ranks messages ∧
      List.Forall₂ (fun j r => VersionTwo.read j = .ok r) messages rs ∧
      (∀ S ∈ rs, Recorded S.callsNamed S) ∧ {p | ∃ S ∈ rs, p ∈ S.callsNamed} = {p | ∃ rank ∈ ranks, p ∈ rank.calls} := by
  induction ranks with
  | nil => exact ⟨[], [], .nil, .nil, fun S hS => absurd hS List.not_mem_nil, by simp⟩
  | cons rank ranks ih =>
    obtain ⟨j, r, hj, hr, hrec⟩ := rank.message_read info v4Info (hnames rank (List.mem_cons_self ..))
    obtain ⟨messages, rs, hm, hrs, hrecs, hcalls⟩ := ih fun rank' hr' => hnames rank' (List.mem_cons_of_mem rank hr')
    refine ⟨j :: messages, r :: rs, .cons hj hm, .cons hr hrs, fun S hS => ?_, ?_⟩
    · rcases List.mem_cons.mp hS with rfl | hS
      · rw [hrec.callsNamed]
        exact hrec
      · exact hrecs S hS
    · simp only [List.mem_cons, or_and_right, exists_or, exists_eq_left, Set.ofPred_or, hcalls, hrec.callsNamed]

/-- No call is lost: whatever the number of ranks, their calls and the order of the merges. -/
theorem gather_exact (info v4Info : MCGGeneratorVersionInfo) (root : Rank) (others : List Rank)
    (hnames : ∀ rank ∈ root :: others, ∀ e ∈ rank.events, rank.text e.name ≠ "") :
    ∃ rt messages m, root.run = .ok rt ∧
      List.Forall₂ (fun rank j => Rank.message info v4Info rank = .ok j) others messages ∧
      receiveAll rt.manager messages = .ok m ∧
      ∀ order, m.Order order → ∃ m' g, MCGManager.mergeIntoActiveGraph mergeByName order m = .ok m' ∧
        m'.active = some g ∧ Gathered (root :: others) g := by
  obtain ⟨rt, T, hrun, hstate⟩ := root.run_recorded (hnames root (List.mem_cons_self ..))
  obtain ⟨messages, rs, hsent, hread, hrecs, hcalls⟩ :=
    messages_read info v4Info others fun rank hr => hnames rank (List.mem_cons_of_mem root hr)
  have hmanager : Received T [] rt.manager := hstate.manager ▸ .start T
  obtain ⟨m, hm, hreceived⟩ := hmanager.receiveAll hread
  rw [List.nil_append] at hreceived
  have hwhole := hreceived.wholeProgram hstate.recorded.target fun S hS => (hrecs S hS).source
  refine ⟨rt, messages, m, hrun, hsent, hm, fun order ho => ?_⟩
  have hof : ∀ {S}, S ∈ m.others order → S ∈ rs := fun {S} hS => (hreceived.mem_others ho S).mp hS
  obtain ⟨g, hmerge⟩ := (hwhole.returns_iff ho).mpr
    (MergeableAlong.of_plain fun S hS => (plainEdges_iff S).mp (hrecs S (hof hS)).plain)
  have hall := (hwhole.mergesTo_iff_mergeAll ho g).mp hmerge
  obtain ⟨m', hrun', hactive⟩ := hmerge
  have hwf : g.Wf := (mergeAll_inv (P := fun _ _ => True) hwhole.target (hwhole.sources ho) trivial
    (fun _ _ _ _ _ _ _ _ _ => trivial) hall).1.wf
  refine ⟨m', g, hrun', hactive, .of_shows hwf ?_⟩
  have hshows := hstate.recorded.shows.foldl_absorb fun S hS => (hrecs S (hof hS)).contributes
  rw [← mergeAll_view hwhole.target (hwhole.sources ho) hall] at hshows
  have hunion : {p | ∃ rank ∈ root :: others, p ∈ rank.calls} = root.calls ∪ {p | ∃ S ∈ m.others order, p ∈ S.callsNamed} := by
    simp only [hreceived.mem_others ho, hcalls, List.mem_cons, or_and_right, exists_or, exists_eq_left, Set.ofPred_or]
    rfl
  rw [hunion]
  exact hshows

def jobText : ℕ → String
  | 0 => "main"
  | 1 => "solve"
  | _ => "exchange"

def jobSymbol : ℕ → String
  | 1 => "solve"
  | 2 => "exchange"
  | _ => ""

/-- The first rank repeats a call. -/
def repeating : Rank := ⟨jobText, jobSymbol, [⟨0, 1⟩, ⟨0, 1⟩, ⟨1, 2⟩]⟩

def idle : Rank := ⟨jobText, jobSymbol, []⟩

/-- A self call, a callee that another rank calls too, and an address without a symbol. -/
def recursing : Rank := ⟨jobText, jobSymbol, [⟨1, 1⟩, ⟨0, 2⟩, ⟨0, 7⟩]⟩

theorem gather_exact_threeRanks :
    ∃ rt messages m, repeating.run = .ok rt ∧
      List.Forall₂ (fun rank j => Rank.message ⟨"CGCollector", 0, 9, ""⟩ ⟨"MetaCG", 0, 9, ""⟩ rank = .ok j) [idle, recursing] messages ∧
      receiveAll rt.manager messages = .ok m ∧
      ∀ order, m.Order order → ∃ m' g, MCGManager.mergeIntoActiveGraph mergeByName order m = .ok m' ∧
        m'.active = some g ∧ Gathered [repeating, idle, recursing] g :=
  gather_exact _ _ repeating [idle, recursing] (by decide)

end CGPatch
end MetaCG
