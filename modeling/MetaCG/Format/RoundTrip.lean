import MetaCG.Graph.History
import MetaCG.Format.ReadData

/-! Writing a graph and reading it back gives an isomorphic graph. -/
namespace MetaCG
open Foundations Callgraph
set_option autoImplicit false
set_option maxHeartbeats 250000
set_option maxRecDepth 120000

theorem plainEdges_iff (g : Callgraph) : PlainEdges g ↔ ∀ e ∈ UMap.toPairs g.edges, UMap.toPairs e.2 = [] := by
  constructor
  · intro h e he
    have hmeta : g.edgeMeta e.1 = e.2 := by
      rw [edgeMeta, UMap.getD, (UMap.mem_toPairs e.1 e.2 g.edges).mp he]
      rfl
    rw [← hmeta, h e.1]
    rfl
  · intro h e
    rw [edgeMeta, UMap.getD]
    cases hl : g.edges.lookup e with
    | none => rfl
    | some fields =>
      have hnil := h (e, fields) ((UMap.mem_toPairs e fields g.edges).mpr hl)
      exact AList.ext (List.map_eq_nil_iff.mp hnil)

instance (g : Callgraph) : Decidable (PlainEdges g) := decidable_of_iff _ (plainEdges_iff g).symm

instance (g : Callgraph) : Decidable g.PlainNames :=
  inferInstanceAs (Decidable (∀ n ∈ g.liveNodes, '#' ∉ n.functionName.toList))

/-- `f` maps the nodes of `g` one to one onto those of `r` and carries everything over. -/
structure Isomorphic (g r : Callgraph) (f : ℕ → ℕ) : Prop where
  live : ∀ i, g.hasNode i = true → r.hasNode (f i) = true
  inj : ∀ i k, g.hasNode i = true → g.hasNode k = true → f i = f k → i = k
  onto : ∀ k, r.hasNode k = true → ∃ i, g.hasNode i = true ∧ f i = k
  node : ∀ i n, g.slot i = some n → ∃ n', r.slot (f i) = some n' ∧ n'.functionName = n.functionName ∧
    n'.origin = n.origin ∧ n'.hasBody = n.hasBody ∧ ∀ key, n'.metaFields.lookup key = carried f n.metaFields key
  edges : ∀ u v, g.hasNode u = true → g.hasNode v = true → ((f u, f v) ∈ r.edges ↔ (u, v) ∈ g.edges)
  globals : ∀ key, r.metaFields.lookup key = carried f g.metaFields key

section
variable {g r : Callgraph} {str : ℕ → String}

/-- Every id below the number of nodes is given to a node. -/
theorem readId_onto (h : g.Wf) (hs : g.StrInj str) {k : ℕ} (hk : k < (g.fileOrder str).length) :
    ∃ i, g.hasNode i = true ∧ g.readId str i = k := by
  refine ⟨(g.fileOrder str)[k], (h.mem_fileOrder hs _).mp (List.getElem_mem hk), ?_⟩
  exact hs.fileOrder_nodup.idxOf_getElem k hk

theorem ReadBack.isomorphic (h : g.Wf) (hs : g.StrInj str) (hr : ReadBack g str r) : Isomorphic g r (g.readId str) where
  live := fun i hi => hr.data.hasNode hi
  inj := fun i k hi _ he => readId_inj h hs hi he
  onto := by
    intro k hk
    have hlt : k < r.nodes.length := hasNode_lt hk
    rw [show r.nodes.length = (g.fileOrder str).length from hr.data.length] at hlt
    exact readId_onto h hs hlt
  node := by
    intro i n hn
    obtain ⟨fields, hslot, -, hcarried⟩ := hr.data.node i n hn
    exact ⟨_, hslot, rfl, rfl, rfl, hcarried ((h.mem_fileOrder hs i).mpr (hasNode_of_slot hn))⟩
  edges := by
    intro u v hu hv
    have hedges : (g.readId str u, g.readId str v) ∈ r.edges ↔ _ := hr.data.edges (g.readId str u) (g.readId str v)
    rw [hedges]
    constructor
    · rintro ⟨u', v', -, he, hu', hv'⟩
      rw [readId_inj h hs hu hu', readId_inj h hs hv hv']
      exact he
    · exact fun he => ⟨u, v, (h.mem_fileOrder hs u).mpr hu, he, rfl, rfl⟩
  globals := hr.globals

end

/-- What the writer and the reader do with a graph without edge metadata. -/
theorem write_read {g : Callgraph} (h : g.Wf) (hkey : g.MetaKeyed) (hp : PlainEdges g) (hrefs : g.RefsLive) {b : Bool}
    (hb : b = true → g.PlainNames) (info : MCGGeneratorVersionInfo) :
    ∃ j r, g.write (.four info) b = .ok j ∧ read j = .ok r ∧ ReadBack g (g.idStr b) r := by
  obtain ⟨r, hread, hr⟩ := read_document h (h.strInj hb) (fun i hi => h.idStr_ne_empty hi) hp hkey hrefs info
  exact ⟨_, r, write_eq h hrefs hb (.four info), hread, hr⟩

theorem roundTrip {g : Callgraph} (h : g.Wf) (hkey : g.MetaKeyed) (hp : PlainEdges g) (hrefs : g.RefsLive)
    (useNamesAsIds : Bool) (hb : useNamesAsIds = true → g.PlainNames) (info : MCGGeneratorVersionInfo) :
    ∃ j r f, g.write (.four info) useNamesAsIds = .ok j ∧ read j = .ok r ∧ Isomorphic g r f := by
  obtain ⟨j, r, hwrite, hread, hr⟩ := write_read h hkey hp hrefs hb info
  exact ⟨j, r, g.readId (g.idStr useNamesAsIds), hwrite, hread, hr.isomorphic h (h.strInj hb)⟩

/-- Two functions of one name after an erased node; the first overrides the second and calls it. -/
def renumbered : Callgraph := run 0 [.insert "g" none false false, .insert "f" (some "f.cpp") false true,
  .insert "f" none false false, .erase 0, .addEdge 1 2, .addNodeMetaData 1 (.override ⟨[2], []⟩),
  .addNodeMetaData 2 (.loopDepth 3), .addMetaData (.entryFunction ⟨some 1⟩)]

theorem roundTrip_renumbered :
    ∃ j r f, renumbered.write (.four ⟨"MetaCG", 0, 9, ""⟩) true = .ok j ∧ read j = .ok r ∧ Isomorphic renumbered r f :=
  roundTrip (run_wf 0 _) (by decide) (by decide) (by decide) true (fun _ => by decide) _

/-- A graph whose own metadata has an empty container as its value. -/
def withoutLoops : Callgraph := run 0 [.insert "f" none false true, .addMetaData (.loopCallDepth .empty)]

/-- The metadata of the graph itself is dropped when its value is an empty container. -/
theorem roundTrip_withoutLoops :
    withoutLoops.Wf ∧ withoutLoops.MetaKeyed ∧ PlainEdges withoutLoops ∧ withoutLoops.RefsLive ∧
      ¬ ∃ j r f, withoutLoops.write (.four ⟨"MetaCG", 0, 9, ""⟩) false = .ok j ∧ read j = .ok r ∧
        ∀ key, r.metaFields.lookup key = (withoutLoops.metaFields.lookup key).map (MetaData.rename f) := by
  have hwf : withoutLoops.Wf := run_wf 0 _
  have hkey : withoutLoops.MetaKeyed := by decide
  have hp : PlainEdges withoutLoops := by decide
  have hrefs : withoutLoops.RefsLive := by decide
  refine ⟨hwf, hkey, hp, hrefs, ?_⟩
  rintro ⟨j, r, f, hwrite, hread, hglobals⟩
  obtain ⟨j', r', hwrite', hread', hr⟩ := write_read (b := false) hwf hkey hp hrefs (fun hb => by cases hb)
    ⟨"MetaCG", 0, 9, ""⟩
  rw [hwrite'] at hwrite
  cases hwrite
  rw [hread'] at hread
  cases hread
  have hlost : r.metaFields.lookup "loopCallDepth" = none := by
    rw [hr.globals]
    decide
  rw [hglobals, Option.map_eq_none_iff] at hlost
  exact absurd hlost (by decide)

end MetaCG
