import MetaCG.Format.VersionTwoFidelity
import MetaCG.Pgis.CubeReader
import MetaCG.Pgis.ProfileCodec

/-! From one process of PGIS to the next (`PGISMain.cpp`).

PGIS always writes version 2, where a function is known by its name, and the next process reads that file. The functions are the
same then, though they may be numbered anew, and the metadata of each is what its entry in the file says. -/
namespace MetaCG.Pgis.Profile
open Foundations
set_option autoImplicit false
set_option maxHeartbeats 250000
set_option maxRecDepth 120000

/-- A graph whose functions have different names. -/
structure Sound (st : Profiled) : Prop where
  wf : st.graph.Wf
  single : SingleNames st.graph

/-- The graph of the next process. -/
structure Restarted (st st' : Profiled) : Prop where
  wf : st'.graph.Wf
  single : SingleNames st'.graph
  names : ∀ f, (∃ i, st'.graph.nameOf i = some f) ↔ ∃ i, st.graph.nameOf i = some f
  data : ∀ f i j, st.graph.nameOf i = some f → st'.graph.nameOf j = some f → (st.md i).reload = .ok (st'.md j)

/-- The next process reads the file that this one writes. -/
structure ThroughFile (st st' : Profiled) : Prop where
  graph : ∃ info v4Info exportSorted file, VersionTwo.write info v4Info exportSorted st.graph = .ok file ∧
    VersionTwo.read file = .ok st'.graph
  data : ∀ f i j, st.graph.nameOf i = some f → st'.graph.nameOf j = some f → (st.md i).reload = .ok (st'.md j)

/-! ## Names -/

section
variable {g r : Callgraph}

theorem SingleNames.of_inj (h : g.Wf) (hinj : ∀ f u v, g.nameOf u = some f → g.nameOf v = some f → u = v) : SingleNames g := by
  intro name
  cases hl : g.getNodesNamed name with
  | nil => exact Nat.zero_le 1
  | cons u l =>
    have hu : u ∈ g.getNodesNamed name := hl ▸ List.mem_cons_self ..
    have hsub : g.getNodesNamed name ⊆ [u] := fun v hv => List.mem_singleton.mpr
      (hinj name v u ((Callgraph.mem_getNodesNamed h).mp hv) ((Callgraph.mem_getNodesNamed h).mp hu))
    exact hl ▸ (List.subperm_of_subset (h.getNodesNamed_nodup name) hsub).length_le

theorem SingleNames.uniqueNames (hone : SingleNames g) (h : g.Wf) : VersionTwo.UniqueNames g := by
  refine List.Nodup.map_on (fun n hn m hm he => ?_) (.of_map CgNode.id (h.liveNodes_id_sorted.imp ne_of_lt))
  obtain ⟨i, hi⟩ := (g.mem_liveNodes n).mp hn
  obtain ⟨k, hk⟩ := (g.mem_liveNodes m).mp hm
  have hik : i = k := hone.inj h ((Callgraph.nameOf_eq_some i _).mpr ⟨n, hi, rfl⟩)
    ((Callgraph.nameOf_eq_some k _).mpr ⟨m, hk, he.symm⟩)
  subst hik
  exact Option.some.inj (hi.symm.trans hk)

theorem nameOf_lossy (g : Callgraph) (i : ℕ) : (VersionTwo.lossy g).nameOf i = g.nameOf i := by
  rw [Callgraph.nameOf, VersionTwo.slot_lossy, Option.map_map]
  rfl

theorem nameOf_isomorphic {φ : ℕ → ℕ} (hiso : Isomorphic g r φ) {i : ℕ} {f : String} (hi : g.nameOf i = some f) :
    r.nameOf (φ i) = some f := by
  obtain ⟨n, hn, rfl⟩ := (Callgraph.nameOf_eq_some i f).mp hi
  obtain ⟨n', hn', hname, -⟩ := hiso.node i n hn
  exact (Callgraph.nameOf_eq_some _ _).mpr ⟨n', hn', hname⟩

/-- The nodes of a graph that was read come from those that were written. -/
theorem nameOf_written {φ : ℕ → ℕ} (hiso : Isomorphic g r φ) {k : ℕ} {f : String} (hk : r.nameOf k = some f) :
    ∃ i, g.nameOf i = some f ∧ φ i = k := by
  obtain ⟨i, hi, rfl⟩ := hiso.onto k (Callgraph.hasNode_of_nameOf hk)
  obtain ⟨f', hf'⟩ := Callgraph.nameOf_of_hasNode hi
  have hsame := (nameOf_isomorphic hiso hf').symm.trans hk
  exact ⟨i, hf'.trans hsame, rfl⟩

end

/-! ## Files -/

section
variable {st st' : Profiled}

/-- What a process can write the next one can read if the origins have their file properties; the functions are the same. -/
theorem ThroughFile.readBack (hst : Sound st) (hkey : st.graph.MetaKeyed) (h : ThroughFile st st') :
    st.graph.RefsLive ∧ VersionTwo.OriginsKept st.graph ∧
      ReadBack (VersionTwo.lossy st.graph) (st.graph.idStr true) st'.graph := by
  obtain ⟨info, v4Info, exportSorted, file, hwrite, hread⟩ := h.graph
  have hunique := hst.single.uniqueNames hst.wf
  obtain ⟨v4Json, hv4, -⟩ := bind_eq_ok.mp hwrite
  have hrefs := hst.wf.refsLive_of_write hv4
  rw [VersionTwo.write_eq hst.wf (hunique.strInj hst.wf) hkey hrefs] at hwrite
  cases hwrite
  have hkept := VersionTwo.kept_of_read hst.wf hkey hunique info hread
  obtain ⟨r, hr, hback⟩ := VersionTwo.read_of_kept hst.wf hkey hunique hrefs hkept info
  rw [hread] at hr
  cases hr
  exact ⟨hrefs, hkept, hback⟩

/-- The next process has the functions of this one. -/
theorem ThroughFile.restarted (hst : Sound st) (hkey : st.graph.MetaKeyed) (h : ThroughFile st st') : Restarted st st' := by
  obtain ⟨-, -, hback⟩ := h.readBack hst hkey
  have hwf : st'.graph.Wf := hback.data.wf.withMeta st'.graph.metaFields
  have hiso := hback.isomorphic (VersionTwo.lossy_wf hst.wf)
    (VersionTwo.lossy_strInj ((hst.single.uniqueNames hst.wf).strInj hst.wf))
  refine ⟨hwf, .of_inj hwf fun f u v hu hv => ?_, fun f => ⟨?_, ?_⟩, h.data⟩
  · obtain ⟨i, hi, rfl⟩ := nameOf_written hiso hu
    obtain ⟨k, hk, rfl⟩ := nameOf_written hiso hv
    rw [nameOf_lossy] at hi hk
    rw [hst.single.inj hst.wf hi hk]
  · rintro ⟨k, hk⟩
    obtain ⟨i, hi, -⟩ := nameOf_written hiso hk
    exact ⟨i, (nameOf_lossy _ i).symm.trans hi⟩
  · rintro ⟨i, hi⟩
    exact ⟨_, nameOf_isomorphic hiso ((nameOf_lossy _ i).trans hi)⟩

end
end MetaCG.Pgis.Profile
