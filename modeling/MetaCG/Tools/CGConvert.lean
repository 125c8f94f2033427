import MetaCG.Format.MCGReader
import MetaCG.Format.RoundTrip

/-! The converter between file formats (`CGConvert.cpp`), and chains of conversions.

A file that is converted goes through a reader and a writer, so a chain of conversions keeps the graph when
both round trips do. -/
namespace MetaCG
open Foundations Callgraph
set_option autoImplicit false
set_option maxHeartbeats 250000
set_option maxRecDepth 120000

/-! ## Isomorphic graphs -/

theorem carried_carried (f f' : ℕ → ℕ) {fields fields' : NamedMetadata}
    (h : ∀ key, fields'.lookup key = carried f fields key) (key : String) :
    carried f' fields' key = carried (f' ∘ f) fields key := by
  have hrename : ∀ md : MetaData, (md.rename f).rename f' = md.rename (f' ∘ f) := by
    intro md
    cases md with
    | override md => simp only [MetaData.rename, List.map_map]
    | entryFunction md => simp only [MetaData.rename, Option.map_map]
    | _ => rfl
  rw [carried, h, carried, carried]
  cases hl : fields.lookup key with
  | none => rfl
  | some md =>
    cases hempty : md.emptyContainer <;> simp [Option.filter, hempty, hrename]

theorem Isomorphic.trans {g r s : Callgraph} {f f' : ℕ → ℕ} (h : Isomorphic g r f) (h' : Isomorphic r s f') :
    Isomorphic g s (f' ∘ f) where
  live := fun i hi => h'.live _ (h.live i hi)
  inj := fun i k hi hk heq => h.inj i k hi hk (h'.inj _ _ (h.live i hi) (h.live k hk) heq)
  onto := by
    intro k hk
    obtain ⟨j, hj, rfl⟩ := h'.onto k hk
    obtain ⟨i, hi, rfl⟩ := h.onto j hj
    exact ⟨i, hi, rfl⟩
  node := by
    intro i n hn
    obtain ⟨n', hn', hname, horigin, hbody, hmeta⟩ := h.node i n hn
    obtain ⟨n'', hn'', hname', horigin', hbody', hmeta'⟩ := h'.node _ n' hn'
    refine ⟨n'', hn'', hname'.trans hname, horigin'.trans horigin, hbody'.trans hbody, fun key => ?_⟩
    rw [hmeta', carried_carried f f' hmeta]
  edges := fun u v hu hv => (h'.edges _ _ (h.live u hu) (h.live v hv)).trans (h.edges u v hu hv)
  globals := fun key => by rw [h'.globals, carried_carried f f' h.globals]

namespace CGConvert

/-- The graphs that every conversion keeps. -/
structure Convertible (g : Callgraph) : Prop where
  plain : PlainEdges g
  names : VersionTwo.UniqueNames g
  origins : VersionTwo.NoEmptyOrigins g
  kept : VersionTwo.OriginsKept g

instance (g : Callgraph) : Decidable (Convertible g) :=
  decidable_of_iff (PlainEdges g ∧ VersionTwo.UniqueNames g ∧ VersionTwo.NoEmptyOrigins g ∧ VersionTwo.OriginsKept g)
    ⟨fun h => ⟨h.1, h.2.1, h.2.2.1, h.2.2.2⟩, fun h => ⟨h.plain, h.names, h.origins, h.kept⟩⟩

theorem slot_of_isomorphic {g r : Callgraph} {f : ℕ → ℕ} (h : Isomorphic g r f) {n' : CgNode} (hn' : n' ∈ r.liveNodes) :
    ∃ i n, g.slot i = some n ∧ r.slot (f i) = some n' ∧ n'.functionName = n.functionName ∧ n'.origin = n.origin ∧
      ∀ key, n'.metaFields.lookup key = carried f n.metaFields key := by
  obtain ⟨k, hk⟩ := (r.mem_liveNodes n').mp hn'
  obtain ⟨i, hi, rfl⟩ := h.onto k (hasNode_of_slot hk)
  obtain ⟨n, hn⟩ := (g.hasNode_iff i).mp hi
  obtain ⟨n₁, hn₁, hname, horigin, -, hmeta⟩ := h.node i n hn
  rw [hk] at hn₁
  cases hn₁
  exact ⟨i, n, hn, hk, hname, horigin, hmeta⟩

theorem Convertible.of_isomorphic {g r : Callgraph} {f : ℕ → ℕ} (hg : g.Wf) (hr : r.Wf) (hkey : g.MetaKeyed)
    (h : Isomorphic g r f) (hc : Convertible g) (hp : PlainEdges r) : Convertible r where
  plain := hp
  names := by
    refine List.Nodup.map_on ?_ (List.Nodup.of_map CgNode.id (hr.liveNodes_id_sorted.imp ne_of_lt))
    intro a ha b hb hab
    obtain ⟨i, n, hn, hi, hname, -⟩ := slot_of_isomorphic h ha
    obtain ⟨k, m, hm, hk, hname', -⟩ := slot_of_isomorphic h hb
    have hik : i = k := hc.names.slot_inj hg hn hm (by rw [← hname, ← hname', hab])
    subst hik
    rw [hi] at hk
    exact Option.some.inj hk
  origins := by
    intro n' hn'
    obtain ⟨i, n, hn, -, -, horigin, -⟩ := slot_of_isomorphic h hn'
    rw [horigin]
    exact hc.origins n ((g.mem_liveNodes n).mpr ⟨i, hn⟩)
  kept := by
    intro n' hn' ho
    obtain ⟨i, n, hn, -, -, horigin, hmeta⟩ := slot_of_isomorphic h hn'
    have hmem := (g.mem_liveNodes n).mpr ⟨i, hn⟩
    rw [horigin] at ho
    obtain ⟨md, hl⟩ := (UMap.mem_iff_lookup _ _).mp (hc.kept n hmem ho)
    have hk : md.getKey = "fileProperties" := hkey.node n hmem ("fileProperties", md) ((UMap.mem_toPairs _ _ _).mpr hl)
    refine (UMap.mem_iff_lookup _ _).mpr ⟨md.rename f, ?_⟩
    rw [hmeta, carried, hl]
    cases md with
    | fileProperties b => rfl
    | _ => simp [MetaData.getKey] at hk

end CGConvert
end MetaCG
