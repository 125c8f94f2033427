import MetaCG.Merge.Structure

/-! Merging a sequence of graphs into one target.

The kinds under which the edge metadata lies after one merge are what the next merge starts from, so
a sequence returns iff the entries of all its graphs, one after the other, do not clash. The nodes,
calls and bodies are followed on an abstract level where functions are known by name only
(`NameView`): there the order of the merges does not matter. -/
namespace MetaCG
open Foundations
set_option autoImplicit false
set_option maxHeartbeats 250000
set_option maxRecDepth 120000

namespace Callgraph

/-- What a graph needs to be merged into. -/
structure Target (T : Callgraph) : Prop where
  wf : T.Wf
  keyed : T.MetaKeyed

/-- What a graph needs to be merged from. -/
structure Source (S : Callgraph) : Prop where
  wf : S.Wf
  live : S.NoErased
  keyed : S.MetaKeyed
  refs : S.RefsLive

theorem Source.mergeable {T S : Callgraph} (hS : Source S) (hT : Target T) : Mergeable T S :=
  ⟨hT.wf, hS.wf, hS.live, hT.keyed, hS.keyed, hS.refs⟩

/-! ## The metadata stays keyed -/

theorem absorbNodeEntries_keyed {r : MergeRecorder} {k : String} {l : List SourceEntry}
    {cell cell' : Option MetaData} (hcell : ∀ own ∈ cell, own.getKey = k)
    (hl : ∀ x ∈ l, x.2.2.getKey = k ∧ Mapped r.mapping x.2.2.refs)
    (h : l.foldlM (absorbNodeEntry r) cell = .ok cell') : ∀ own ∈ cell', own.getKey = k := by
  refine foldlM_ok_inv (J := fun _ c => ∀ own ∈ c, own.getKey = k) (l := l) hcell ?_ h
  intro pre x c c' hpre hc hstep own hown
  obtain ⟨hkey, hrefs⟩ := hl x (hpre.subset (by simp))
  rcases absorbNodeEntry_cases hstep with ⟨c₁, rfl, rfl, hclone⟩ | ⟨own₁, m, act, rfl, rfl, hm⟩
  · cases hown
    rw [(MetaData.cloneMapped_result hclone).1, hkey]
  · cases hown
    rw [(MetaData.merge_result hrefs hm).1, hc own₁ rfl]

theorem Merged.target {T S g : Callgraph} {r : MergeRecorder} (hT : Target T) (hS : Source S)
    (h : Merged T S r g) : Target g := by
  refine ⟨h.wf, fun n hn e he => ?_, fun e he => ?_⟩
  · have hg : g.nodeMeta n.id e.1 = some e.2 := by
      rw [nodeMeta_of_mem h.wf hn]
      exact (UMap.mem_toPairs _ _ _).mp he
    refine absorbNodeEntries_keyed (fun own hown => hT.keyed.nodeMeta hown) (fun x hx => ?_)
      (h.nodeMeta n.id e.1) e.2 hg
    obtain ⟨s, hs, -, -, -, hl⟩ := valuesAt_mem hx
    have hpair := (UMap.mem_toPairs e.1 x.2.2 s.metaFields).mpr hl
    exact ⟨hS.keyed.node s hs _ hpair, h.mapped_refs hS.wf (hS.refs.node s hs (e.1, x.2.2) hpair)⟩
  · have hg := (UMap.mem_toPairs _ _ _).mp he
    rcases h.global_cases e.1 with ⟨-, hTg⟩ | ⟨md, c, hmd, -, hc, hclone⟩ | ⟨md, own, m, hmd, hown, hm, hmerge⟩
    · rw [hg] at hTg
      exact hT.keyed.global e ((UMap.mem_toPairs _ _ _).mpr hTg.symm)
    · have hpair := (UMap.mem_toPairs e.1 md _).mpr hmd
      rw [hg] at hc
      cases hc
      rw [(MetaData.cloneMapped_result hclone).1]
      exact hS.keyed.global _ hpair
    · have hpair := (UMap.mem_toPairs e.1 md _).mpr hmd
      rw [hg] at hm
      cases hm
      rw [(MetaData.merge_result (h.mapped_refs hS.wf (hS.refs.global _ hpair)) hmerge).1]
      exact hT.keyed.global (e.1, own) ((UMap.mem_toPairs _ _ _).mpr hown)

/-! ## A sequence of merges -/

/-- `merge` for its effect on the target alone. -/
def mergeInto (policy : MergePolicy) (g other : Callgraph) : Except (Exn × Callgraph) Callgraph :=
  match merge policy g other with
  | .ok (_, g) => .ok g
  | .error e => .error e

def mergeAll (policy : MergePolicy) (g : Callgraph) (others : List Callgraph) :
    Except (Exn × Callgraph) Callgraph := others.foldlM (mergeInto policy) g

/-- The entries of a sequence of sources on the edges between two names. -/
def entriesAlong (known : String → Bool) : List Callgraph → String → String → List (Bool × KindEntry)
  | [], _, _ => []
  | S :: L, caller, callee => S.entriesNamed known caller callee ++
      entriesAlong (fun name => known name || S.hasName name) L caller callee

/-- The edge metadata of the sources `L` can be merged into `T` one after the other. -/
def MergeableAlong (T : Callgraph) (L : List Callgraph) : Prop :=
  ∀ caller callee, (kindsOf (T.metaNamed caller callee)).NoClash (entriesAlong T.hasName L caller callee)

theorem mergeableAlong_nil (T : Callgraph) : MergeableAlong T [] := fun _ _ => Kinds.NoClash.nil _

/-- Without edge metadata nothing can clash. -/
theorem MergeableAlong.of_plain {T : Callgraph} {L : List Callgraph}
    (h : ∀ S ∈ L, ∀ e ∈ UMap.toPairs S.edges, UMap.toPairs e.2 = []) : MergeableAlong T L := by
  have hnil : ∀ known n₁ n₂, entriesAlong known L n₁ n₂ = [] := by
    induction L with
    | nil => exact fun _ _ _ => rfl
    | cons S L ih =>
      intro known n₁ n₂
      rw [entriesAlong, entriesNamed_of_plain (h S (List.mem_cons_self ..)),
        ih (fun S' hS' => h S' (List.mem_cons_of_mem S hS'))]
      rfl
  intro n₁ n₂
  rw [hnil]
  exact Kinds.NoClash.nil _

theorem Merged.mergeableAlong_cons {T S g : Callgraph} {r : MergeRecorder} (h : Merged T S r g)
    (L : List Callgraph) :
    MergeableAlong T (S :: L) ↔ EdgeMetaMergeable T S ∧ MergeableAlong g L := by
  have hknown : g.hasName = fun name => T.hasName name || S.hasName name := funext h.hasName
  unfold MergeableAlong EdgeMetaMergeable
  simp only [entriesAlong, Kinds.noClash_append, hknown, h.kinds]
  exact ⟨fun hall => ⟨fun a b => (hall a b).1, fun a b => (hall a b).2⟩, fun hall a b => ⟨hall.1 a b, hall.2 a b⟩⟩

theorem MergeableAlong.head {T S : Callgraph} {L : List Callgraph} (h : MergeableAlong T (S :: L)) :
    EdgeMetaMergeable T S := fun a b => ((Kinds.noClash_append _ _ _).mp (h a b)).1

theorem mergeInto_ok {T S g : Callgraph} (hT : Target T) (hS : Source S)
    (h : mergeInto mergeByName T S = .ok g) : ∃ r, EdgeMetaMergeable T S ∧ Merged T S r g := by
  unfold mergeInto at h
  cases hm : merge mergeByName T S with
  | error e => rw [hm] at h; cases h
  | ok p =>
    rw [hm] at h
    cases h
    exact ⟨p.1, (merge_cases (hS.mergeable hT)).2 p.1 p.2 hm⟩

theorem mergeInto_of_mergeable {T S : Callgraph} (hT : Target T) (hS : Source S) (h : EdgeMetaMergeable T S) :
    ∃ g, mergeInto mergeByName T S = .ok g := by
  obtain ⟨r, g, hrun⟩ := (merge_cases (hS.mergeable hT)).1 h
  exact ⟨g, by rw [mergeInto, hrun]⟩

/-- A sequence of merges returns iff the edge metadata does not clash along it. -/
theorem mergeAll_ok_iff {T : Callgraph} (hT : Target T) {L : List Callgraph} (hL : ∀ S ∈ L, Source S) :
    (∃ g, mergeAll mergeByName T L = .ok g) ↔ MergeableAlong T L := by
  induction L generalizing T with
  | nil => exact ⟨fun _ => mergeableAlong_nil T, fun _ => ⟨T, rfl⟩⟩
  | cons S L ih =>
    have hS := hL S (List.mem_cons_self ..)
    have hL' : ∀ S' ∈ L, Source S' := fun S' hS' => hL S' (List.mem_cons_of_mem S hS')
    unfold mergeAll at ih ⊢
    rw [List.foldlM_cons]
    cases hm : mergeInto mergeByName T S with
    | error e =>
      constructor
      · rintro ⟨g, hg⟩
        cases hg
      · intro hall
        obtain ⟨g, hg⟩ := mergeInto_of_mergeable hT hS hall.head
        rw [hm] at hg
        cases hg
    | ok g₁ =>
      obtain ⟨r, hmerge, hM⟩ := mergeInto_ok hT hS hm
      rw [hM.mergeableAlong_cons, ← ih (hM.target hT hS) hL']
      exact ⟨fun h => ⟨hmerge, h⟩, fun h => h.2⟩

/-- What every merge of a sequence preserves holds of the result. -/
theorem mergeAll_inv {P : List Callgraph → Callgraph → Prop} {T g : Callgraph} {L : List Callgraph}
    (hT : Target T) (hL : ∀ S ∈ L, Source S) (h0 : P [] T)
    (hstep : ∀ pre S g₁ g₂ r, Target g₁ → S ∈ L → Merged g₁ S r g₂ → P pre g₁ → P (pre ++ [S]) g₂)
    (h : mergeAll mergeByName T L = .ok g) : Target g ∧ P L g := by
  refine foldlM_ok_inv (J := fun pre t => Target t ∧ P pre t) (l := L) ⟨hT, h0⟩ ?_ h
  rintro pre S g₁ g₂ hpre ⟨hg₁, hP⟩ hrun
  have hS : S ∈ L := hpre.subset (by simp)
  obtain ⟨r, -, hM⟩ := mergeInto_ok hg₁ (hL S hS) hrun
  exact ⟨hM.target hg₁ (hL S hS), hstep pre S g₁ g₂ r hg₁ hS hM hP⟩

end Callgraph

/-! ## Graphs by name -/

/-- A call graph up to the identity of its nodes: how many nodes a name has, which names call which,
and whether the first node of a name has a body. -/
@[ext] structure NameView where
  count : String → ℕ
  calls : Set (String × String)
  body : String → Bool

/-- What a source contributes to a view. -/
structure SourceView where
  names : String → Bool
  calls : Set (String × String)
  body : String → Bool

namespace NameView

/-- A new name gets one node; calls and bodies accumulate. -/
def absorb (v : NameView) (s : SourceView) : NameView where
  count := fun name => if v.count name = 0 ∧ s.names name = true then 1 else v.count name
  calls := v.calls ∪ s.calls
  body := fun name => v.body name || s.body name

end NameView

namespace Callgraph

/-- The names of caller and callee of every edge. -/
def callsNamed (g : Callgraph) : Set (String × String) :=
  {p | ∃ u v, (u, v) ∈ g.edges ∧ g.nameOf u = some p.1 ∧ g.nameOf v = some p.2}

/-- Whether the first node of a name has a body. -/
def firstBody (g : Callgraph) (name : String) : Bool :=
  (g.firstNamed name).any fun i => (g.slot i).any CgNode.hasBody

def view (g : Callgraph) : NameView where
  count := fun name => (g.getNodesNamed name).length
  calls := g.callsNamed
  body := g.firstBody

def sourceView (g : Callgraph) : SourceView where
  names := g.hasName
  calls := g.callsNamed
  body := fun name => g.liveNodes.any fun n => decide (n.functionName = name) && n.hasBody

section
variable {T S g : Callgraph} {r : MergeRecorder}

theorem Merged.count_view (hS : S.Wf) (h : Merged T S r g) (name : String) :
    g.view.count name = (T.view.absorb S.sourceView).count name := by
  simp only [view, sourceView, NameView.absorb, List.length_eq_zero_iff]
  by_cases hTn : T.getNodesNamed name = []
  · have hnew := h.new_names name hTn
    by_cases hSn : S.hasName name = true
    · rw [if_pos ((hasName_iff hS name).mp hSn)] at hnew
      obtain ⟨i, -, hl⟩ := hnew
      rw [hl, if_pos ⟨hTn, hSn⟩]
      rfl
    · rw [if_neg (fun hex => hSn ((hasName_iff hS name).mpr hex))] at hnew
      rw [hnew, if_neg (fun hc => hSn hc.2), hTn]
  · rw [h.kept_names name hTn, if_neg (fun hc => hTn hc.1)]

theorem Merged.nameOf_old (h : Merged T S r g) {u : ℕ} (hu : T.hasNode u = true) : g.nameOf u = T.nameOf u := by
  obtain ⟨n, hn⟩ := (T.hasNode_iff u).mp hu
  obtain ⟨n', hn', hname⟩ := h.old u n hn
  rw [nameOf, nameOf, hn, hn', Option.map_some, Option.map_some, hname]

theorem Merged.nameOf_mapped (hS : S.Wf) (h : Merged T S r g) {a u : ℕ} (ha : S.hasNode a = true)
    (hm : r.mapping.lookup a = some u) : g.nameOf u = S.nameOf a := by
  obtain ⟨s, hs⟩ := (S.hasNode_iff a).mp ha
  obtain ⟨t, n, ht, hn, hname⟩ := h.mapped_some hS hs
  rw [hm] at ht
  cases ht
  rw [nameOf, nameOf, hs, hn, Option.map_some, Option.map_some, hname]

theorem Merged.calls_view (hT : T.Wf) (hS : S.Wf) (h : Merged T S r g) :
    g.callsNamed = T.callsNamed ∪ S.callsNamed := by
  ext p
  constructor
  · rintro ⟨u, v, he, hu, hv⟩
    rcases ((h.byName hT hS).edges u v).mp he with hTe | ⟨a, b, hSe, ha, hb⟩
    · obtain ⟨hlu, hlv⟩ := hT.edge_live u v hTe
      rw [h.nameOf_old hlu] at hu
      rw [h.nameOf_old hlv] at hv
      exact .inl ⟨u, v, hTe, hu, hv⟩
    · obtain ⟨hla, hlb⟩ := hS.edge_live a b hSe
      rw [h.nameOf_mapped hS hla ha] at hu
      rw [h.nameOf_mapped hS hlb hb] at hv
      exact .inr ⟨a, b, hSe, hu, hv⟩
  · rintro (⟨u, v, he, hu, hv⟩ | ⟨a, b, he, ha, hb⟩)
    · obtain ⟨hlu, hlv⟩ := hT.edge_live u v he
      refine ⟨u, v, ((h.byName hT hS).edges u v).mpr (.inl he), ?_, ?_⟩
      · rw [h.nameOf_old hlu, hu]
      · rw [h.nameOf_old hlv, hv]
    · obtain ⟨hla, hlb⟩ := hS.edge_live a b he
      obtain ⟨u, hmu⟩ := ((h.byName hT hS).mapping_dom a).mpr hla
      obtain ⟨v, hmv⟩ := ((h.byName hT hS).mapping_dom b).mpr hlb
      refine ⟨u, v, ((h.byName hT hS).edges u v).mpr (.inr ⟨a, b, he, hmu, hmv⟩), ?_, ?_⟩
      · rw [h.nameOf_mapped hS hla hmu, ha]
      · rw [h.nameOf_mapped hS hlb hmv, hb]

/-- The source nodes that are mapped to the first node of a name are those of that name. -/
theorem Merged.mapped_iff (hS : S.Wf) (h : Merged T S r g) {s : CgNode} (hs : s ∈ S.liveNodes) {name : String}
    {t : ℕ} (ht : g.firstNamed name = some t) : r.mapping.lookup s.id = some t ↔ s.functionName = name := by
  obtain ⟨n, hn, hname⟩ := h.wf.slot_firstNamed ht
  constructor
  · intro hm
    obtain ⟨t', n', ht', hn', hname'⟩ := h.mapped_some hS (hS.slot_of_mem hs)
    rw [hm] at ht'
    cases ht'
    rw [hn] at hn'
    cases hn'
    rw [← hname', hname]
  · rintro rfl
    rw [h.mapped s hs, ht]

/-- The first node of a name is a node of the target, or the target lacks the name. -/
theorem Merged.first_cases (h : Merged T S r g) {name : String} {t : ℕ} (ht : g.firstNamed name = some t) :
    T.firstNamed name = some t ∨ (T.firstNamed name = none ∧ T.slot t = none) := by
  by_cases hTn : T.getNodesNamed name = []
  · right
    have hnew := h.new_names name hTn
    split_ifs at hnew with hSn
    · obtain ⟨i, hi, hl⟩ := hnew
      rw [firstNamed, hl] at ht
      cases ht
      exact ⟨(T.firstNamed_eq_none_iff name).mpr hTn, slot_of_ge hi⟩
    · rw [firstNamed, hnew] at ht
      cases ht
  · left
    rw [firstNamed, ← h.kept_names name hTn]
    exact ht

theorem Merged.body_view (hS : S.Wf) (h : Merged T S r g) (name : String) :
    g.firstBody name = (T.view.absorb S.sourceView).body name := by
  have hany : ∀ t, g.firstNamed name = some t →
      (S.liveNodes.any fun s => decide (r.mapping.lookup s.id = some t) && s.hasBody) =
        S.liveNodes.any fun s => decide (s.functionName = name) && s.hasBody := by
    intro t ht
    refine any_congr_mem fun s hs => ?_
    rw [decide_eq_decide.mpr (h.mapped_iff hS hs ht)]
  change _ = (T.firstBody name || S.liveNodes.any fun s => decide (s.functionName = name) && s.hasBody)
  cases ht : g.firstNamed name with
  | none =>
    have hno := h.hasName name
    rw [Callgraph.hasName, ht, Option.isSome_none, eq_comm, Bool.or_eq_false_iff] at hno
    have hT' : T.firstNamed name = none := by simpa [Callgraph.hasName] using hno.1
    have hS' : (S.liveNodes.any fun s => decide (s.functionName = name) && s.hasBody) = false := by
      rw [List.any_eq_false]
      intro s hs hc
      simp only [Bool.and_eq_true, decide_eq_true_eq] at hc
      have := (hasName_iff hS name).mpr ⟨s, hs, hc.1⟩
      rw [hno.2] at this
      cases this
    rw [firstBody, ht, firstBody, hT', hS']
    rfl
  | some t =>
    obtain ⟨n, hn, -⟩ := h.wf.slot_firstNamed ht
    have hb := h.body t n hn
    rw [hany t ht] at hb
    have hg : g.firstBody name = n.hasBody := by rw [firstBody, ht, Option.any_some, hn, Option.any_some]
    rw [hg, hb]
    rcases h.first_cases ht with hT' | ⟨hT', hslot⟩
    · rw [firstBody, hT', Option.any_some]
    · rw [firstBody, hT', hslot]
      rfl

/-- One merge, by name. -/
theorem Merged.view (hT : T.Wf) (hS : S.Wf) (h : Merged T S r g) : g.view = T.view.absorb S.sourceView :=
  NameView.ext (funext fun name => h.count_view hS name) (h.calls_view hT hS)
    (funext fun name => h.body_view hS name)

end

/-- A sequence of merges, by name. -/
theorem mergeAll_view {T g : Callgraph} (hT : Target T) {L : List Callgraph} (hL : ∀ S ∈ L, Source S)
    (h : mergeAll mergeByName T L = .ok g) : g.view = (L.map sourceView).foldl NameView.absorb T.view := by
  refine (mergeAll_inv (P := fun pre g => g.view = (pre.map sourceView).foldl NameView.absorb T.view) hT hL rfl
    ?_ h).2
  intro pre S g₁ g₂ r hg₁ hS hM hP
  rw [hM.view hg₁.wf (hL S hS).wf, hP, List.map_append, List.foldl_append]
  rfl

end Callgraph
end MetaCG
