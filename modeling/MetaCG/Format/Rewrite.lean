import MetaCG.Format.RoundTrip
import MetaCG.Format.ReadFile

/-! Reading a written file and writing it again, with numbers as strings.

The reader numbers the nodes in the string order of their numbers, where `10` comes before `2`, and
leaves no gaps. So a file stays the same iff its graph has no gaps and looks the same after this
renumbering, which for at most ten nodes moves nothing. -/
namespace MetaCG
open Foundations Callgraph
set_option autoImplicit false
set_option maxHeartbeats 250000
set_option maxRecDepth 120000

/-! ## Numbers as strings -/

theorem toString_injective : Function.Injective (toString : ℕ → String) := fun _ _ h => toString_nat_injective h

theorem toString_ne_empty (i : ℕ) : toString i ≠ "" := Nat.repr_ne_empty

theorem strInj_numbers {g : Callgraph} (h : g.Wf) : g.StrInj toString :=
  List.Nodup.map toString_injective (h.liveNodes_id_sorted.imp ne_of_lt)

theorem named_numbers {g : Callgraph} (h : g.Wf) : g.Named (g.getStrFromNode false) toString :=
  ⟨fun i hi => by rw [getStrFromNode_eq hi, h.idStr_number hi], strInj_numbers h⟩

theorem write_numbers {g : Callgraph} (h : g.Wf) (hr : g.RefsLive) (info : MCGFileInfo) :
    g.write info false = .ok (document info g toString) := write_eq_of_named h hr (named_numbers h) info

/-! ## Graphs with the same file -/

/-- What is written of metadata. -/
def written (fields : NamedMetadata) (k : String) : Option MetaData :=
  (fields.lookup k).filter fun md => !md.emptyContainer

/-- What is written of a node besides its edges. -/
def writtenNode (n : CgNode) : String × Option String × Bool × (String → Option MetaData) :=
  (n.functionName, n.origin, n.hasBody, written n.metaFields)

/-- The writer makes the same of two graphs without edge metadata. -/
structure WrittenAlike (g r : Callgraph) : Prop where
  node : ∀ i, (g.slot i).map writtenNode = (r.slot i).map writtenNode
  edges : ∀ e, e ∈ g.edges ↔ e ∈ r.edges
  globals : written g.metaFields = written r.metaFields

theorem metaJson_eq_iff {a b : NamedMetadata} (ha : ∀ e ∈ UMap.toPairs a, e.2.getKey = e.1)
    (hb : ∀ e ∈ UMap.toPairs b, e.2.getKey = e.1) : metaJson toString a = metaJson toString b ↔ written a = written b := by
  have hfind : ∀ (fields : NamedMetadata) k,
      Ordered.find k (metaJson toString fields) = (written fields k).map (MetaData.encode toString) := find_metaJson
  have hgetKey : ∀ {fields : NamedMetadata} {k md}, (∀ e ∈ UMap.toPairs fields, e.2.getKey = e.1) →
      written fields k = some md → md.getKey = k := fun hkey hw =>
    hkey _ ((UMap.mem_toPairs _ _ _).mpr (Option.filter_eq_some_iff.mp hw).1)
  constructor
  · intro h
    funext k
    have hk := congrArg (Ordered.find k) h
    rw [hfind, hfind] at hk
    cases hwa : written a k with
    | none =>
      rw [hwa, Option.map_none, eq_comm, Option.map_eq_none_iff] at hk
      exact hk.symm
    | some md =>
      cases hwb : written b k with
      | none =>
        rw [hwa, hwb] at hk
        cases hk
      | some md' =>
        rw [hwa, hwb, Option.map_some, Option.map_some, Option.some.injEq] at hk
        rw [MetaData.encode_injective toString_injective toString_ne_empty ((hgetKey ha hwa).trans (hgetKey hb hwb).symm) hk]
  · intro h
    refine Ordered.ext_find (metaJson_sorted a) (metaJson_sorted b) fun k => ?_
    rw [hfind, hfind, h]

section
variable {g r : Callgraph}

theorem find_nodesJson (h : g.Wf) (edges : List (ℕ × ℕ)) (i : ℕ) :
    Ordered.find (toString i) (g.nodesJson toString edges) =
      (g.slot i).map fun n => Json.ofFields (nodeFields toString n (g.calleesJson toString edges i)) := by
  have hs := strInj_numbers h
  have hkeys : ((g.liveIds.map fun i => (toString i, g.nodeJson toString edges i)).map Prod.fst).Nodup := by
    rw [List.map_map]
    exact hs
  rw [nodesJson, Ordered.find_ofList hkeys]
  cases hn : g.slot i with
  | some n =>
    rw [Ordered.find_map_self hs ((h.mem_liveIds i).mpr (hasNode_of_slot hn)), nodeJson, hn]
    rfl
  | none =>
    rw [Option.map_none, Ordered.find_eq_none_iff, List.map_map]
    intro hmem
    obtain ⟨k, hk, hki⟩ := List.mem_map.mp hmem
    obtain ⟨n, hn'⟩ := (g.hasNode_iff k).mp ((h.mem_liveIds k).mp hk)
    rw [toString_injective hki, hn] at hn'
    cases hn'

theorem originJson_injective {o o' : Option String} (h : originJson o = originJson o') : o = o' := by
  cases o <;> cases o' <;> cases h <;> rfl

theorem nodeFields_inj {n n' : CgNode} {callees callees' : List (String × Json)} :
    Json.ofFields (nodeFields toString n callees) = .ofFields (nodeFields toString n' callees') ↔
      n.functionName = n'.functionName ∧ n.origin = n'.origin ∧ n.hasBody = n'.hasBody ∧ callees = callees' ∧
        metaJson toString n.metaFields = metaJson toString n'.metaFields := by
  constructor
  · intro h
    have hfield : ∀ {k v v'}, Ordered.find k (nodeFields toString n callees) = some v →
        Ordered.find k (nodeFields toString n' callees') = some v' → v = v' := by
      intro k v v' hv hv'
      have hk := congrArg (Json.subscriptMut · k) h
      simp only [Json.subscriptMut_ofFields (nodeFields_nodup n callees) hv,
        Json.subscriptMut_ofFields (nodeFields_nodup n' callees') hv'] at hk
      exact Except.ok.inj hk
    have hname : Json.str n.functionName = .str n'.functionName :=
      hfield (k := "functionName") (by simp [nodeFields, Ordered.find]) (by simp [nodeFields, Ordered.find])
    have horigin : originJson n.origin = originJson n'.origin :=
      hfield (k := "origin") (by simp [nodeFields, Ordered.find]) (by simp [nodeFields, Ordered.find])
    have hbody : Json.bool n.hasBody = .bool n'.hasBody :=
      hfield (k := "hasBody") (by simp [nodeFields, Ordered.find]) (by simp [nodeFields, Ordered.find])
    have hcallees : Json.obj callees = .obj callees' :=
      hfield (k := "callees") (by simp [nodeFields, Ordered.find]) (by simp [nodeFields, Ordered.find])
    have hmeta : Json.obj (metaJson toString n.metaFields) = .obj (metaJson toString n'.metaFields) :=
      hfield (k := "meta") (by simp [nodeFields, Ordered.find]) (by simp [nodeFields, Ordered.find])
    exact ⟨Json.str.inj hname, originJson_injective horigin, Json.bool.inj hbody, Json.obj.inj hcallees, Json.obj.inj hmeta⟩
  · rintro ⟨h₁, h₂, h₃, rfl, h₅⟩
    simp only [nodeFields, h₁, h₂, h₃, h₅]

theorem calleesJson_eq_iff (hg : g.Wf) (hr : r.Wf) (hpg : PlainEdges g) (hpr : PlainEdges r) (u : ℕ) :
    g.calleesJson toString g.edges.keys u = r.calleesJson toString r.edges.keys u ↔
      ∀ v, (u, v) ∈ g.edges ↔ (u, v) ∈ r.edges := by
  have hmem : ∀ {c : Callgraph}, c.Wf → PlainEdges c → ∀ v,
      (toString v, Json.obj []) ∈ c.calleesJson toString c.edges.keys u ↔ (u, v) ∈ c.edges := by
    intro c hc hpc v
    rw [mem_calleesJson_plain hc (strInj_numbers hc) hpc]
    exact ⟨fun ⟨v', hv', he, _⟩ => toString_injective he ▸ hv', fun hv => ⟨v, hv, rfl, rfl⟩⟩
  constructor
  · intro h v
    rw [← hmem hg hpg, ← hmem hr hpr, h]
  · intro h
    refine Ordered.ext_mem (Ordered.sorted_ofList _) (Ordered.sorted_ofList _) fun e => ?_
    change (e.1, e.2) ∈ g.calleesJson toString g.edges.keys u ↔ (e.1, e.2) ∈ r.calleesJson toString r.edges.keys u
    rw [mem_calleesJson_plain hg (strInj_numbers hg) hpg, mem_calleesJson_plain hr (strInj_numbers hr) hpr]
    exact exists_congr fun v => and_congr_left fun _ => h v

/-- Two graphs without edge metadata give one file iff the writer makes the same of them. -/
theorem document_eq_iff (hg : g.Wf) (hr : r.Wf) (hkg : g.MetaKeyed) (hkr : r.MetaKeyed) (hpg : PlainEdges g)
    (hpr : PlainEdges r) (info : MCGGeneratorVersionInfo) :
    g.document (.four info) toString = r.document (.four info) toString ↔ WrittenAlike g r := by
  have hnode : ∀ i, Ordered.find (toString i) (g.nodesJson toString g.edges.keys) =
      Ordered.find (toString i) (r.nodesJson toString r.edges.keys) ↔
        (g.slot i).map writtenNode = (r.slot i).map writtenNode ∧ ∀ v, (i, v) ∈ g.edges ↔ (i, v) ∈ r.edges := by
    intro i
    rw [find_nodesJson hg, find_nodesJson hr]
    cases hn : g.slot i with
    | none =>
      cases hn' : r.slot i with
      | none =>
        refine iff_of_true rfl ⟨rfl, fun v => iff_of_false (fun he => ?_) fun he => ?_⟩
        · have hlive := (hg.edge_live i v he).1
          rw [Callgraph.hasNode, hn] at hlive
          cases hlive
        · have hlive := (hr.edge_live i v he).1
          rw [Callgraph.hasNode, hn'] at hlive
          cases hlive
      | some n' => exact iff_of_false (fun h => by cases h) fun h => by cases h.1
    | some n =>
      cases hn' : r.slot i with
      | none => exact iff_of_false (fun h => by cases h) fun h => by cases h.1
      | some n' =>
        have hmeta := metaJson_eq_iff (hkg.node n ((g.mem_liveNodes n).mpr ⟨i, hn⟩))
          (hkr.node n' ((r.mem_liveNodes n').mpr ⟨i, hn'⟩))
        rw [Option.map_some, Option.map_some, Option.some.injEq, nodeFields_inj, calleesJson_eq_iff hg hr hpg hpr, hmeta,
          Option.map_some, Option.map_some, Option.some.injEq, writtenNode, writtenNode, Prod.mk.injEq, Prod.mk.injEq,
          Prod.mk.injEq]
        tauto
  have hsplit : g.document (.four info) toString = r.document (.four info) toString ↔
      metaJson toString g.metaFields = metaJson toString r.metaFields ∧
        g.nodesJson toString g.edges.keys = r.nodesJson toString r.edges.keys := by
    constructor
    · intro h
      have hcg := congrArg (Json.subscriptMut · "_CG") h
      simp only [(document_subscriptMut info (g := g) toString).1, (document_subscriptMut info (g := r) toString).1] at hcg
      have hfields := Json.obj.inj (Except.ok.inj hcg)
      have hm := congrArg (Ordered.find "meta") hfields
      have hn := congrArg (Ordered.find "nodes") hfields
      rw [Ordered.find_insert, Ordered.find_insert, if_pos rfl, if_pos rfl] at hm
      rw [Ordered.find_insert, Ordered.find_insert, if_neg (by decide), if_neg (by decide), Ordered.find_same,
        Ordered.find_same] at hn
      exact ⟨Json.obj.inj (Option.some.inj hm), Json.obj.inj (Option.some.inj hn)⟩
    · rintro ⟨h₁, h₂⟩
      rw [document, document, h₁, h₂]
  rw [hsplit, metaJson_eq_iff hkg.global hkr.global]
  constructor
  · rintro ⟨hmeta, hnodes⟩
    have hall := fun i => (hnode i).mp (congrArg _ hnodes)
    exact ⟨fun i => (hall i).1, fun e => (hall e.1).2 e.2, hmeta⟩
  · intro h
    refine ⟨h.globals, Ordered.ext_find (Ordered.sorted_ofList _) (Ordered.sorted_ofList _) fun k => ?_⟩
    by_cases hk : ∃ i : ℕ, toString i = k
    · obtain ⟨i, rfl⟩ := hk
      exact (hnode i).mpr ⟨h.node i, fun v => h.edges (i, v)⟩
    · have hnone : ∀ c : Callgraph, Ordered.find k (c.nodesJson toString c.edges.keys) = none := by
        intro c
        rw [Ordered.find_eq_none_iff, nodesJson, Ordered.mem_keys_ofList, List.map_map]
        intro hmem
        obtain ⟨i, -, hi⟩ := List.mem_map.mp hmem
        exact hk ⟨i, hi⟩
      rw [hnone, hnone]

end

/-! ## Renumbering -/

/-- The place of `i` among the numbers below `count` in the order of their strings. -/
def decimalPlace (count i : ℕ) : ℕ := (Ordered.sortBy (toString : ℕ → String) (List.range count)).idxOf i

/-- The ids of the nodes are the first numbers. -/
def Gapless (g : Callgraph) : Prop := ∀ i, g.hasNode i = true ↔ i < g.liveNodes.length

instance (g : Callgraph) : Decidable (Gapless g) :=
  decidable_of_iff (∀ i < max g.nodes.length g.liveNodes.length, g.hasNode i = true ↔ i < g.liveNodes.length)
    ⟨fun h i => by
      by_cases hi : i < max g.nodes.length g.liveNodes.length
      · exact h i hi
      · exact iff_of_false (fun hn => hi (lt_max_of_lt_left (hasNode_lt hn))) fun hl => hi (lt_max_of_lt_right hl),
    fun h i _ => h i⟩

/-- As far as it is written, the graph looks the same when its nodes are renumbered by `f`. -/
structure SymmetricUnder (g : Callgraph) (f : ℕ → ℕ) : Prop where
  node : ∀ i n, g.slot i = some n → ∃ n', g.slot (f i) = some n' ∧ n'.functionName = n.functionName ∧
    n'.origin = n.origin ∧ n'.hasBody = n.hasBody ∧ written n'.metaFields = carried f n.metaFields
  edges : ∀ u v, g.hasNode u = true → g.hasNode v = true → ((f u, f v) ∈ g.edges ↔ (u, v) ∈ g.edges)
  globals : written g.metaFields = carried f g.metaFields

section
variable {g r : Callgraph}

theorem liveIds_nodup (h : g.Wf) : g.liveIds.Nodup := h.liveNodes_id_sorted.imp ne_of_lt

theorem fileOrder_length (h : g.Wf) : (g.fileOrder toString).length = g.liveNodes.length := by
  have hs := strInj_numbers h
  have hperm : (g.fileOrder toString).Perm g.liveIds :=
    (List.perm_ext_iff_of_nodup hs.fileOrder_nodup (liveIds_nodup h)).mpr (Ordered.mem_sortBy hs)
  rw [hperm.length_eq, liveIds, List.length_map]

/-- Without gaps the reader numbers the nodes in the order of their strings. -/
theorem readId_eq (h : g.Wf) (hgap : Gapless g) : g.readId toString = decimalPlace g.liveNodes.length := by
  have hperm : g.liveIds.Perm (List.range g.liveNodes.length) :=
    (List.perm_ext_iff_of_nodup (liveIds_nodup h) List.nodup_range).mpr fun i => by
      rw [h.mem_liveIds, hgap, List.mem_range]
  have hids : g.liveIds = List.range g.liveNodes.length :=
    hperm.eq_of_pairwise (fun a b _ _ hab hba => absurd (lt_trans hab hba) (lt_irrefl _)) h.liveNodes_id_sorted
      List.pairwise_lt_range
  funext i
  rw [readId, fileOrder, hids, decimalPlace]

theorem decimalPlace_eq_self {count i : ℕ} (hcount : count ≤ 10) (hi : i < count) : decimalPlace count i = i := by
  have hsorted : ∀ n < 11, Ordered.sortBy (toString : ℕ → String) (List.range n) = List.range n := by decide
  have hidx := List.nodup_range.idxOf_getElem i (by rw [List.length_range]; exact hi : i < (List.range count).length)
  rw [List.getElem_range] at hidx
  rw [decimalPlace, hsorted count (by omega), hidx]

/-- At most ten nodes are not moved. -/
theorem symmetricUnder_of_le (hrefs : g.RefsLive) (hgap : Gapless g) (hcount : g.liveNodes.length ≤ 10) :
    SymmetricUnder g (decimalPlace g.liveNodes.length) := by
  have hplace : ∀ {i}, g.hasNode i = true → decimalPlace g.liveNodes.length i = i := fun hi =>
    decimalPlace_eq_self hcount ((hgap _).mp hi)
  have hsame : ∀ {fields : NamedMetadata}, (∀ e ∈ UMap.toPairs fields, ∀ i ∈ e.2.refs, g.hasNode i = true) →
      written fields = carried (decimalPlace g.liveNodes.length) fields := by
    intro fields hlive
    funext k
    change written fields k = (written fields k).map _
    cases hw : written fields k with
    | none => rfl
    | some md =>
      have hmem := (UMap.mem_toPairs k md fields).mpr (Option.filter_eq_some_iff.mp hw).1
      rw [Option.map_some, MetaData.rename_of_refs fun i hi => hplace (hlive _ hmem i hi)]
  exact {
    node := fun i n hn => ⟨n, by rw [hplace (hasNode_of_slot hn), hn], rfl, rfl, rfl,
      hsame (hrefs.node n ((g.mem_liveNodes n).mpr ⟨i, hn⟩))⟩
    edges := fun u v hu hv => by rw [hplace hu, hplace hv]
    globals := hsame hrefs.global }

/-! ## What is read back -/

theorem written_of_carried {f : ℕ → ℕ} {fields fields' : NamedMetadata} (h : ∀ k, fields'.lookup k = carried f fields k) :
    written fields' = carried f fields := by
  funext k
  rw [written, h]
  cases hc : carried f fields k with
  | none => rfl
  | some md =>
    obtain ⟨md', hmd', rfl⟩ := Option.map_eq_some_iff.mp hc
    rw [Option.filter_some, MetaData.emptyContainer_rename, if_pos (Option.filter_eq_some_iff.mp hmd').2]

theorem ReadBack.hasNode_iff (h : g.Wf) (hr : ReadBack g toString r) (i : ℕ) :
    r.hasNode i = true ↔ i < g.liveNodes.length := by
  rw [← fileOrder_length h]
  constructor
  · intro hi
    rw [← hr.data.length]
    exact hasNode_lt hi
  · intro hi
    obtain ⟨k, hk, rfl⟩ := readId_onto h (strInj_numbers h) hi
    exact hr.data.hasNode hk

theorem ReadBack.node (h : g.Wf) (hr : ReadBack g toString r) {i : ℕ} {n : CgNode} (hn : g.slot i = some n) :
    ∃ n', r.slot (g.readId toString i) = some n' ∧ n'.functionName = n.functionName ∧ n'.origin = n.origin ∧
      n'.hasBody = n.hasBody ∧ ∀ k, n'.metaFields.lookup k = carried (g.readId toString) n.metaFields k :=
  (hr.isomorphic h (strInj_numbers h)).node i n hn

theorem ReadBack.slot_onto (h : g.Wf) (hr : ReadBack g toString r) {k : ℕ} {n' : CgNode} (hn' : r.slot k = some n') :
    ∃ i n, g.slot i = some n ∧ g.readId toString i = k ∧ n'.functionName = n.functionName ∧ n'.origin = n.origin ∧
      n'.hasBody = n.hasBody ∧ ∀ key, n'.metaFields.lookup key = carried (g.readId toString) n.metaFields key := by
  obtain ⟨i, hi, rfl⟩ := (hr.isomorphic h (strInj_numbers h)).onto k (hasNode_of_slot hn')
  obtain ⟨n, hn⟩ := (g.hasNode_iff i).mp hi
  obtain ⟨m, hm, hlike⟩ := hr.node h hn
  rw [hm] at hn'
  cases hn'
  exact ⟨i, n, hn, rfl, hlike⟩

theorem ReadBack.wf (hr : ReadBack g toString r) : r.Wf := hr.data.wf.withMeta r.metaFields

theorem ReadBack.plain (hr : ReadBack g toString r) : PlainEdges r := fun e => hr.data.plain e

theorem carried_spec {f : ℕ → ℕ} {fields : NamedMetadata} {k : String} {md : MetaData} (h : carried f fields k = some md) :
    ∃ own, (k, own) ∈ UMap.toPairs fields ∧ md = own.rename f := by
  obtain ⟨own, hown, rfl⟩ := Option.map_eq_some_iff.mp h
  exact ⟨own, (UMap.mem_toPairs k own fields).mpr (Option.filter_eq_some_iff.mp hown).1, rfl⟩

theorem ReadBack.metaKeyed (h : g.Wf) (hkey : g.MetaKeyed) (hr : ReadBack g toString r) : r.MetaKeyed := by
  have hkeyed : ∀ {fields fields' : NamedMetadata}, (∀ e ∈ UMap.toPairs fields, e.2.getKey = e.1) →
      (∀ k, fields'.lookup k = carried (g.readId toString) fields k) → ∀ e ∈ UMap.toPairs fields', e.2.getKey = e.1 := by
    intro fields fields' hk hlookup e he
    have hl := (UMap.mem_toPairs e.1 e.2 fields').mp he
    rw [hlookup] at hl
    obtain ⟨own, hown, hmd⟩ := carried_spec hl
    rw [hmd, MetaData.getKey_rename]
    exact hk _ hown
  refine ⟨fun n' hn' => ?_, hkeyed hkey.global hr.globals⟩
  obtain ⟨k, hk⟩ := (r.mem_liveNodes n').mp hn'
  obtain ⟨i, n, hn, -, -, -, -, hlookup⟩ := hr.slot_onto h hk
  exact hkeyed (hkey.node n ((g.mem_liveNodes n).mpr ⟨i, hn⟩)) hlookup

theorem ReadBack.refsLive (h : g.Wf) (hrefs : g.RefsLive) (hr : ReadBack g toString r) : r.RefsLive := by
  have hlive : ∀ {fields fields' : NamedMetadata}, (∀ e ∈ UMap.toPairs fields, ∀ i ∈ e.2.refs, g.hasNode i = true) →
      (∀ k, fields'.lookup k = carried (g.readId toString) fields k) →
        ∀ e ∈ UMap.toPairs fields', ∀ i ∈ e.2.refs, r.hasNode i = true := by
    intro fields fields' hl hlookup e he i hi
    have he' := (UMap.mem_toPairs e.1 e.2 fields').mp he
    rw [hlookup] at he'
    obtain ⟨own, hown, hmd⟩ := carried_spec he'
    rw [hmd, MetaData.refs_rename] at hi
    obtain ⟨i', hi', rfl⟩ := List.mem_map.mp hi
    exact hr.data.hasNode (hl _ hown i' hi')
  refine ⟨fun n' hn' => ?_, fun p hp => ?_, hlive hrefs.global hr.globals⟩
  · obtain ⟨k, hk⟩ := (r.mem_liveNodes n').mp hn'
    obtain ⟨i, n, hn, -, -, -, -, hlookup⟩ := hr.slot_onto h hk
    exact hlive (hrefs.node n ((g.mem_liveNodes n).mpr ⟨i, hn⟩)) hlookup
  · rw [(plainEdges_iff r).mp hr.plain p hp]
    exact fun e he => absurd he List.not_mem_nil

/-- What is read back makes the same file iff the graph has no gaps and looks the same renumbered. -/
theorem ReadBack.writtenAlike_iff (h : g.Wf) (hr : ReadBack g toString r) :
    WrittenAlike g r ↔ Gapless g ∧ SymmetricUnder g (g.readId toString) := by
  have hiso := hr.isomorphic h (strInj_numbers h)
  have hnode : ∀ {i n}, g.slot i = some n → (r.slot (g.readId toString i)).map writtenNode =
      some (n.functionName, n.origin, n.hasBody, carried (g.readId toString) n.metaFields) := by
    intro i n hn
    obtain ⟨n', hn', h₁, h₂, h₃, h₄⟩ := hr.node h hn
    rw [hn', Option.map_some, writtenNode, h₁, h₂, h₃, written_of_carried h₄]
  have hglobals := written_of_carried hr.globals
  constructor
  · intro halike
    refine ⟨fun i => ?_, ⟨fun i n hn => ?_, fun u v hu hv => ?_, ?_⟩⟩
    · rw [← hr.hasNode_iff h, Callgraph.hasNode, Callgraph.hasNode, ← Option.isSome_map (f := writtenNode), halike.node,
        Option.isSome_map]
    · have hwritten := halike.node (g.readId toString i)
      rw [hnode hn] at hwritten
      obtain ⟨n', hn', he⟩ := Option.map_eq_some_iff.mp hwritten
      rw [writtenNode, Prod.mk.injEq, Prod.mk.injEq, Prod.mk.injEq] at he
      exact ⟨n', hn', he⟩
    · rw [halike.edges, hiso.edges u v hu hv]
    · rw [halike.globals, hglobals]
  · rintro ⟨hgap, hsym⟩
    have honto : ∀ {k}, g.hasNode k = true → ∃ i, g.hasNode i = true ∧ g.readId toString i = k := fun hk =>
      hiso.onto _ ((hr.hasNode_iff h _).mpr ((hgap _).mp hk))
    have hsame : ∀ k, g.hasNode k = r.hasNode k := fun k =>
      Bool.eq_iff_iff.mpr ((hgap k).trans (hr.hasNode_iff h k).symm)
    refine ⟨fun k => ?_, fun e => ?_, hsym.globals.trans hglobals.symm⟩
    · cases hk : g.hasNode k with
      | true =>
        obtain ⟨i, hi, rfl⟩ := honto hk
        obtain ⟨n, hn⟩ := (g.hasNode_iff i).mp hi
        obtain ⟨n', hn', h₁, h₂, h₃, h₄⟩ := hsym.node i n hn
        rw [hnode hn, hn', Option.map_some, writtenNode, h₁, h₂, h₃, h₄]
      | false =>
        have hg : g.slot k = none := by simpa [Callgraph.hasNode] using hk
        rw [hsame] at hk
        have hr' : r.slot k = none := by simpa [Callgraph.hasNode] using hk
        rw [hg, hr']
    · obtain ⟨x, y⟩ := e
      have hends : g.hasNode x = true → g.hasNode y = true → ((x, y) ∈ g.edges ↔ (x, y) ∈ r.edges) := by
        intro hx hy
        obtain ⟨u, hu, rfl⟩ := honto hx
        obtain ⟨v, hv, rfl⟩ := honto hy
        rw [hsym.edges u v hu hv, hiso.edges u v hu hv]
      constructor
      · intro he
        obtain ⟨hx, hy⟩ := h.edge_live x y he
        exact (hends hx hy).mp he
      · intro he
        obtain ⟨hx, hy⟩ := hr.wf.edge_live x y he
        rw [← hsame] at hx hy
        exact (hends hx hy).mpr he

/-! ## Edge metadata does not come back -/

theorem nodesOf_document (info : MCGGeneratorVersionInfo) :
    nodesOf (g.document (.four info) toString) = g.nodesJson toString g.edges.keys := by
  rw [nodesOf, (document_subscriptMut info (g := g) toString).1, ok_bind, Json.subscriptMut, Ordered.find_insert,
    if_neg (by decide), Ordered.find_same]
  rfl

theorem calleesOf_nodeJson {u : ℕ} {n : CgNode} (hn : g.slot u = some n) :
    calleesOf (g.nodeJson toString g.edges.keys u) = g.calleesJson toString g.edges.keys u := by
  have hcallees : (g.nodeJson toString g.edges.keys u).subscriptMut "callees" =
      .ok (.obj (g.calleesJson toString g.edges.keys u)) := nodeJson_subscriptMut hn (by simp [nodeFields, Ordered.find])
  rw [calleesOf, hcallees]
  rfl

theorem mem_keys_edgeMetaJson (fields : NamedMetadata) (key : String) :
    key ∈ (edgeMetaJson toString fields).map Prod.fst ↔ key ∈ fields := by
  rw [edgeMetaJson, Ordered.mem_keys_ofList, List.map_map, AList.mem_keys, ← UMap.toPairs_keys]
  rfl

/-- A written file lists the keys of the edge metadata. -/
theorem edgeKeyListed_document (h : g.Wf) (info : MCGGeneratorVersionInfo) (caller callee key : String) :
    EdgeKeyListed (g.document (.four info) toString) caller callee key ↔
      ∃ u v, toString u = caller ∧ toString v = callee ∧ key ∈ g.edgeMeta (u, v) := by
  have hs := strInj_numbers h
  constructor
  · rintro ⟨jNode, jEdge, value, hnode, hedge, hkey⟩
    rw [nodesOf_document, nodesJson_eq hs] at hnode
    obtain ⟨u, hu, he⟩ := List.mem_map.mp hnode
    obtain ⟨rfl, rfl⟩ := Prod.mk.inj he
    obtain ⟨n, hn⟩ := (g.hasNode_iff u).mp ((h.mem_fileOrder hs u).mp hu)
    rw [calleesOf_nodeJson hn, mem_calleesJson h hs] at hedge
    obtain ⟨v, -, rfl, rfl⟩ := hedge
    exact ⟨u, v, rfl, rfl, (mem_keys_edgeMetaJson _ key).mp (List.mem_map.mpr ⟨(key, value), hkey, rfl⟩)⟩
  · rintro ⟨u, v, rfl, rfl, hkey⟩
    have hmem : (u, v) ∈ g.edges := by
      by_contra hno
      rw [edgeMeta_of_notMem hno] at hkey
      exact AList.notMem_empty key hkey
    obtain ⟨n, hn⟩ := (g.hasNode_iff u).mp (h.edge_live u v hmem).1
    obtain ⟨⟨_, value⟩, hvalue, rfl⟩ := List.mem_map.mp ((mem_keys_edgeMetaJson _ key).mpr hkey)
    refine ⟨g.nodeJson toString g.edges.keys u, .obj (edgeMetaJson toString (g.edgeMeta (u, v))), value, ?_, ?_, hvalue⟩
    · rw [nodesOf_document, nodesJson_eq hs]
      exact List.mem_map.mpr ⟨u, (h.mem_fileOrder hs u).mpr (hasNode_of_slot hn), rfl⟩
    · rw [calleesOf_nodeJson hn, mem_calleesJson h hs]
      exact ⟨v, hmem, rfl, rfl⟩

/-- A file that comes back as it was lists no edge metadata. -/
theorem plainEdges_of_same (hg : g.Wf) {info : MCGGeneratorVersionInfo} (hfile : FileRead (g.document (.four info) toString) r)
    (hsame : g.document (.four info) toString = r.document (.four info) toString) : PlainEdges g := by
  have hlisted : ∀ {caller callee key}, EdgeKeyListed (g.document (.four info) toString) caller callee key →
      key = MetaData.baseKey ∧ CreatesEdgeMeta (g.document (.four info) toString) := by
    intro caller callee key hkey
    rw [hsame] at hkey
    obtain ⟨u, v, -, -, hmem⟩ := (edgeKeyListed_document hfile.wf info _ _ _).mp hkey
    exact hfile.keys (u, v) key hmem
  intro ids
  by_contra hne
  obtain ⟨key, hkey⟩ : ∃ key, key ∈ g.edgeMeta ids := by
    by_contra hnone
    refine hne (AList.ext (List.eq_nil_iff_forall_not_mem.mpr fun e he => hnone ⟨e.1, ?_⟩))
    exact List.mem_map.mpr ⟨e, he, rfl⟩
  obtain ⟨-, caller, callee, key', hkey', hreg⟩ :=
    hlisted ((edgeKeyListed_document hg info _ _ key).mpr ⟨ids.1, ids.2, rfl, rfl, hkey⟩)
  rw [(hlisted hkey').1] at hreg
  exact absurd hreg (by decide)

/-! ## Reading and writing again -/

/-- The file of a graph stays the same when it is read and written again, iff no edge has metadata, the ids
have no gaps, and there are at most ten nodes or the graph looks the same in the string order of its ids. -/
theorem rewrite_iff (h : g.Wf) (hkey : g.MetaKeyed) (info : MCGGeneratorVersionInfo) :
    (∀ j, g.write (.four info) false = .ok j → ∃ r, read j = .ok r ∧ r.write (.four info) false = .ok j) ↔
      (g.RefsLive → PlainEdges g ∧ Gapless g ∧
        (g.liveNodes.length ≤ 10 ∨ SymmetricUnder g (decimalPlace g.liveNodes.length))) := by
  have hs := strInj_numbers h
  constructor
  · intro hsame hrefs
    obtain ⟨r, hread, hwrite⟩ := hsame _ (write_numbers h hrefs (.four info))
    have hfile := read_fileRead hread
    rw [write_numbers hfile.wf (hfile.wf.refsLive_of_write hwrite)] at hwrite
    have hdoc := (Except.ok.inj hwrite).symm
    have hp := plainEdges_of_same h hfile hdoc
    obtain ⟨r', hread', hback⟩ := read_document h hs (fun i _ => toString_ne_empty i) hp hkey hrefs info
    rw [hread'] at hread
    cases hread
    have halike := (document_eq_iff h hfile.wf hkey (hback.metaKeyed h hkey) hp hback.plain info).mp hdoc
    obtain ⟨hgap, hsym⟩ := (hback.writtenAlike_iff h).mp halike
    rw [readId_eq h hgap] at hsym
    exact ⟨hp, hgap, .inr hsym⟩
  · intro hcond j hwrite
    have hrefs := h.refsLive_of_write hwrite
    obtain ⟨hp, hgap, hplace⟩ := hcond hrefs
    have hsym : SymmetricUnder g (g.readId toString) := by
      rw [readId_eq h hgap]
      exact hplace.elim (symmetricUnder_of_le hrefs hgap) id
    obtain ⟨r, hread, hback⟩ := read_document h hs (fun i _ => toString_ne_empty i) hp hkey hrefs info
    have halike := (hback.writtenAlike_iff h).mpr ⟨hgap, hsym⟩
    have hdoc := (document_eq_iff h hback.wf hkey (hback.metaKeyed h hkey) hp hback.plain info).mpr halike
    rw [write_numbers h hrefs] at hwrite
    cases hwrite
    exact ⟨r, hread, by rw [write_numbers hback.wf (hback.refsLive h hrefs), hdoc]⟩

end

/-- The last of three functions is erased. -/
def lastErased : Callgraph := run 0 [.insert "f" none false true, .insert "g" (some "g.cpp") false false,
  .insert "h" none false false, .addEdge 0 1, .addNodeMetaData 1 (.override ⟨[0], []⟩),
  .addMetaData (.entryFunction ⟨some 0⟩), .erase 2]

theorem rewrite_lastErased : ∃ j r, lastErased.write (.four ⟨"MetaCG", 0, 9, ""⟩) false = .ok j ∧ read j = .ok r ∧
    r.write (.four ⟨"MetaCG", 0, 9, ""⟩) false = .ok j := by
  obtain ⟨j, hj⟩ := (run_wf 0 _ : lastErased.Wf).write_ok (by decide) (.four ⟨"MetaCG", 0, 9, ""⟩) false
  obtain ⟨r, hread, hwrite⟩ := (rewrite_iff (run_wf 0 _ : lastErased.Wf) (by decide) ⟨"MetaCG", 0, 9, ""⟩).mpr
    (fun _ => ⟨by decide, by decide, .inl (by decide)⟩) j hj
  exact ⟨j, r, hj, hread, hwrite⟩

/-- The first of two functions is erased. -/
def firstErased : Callgraph := run 0 [.insert "f" none false true, .insert "g" none false true, .erase 0]

/-- The node `1` of the file becomes node `0`. -/
theorem rewrite_firstErased : firstErased.Wf ∧ firstErased.MetaKeyed ∧ firstErased.RefsLive ∧
    ∃ j, firstErased.write (.four ⟨"MetaCG", 0, 9, ""⟩) false = .ok j ∧
      ¬ ∃ r, read j = .ok r ∧ r.write (.four ⟨"MetaCG", 0, 9, ""⟩) false = .ok j := by
  have hrun : ∃ j r j', firstErased.write (.four ⟨"MetaCG", 0, 9, ""⟩) false = .ok j ∧ read j = .ok r ∧
      r.write (.four ⟨"MetaCG", 0, 9, ""⟩) false = .ok j' ∧ (nodesOf j).map Prod.fst = ["1"] ∧
        (nodesOf j').map Prod.fst = ["0"] := ⟨_, _, _, rfl, rfl, rfl, rfl, rfl⟩
  obtain ⟨j, r, j', hj, hread, hj', hkeys, hkeys'⟩ := hrun
  refine ⟨run_wf 0 _, by decide, by decide, j, hj, ?_⟩
  rintro ⟨r', hread', hwrite⟩
  rw [hread] at hread'
  cases hread'
  rw [hj'] at hwrite
  cases hwrite
  rw [hkeys] at hkeys'
  exact absurd hkeys' (by decide)

end MetaCG
