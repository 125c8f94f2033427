import MetaCG.Format.RoundTrip
import MetaCG.Format.VersionTwoDocument

/-! A file of version 2 is consistent: callers and callees mirror each other, flags agree with the lists
they are about, and every name in a list is the key of a node. -/
namespace MetaCG.VersionTwo
open Foundations Callgraph
set_option autoImplicit false
set_option maxHeartbeats 250000
set_option maxRecDepth 120000

def stringsAt (j : Json) (key : String) : Except Exn (List String) := do (← j.at_ key).getStrings

/-- `y` is in the list that the node `x` has under `key`. -/
def Lists (fields : List (String × Json)) (key x y : String) : Prop :=
  ∃ node names, Ordered.find x fields = some node ∧ stringsAt node key = .ok names ∧ y ∈ names

/-- The nodes of a file stand for those of `g`, and what is written about them fits together. -/
structure Consistent (g : Callgraph) (nodeKey : ℕ → String) (fields : List (String × Json)) : Prop where
  keys_nodup : (fields.map Prod.fst).Nodup
  nodeKey_inj : ∀ i k, g.hasNode i = true → g.hasNode k = true → nodeKey i = nodeKey k → i = k
  mem_keys : ∀ s, s ∈ fields.map Prod.fst ↔ ∃ i, g.hasNode i = true ∧ nodeKey i = s
  callees : ∀ u v, g.hasNode u = true → g.hasNode v = true →
    (Lists fields "callees" (nodeKey u) (nodeKey v) ↔ (u, v) ∈ g.edges)
  callers : ∀ x y, Lists fields "callees" x y ↔ Lists fields "callers" y x
  once : ∀ e ∈ fields, ∀ key ∈ ["callees", "callers"], ∃ names, stringsAt e.2 key = .ok names ∧ names.Nodup
  isVirtual : ∀ i n, g.slot i = some n → ∃ node, Ordered.find (nodeKey i) fields = some node ∧
    node.at_ "isVirtual" = .ok (.bool (n.metaFields.lookup "overrideMD").isSome)
  doesOverride : ∀ e ∈ fields, ∃ names, stringsAt e.2 "overrides" = .ok names ∧
    e.2.at_ "doesOverride" = .ok (.bool !names.isEmpty)
  closed : ∀ key ∈ ["callees", "callers", "overrides", "overriddenBy"], ∀ x y, Lists fields key x y →
    y ∈ fields.map Prod.fst

theorem getStrings_strings (names : List String) : (strings names).getStrings = .ok names := by
  rw [strings, Json.getStrings, List.mapM_map]
  exact (mapM_eq_map (h := id) fun s _ => rfl).trans (by rw [List.map_id])

section
variable (e : NodeEntry)

theorem NodeEntry.stringsAt_callees : stringsAt e.toJson "callees" = .ok e.callees := by
  rw [NodeEntry.toJson, stringsAt, Json.at_, Ordered.find_same]
  exact getStrings_strings _

theorem NodeEntry.stringsAt_callers : stringsAt e.toJson "callers" = .ok e.callers := by
  simp (disch := decide) only [NodeEntry.toJson, stringsAt, Json.at_, Ordered.find_other, Ordered.find_same]
  exact getStrings_strings _

theorem NodeEntry.stringsAt_overrides : stringsAt e.toJson "overrides" = .ok e.overrides := by
  simp (disch := decide) only [NodeEntry.toJson, stringsAt, Json.at_, Ordered.find_other, Ordered.find_same]
  exact getStrings_strings _

theorem NodeEntry.stringsAt_overriddenBy : stringsAt e.toJson "overriddenBy" = .ok e.overriddenBy := by
  simp (disch := decide) only [NodeEntry.toJson, stringsAt, Json.at_, Ordered.find_other, Ordered.find_same]
  exact getStrings_strings _

theorem NodeEntry.at_isVirtual : e.toJson.at_ "isVirtual" = .ok (.bool e.isVirtual) := by
  simp (disch := decide) only [NodeEntry.toJson, Json.at_, Ordered.find_other, Ordered.find_same]

theorem NodeEntry.at_doesOverride : e.toJson.at_ "doesOverride" = .ok (.bool !e.overrides.isEmpty) := by
  simp (disch := decide) only [NodeEntry.toJson, Json.at_, Ordered.find_other, Ordered.find_same]

end

section
variable {g : Callgraph} {str : ℕ → String}

theorem mem_entriesJson (h : g.Wf) (hs : g.StrInj str) (callers : ℕ → List String) (x : String) (node : Json) :
    (x, node) ∈ entriesJson g str callers ↔
      ∃ i n, g.slot i = some n ∧ str i = x ∧ (nodeEntry str n (calleeNames g str i) (callers i)).toJson = node := by
  rw [entriesJson_eq hs, List.mem_map]
  constructor
  · rintro ⟨i, hi, he⟩
    obtain ⟨n, hn⟩ := (g.hasNode_iff i).mp ((h.mem_fileOrder hs i).mp hi)
    rw [entryJson, hn] at he
    exact ⟨i, n, hn, congrArg Prod.fst he, congrArg Prod.snd he⟩
  · rintro ⟨i, n, hn, rfl, rfl⟩
    exact ⟨i, (h.mem_fileOrder hs i).mpr (hasNode_of_slot hn), by rw [entryJson, hn]⟩

/-- A list of the entry of `x`, through the node that `x` stands for. -/
theorem lists_iff (h : g.Wf) (hs : g.StrInj str) (callers : ℕ → List String) {key : String} {names : NodeEntry → List String}
    (hkey : ∀ e : NodeEntry, stringsAt e.toJson key = .ok (names e)) (x y : String) :
    Lists (entriesJson g str callers) key x y ↔
      ∃ i n, g.slot i = some n ∧ str i = x ∧ y ∈ names (nodeEntry str n (calleeNames g str i) (callers i)) := by
  have hsorted : Ordered.Sorted (entriesJson g str callers) := Ordered.sorted_ofList _
  constructor
  · rintro ⟨node, l, hfind, hl, hy⟩
    obtain ⟨i, n, hn, hx, rfl⟩ := (mem_entriesJson h hs callers x node).mp (Ordered.mem_of_find hfind)
    rw [hkey] at hl
    cases hl
    exact ⟨i, n, hn, hx, hy⟩
  · rintro ⟨i, n, hn, rfl, hy⟩
    exact ⟨_, _, find_entriesJson h hs callers hn, hkey _, hy⟩

theorem isSome_overrideOf {n : CgNode} (hkey : ∀ e ∈ UMap.toPairs n.metaFields, e.2.getKey = e.1) :
    (overrideOf n).isSome = (n.metaFields.lookup "overrideMD").isSome := by
  rw [overrideOf]
  cases hl : n.metaFields.lookup "overrideMD" with
  | none => rfl
  | some md =>
    have hk := getKey_of_lookup hkey hl
    cases md with
    | override md => rfl
    | _ => simp [MetaData.getKey] at hk

/-- The references of an override are live nodes. -/
theorem refs_of_overrideOf (hr : g.RefsLive) {i : ℕ} {n : CgNode} (hn : g.slot i = some n) {md : OverrideMD}
    (ho : overrideOf n = some md) : ∀ k ∈ md.overrides ++ md.overriddenBy, g.hasNode k = true := by
  have hl : n.metaFields.lookup "overrideMD" = some (.override md) := by
    rw [overrideOf] at ho
    split at ho
    · cases ho
      assumption
    · cases ho
  intro k hk
  exact hr.node n ((g.mem_liveNodes n).mpr ⟨i, hn⟩) ("overrideMD", .override md) ((UMap.mem_toPairs _ _ _).mpr hl) k hk

/-- The callees that are written are those of the edges. -/
theorem lists_callees_iff (h : g.Wf) (hs : g.StrInj str) (x y : String) :
    Lists (entriesJson g str (callerNames g str (g.fileOrder str))) "callees" x y ↔
      ∃ u v, (u, v) ∈ g.edges ∧ str u = x ∧ str v = y := by
  rw [lists_iff h hs _ NodeEntry.stringsAt_callees]
  constructor
  · rintro ⟨u, n, -, hx, hy⟩
    obtain ⟨v, hv, rfl⟩ := (mem_calleeNames u y).mp hy
    exact ⟨u, v, hv, hx, rfl⟩
  · rintro ⟨u, v, he, rfl, rfl⟩
    obtain ⟨n, hn⟩ := (g.hasNode_iff u).mp (h.edge_live u v he).1
    exact ⟨u, n, hn, rfl, (mem_calleeNames u _).mpr ⟨v, he, rfl⟩⟩

theorem lists_callers_iff (h : g.Wf) (hs : g.StrInj str) (x y : String) :
    Lists (entriesJson g str (callerNames g str (g.fileOrder str))) "callers" y x ↔
      ∃ u v, (u, v) ∈ g.edges ∧ str u = x ∧ str v = y := by
  rw [lists_iff h hs _ NodeEntry.stringsAt_callers]
  constructor
  · rintro ⟨v, n, -, hy, hx⟩
    obtain ⟨u, -, he, rfl⟩ := (mem_callerNames (g.fileOrder str) v x).mp hx
    exact ⟨u, v, he, rfl, hy⟩
  · rintro ⟨u, v, he, rfl, rfl⟩
    obtain ⟨hu, hv⟩ := h.edge_live u v he
    obtain ⟨n, hn⟩ := (g.hasNode_iff v).mp hv
    exact ⟨v, n, hn, rfl, (mem_callerNames _ v _).mpr ⟨u, (h.mem_fileOrder hs u).mpr hu, he, rfl⟩⟩

/-- The functions of the override data are nodes of the graph. -/
theorem override_live (hr : g.RefsLive) {names : OverrideMD → List ℕ}
    (hnames : ∀ md, ∀ k ∈ names md, k ∈ md.overrides ++ md.overriddenBy)
    {i : ℕ} {n : CgNode} (hn : g.slot i = some n) {y : String} (hy : y ∈ ((overrideOf n).map fun md => (names md).map str).getD []) :
    ∃ k, g.hasNode k = true ∧ str k = y := by
  cases ho : overrideOf n with
  | none =>
    rw [ho] at hy
    exact absurd hy List.not_mem_nil
  | some md =>
    rw [ho] at hy
    obtain ⟨k, hk, rfl⟩ := List.mem_map.mp hy
    exact ⟨k, refs_of_overrideOf hr hn ho k (hnames md k hk), rfl⟩

theorem entriesJson_consistent (h : g.Wf) (hs : g.StrInj str) (hkey : g.MetaKeyed) (hr : g.RefsLive) :
    Consistent g str (entriesJson g str (callerNames g str (g.fileOrder str))) := by
  have hmem := mem_entriesJson h hs (callerNames g str (g.fileOrder str))
  have hkeys : ∀ s, s ∈ (entriesJson g str (callerNames g str (g.fileOrder str))).map Prod.fst ↔
      ∃ i, g.hasNode i = true ∧ str i = s := by
    intro s
    rw [entriesJson_eq hs, List.map_map, List.mem_map]
    exact exists_congr fun i => and_congr_left' (h.mem_fileOrder hs i)
  have hcall := lists_callees_iff h hs
  have hback := lists_callers_iff h hs
  exact {
    keys_nodup := (Ordered.sorted_ofList _).keys_nodup
    nodeKey_inj := fun i k hi hk he => hs.inj h hi hk he
    mem_keys := hkeys
    callees := by
      intro u v hu hv
      rw [hcall]
      constructor
      · rintro ⟨u', v', he, hu', hv'⟩
        obtain ⟨hlu, hlv⟩ := h.edge_live u' v' he
        rw [← hs.inj h hlu hu hu', ← hs.inj h hlv hv hv']
        exact he
      · exact fun he => ⟨u, v, he, rfl, rfl⟩
    callers := fun x y => (hcall x y).trans (hback x y).symm
    once := by
      intro e he key hk
      obtain ⟨i, n, hn, -, he⟩ := (hmem e.1 e.2).mp he
      rw [← he]
      rcases List.mem_cons.mp hk with rfl | hk
      · exact ⟨_, NodeEntry.stringsAt_callees _, calleeNames_nodup g str i⟩
      · rw [List.mem_singleton.mp hk]
        exact ⟨_, NodeEntry.stringsAt_callers _, (callerNames_sorted hs i).imp ne_of_lt⟩
    isVirtual := by
      intro i n hn
      refine ⟨_, find_entriesJson h hs _ hn, ?_⟩
      rw [NodeEntry.at_isVirtual]
      exact congrArg (fun b => Except.ok (Json.bool b)) (isSome_overrideOf (hkey.node n ((g.mem_liveNodes n).mpr ⟨i, hn⟩)))
    doesOverride := by
      intro e he
      obtain ⟨i, n, hn, -, he⟩ := (hmem e.1 e.2).mp he
      rw [← he]
      exact ⟨_, NodeEntry.stringsAt_overrides _, NodeEntry.at_doesOverride _⟩
    closed := by
      intro key hk x y hl
      rw [hkeys]
      simp only [List.mem_cons, List.not_mem_nil, or_false] at hk
      obtain rfl | rfl | rfl | rfl := hk
      · obtain ⟨u, v, he, -, hv⟩ := (hcall x y).mp hl
        exact ⟨v, (h.edge_live u v he).2, hv⟩
      · obtain ⟨u, v, he, hu, -⟩ := (hback y x).mp hl
        exact ⟨u, (h.edge_live u v he).1, hu⟩
      · obtain ⟨i, n, hn, -, hy⟩ := (lists_iff h hs _ NodeEntry.stringsAt_overrides x y).mp hl
        exact override_live hr (fun md k => List.mem_append_left _) hn hy
      · obtain ⟨i, n, hn, -, hy⟩ := (lists_iff h hs _ NodeEntry.stringsAt_overriddenBy x y).mp hl
        exact override_live hr (fun md k => List.mem_append_right _) hn hy }

/-- What the writer of version 2 writes is consistent, and it writes every graph without dangling references. -/
theorem write_consistent (h : g.Wf) (hkey : g.MetaKeyed) (hplain : g.PlainNames) (info v4Info : MCGGeneratorVersionInfo)
    (exportSorted : Bool) :
    (g.RefsLive → ∃ j, write info v4Info exportSorted g = .ok j) ∧
      ∀ j, write info v4Info exportSorted g = .ok j →
        ∃ fields, j.at_ "_CG" = .ok (.obj fields) ∧ Consistent g (g.idStr true) fields := by
  have hs : g.StrInj (g.idStr true) := h.strInj fun _ => hplain
  refine ⟨fun hr => ⟨_, write_eq h hs hkey hr info v4Info exportSorted⟩, fun j hw => ?_⟩
  obtain ⟨v4Json, hv4, -⟩ := bind_eq_ok.mp hw
  have hr := h.refsLive_of_write hv4
  rw [write_eq h hs hkey hr] at hw
  cases hw
  refine ⟨_, ?_, entriesJson_consistent h hs hkey hr⟩
  rw [document, Json.at_, Ordered.find_insert, if_pos rfl]

theorem write_consistent_renumbered :
    (renumbered.RefsLive → ∃ j, write ⟨"CGCollector", 0, 9, ""⟩ ⟨"MetaCG", 0, 9, ""⟩ true renumbered = .ok j) ∧
      ∀ j, write ⟨"CGCollector", 0, 9, ""⟩ ⟨"MetaCG", 0, 9, ""⟩ true renumbered = .ok j →
        ∃ fields, j.at_ "_CG" = .ok (.obj fields) ∧ Consistent renumbered (renumbered.idStr true) fields :=
  write_consistent (run_wf 0 _) (by decide) (by decide) _ _ true

end
end MetaCG.VersionTwo
