import MetaCG.Format.Document
import MetaCG.Format.VersionFourMCGReader

/-! Reading a written file: the header and the loop over the nodes.

The fields of `nodes` come in the order of their strings (`fileOrder`), and the reader numbers the
nodes in that order (`readId`). -/
namespace MetaCG
open Foundations
set_option autoImplicit false
set_option maxHeartbeats 250000
set_option maxRecDepth 120000

/-! ## The header -/

theorem isDigit_or_minus_of_mem_toString {z : ℤ} {c : Char} (h : c ∈ (toString z).toList) :
    c.isDigit = true ∨ c = '-' := by
  cases z with
  | ofNat n => exact .inl (isDigit_of_mem_toString (n := n) h)
  | negSucc n =>
    have hlist : (toString (Int.negSucc n)).toList = '-' :: (toString (n + 1)).toList := by
      show ("-" ++ toString (n + 1)).toList = _
      rw [String.toList_append]
      rfl
    rw [hlist] at h
    rcases List.mem_cons.mp h with h | h
    · exact .inr h
    · exact .inl (isDigit_of_mem_toString h)

theorem dot_notMem_toString (z : ℤ) : '.' ∉ (toString z).toList := by
  intro h
  rcases isDigit_or_minus_of_mem_toString h with h | h
  · exact absurd h (by decide)
  · exact absurd h (by decide)

theorem toString_int_ne_nil (z : ℤ) : (toString z).toList ≠ [] := by
  cases z with
  | ofNat n =>
    show (Nat.repr n).toList ≠ []
    rw [Nat.toList_repr]
    exact Nat.toDigits_ne_nil
  | negSucc n =>
    show ("-" ++ toString (n + 1)).toList ≠ []
    rw [String.toList_append]
    simp

theorem dotPositions_of_notMem {l : List Char} (h : '.' ∉ l) (i start : ℕ) : dotPositions l i start = [] := by
  induction l generalizing i with
  | nil => rfl
  | cons c l ih =>
    have hc : c ≠ '.' := fun he => h (he ▸ List.mem_cons_self ..)
    rw [dotPositions, if_neg (fun hd => hc hd.2)]
    exact ih (fun hm => h (List.mem_cons_of_mem c hm)) (i + 1)

theorem dotPositions_append {a b : List Char} (ha : '.' ∉ a) (hb : '.' ∉ b) (i start : ℕ)
    (hstart : start ≤ i + a.length) : dotPositions (a ++ '.' :: b) i start = [i + a.length + 1] := by
  induction a generalizing i with
  | nil =>
    rw [List.nil_append, dotPositions, if_pos ⟨hstart, rfl⟩, dotPositions_of_notMem hb]
    rfl
  | cons c a ih =>
    have hc : c ≠ '.' := fun he => ha (he ▸ List.mem_cons_self ..)
    rw [List.length_cons] at hstart
    rw [List.cons_append, dotPositions, if_neg (fun hd => hc hd.2),
      ih (fun hm => ha (List.mem_cons_of_mem c hm)) (i + 1) (by omega), List.length_cons]
    congr 1
    omega

theorem checkVersionStr_ok (major minor : Int32) : checkVersionStr (getVersionStr major minor) = .ok () := by
  have hlist : (getVersionStr major minor).toList =
      (toString major.toInt).toList ++ '.' :: (toString minor.toInt).toList := by
    rw [getVersionStr, String.toList_append, String.toList_append, List.append_assoc]
    rfl
  have hpos := List.length_pos_iff.mpr (toString_int_ne_nil major.toInt)
  have hdots := dotPositions_append (dot_notMem_toString major.toInt) (dot_notMem_toString minor.toInt)
    0 1 (by omega)
  have hcount : 1 ≤ (getVersionStr major minor).toList.count '.' := by
    rw [hlist]
    exact List.count_pos_iff.mpr (by simp)
  rw [checkVersionStr, hlist, hdots, ← hlist, if_neg (by omega)]
  rfl

theorem readHeader_ok (info : MCGGeneratorVersionInfo) {j : Json}
    (h : j.subscriptMut "_MetaCG" = (attachMCGFormatHeader (.four info)).subscriptMut "_MetaCG") :
    readHeader j = .ok () := by
  have hinfo : (attachMCGFormatHeader (.four info)).subscriptMut "_MetaCG" = .ok (.ofFields [
      ("version", .str (getVersionStr 4 0)),
      ("generator", .ofFields [
        ("name", .str info.name),
        ("version", .str (getVersionStr info.versionMajor info.versionMinor)),
        ("sha", .str info.sha)])]) :=
    Json.subscriptMut_ofFields (by simp) (by simp [Ordered.find, MCGFileInfo.four])
  have hversion : ∀ a b : Json, (Json.ofFields [("version", a), ("generator", b)]).subscriptMut "version" = .ok a ∧
      (Json.ofFields [("version", a), ("generator", b)]).subscriptMut "generator" = .ok b := fun a b =>
    ⟨Json.subscriptMut_ofFields (by simp) (by simp [Ordered.find]),
      Json.subscriptMut_ofFields (by simp) (by simp [Ordered.find])⟩
  have hgen : ∀ a b c : Json, (Json.ofFields [("name", a), ("version", b), ("sha", c)]).subscriptMut "name" = .ok a ∧
      (Json.ofFields [("name", a), ("version", b), ("sha", c)]).subscriptMut "version" = .ok b := fun a b c =>
    ⟨Json.subscriptMut_ofFields (by simp) (by simp [Ordered.find]),
      Json.subscriptMut_ofFields (by simp) (by simp [Ordered.find])⟩
  have hfour : (getVersionStr 4 0).toList = ['4', '.', '0'] := by decide
  simp only [readHeader, h, hinfo, Json.is_null_ofFields, Bool.false_eq_true, if_false, (hversion _ _).1, (hversion _ _).2, (hgen _ _ _).1, (hgen _ _ _).2, ok_bind, Json.getStr,
    checkVersionStr_ok, hfour]
  rfl

section
variable {g : Callgraph} {str : ℕ → String}

/-- The fields of a written file. -/
theorem document_subscriptMut (info : MCGGeneratorVersionInfo) (str : ℕ → String) :
    (g.document (.four info) str).subscriptMut "_CG" =
      .ok (.obj (Ordered.insert "meta" (.obj (Callgraph.metaJson str g.metaFields))
        [("nodes", .obj (g.nodesJson str g.edges.keys))])) ∧
    readHeader (g.document (.four info) str) = .ok () := by
  constructor
  · rw [Callgraph.document, Json.subscriptMut, Ordered.find_insert, if_pos rfl]
    rfl
  · refine readHeader_ok info ?_
    rw [Callgraph.document, Json.subscriptMut, Ordered.find_insert, if_neg (by decide)]
    rfl

/-! ## The order of a file -/

namespace Callgraph

/-- The ids of the nodes in the order of their strings. -/
def fileOrder (g : Callgraph) (str : ℕ → String) : List ℕ := Ordered.sortBy str g.liveIds

/-- The id that the reader gives to a node. -/
def readId (g : Callgraph) (str : ℕ → String) (i : ℕ) : ℕ := (g.fileOrder str).idxOf i

theorem Wf.mem_fileOrder (h : g.Wf) (hs : g.StrInj str) (i : ℕ) : i ∈ g.fileOrder str ↔ g.hasNode i = true := by
  rw [fileOrder, Ordered.mem_sortBy hs, h.mem_liveIds]

theorem StrInj.fileOrder_nodup (hs : g.StrInj str) : (g.fileOrder str).Nodup :=
  (Ordered.sortBy_sorted hs).imp fun hlt he => absurd (he ▸ hlt) (lt_irrefl _)

theorem nodesJson_eq (hs : g.StrInj str) (edges : List (ℕ × ℕ)) :
    g.nodesJson str edges = (g.fileOrder str).map fun i => (str i, g.nodeJson str edges i) :=
  Ordered.ofList_map_eq hs _

/-- The written metadata of the node `i`. -/
def nodeMetaJson (g : Callgraph) (str : ℕ → String) (i : ℕ) : List (String × Json) :=
  match g.slot i with
  | some n => metaJson str n.metaFields
  | none => []

/-- The graph with a node as the reader creates it. -/
def addRead (cg : Callgraph) (n : CgNode) : Callgraph :=
  (cg.insertNode n.functionName n.origin false false).updateNode cg.nodes.length fun m => { m with hasBody := n.hasBody }

theorem slot_addRead (cg : Callgraph) (n : CgNode) (k : ℕ) :
    (cg.addRead n).slot k =
      if k = cg.nodes.length then some ⟨k, n.functionName, n.origin, n.hasBody, ∅⟩ else cg.slot k := by
  rw [addRead, slot_updateNode, slot_insertNode]
  split_ifs with hk
  · rw [hk]
    rfl
  · rfl

theorem Wf.addRead {cg : Callgraph} (h : cg.Wf) {n : CgNode} (hn : n.functionName ≠ "") : (cg.addRead n).Wf :=
  (h.insertNode _ _ _ _ hn).updateNode _ _ fun _ _ => ⟨rfl, rfl⟩

end Callgraph

/-! ## The loop over the nodes -/

open Callgraph

theorem createNodeFromJson_eq {edges : List (ℕ × ℕ)} {i : ℕ} {n : CgNode} (hn : g.slot i = some n)
    (hname : n.functionName ≠ "") (cg : Callgraph) {s : String} {strToNode : StrToNode}
    (hfree : strToNode.lookup s = none) :
    createNodeFromJson cg s (g.nodeJson str edges i) strToNode =
      .ok (some (cg.addRead n, cg.nodes.length, strToNode.insert s cg.nodes.length)) := by
  have hjson : g.nodeJson str edges i = .ofFields (nodeFields str n (g.calleesJson str edges i)) := by
    rw [nodeJson, hn]
  have hnd : ((nodeFields str n (g.calleesJson str edges i)).map Prod.fst).Nodup := nodeFields_nodup n _
  have hfind : ∀ {k v}, Ordered.find k (nodeFields str n (g.calleesJson str edges i)) = some v →
      (g.nodeJson str edges i).at_ k = .ok v ∧ (g.nodeJson str edges i).contains k = true := by
    intro k v hf
    rw [hjson]
    exact ⟨Json.at_ofFields hnd hf, Json.contains_ofFields hnd hf⟩
  have hnull : (g.nodeJson str edges i).is_null = false := by
    rw [hjson]
    rfl
  obtain ⟨horigin, corigin⟩ := hfind (k := "origin") (v := originJson n.origin) (by simp [nodeFields, Ordered.find])
  obtain ⟨hfunction, cfunction⟩ := hfind (k := "functionName") (v := .str n.functionName)
    (by simp [nodeFields, Ordered.find])
  obtain ⟨hbody, cbody⟩ := hfind (k := "hasBody") (v := .bool n.hasBody) (by simp [nodeFields, Ordered.find])
  obtain ⟨hmeta, cmeta⟩ := hfind (k := "meta") (v := .obj (metaJson str n.metaFields))
    (by simp [nodeFields, Ordered.find])
  have hread : readOrigin (g.nodeJson str edges i) = .ok n.origin := by
    rw [readOrigin, horigin]
    cases n.origin <;> rfl
  simp only [createNodeFromJson, hnull, corigin, cfunction, cbody, cmeta, Bool.not_true, Bool.false_eq_true, if_false,
    hread, hfunction, hbody, hmeta, ok_bind, Json.getStr, Json.getBool, Callgraph.insert, if_neg hname, Json.is_null_obj,
    Json.is_object, Bool.and_false, registerNode, hfree]
  rfl

/-- What the loop has built from the nodes `pre`. -/
structure NodesRead (g : Callgraph) (str : ℕ → String) (pre : List ℕ) (st : ReadState) : Prop where
  wf : st.cg.Wf
  length : st.cg.nodes.length = pre.length
  node : ∀ k i n, pre[k]? = some i → g.slot i = some n →
    st.cg.slot k = some ⟨k, n.functionName, n.origin, n.hasBody, ∅⟩
  edges : st.cg.edges = ∅
  globals : st.cg.metaFields = ∅
  lookup : ∀ s k, st.strToNode.lookup s = some k ↔ ∃ i, pre[k]? = some i ∧ str i = s
  temp : st.tempNodeData = pre.zipIdx.map fun e =>
    ⟨e.2, .obj (g.calleesJson str g.edges.keys e.1), .obj (g.nodeMetaJson str e.1)⟩

theorem NodesRead.start : NodesRead g str [] ⟨Callgraph.empty, ∅, []⟩ where
  wf := Wf.empty
  length := rfl
  node := fun k i n hk => by cases hk
  edges := rfl
  globals := rfl
  lookup := fun s k => by simp
  temp := rfl

theorem getElem?_concat_iff {α : Type} (l : List α) (a b : α) (k : ℕ) :
    (l ++ [a])[k]? = some b ↔ l[k]? = some b ∨ k = l.length ∧ b = a := by
  by_cases hk : k < l.length
  · rw [List.getElem?_append_left hk]
    exact ⟨.inl, fun hb => hb.resolve_right fun he => absurd he.1 (by omega)⟩
  · rw [List.getElem?_append_right (by omega), List.getElem?_eq_none (Nat.le_of_not_lt hk)]
    by_cases hl : k = l.length
    · simp [hl, eq_comm]
    · rw [List.getElem?_eq_none (by rw [List.length_singleton]; omega)]
      simp [hl]

theorem NodesRead.next (h : g.Wf) (hs : g.StrInj str) {pre : List ℕ} {st : ReadState} (hr : NodesRead g str pre st)
    (hpre : ∀ i ∈ pre, g.hasNode i = true) {i : ℕ} (hi : g.hasNode i = true) (hnew : i ∉ pre) :
    ∃ st', readNode st (str i, g.nodeJson str g.edges.keys i) = .ok st' ∧ NodesRead g str (pre ++ [i]) st' := by
  obtain ⟨n, hn⟩ := (g.hasNode_iff i).mp hi
  have hfree : st.strToNode.lookup (str i) = none := by
    by_contra hne
    obtain ⟨k, hk⟩ := Option.ne_none_iff_exists'.mp hne
    obtain ⟨i', hi', he⟩ := (hr.lookup _ _).mp hk
    have hmem := List.mem_of_getElem? hi'
    exact hnew (hs.inj h (hpre i' hmem) hi he ▸ hmem)
  have hcreate : createNodeFromJson st.cg (str i) (g.nodeJson str g.edges.keys i) st.strToNode =
      .ok (some (st.cg.addRead n, st.cg.nodes.length, st.strToNode.insert (str i) st.cg.nodes.length)) :=
    createNodeFromJson_eq hn (h.node_name i n hn) st.cg hfree
  have hcallees : (g.nodeJson str g.edges.keys i).subscriptMut "callees" =
      .ok (.obj (g.calleesJson str g.edges.keys i)) := nodeJson_subscriptMut hn (by simp [nodeFields, Ordered.find])
  have hmeta : (g.nodeJson str g.edges.keys i).subscriptMut "meta" = .ok (.obj (metaJson str n.metaFields)) :=
    nodeJson_subscriptMut hn (by simp [nodeFields, Ordered.find])
  refine ⟨⟨st.cg.addRead n, st.strToNode.insert (str i) st.cg.nodes.length, st.tempNodeData ++
    [⟨st.cg.nodes.length, .obj (g.calleesJson str g.edges.keys i), .obj (metaJson str n.metaFields)⟩]⟩, ?_, ?_⟩
  · simp only [readNode, hcreate, ok_bind, hcallees, hmeta]
    rfl
  · exact {
      wf := hr.wf.addRead (h.node_name i n hn)
      length := by
        simp only [addRead, updateNode, insertNode, List.length_modify, List.length_append, List.length_singleton,
          hr.length]
      node := by
        intro k i' m hk hm
        rw [slot_addRead, hr.length]
        rcases (getElem?_concat_iff pre i i' k).mp hk with hk | ⟨rfl, rfl⟩
        · have hlt := (List.getElem?_eq_some_iff.mp hk).1
          rw [if_neg (by omega)]
          exact hr.node k i' m hk hm
        · rw [hn] at hm
          cases hm
          rw [if_pos rfl]
      edges := hr.edges
      globals := hr.globals
      lookup := by
        intro s k
        rw [UMap.lookup_insert_ite, hr.length]
        simp only [getElem?_concat_iff]
        split_ifs with hsi
        · rw [hsi, Option.some.injEq]
          constructor
          · rintro rfl
            exact ⟨i, .inr ⟨rfl, rfl⟩, rfl⟩
          · rintro ⟨i', hi' | ⟨hk, -⟩, he⟩
            · have hmem := List.mem_of_getElem? hi'
              exact absurd (hs.inj h (hpre i' hmem) hi he ▸ hmem) hnew
            · exact hk.symm
        · rw [hr.lookup]
          constructor
          · rintro ⟨i', hi', he⟩
            exact ⟨i', .inl hi', he⟩
          · rintro ⟨i', hi' | ⟨-, rfl⟩, he⟩
            · exact ⟨i', hi', he⟩
            · exact absurd he.symm hsi
      temp := by
        rw [hr.temp, List.zipIdx_append, List.map_append, hr.length]
        simp [nodeMetaJson, hn] }

theorem readNodes_ok (h : g.Wf) (hs : g.StrInj str) :
    ∃ st, (g.nodesJson str g.edges.keys).foldlM readNode ⟨Callgraph.empty, ∅, []⟩ = .ok st ∧
      NodesRead g str (g.fileOrder str) st := by
  rw [nodesJson_eq hs, List.foldlM_map]
  refine foldlM_total (J := NodesRead g str) NodesRead.start fun pre i st hpre hr => ?_
  have hnd := hs.fileOrder_nodup.sublist hpre.sublist
  have hmem : ∀ k ∈ pre ++ [i], g.hasNode k = true := fun k hk => (h.mem_fileOrder hs k).mp (hpre.subset hk)
  rw [List.nodup_append] at hnd
  exact hr.next h hs (fun k hk => hmem k (List.mem_append_left _ hk))
    (hmem i (List.mem_append_right _ (List.mem_singleton_self i)))
    (fun hi => hnd.2.2 i hi i (List.mem_singleton_self i) rfl)

end
end MetaCG
