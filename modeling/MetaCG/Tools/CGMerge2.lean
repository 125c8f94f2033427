import Mathlib.Data.List.Dedup
import MetaCG.Format.MCGReader
import MetaCG.Format.RoundTrip
import MetaCG.Graph.ByName
import MetaCG.Manager.ActiveGraph
import MetaCG.Merge.References

/-! The whole-program merge of call graph files (`CGMerge2.cpp`).

`files` is the JSON of each file, and `order` the order in which the manager walks its set of names. The graph of
the last file is the active one. By name, the file that is written is the union of the files that are read,
whatever their number and the order. -/
namespace MetaCG
open Foundations Callgraph MCGManager
set_option autoImplicit false
set_option maxHeartbeats 250000
set_option maxRecDepth 120000

/-! ## Functions by name -/

namespace Callgraph

/-- Some node of the name has a body. -/
def BodyOf (g : Callgraph) (name : String) : Prop := ∃ n ∈ g.liveNodes, n.functionName = name ∧ n.hasBody = true

theorem Merged.has_iff {T S g : Callgraph} {r : MergeRecorder} (hT : T.Wf) (hS : S.Wf) (h : Merged T S r g) (name : String) :
    g.Has name ↔ T.Has name ∨ S.Has name := by
  unfold Has
  rw [← hasName_iff h.wf, h.hasName, Bool.or_eq_true, hasName_iff hT, hasName_iff hS]

theorem Merged.bodyOf_iff {T S g : Callgraph} {r : MergeRecorder} (hT : T.Wf) (hS : S.Wf) (h : Merged T S r g) (name : String) :
    g.BodyOf name ↔ T.BodyOf name ∨ S.BodyOf name := by
  constructor
  · rintro ⟨n, hn, hname, hbody⟩
    have hslot := h.wf.slot_of_mem hn
    rw [h.body n.id n hslot, Bool.or_eq_true] at hbody
    rcases hbody with hold | hnew
    · obtain ⟨m, hm, hmb⟩ := Option.any_eq_true _ _ |>.mp hold
      obtain ⟨n', hn', hname'⟩ := h.old n.id m hm
      rw [hslot] at hn'
      cases hn'
      exact .inl ⟨m, (T.mem_liveNodes m).mpr ⟨_, hm⟩, hname'.symm.trans hname, hmb⟩
    · obtain ⟨s, hs, hsb⟩ := List.any_eq_true.mp hnew
      rw [Bool.and_eq_true, decide_eq_true_iff] at hsb
      obtain ⟨t, m, ht, hm, hsname⟩ := h.mapped_some hS (hS.slot_of_mem hs)
      rw [hsb.1] at ht
      cases ht
      rw [hslot] at hm
      cases hm
      exact .inr ⟨s, hs, hsname.symm.trans hname, hsb.2⟩
  · rintro (⟨m, hm, hname, hbody⟩ | ⟨s, hs, hname, hbody⟩)
    · have hslot := hT.slot_of_mem hm
      obtain ⟨n, hn, hnname⟩ := h.old m.id m hslot
      refine ⟨n, (g.mem_liveNodes n).mpr ⟨_, hn⟩, hnname.trans hname, ?_⟩
      rw [h.body m.id n hn, hslot, Option.any_some, hbody, Bool.true_or]
    · obtain ⟨t, n, ht, hn, hnname⟩ := h.mapped_some hS (hS.slot_of_mem hs)
      refine ⟨n, (g.mem_liveNodes n).mpr ⟨_, hn⟩, hnname.trans hname, ?_⟩
      rw [h.body t n hn, Bool.or_eq_true]
      exact .inr (List.any_eq_true.mpr ⟨s, hs, by rw [ht, hbody, decide_eq_true rfl]; rfl⟩)

/-- Merging adds no edge metadata of its own. -/
theorem Merged.plainEdges {T S g : Callgraph} {r : MergeRecorder} (h : Merged T S r g) (hT : PlainEdges T)
    (hS : PlainEdges S) : PlainEdges g := by
  intro p
  have hnil : edgeEntries r p (UMap.toPairs S.edges) = [] := by
    rw [edgeEntries, List.flatMap_eq_nil_iff]
    intro e he
    rw [entriesOf, (plainEdges_iff S).mp hS e (List.mem_filter.mp he).1]
    rfl
  have hp := h.edgeMeta p
  rw [hnil, hT p] at hp
  exact (Except.ok.inj hp).symm

end Callgraph

/-- `g` has the functions, the calls and the bodies of the graphs in `L`, by name. -/
structure UnionOf (L : List Callgraph) (g : Callgraph) : Prop where
  has : ∀ name, g.Has name ↔ ∃ S ∈ L, S.Has name
  calls : ∀ p, p ∈ g.callsNamed ↔ ∃ S ∈ L, p ∈ S.callsNamed
  body : ∀ name, g.BodyOf name ↔ ∃ S ∈ L, S.BodyOf name

theorem UnionOf.single (g : Callgraph) : UnionOf [g] g := ⟨fun _ => by simp, fun _ => by simp, fun _ => by simp⟩

theorem UnionOf.concat {L : List Callgraph} {T S g : Callgraph} {r : MergeRecorder} (hu : UnionOf L T) (hT : T.Wf)
    (hS : S.Wf) (h : Merged T S r g) : UnionOf (L ++ [S]) g where
  has := fun name => by rw [h.has_iff hT hS, hu.has]; simp [or_and_right, exists_or]
  calls := fun p => by rw [h.calls_view hT hS, Set.mem_union, hu.calls]; simp [or_and_right, exists_or]
  body := fun name => by rw [h.bodyOf_iff hT hS, hu.body]; simp [or_and_right, exists_or]

theorem UnionOf.congr {L L' : List Callgraph} {g : Callgraph} (h : UnionOf L g) (hmem : ∀ S, S ∈ L ↔ S ∈ L') :
    UnionOf L' g := by
  constructor
  · simpa only [hmem] using h.has
  · simpa only [hmem] using h.calls
  · simpa only [hmem] using h.body

section
variable {g r : Callgraph} {f : ℕ → ℕ} {L : List Callgraph}

theorem Isomorphic.nameOf (h : Isomorphic g r f) {i : ℕ} (hi : g.hasNode i = true) : r.nameOf (f i) = g.nameOf i := by
  obtain ⟨n, hn⟩ := (g.hasNode_iff i).mp hi
  obtain ⟨n', hn', hname, -⟩ := h.node i n hn
  rw [Callgraph.nameOf, Callgraph.nameOf, hn, hn', Option.map_some, Option.map_some, hname]

/-- An isomorphic graph has the same functions, calls and bodies by name. -/
theorem UnionOf.of_isomorphic (hg : g.Wf) (hr : r.Wf) (hu : UnionOf L g) (h : Isomorphic g r f) : UnionOf L r where
  has := by
    intro name
    rw [← hu.has]
    constructor
    · rintro ⟨n', hn', hname⟩
      obtain ⟨i, hi, heq⟩ := h.onto n'.id (hasNode_of_slot (hr.slot_of_mem hn'))
      obtain ⟨n, hn⟩ := (g.hasNode_iff i).mp hi
      obtain ⟨n'', hn'', hname', -⟩ := h.node i n hn
      rw [heq, hr.slot_of_mem hn'] at hn''
      cases hn''
      exact ⟨n, (g.mem_liveNodes n).mpr ⟨i, hn⟩, hname'.symm.trans hname⟩
    · rintro ⟨n, hn, hname⟩
      obtain ⟨n', hn', hname', -⟩ := h.node n.id n (hg.slot_of_mem hn)
      exact ⟨n', (r.mem_liveNodes n').mpr ⟨_, hn'⟩, hname'.trans hname⟩
  calls := by
    intro p
    rw [← hu.calls]
    constructor
    · rintro ⟨u', v', he, hu', hv'⟩
      obtain ⟨hlu, hlv⟩ := hr.edge_live u' v' he
      obtain ⟨u, hgu, rfl⟩ := h.onto u' hlu
      obtain ⟨v, hgv, rfl⟩ := h.onto v' hlv
      exact ⟨u, v, (h.edges u v hgu hgv).mp he, (h.nameOf hgu).symm.trans hu', (h.nameOf hgv).symm.trans hv'⟩
    · rintro ⟨u, v, he, hu', hv'⟩
      obtain ⟨hlu, hlv⟩ := hg.edge_live u v he
      exact ⟨f u, f v, (h.edges u v hlu hlv).mpr he, (h.nameOf hlu).trans hu', (h.nameOf hlv).trans hv'⟩
  body := by
    intro name
    rw [← hu.body]
    constructor
    · rintro ⟨n', hn', hname, hbody⟩
      obtain ⟨i, hi, heq⟩ := h.onto n'.id (hasNode_of_slot (hr.slot_of_mem hn'))
      obtain ⟨n, hn⟩ := (g.hasNode_iff i).mp hi
      obtain ⟨n'', hn'', hname', -, hbody', -⟩ := h.node i n hn
      rw [heq, hr.slot_of_mem hn'] at hn''
      cases hn''
      exact ⟨n, (g.mem_liveNodes n).mpr ⟨i, hn⟩, hname'.symm.trans hname, hbody'.symm.trans hbody⟩
    · rintro ⟨n, hn, hname, hbody⟩
      obtain ⟨n', hn', hname', -, hbody', -⟩ := h.node n.id n (hg.slot_of_mem hn)
      exact ⟨n', (r.mem_liveNodes n').mpr ⟨_, hn'⟩, hname'.trans hname, hbody'.trans hbody⟩

end

/-! ## The program -/

namespace CGMerge2

def isspace (c : Char) : Bool := c = ' ' || (decide (9 ≤ c.toNat) && decide (c.toNat ≤ 13))

/-- `std::stoi`; what `std::invalid_argument` says is the name of the function. -/
def stoi (str : String) : Except Exn ℤ :=
  let (negative, unsigned) := match str.toList.dropWhile isspace with
    | '-' :: rest => (true, rest)
    | '+' :: rest => (false, rest)
    | text => (false, text)
  let digits := unsigned.takeWhile Char.isDigit
  let magnitude : ℤ := digits.foldl (fun value c => 10 * value + (c.toNat - '0'.toNat : ℕ)) 0
  let value := if negative then -magnitude else magnitude
  if digits.isEmpty then .error (.runtimeError "stoi")
  else if decide (-2147483648 ≤ value) && decide (value ≤ 2147483647) then .ok value
  else .error .outOfRange

section
variable (build : BuildInfo) (files : String → Json)

/-- One round of the loop over the input files; the new graph lies at the address `inFile.2`. -/
def addFile (m : MCGManager) (inFile : String × ℕ) : Except Exn MCGManager := do
  if (files inFile.1).is_null then return m
  match ← createReader (files inFile.1) with
  | none => throw .exit
  | some mcgReader =>
    let graph ← mcgReader.read (files inFile.1)
    match m.addToManagedGraphs inFile.1 (some (inFile.2, graph)) true with
    | .ok m => return m
    | .error (e, _) => throw e

/-- `writeActiveGraph`: without an active graph the sink stays empty. -/
def writeActiveGraph (mcgWriter : MCGWriter) (m : MCGManager) : Except Exn Json :=
  match m.active with
  | some cg => mcgWriter.write build cg
  | none => .ok .null

/-- `main`: the JSON that is written to the output file. -/
def main (order : List String) (inputFiles : List String) : Except Exn Json := do
  match inputFiles.head? with
  | none => throw .exit
  | some first =>
    let versionStr ← getFormatVersion (files first)
    let mcgVersion ← stoi versionStr
    let m ← inputFiles.zipIdx.foldlM (addFile files) (resetManager initial)
    match mergeIntoActiveGraph mergeByName order m with
    | .error (e, _) => throw e
    | .ok m =>
      match createWriter mcgVersion with
      | none => throw .exit
      | some mcgWriter => writeActiveGraph build mcgWriter m

end

/-! ## The manager after the loop -/

/-- The input files that are not skipped. -/
def present (files : String → Json) (inputFiles : List String) : List String :=
  inputFiles.filter fun inFile => !(files inFile).is_null

/-- The graphs of the first files are managed under their names, and the last one is active. -/
structure Loaded (files : String → Json) (graph : String → Callgraph) (inputFiles : List String) (m : MCGManager) : Prop where
  owner : m.Ownership
  small : ∀ a ∈ m.heap, a < inputFiles.length
  names : ∀ name, name ∈ m.managedGraphs ↔ name ∈ present files inputFiles
  graphs : ∀ name a, m.managedGraphs.lookup name = some a → m.heap.lookup a = some (graph name)
  active : m.activeGraph = (present files inputFiles).getLast?.bind fun name => m.managedGraphs.lookup name

section
variable {files : String → Json} {graph : String → Callgraph} {inputFiles : List String} {m : MCGManager}

theorem Loaded.start : Loaded files graph [] (resetManager initial) where
  owner := ⟨fun _ _ h => absurd h (by simp [resetManager]), fun _ _ _ h => absurd h (by simp [resetManager])⟩
  small := fun a ha => absurd ha (AList.notMem_empty a)
  names := fun name => iff_of_false (AList.notMem_empty name) List.not_mem_nil
  graphs := fun _ _ h => by cases h
  active := rfl

/-- A new graph replaces the one of the same name and becomes active. -/
theorem Loaded.add (h : Loaded files graph inputFiles m) {inFile : String} (hnull : (files inFile).is_null = false) :
    Loaded files graph (inputFiles ++ [inFile])
      { m.manage inFile inputFiles.length (graph inFile) with activeGraph := some inputFiles.length } := by
  have hfresh : inputFiles.length ∉ m.heap := fun hmem => lt_irrefl _ (h.small _ hmem)
  have hpresent : present files (inputFiles ++ [inFile]) = present files inputFiles ++ [inFile] := by
    rw [present, List.filter_append, List.filter_singleton, hnull]
    rfl
  have hkept : ∀ name a, name ≠ inFile → m.managedGraphs.lookup name = some a →
      (m.manage inFile inputFiles.length (graph inFile)).heap.lookup a = some (graph name) := by
    intro name a hne ha
    have hlive := h.owner.live name a ha
    have hnew : a ≠ inputFiles.length := fun he => hfresh (he ▸ hlive)
    unfold manage
    rw [UMap.lookup_insert_ite, if_neg hnew, ← h.graphs name a ha]
    cases hold : m.managedGraphs.lookup inFile with
    | none => rfl
    | some old =>
      refine (UMap.lookup_erase_ite old a m.heap).trans (if_neg fun he => hne ?_)
      exact h.owner.unique name inFile a ha (he ▸ hold)
  exact {
    owner := (h.owner.manage hfresh inFile (graph inFile)).withActive _
    small := by
      intro a ha
      rw [List.length_append, List.length_singleton]
      rcases (AList.mem_insert _).mp ha with rfl | ha
      · exact Nat.lt_succ_self _
      · refine Nat.lt_succ_of_lt (h.small a ?_)
        cases hold : m.managedGraphs.lookup inFile with
        | none => rwa [hold] at ha
        | some old =>
          rw [hold] at ha
          exact (AList.mem_erase.mp ha).2
    names := by
      intro name
      rw [hpresent, List.mem_append, List.mem_singleton, ← h.names, or_comm]
      exact AList.mem_insert _
    graphs := by
      intro name a ha
      rw [lookup_manage] at ha
      split_ifs at ha with hname
      · cases ha
        rw [hname]
        exact (UMap.lookup_insert_ite ..).trans (if_pos rfl)
      · exact hkept name a hname ha
    active := by
      rw [hpresent, List.getLast?_concat, Option.bind_some, lookup_manage, if_pos rfl] }

/-- The loop reads all files that are not null. -/
theorem loop_loaded (hread : ∀ inFile ∈ present files inputFiles, readFile (files inFile) = .ok (graph inFile)) :
    ∃ m, inputFiles.zipIdx.foldlM (addFile files) (resetManager initial) = .ok m ∧ Loaded files graph inputFiles m := by
  have h := foldlM_total (f := addFile files) (J := fun pre m => Loaded files graph (pre.map Prod.fst) m)
    (l := inputFiles.zipIdx) Loaded.start ?_
  · rwa [List.zipIdx_map_fst] at h
  rintro pre ⟨inFile, a⟩ m hpre hm
  obtain ⟨post, hpost⟩ := hpre
  have hget : inputFiles.zipIdx[pre.length]? = some (inFile, a) := by
    rw [← hpost]
    simp
  rw [List.getElem?_zipIdx, Option.map_eq_some_iff] at hget
  obtain ⟨inFile', hmem, heq⟩ := hget
  cases heq
  rw [List.map_append, List.map_singleton]
  by_cases hnull : (files inFile).is_null = true
  · refine ⟨m, ?_, ?_⟩
    · rw [addFile, if_pos hnull]
      rfl
    · have hpresent : present files (pre.map Prod.fst ++ [inFile]) = present files (pre.map Prod.fst) := by
        rw [present, List.filter_append, List.filter_singleton, hnull]
        exact List.append_nil _
      refine ⟨hm.owner, fun b hb => ?_, ?_, hm.graphs, ?_⟩
      · rw [List.length_append, List.length_singleton]
        exact Nat.lt_succ_of_lt (hm.small b hb)
      · rw [hpresent]
        exact hm.names
      · rw [hpresent]
        exact hm.active
  · rw [Bool.not_eq_true] at hnull
    have hfile := hread inFile (List.mem_filter.mpr ⟨List.mem_of_getElem? hmem, by rw [hnull]; rfl⟩)
    obtain ⟨reader, hreader, hfile⟩ := bind_eq_ok.mp hfile
    cases reader with
    | none => cases hfile
    | some reader =>
      have hadd : Loaded files graph _ _ := hm.add hnull
      rw [List.length_map] at hadd
      refine ⟨_, ?_, hadd⟩
      rw [addFile, if_neg (by rw [hnull]; exact Bool.false_ne_true), hreader, ok_bind]
      simp only [hfile, ok_bind]
      rw [Nat.zero_add]
      rfl

/-! ## The merge -/

theorem Loaded.other (h : Loaded files graph inputFiles m) {last : String} (hlast : (present files inputFiles).getLast? = some last)
    {name : String} (hname : name ∈ present files inputFiles) :
    m.other name = if name = last then none else some (graph name) := by
  obtain ⟨a, ha⟩ := (UMap.mem_iff_lookup _ _).mp ((h.names name).mpr hname)
  have hactive := h.active
  rw [hlast, Option.bind_some] at hactive
  rw [MCGManager.other, ha, Option.bind_some, h.graphs name a ha, hactive]
  have hiff : some a = m.managedGraphs.lookup last ↔ name = last := by
    constructor
    · exact fun heq => h.owner.unique name last a ha heq.symm
    · rintro rfl
      exact ha.symm
  simp only [hiff]

theorem Loaded.others_iff (h : Loaded files graph inputFiles m) {last : String}
    (hlast : (present files inputFiles).getLast? = some last) {order : List String}
    (horder : ∀ name, name ∈ order ↔ name ∈ present files inputFiles) (S : Callgraph) :
    S ∈ [graph last] ++ m.others order ↔ S ∈ (present files inputFiles).map graph := by
  have hmem : last ∈ present files inputFiles := List.mem_of_getLast? hlast
  rw [List.mem_append, List.mem_singleton, others, List.mem_filterMap, List.mem_map]
  constructor
  · rintro (rfl | ⟨name, hname, hother⟩)
    · exact ⟨last, hmem, rfl⟩
    · have hname' := (horder name).mp hname
      rw [h.other hlast hname'] at hother
      split_ifs at hother
      exact ⟨name, hname', Option.some.inj hother⟩
  · rintro ⟨name, hname, rfl⟩
    by_cases hl : name = last
    · rw [hl]
      exact .inl rfl
    · exact .inr ⟨name, (horder name).mpr hname, by rw [h.other hlast hname, if_neg hl]⟩

/-- Graphs without edge metadata are merged, and the result can be written. -/
theorem merge_union {T : Callgraph} {L : List Callgraph} (hT : T.Source) (hL : ∀ S ∈ L, S.Source) (hTp : PlainEdges T)
    (hLp : ∀ S ∈ L, PlainEdges S) : ∃ g, mergeAll mergeByName T L = .ok g ∧ g.Target ∧ g.RefsLive ∧ PlainEdges g ∧
      UnionOf ([T] ++ L) g := by
  have hTt : T.Target := ⟨hT.wf, hT.keyed⟩
  obtain ⟨g, hg⟩ := (mergeAll_ok_iff hTt hL).mpr (.of_plain fun S hS => (plainEdges_iff S).mp (hLp S hS))
  obtain ⟨ht, hrefs, hplain, hunion⟩ := mergeAll_inv
    (P := fun pre g => g.RefsLive ∧ PlainEdges g ∧ UnionOf ([T] ++ pre) g) hTt hL ⟨hT.refs, hTp, UnionOf.single T⟩ (by
      rintro pre S g₁ g₂ r hg₁ hS hM ⟨hrefs, hplain, hunion⟩
      rw [← List.append_assoc]
      exact ⟨hM.refsLive (hL S hS).wf hrefs (hL S hS).refs, hM.plainEdges hplain (hLp S hS),
        hunion.concat hg₁.wf (hL S hS).wf hM⟩) hg
  exact ⟨g, hg, ht, hrefs, hplain, hunion⟩

theorem stoi_versionFour {j : Json} (hv : createReader j = .ok (some .versionFour)) :
    j.is_null = false ∧ ∃ versionStr, getFormatVersion j = .ok versionStr ∧ stoi versionStr = .ok 4 := by
  constructor
  · cases j with
    | null => exact absurd hv (by decide)
    | _ => rfl
  · obtain ⟨versionStr, hversion, hv⟩ := bind_eq_ok.mp hv
    refine ⟨versionStr, hversion, ?_⟩
    split at hv
    · cases hv
    split at hv
    · cases hv
    split at hv
    case isTrue h => rcases h with rfl | rfl <;> decide
    case isFalse => cases hv

/-- Files without edge metadata are merged into their union, in whatever order the manager walks its graphs, when
the first one is of version 4. -/
theorem main_union (build : BuildInfo) {order : List String} (hnames : ∀ inFile ∈ inputFiles, inFile ≠ "") {first : String}
    (hfirst : inputFiles.head? = some first) (hv : createReader (files first) = .ok (some .versionFour))
    (hread : ∀ inFile ∈ present files inputFiles, readFile (files inFile) = .ok (graph inFile))
    (hplain : ∀ inFile ∈ present files inputFiles, PlainEdges (graph inFile))
    (horder : order.Perm (present files inputFiles).dedup) :
    ∃ out r, main build files order inputFiles = .ok out ∧ readFile out = .ok r ∧ createReader out = .ok (some .versionFour) ∧
      UnionOf ((present files inputFiles).map graph) r := by
  obtain ⟨hnull, versionStr, hversion, hstoi⟩ := stoi_versionFour hv
  obtain ⟨m, hloop, hm⟩ := loop_loaded hread
  have horder' : ∀ name, name ∈ order ↔ name ∈ present files inputFiles := fun name =>
    horder.mem_iff.trans List.mem_dedup
  have hmemFirst : first ∈ present files inputFiles :=
    List.mem_filter.mpr ⟨List.mem_of_head? hfirst, by rw [hnull]; rfl⟩
  obtain ⟨last, hlast⟩ : ∃ last, (present files inputFiles).getLast? = some last :=
    ⟨_, List.getLast?_eq_some_getLast (List.ne_nil_of_mem hmemFirst)⟩
  have hsource : ∀ S ∈ (present files inputFiles).map graph, S.Source ∧ PlainEdges S := by
    intro S hS
    obtain ⟨inFile, hmem, rfl⟩ := List.mem_map.mp hS
    obtain ⟨_, _, hfile⟩ := readFile_fileGraph (hread inFile hmem)
    exact ⟨hfile.source, hplain inFile hmem⟩
  have hothers := hm.others_iff hlast horder'
  have hactive : m.active = some (graph last) := by
    obtain ⟨a, ha⟩ := (UMap.mem_iff_lookup _ _).mp ((hm.names last).mpr (List.mem_of_getLast? hlast))
    rw [MCGManager.active, hm.active, hlast, Option.bind_some, ha]
    exact hm.graphs last a ha
  have hT := hsource (graph last) ((hothers _).mp (List.mem_append_left _ (List.mem_singleton_self _)))
  obtain ⟨g, hg, ht, hrefs, hgplain, hunion⟩ := merge_union hT.1
    (fun S hS => (hsource S ((hothers S).mp (List.mem_append_right _ hS))).1) hT.2
    (fun S hS => (hsource S ((hothers S).mp (List.mem_append_right _ hS))).2)
  have hmanaged : m.Managed := by
    refine ⟨fun e he => hm.owner.live e.1 e.2 ((UMap.mem_toPairs _ _ _).mp he), fun hempty => ?_⟩
    exact hnames "" (List.mem_filter.mp ((hm.names "").mp hempty)).1 rfl
  have hwalk : ∀ name ∈ order, name ∈ m.managedGraphs := fun name hname => (hm.names name).mpr ((horder' name).mp hname)
  obtain ⟨m', hmerge, hresult⟩ := (mergesTo_iff hmanaged hactive hwalk g).mpr hg
  obtain ⟨out, r, hwrite, hback, hr⟩ := write_read ht.wf ht.keyed hgplain hrefs (b := false)
    (fun hb => absurd hb Bool.false_ne_true) (build.generator "MetaCG")
  have hinj : g.StrInj (g.idStr false) := ht.wf.strInj fun hb => absurd hb Bool.false_ne_true
  have hdoc := write_eq_of_strInj ht.wf hrefs hinj (.four (build.generator "MetaCG"))
  have hreader := (createReader_document build g (g.idStr false)).1
  rw [hdoc] at hwrite
  cases hwrite
  refine ⟨_, r, ?_, (readFile_eq hreader).trans hback, hreader, ?_⟩
  · simp only [main, hfirst, hversion, hstoi, hloop, hmerge, ok_bind]
    rw [show createWriter 4 = some .versionFour from rfl]
    simp only [writeActiveGraph, hresult]
    exact hdoc
  · obtain ⟨_, _, hfile⟩ := readFile_fileGraph ((readFile_eq hreader).trans hback)
    exact (hunion.congr hothers).of_isomorphic ht.wf hfile.wf (hr.isomorphic ht.wf hinj)

end

/-- Both files have a function `f`; the file in between is empty. -/
def twoParts (name : String) : Json :=
  if name = "a.mcg" then plainFile [("0", plainNode "main" ["1"]), ("1", plainNode "f" [])]
  else if name = "b.mcg" then plainFile [("0", plainNode "f" ["1"]), ("1", plainNode "g" [])]
  else .null

theorem main_union_twoParts : ∃ out r, main ⟨0, 9, ""⟩ twoParts ["b.mcg", "a.mcg"] ["a.mcg", "none", "b.mcg", "a.mcg"] = .ok out ∧
    readFile out = .ok r ∧ createReader out = .ok (some .versionFour) ∧
    UnionOf ((present twoParts ["a.mcg", "none", "b.mcg", "a.mcg"]).map fun name => graphOf (twoParts name)) r := by
  have hpresent : present twoParts ["a.mcg", "none", "b.mcg", "a.mcg"] = ["a.mcg", "b.mcg", "a.mcg"] := by rfl
  have ha : readFile (twoParts "a.mcg") = .ok (graphOf (twoParts "a.mcg")) := by rfl
  have hb : readFile (twoParts "b.mcg") = .ok (graphOf (twoParts "b.mcg")) := by rfl
  refine main_union ⟨0, 9, ""⟩ (by decide) (by rfl : List.head? _ = some "a.mcg") (by rfl) ?_ ?_ (by rw [hpresent]; decide)
  · rw [hpresent]
    intro inFile hmem
    simp only [List.mem_cons, List.not_mem_nil, or_false] at hmem
    rcases hmem with rfl | rfl | rfl
    exacts [ha, hb, ha]
  · rw [hpresent]
    intro inFile hmem
    simp only [List.mem_cons, List.not_mem_nil, or_false] at hmem
    rcases hmem with rfl | rfl | rfl <;> decide

end CGMerge2
end MetaCG
