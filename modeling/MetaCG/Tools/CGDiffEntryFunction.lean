import MetaCG.Format.DotRoundTrip
import MetaCG.Format.EntryFunction
import MetaCG.Merge.References
import MetaCG.Tools.CGDiffCompare
import MetaCG.Tools.CGDiffRenumbering

/-! The verdict of `cgdiff` on the entry function.

When both graphs have an entry function, the id of the first graph is resolved in the second, and an id of
the second graph alone is resolved in the first. So the verdict is about function names only where the two
graphs give that id the same name, or none of them holds an id that the other graph resolves. -/
namespace MetaCG.CGDiff
open Foundations Callgraph
set_option autoImplicit false
set_option maxHeartbeats 250000
set_option maxRecDepth 120000

/-! ## The entry function by name -/

/-- The name that stands for an optional id; without an id it is empty. -/
def entryText (g : Callgraph) (entry : Option ℕ) : String := (entry.map (nameIn g)).getD ""

/-- The function name of the entry function, if the graph has the metadata. -/
def entryFunctionName (g : Callgraph) : Option String :=
  if "entryFunction" ∈ g.metaFields then some (entryText g g.entryFunctionId) else none

theorem entryFunction_cases {g : Callgraph} (h : g.MetaKeyed) :
    g.metaFields.lookup "entryFunction" = none ∧ g.entryFunctionId = none ∧ entryFunctionName g = none ∨
      ∃ md, g.metaFields.lookup "entryFunction" = some (.entryFunction md) ∧ g.entryFunctionId = md.entryFunction ∧
        entryFunctionName g = some (entryText g md.entryFunction) := by
  cases hl : g.metaFields.lookup "entryFunction" with
  | none =>
    have hid : g.entryFunctionId = none := by rw [entryFunctionId, hl]
    exact .inl ⟨rfl, hid, if_neg (AList.lookup_eq_none.mp hl)⟩
  | some md =>
    obtain ⟨e, rfl⟩ := entryFunction_of_key (h.global ("entryFunction", md) ((UMap.mem_toPairs _ _ _).mpr hl))
    have hid : g.entryFunctionId = e.entryFunction := by rw [entryFunctionId, hl]
    refine .inr ⟨e, rfl, hid, ?_⟩
    rw [entryFunctionName, if_pos (UMap.mem_of_lookup hl), hid]

theorem refsIn_entryFunction {g : Callgraph} {md : EntryFunctionMD} :
    RefsIn g (.entryFunction md) ↔ ∀ i, md.entryFunction = some i → g.hasNode i = true := by
  unfold RefsIn MetaData.refs
  simp only [Option.mem_toList]

section
variable {dump : Json → String} {ignoredMdKeys : List String} {A B : Callgraph}

/-- The values of the global metadata of two graphs, read in either of them. -/
def printedGlobals (A B : Callgraph) : List Json :=
  [A, B].flatMap fun owner => [A, B].flatMap fun graph =>
    (UMap.toPairs owner.metaFields).map fun e => e.2.encode (nameIn graph)

theorem mem_printedGlobals {owner graph : Callgraph} (ho : owner ∈ [A, B]) (hg : graph ∈ [A, B]) {key : String} {md : MetaData}
    (h : owner.metaFields.lookup key = some md) : md.encode (nameIn graph) ∈ printedGlobals A B :=
  List.mem_flatMap.mpr ⟨owner, ho, List.mem_flatMap.mpr ⟨graph, hg,
    List.mem_map.mpr ⟨(key, md), (UMap.mem_toPairs key md _).mpr h, rfl⟩⟩⟩

/-- The two graphs give the ids that are resolved in the wrong graph names that do not change the verdict. -/
structure EntryAligned (A B : Callgraph) : Prop where
  both : ∀ a name, A.entryFunctionId = some a → entryFunctionName B = some name →
    B.hasNode a = true ∧ (nameIn B a = name ↔ nameIn A a = name)
  onlyB : ∀ b, entryFunctionName A = none → B.entryFunctionId = some b → A.hasNode b = true

theorem entryAligned_iff (hkA : A.MetaKeyed) (hkB : B.MetaKeyed) (hA : A.EntryLive) (hB : B.EntryLive)
    (hdump : Set.InjOn dump {j | j ∈ printedGlobals A B}) :
    (GlobalReadable dump A B "entryFunction" ∧
        (GlobalDiffers dump A B "entryFunction" ↔ entryFunctionName A ≠ entryFunctionName B)) ↔ EntryAligned A B := by
  unfold GlobalReadable GlobalDiffers
  rcases entryFunction_cases hkA with ⟨hlA, hidA, hnameA⟩ | ⟨mdA, hlA, hidA, hnameA⟩
  · rcases entryFunction_cases hkB with ⟨hlB, hidB, hnameB⟩ | ⟨mdB, hlB, hidB, hnameB⟩
    · rw [hlA, hlB, hnameA, hnameB]
      refine iff_of_true ⟨trivial, by simp⟩ ⟨fun a _ h => ?_, fun b _ h => ?_⟩
      · rw [hidA] at h; cases h
      · rw [hidB] at h; cases h
    · rw [hlA, hlB, hnameA, hnameB]
      dsimp only
      rw [refsIn_entryFunction, and_iff_left (by simp)]
      constructor
      · refine fun h => ⟨fun a _ ha => ?_, fun b _ hb => h b (hidB ▸ hb)⟩
        rw [hidA] at ha
        cases ha
      · exact fun h b hb => h.onlyB b hnameA (hidB.trans hb)
  · have hliveA : RefsIn A (.entryFunction mdA) := refsIn_entryFunction.mpr fun i hi => hA i (hidA.trans hi)
    rcases entryFunction_cases hkB with ⟨hlB, hidB, hnameB⟩ | ⟨mdB, hlB, hidB, hnameB⟩
    · rw [hlA, hlB, hnameA, hnameB]
      refine iff_of_true ⟨hliveA, by simp⟩ ⟨fun a _ _ h => ?_, fun b h _ => ?_⟩
      · rw [hnameB] at h; cases h
      · rw [hnameA] at h; cases h
    · have hliveB : RefsIn B (.entryFunction mdB) := refsIn_entryFunction.mpr fun i hi => hB i (hidB.trans hi)
      have hdiffers : dump (MetaData.encode (nameIn B) (.entryFunction mdA)) ≠ dump (MetaData.encode (nameIn B) (.entryFunction mdB)) ↔
          entryText B mdA.entryFunction ≠ entryText B mdB.entryFunction := by
        refine not_congr ⟨fun h => ?_, fun h => congrArg (fun s => dump (.str s)) h⟩
        exact Json.str.inj (hdump (mem_printedGlobals (by simp) (by simp) hlA) (mem_printedGlobals (by simp) (by simp) hlB) h)
      rw [hlA, hlB, hnameA, hnameB]
      dsimp only
      rw [hdiffers, and_iff_right hliveB, and_iff_left fun _ => hliveA, refsIn_entryFunction, ne_eq, ne_eq, Option.some_inj,
        not_iff_not]
      constructor
      · rintro ⟨hlive, hsame⟩
        refine ⟨fun a name ha hname => ?_, fun b h _ => ?_⟩
        · rw [hidA] at ha
          rw [hnameB] at hname
          rw [ha] at hsame
          exact ⟨hlive a ha, by rw [← Option.some.inj hname]; exact hsame⟩
        · rw [hnameA] at h; cases h
      · intro h
        refine ⟨fun a ha => (h.both a _ (hidA.trans ha) hnameB).1, ?_⟩
        cases ha : mdA.entryFunction with
        | none => exact .rfl
        | some a => exact (h.both a _ (hidA.trans ha) hnameB).2

theorem entryAligned_of_own (hkA : A.MetaKeyed) (hkB : B.MetaKeyed) (hown : OwnAt A B "entryFunction") : EntryAligned A B := by
  unfold OwnAt at hown
  rcases entryFunction_cases hkA with ⟨hlA, hidA, hnameA⟩ | ⟨mdA, hlA, hidA, hnameA⟩
  · rcases entryFunction_cases hkB with ⟨hlB, hidB, hnameB⟩ | ⟨mdB, hlB, hidB, hnameB⟩
    · refine ⟨fun a name ha _ => ?_, fun b _ hb => ?_⟩
      · rw [hidA] at ha; cases ha
      · rw [hidB] at hb; cases hb
    · rw [hlA, hlB] at hown
      refine ⟨fun a name ha _ => ?_, fun b _ hb => ?_⟩
      · rw [hidA] at ha; cases ha
      · rw [hidB] at hb
        exact absurd (hown ▸ Option.mem_toList.mpr hb : b ∈ []) List.not_mem_nil
  · rcases entryFunction_cases hkB with ⟨hlB, hidB, hnameB⟩ | ⟨mdB, hlB, hidB, hnameB⟩
    · refine ⟨fun a name _ h => ?_, fun b h _ => ?_⟩
      · rw [hnameB] at h; cases h
      · rw [hnameA] at h; cases h
    · rw [hlA, hlB] at hown
      refine ⟨fun a name ha _ => ?_, fun b h _ => ?_⟩
      · rw [hidA] at ha
        exact absurd (hown ▸ Option.mem_toList.mpr ha : a ∈ []) List.not_mem_nil
      · rw [hnameA] at h; cases h

/-! ## Exchanging the graphs -/

/-- Without ids in values that the other graph resolves, a key reads alike in either order of the graphs. -/
theorem globalAlike_comm (hA : A.Wf) (hB : B.Wf) (hkA : A.MetaKeyed) (hkB : B.MetaKeyed)
    (hdump : Set.InjOn dump {j | j ∈ printedGlobals A B}) {key : String} (hown : OwnAt A B key) :
    GlobalReadable dump A B key ∧ ¬ GlobalDiffers dump A B key ↔ GlobalReadable dump B A key ∧ ¬ GlobalDiffers dump B A key := by
  unfold OwnAt at hown
  unfold GlobalReadable GlobalDiffers
  cases hlA : A.metaFields.lookup key with
  | none =>
    cases hlB : B.metaFields.lookup key with
    | none => exact .rfl
    | some mdB => exact iff_of_false (fun h => h.2 trivial) (fun h => h.2 trivial)
  | some mdA =>
    cases hlB : B.metaFields.lookup key with
    | none => exact iff_of_false (fun h => h.2 trivial) (fun h => h.2 trivial)
    | some mdB =>
      rw [hlA, hlB] at hown
      have hkey : mdA.getKey = mdB.getKey :=
        (hkA.global (key, mdA) ((UMap.mem_toPairs key mdA _).mpr hlA)).trans
          (hkB.global (key, mdB) ((UMap.mem_toPairs key mdB _).mpr hlB)).symm
      -- A value without ids is only printed like another value without ids.
      have hrefs : ∀ g ∈ [A, B], g.Wf → RefsIn g mdB → dump (mdA.encode (nameIn g)) = dump (mdB.encode (nameIn g)) →
          mdB.refs = [] := by
        intro g hg hwf hlive hsame
        have hvalue := hdump (mem_printedGlobals (by simp) hg hlA) (mem_printedGlobals (by simp) hg hlB) hsame
        refine MetaData.refs_eq_nil_of_encode hkey hvalue hown fun i hi => ?_
        obtain ⟨n, hn⟩ := (g.hasNode_iff i).mp (hlive i hi)
        rw [nameIn_eq hn]
        exact hwf.node_name i n hn
      dsimp only
      rw [not_not, not_not]
      constructor
      · rintro ⟨⟨-, hliveB, -⟩, hsame⟩
        have hB' := hrefs B (by simp) hB hliveB hsame
        refine ⟨⟨refsIn_of_refs_eq_nil hB' A, refsIn_of_refs_eq_nil hown A, fun _ => refsIn_of_refs_eq_nil hB' B⟩, ?_⟩
        rw [encode_of_refs_eq_nil hB' (nameIn A) (nameIn B), encode_of_refs_eq_nil hown (nameIn A) (nameIn B), hsame]
      · rintro ⟨⟨hliveB, -, -⟩, hsame⟩
        have hB' := hrefs A (by simp) hA hliveB hsame.symm
        refine ⟨⟨refsIn_of_refs_eq_nil hown B, refsIn_of_refs_eq_nil hB' B, fun _ => refsIn_of_refs_eq_nil hown A⟩, ?_⟩
        rw [encode_of_refs_eq_nil hB' (nameIn B) (nameIn A), encode_of_refs_eq_nil hown (nameIn B) (nameIn A), hsame]

end

/-! ## The verdict -/

section
variable (dump : Json → String) (sortJson : List Json → List Json) (ignoredMdKeys : List String) (order : Dot.HashOrder)
  (mode : ComparisonMode)

/-- The comparison ends, and it reports the entry function iff `differ`. -/
def Decides (A B : Callgraph) (differ : Prop) : Prop :=
  ∃ diffs, compare dump sortJson ignoredMdKeys order mode A B = .ok diffs ∧ (Reported diffs "entryFunction" ↔ differ)

/-- The verdict is about functions and not about ids. -/
structure AboutFunctions (A B : Callgraph) : Prop where
  verdict : Decides dump sortJson ignoredMdKeys order mode A B (entryFunctionName A ≠ entryFunctionName B)
  renumbered : ∀ A' B' f h, Renumbering A A' f → Renumbering B B' h →
    Decides dump sortJson ignoredMdKeys order mode A' B' (entryFunctionName A ≠ entryFunctionName B)
  symmetric : compare dump sortJson ignoredMdKeys order mode A B = .ok [] ↔
    compare dump sortJson ignoredMdKeys order mode B A = .ok []
  ownIds : OwnIdsOnly dump ignoredMdKeys mode A B

/-- The rest of what is compared can be read. -/
structure RestReadable (A B : Callgraph) : Prop where
  nodesA : Readable mode A
  nodesB : Readable mode B
  globals : ∀ key ∉ ignoredMdKeys, key ≠ "entryFunction" → GlobalReadable dump A B key

variable {A B : Callgraph}

theorem decides_iff (hmode : mode.ignoreGlobalMetadata = false) (hkey : "entryFunction" ∉ ignoredMdKeys) (hA : A.Wf) (hB : B.Wf)
    (differ : Prop) : Decides dump sortJson ignoredMdKeys order mode A B differ ↔
      RestReadable dump ignoredMdKeys mode A B ∧ GlobalReadable dump A B "entryFunction" ∧
        (GlobalDiffers dump A B "entryFunction" ↔ differ) := by
  have hisOk := compare_isOk dump sortJson ignoredMdKeys order mode hA hB
  constructor
  · rintro ⟨diffs, hrun, hdiffer⟩
    obtain ⟨⟨hreadA, hreadB⟩, hglobals⟩ := hisOk.mp ⟨diffs, hrun⟩
    refine ⟨⟨hreadA, hreadB, fun key hk _ => hglobals hmode key hk⟩, hglobals hmode _ hkey, ?_⟩
    rw [← hdiffer, reported_of_compare dump sortJson ignoredMdKeys order mode hmode hA hB hrun, and_iff_right hkey]
  · rintro ⟨hrest, hentry, hdiffer⟩
    obtain ⟨diffs, hrun⟩ := hisOk.mpr ⟨⟨hrest.nodesA, hrest.nodesB⟩, fun _ key hk => by
      by_cases he : key = "entryFunction"
      · rw [he]; exact hentry
      · exact hrest.globals key hk he⟩
    refine ⟨diffs, hrun, ?_⟩
    rw [reported_of_compare dump sortJson ignoredMdKeys order mode hmode hA hB hrun, and_iff_right hkey, hdiffer]

theorem compare_nil_comm (hA : A.Wf) (hB : B.Wf) (hkA : A.MetaKeyed) (hkB : B.MetaKeyed)
    (hdump : Set.InjOn dump {j | j ∈ printedGlobals A B}) (hown : ∀ key ∉ ignoredMdKeys, OwnAt A B key) :
    compare dump sortJson ignoredMdKeys order mode A B = .ok [] ↔ compare dump sortJson ignoredMdKeys order mode B A = .ok [] := by
  have hglobals : GlobalsAlike dump ignoredMdKeys mode A B ↔ GlobalsAlike dump ignoredMdKeys mode B A :=
    forall_congr' fun _ => forall_congr' fun key => forall_congr' fun hk => globalAlike_comm hA hB hkA hkB hdump (hown key hk)
  rw [compare_eq_nil_iff dump sortJson ignoredMdKeys order mode hA hB, compare_eq_nil_iff dump sortJson ignoredMdKeys order mode hB hA,
    hglobals, and_comm (a := Readable mode A)]
  exact and_congr_right fun _ => and_congr_right fun _ => ⟨.symm _ _ _ _ _, .symm _ _ _ _ _⟩

/-- The comparison reports the entry function by its name iff the rest can be read and the ids that are
resolved in the wrong graph do no harm; all of the verdict is about functions iff there are no such ids. -/
theorem aboutFunctions_iff (A B : Callgraph) (hmode : mode.ignoreGlobalMetadata = false) (hkey : "entryFunction" ∉ ignoredMdKeys)
    (hA : A.Wf) (hB : B.Wf) (hkA : A.MetaKeyed) (hkB : B.MetaKeyed) (hliveA : A.EntryLive) (hliveB : B.EntryLive)
    (hdump : Set.InjOn dump {j | j ∈ printedGlobals A B}) :
    (Decides dump sortJson ignoredMdKeys order mode A B (entryFunctionName A ≠ entryFunctionName B) ↔
        RestReadable dump ignoredMdKeys mode A B ∧ EntryAligned A B) ∧
      (AboutFunctions dump sortJson ignoredMdKeys order mode A B ↔
        RestReadable dump ignoredMdKeys mode A B ∧ ∀ key ∉ ignoredMdKeys, OwnAt A B key) := by
  have hverdict : Decides dump sortJson ignoredMdKeys order mode A B (entryFunctionName A ≠ entryFunctionName B) ↔
      RestReadable dump ignoredMdKeys mode A B ∧ EntryAligned A B := by
    rw [decides_iff dump sortJson ignoredMdKeys order mode hmode hkey hA hB, entryAligned_iff hkA hkB hliveA hliveB hdump]
  refine ⟨hverdict, ?_⟩
  have hentry : EntryAligned A B → GlobalReadable dump A B "entryFunction" ∧
      (GlobalDiffers dump A B "entryFunction" ↔ entryFunctionName A ≠ entryFunctionName B) :=
    (entryAligned_iff hkA hkB hliveA hliveB hdump).mpr
  have hread : RestReadable dump ignoredMdKeys mode A B → EntryAligned A B → ∀ key ∉ ignoredMdKeys, GlobalReadable dump A B key := by
    intro hrest haligned key hk
    by_cases he : key = "entryFunction"
    · rw [he]; exact (hentry haligned).1
    · exact hrest.globals key hk he
  constructor
  · intro h
    obtain ⟨hrest, haligned⟩ := hverdict.mp h.verdict
    exact ⟨hrest, (ownIdsOnly_iff dump ignoredMdKeys mode hmode (hread hrest haligned)).mp h.ownIds⟩
  · rintro ⟨hrest, hown⟩
    have haligned := entryAligned_of_own hkA hkB (hown _ hkey)
    have hreadable := hread hrest haligned
    refine ⟨hverdict.mpr ⟨hrest, haligned⟩, fun A' B' f h hfA hfB => ?_,
      compare_nil_comm dump sortJson ignoredMdKeys order mode hA hB hkA hkB hdump hown,
      (ownIdsOnly_iff dump ignoredMdKeys mode hmode hreadable).mpr hown⟩
    rw [decides_iff dump sortJson ignoredMdKeys order mode hmode hkey hfA.wf hfB.wf]
    have hglobal := fun key hk => hfA.global hfB (hown key hk) (hreadable key hk)
    refine ⟨⟨hfA.readable hA hrest.nodesA, hfB.readable hB hrest.nodesB, fun key hk _ => (hglobal key hk).2.1⟩,
      (hglobal _ hkey).2.1, ?_⟩
    rw [(hglobal _ hkey).2.2]
    exact (hentry haligned).2

end
/-- Names are printed in quotation marks. -/
def dumpName : Json → String
  | .str s => "\"" ++ s ++ "\""
  | _ => ""

/-- `main` is the entry function. -/
def mainEntry : Callgraph := Callgraph.run 0 [.insert "main" none false true, .addMetaData (.entryFunction ⟨some 0⟩)]

def mainOnly : Callgraph := Callgraph.run 0 [.insert "main" none false true]

/-- `main` is inserted before `foo` and is the entry function. -/
def mainThenFoo : Callgraph := Callgraph.run 0 [.insert "main" none false true, .insert "foo" none false true,
  .addMetaData (.entryFunction ⟨some 0⟩)]

/-- `main` is inserted after `foo` and is the entry function. -/
def fooThenMain : Callgraph := Callgraph.run 0 [.insert "foo" none false true, .insert "main" none false true,
  .addMetaData (.entryFunction ⟨some 1⟩)]

theorem aboutFunctions_mainEntry : AboutFunctions dumpName id [] Dot.dedupOrder noFlags mainEntry mainOnly := by
  have hdump : Set.InjOn dumpName {j | j ∈ printedGlobals mainEntry mainOnly} := by
    have hprinted : printedGlobals mainEntry mainOnly = [.str "main", .str "main"] := rfl
    rw [hprinted]
    intro j hj j' hj' _
    have hone : ∀ {j : Json}, j ∈ [Json.str "main", Json.str "main"] → j = .str "main" := by simp
    rw [hone hj, hone hj']
  have hentry : mainEntry.EntryLive := by
    intro i hi
    cases hi
    decide
  have hown : ∀ key ∉ ([] : List String), OwnAt mainEntry mainOnly key := by
    intro key _
    unfold OwnAt
    rw [show mainOnly.metaFields.lookup key = none from rfl]
    cases mainEntry.metaFields.lookup key <;> trivial
  refine (aboutFunctions_iff dumpName id [] Dot.dedupOrder noFlags mainEntry mainOnly rfl (by decide) (Callgraph.run_wf 0 _)
    (Callgraph.run_wf 0 _) (by decide) (by decide) hentry (fun i hi => by cases hi) hdump).2.mpr ⟨?_, hown⟩
  exact {
    nodesA := readable_of_refsLive _ (by decide) (by decide)
    nodesB := readable_of_refsLive _ (by decide) (by decide)
    globals := fun key hk _ => globalReadable_of_own (by decide) (by decide) (hown key hk) }

/-- The entry functions are the same, but the id 1 of the first graph is resolved in the second. -/
theorem compare_fooThenMain : fooThenMain.NoErased ∧ mainThenFoo.NoErased ∧ fooThenMain.EntryLive ∧ mainThenFoo.EntryLive ∧
    entryFunctionName fooThenMain = some "main" ∧ entryFunctionName mainThenFoo = some "main" ∧
      ∃ diffs, compare dumpName id [] Dot.dedupOrder noFlags fooThenMain mainThenFoo = .ok diffs ∧
        Reported diffs "entryFunction" := by
  have hfirst : fooThenMain.EntryLive := by
    intro i hi
    cases hi
    decide
  have hsecond : mainThenFoo.EntryLive := by
    intro i hi
    cases hi
    decide
  exact ⟨by decide, by decide, hfirst, hsecond, by decide, by decide, _, rfl, _, List.mem_cons_self .., rfl⟩

end MetaCG.CGDiff
