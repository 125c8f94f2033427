import Mathlib.Data.List.Permutation
import MetaCG.Tools.CountedDepths

/-! The loop metadata of the merged file and the order of the input files.

What an order of the files passes over has to be matched by what it counts: for the loop call depths,
for the nests that the global depths are made of, and for the pass that computes them. -/
namespace MetaCG.FormatTwo
open Foundations
set_option autoImplicit false
set_option maxHeartbeats 250000
set_option maxRecDepth 120000

/-! ## What the inputs say in an order -/

/-- `f` calls `c` in loops of depth `d`, by the occurrences that are counted. -/
def CountedCalls (cgs : List CG) (f c : String) (d : ℤ) : Prop :=
  IsGreatest {x | ∃ v, Counted cgs f v ∧ v.Lists c x} d ∨
    ((∀ x v, Counted cgs f v → ¬ v.Lists c x) ∧
      ((∃ v ∈ occurrences cgs f, v.hasBody = true ∧ c ∈ v.callees) ∨ ∃ v ∈ (occurrences cgs f).head?, c ∈ v.callees) ∧ d = 0)

/-- The loops of the leading occurrence. -/
def LeadingLoops (cgs : List CG) (f : String) (d : ℤ) : Prop :=
  ∃ v, leading (occurrences cgs f) = some v ∧ v.info.loopDepth = .value d

/-- The nests that decide the global depth of `f`. -/
def CountedNest (cgs : List CG) (f : String) (x : ℤ) : Prop :=
  GlobalNest (CountedCalls cgs) (LeadingLoops cgs) (occurrences cgs "main" ≠ []) f x

/-- No file has pointer-equivalence data. -/
def Pointerless (files : List InputFile) : Prop := ∀ file ∈ files, file.pointerEquivalenceData = none

abbrev graphs (files : List InputFile) : List CG := files.map InputFile.cg

/-! ## Independence of the order -/

/-- `loopCallDepth` and `globalLoopDepth` of a function. -/
def loopData (cg : CG) (f : String) : Option (Option Depths × Option ℤ) :=
  (cg.find f).map fun n => (n.info.loopCallDepth, n.info.globalLoopDepth)

/-- The run ends with the pass that computes the global depths. -/
def ComputesDepths (fuel : ℕ) (files : List InputFile) : Prop :=
  ∃ st, files.foldlM (mergeFile fuel) .initial = .ok st ∧ st.hasLoopInfo = true ∧ st.hasAAInfo = false

/-- In all orders of the files the results have the same loop data, and the global depths are computed
where there is no pointer data. -/
structure OrderFree (files : List InputFile) : Prop where
  same : ∀ order order', order.Perm files → order'.Perm files → ∀ w w' fuel fuel' r r',
    mergeFileFormatTwo w fuel order = .ok r → mergeFileFormatTwo w' fuel' order' = .ok r' → loopData r.cg = loopData r'.cg
  computed : Pointerless files → ∀ order, order.Perm files → ∀ w fuel r, mergeFileFormatTwo w fuel order = .ok r →
    ∀ f, (r.cg.find f).isSome = true → ComputesDepths fuel order

/-- Every order of the files has a result. -/
def Returns (files : List InputFile) : Prop :=
  ∀ order, order.Perm files → ∃ fuel, ∀ w, ∃ r, mergeFileFormatTwo w fuel order = .ok r

/-- In all orders the counted chains from `main` lead to functions of the files and their nests fit into an
`int`; pointer data can be merged in all orders. -/
structure CountedFits (files : List InputFile) : Prop where
  nests : Pointerless files → ∀ order, order.Perm files → Opened (graphs order) → occurrences (graphs files) "main" ≠ [] →
    Fits (CountedCalls (graphs order)) (LeadingLoops (graphs order)) (fun f => occurrences (graphs files) f ≠ []) ∅ "main"
  pointers : ¬ Pointerless files → ∀ order : List InputFile, order.Perm files →
    ∃ fuel st, order.foldlM (mergeFile fuel) .initial = .ok st

/-- An order can make `v` the leading occurrence. -/
def Leads (l : List Node) (v : Node) : Prop := v ∈ l ∧ (v.hasBody = true ∨ ∀ x ∈ l, x.hasBody = false)

/-- The occurrences of a function that can give its loop depth agree on it, and no occurrence without
body has callees. -/
structure BodiesAgree (cgs : List CG) : Prop where
  bodies : ∀ f u v, Leads (occurrences cgs f) u → Leads (occurrences cgs f) v → u.info.loopDepth = v.info.loopDepth
  bodiless : ∀ f, ∀ v ∈ occurrences cgs f, v.hasBody = false → v.callees = ∅

/-! ## The merged graph -/

section
variable {cgs : List CG}

theorem loopState_mergeGraphs (h : ∀ cg ∈ cgs, Looped cg) :
    LoopState cgs (mergeGraphs cgs).hasLoopInfo (mergeGraphs cgs).wholeCG := by
  induction cgs using List.reverseRecOn with
  | nil => exact .initial
  | append_singleton cgs cg ih =>
    rw [mergeGraphs_concat]
    have hcgs : ∀ x ∈ cgs, Looped x := fun x hx => h x (List.mem_append_left _ hx)
    exact (ih hcgs).mergeGraph hcgs (h cg (List.mem_append_right _ (List.mem_singleton_self cg)))

/-- The calls of the merged graph are those that are counted. -/
theorem calls_mergedGraph (h : ∀ cg ∈ cgs, Looped cg) : Calls (mergedGraph cgs) = CountedCalls cgs := by
  funext f c d
  rw [eq_iff_iff]
  rcases find_mergedGraph cgs f with ⟨hnone, hocc⟩ | ⟨n, fi, hn, hc, hgath, -⟩
  · have hcounted : ∀ v, ¬ Counted cgs f v := by
      intro v hv
      have hmem := hv.mem_occurrences
      rw [hocc] at hmem
      cases hmem
    unfold Calls CountedCalls
    simp [hnone, hocc, hcounted, IsGreatest]
  · obtain ⟨m, hm, hrec⟩ := ((loopState_mergeGraphs h).entry f n hc).loopCallDepth
    have hcallees := hgath.callees c
    unfold Calls CountedCalls
    simp only [hn, Option.some.injEq, exists_and_left, exists_eq_left', hm, hcallees, hrec.find_iff, hrec.find_none_iff]
    simp only [not_exists, not_and]

theorem loops_mergedGraph (h : ∀ cg ∈ cgs, Looped cg) : Loops (mergedGraph cgs) = LeadingLoops cgs := by
  funext f d
  rw [eq_iff_iff]
  rcases find_mergedGraph cgs f with ⟨hnone, hocc⟩ | ⟨n, fi, hn, hc, -, -⟩
  · unfold Loops LeadingLoops
    simp [hnone, hocc, leading]
  · obtain ⟨v, hv, hdepth⟩ := ((loopState_mergeGraphs h).entry f n hc).loopDepth
    unfold Loops LeadingLoops
    simp only [hn, hv, Option.some.injEq, exists_eq_left', hdepth]

end

/-! ## The result of an order -/

theorem Pointerless.perm {files order : List InputFile} (h : Pointerless files) (hp : order.Perm files) : Pointerless order :=
  fun file hfile => h file (hp.mem_iff.mp hfile)

theorem looped_perm {files order : List InputFile} (h : ∀ file ∈ files, Looped file.cg) (hp : order.Perm files) :
    ∀ file ∈ order, Looped file.cg := fun file hfile => h file (hp.mem_iff.mp hfile)

theorem looped_graphs {files : List InputFile} (h : ∀ file ∈ files, Looped file.cg) : ∀ cg ∈ graphs files, Looped cg := by
  intro cg hcg
  obtain ⟨file, hfile, rfl⟩ := List.mem_map.mp hcg
  exact h file hfile

/-- The loop data of a result are those of the state after the files, but for the global depths where
these have been computed. -/
structure FromState (files : List InputFile) (st : MergeState) (r : WholeCGFinal) : Prop where
  state : LoopState (graphs files) st.hasLoopInfo st.wholeCG
  pointers : st.hasAAInfo = false ↔ Pointerless files
  calls : ∀ f, (r.cg.find f).map (fun n => n.info.loopCallDepth) = (st.wholeCG.find f).map fun c => c.info.loopCallDepth
  carried : ¬ (st.hasLoopInfo = true ∧ st.hasAAInfo = false) → ∀ f,
    (r.cg.find f).map (fun n => n.info.globalLoopDepth) = (st.wholeCG.find f).map fun c => c.info.globalLoopDepth

theorem map_withOverrides {α : Type} (get : MetaInfo → α) (functionInfoMap : FuncMap) (cg : CG) (f : String) :
    ((withOverrides functionInfoMap cg).find f).map (fun n => get n.info) = (cg.find f).map fun c => get c.info := by
  rw [find_withOverrides, Option.map_map]
  congr 1
  funext c
  rw [Function.comp_apply]
  split <;> rfl

theorem fromState {w : Walk} {fuel : ℕ} {files : List InputFile} (hfiles : ∀ file ∈ files, Looped file.cg) {r : WholeCGFinal}
    (h : mergeFileFormatTwo w fuel files = .ok r) :
    ∃ st, files.foldlM (mergeFile fuel) .initial = .ok st ∧ FromState files st r := by
  obtain ⟨st, hst, h⟩ := bind_eq_ok.mp h
  obtain ⟨hstate, hdata⟩ := loopState_mergeFiles hfiles hst
  obtain ⟨cg, hcg, h⟩ := bind_eq_ok.mp h
  cases h
  refine ⟨st, hst, hstate, ?_, fun f => ?_, fun hno f => ?_⟩
  · rw [← Bool.not_eq_true, hdata, Pointerless]
    simp
  · refine Eq.trans ?_ (map_withOverrides MetaInfo.loopCallDepth st.functionInfoMap st.wholeCG f)
    split_ifs at hcg
    · cases hdepth : calculateGlobalCallDepth w (withOverrides st.functionInfoMap st.wholeCG) true with
      | error e => rw [hdepth] at hcg; cases hcg
      | ok cg' =>
        rw [hdepth] at hcg
        cases hcg
        obtain ⟨depths, rfl⟩ := calculateGlobalCallDepth_eq_ok hdepth
        rw [OMap.find_mapValues, Option.map_map]
        congr 1
        funext n
        rw [Function.comp_apply, globalLoopDepth]
        split <;> rfl
    · cases hcg
      rfl
  · rw [if_neg (by simpa using hno)] at hcg
    cases hcg
    exact map_withOverrides MetaInfo.globalLoopDepth st.functionInfoMap st.wholeCG f

/-- Where the flag is set the global depth of a function is that of its deepest counted nest. -/
theorem globalLoopDepth_result {w : Walk} {fuel : ℕ} {files : List InputFile} (hfiles : ∀ file ∈ files, Looped file.cg)
    (hdata : Pointerless files) (hopen : Opened (graphs files)) {r : WholeCGFinal}
    (h : mergeFileFormatTwo w fuel files = .ok r) {f : String} {n : Node} (hn : r.cg.find f = some n) :
    ∃ x, n.info.globalLoopDepth = some x ∧ IsGreatest {x | CountedNest (graphs files) f x} x := by
  have hcgs := looped_graphs hfiles
  have hflag : (mergeGraphs (graphs files)).hasLoopInfo = true := (loopState_mergeGraphs hcgs).flag.mpr hopen
  rw [mergeFileFormatTwo_eq hdata, if_pos hflag] at h
  obtain ⟨cg, hcg, h⟩ := bind_eq_ok.mp h
  cases h
  cases hdepth : calculateGlobalCallDepth w (mergedGraph (graphs files)) true with
  | error e => rw [hdepth] at hcg; cases hcg
  | ok cg' =>
    rw [hdepth] at hcg
    cases hcg
    have hgreatest := calculateGlobalCallDepth_isGreatest hdepth hn
    rw [calls_mergedGraph hcgs, loops_mergedGraph hcgs, isSome_mergedGraph] at hgreatest
    exact hgreatest

/-- The entries of the state after the files. -/
theorem LoopState.find_eq_none_iff {cgs : List CG} {b : Bool} {g : CG} (h : LoopState cgs b g) (f : String) :
    g.find f = none ↔ occurrences cgs f = [] := by
  refine ⟨h.absent f, fun hocc => ?_⟩
  cases hc : g.find f with
  | none => rfl
  | some c => exact absurd hocc (h.entry f c hc).occurs

theorem FromState.find_eq_none_iff {files : List InputFile} {st : MergeState} {r : WholeCGFinal} (h : FromState files st r)
    (f : String) : r.cg.find f = none ↔ occurrences (graphs files) f = [] := by
  rw [← h.state.find_eq_none_iff, ← Option.map_eq_none_iff, h.calls f, Option.map_eq_none_iff]

/-- The loop data of a function of the result. -/
theorem FromState.exists_find {files : List InputFile} {st : MergeState} {r : WholeCGFinal} (h : FromState files st r)
    {f : String} (hf : occurrences (graphs files) f ≠ []) :
    ∃ n m, r.cg.find f = some n ∧ n.info.loopCallDepth = some m ∧
      Records .empty (fun g d => ∃ v, Counted (graphs files) f v ∧ v.Lists g d) m ∧
      (¬ (Opened (graphs files) ∧ Pointerless files) → ∃ v, (occurrences (graphs files) f).head? = some v ∧
        n.info.globalLoopDepth = v.info.globalLoopDepth) := by
  have hcalls := h.calls f
  have hcarried := fun hno => h.carried hno f
  cases hn : r.cg.find f with
  | none => exact absurd ((h.find_eq_none_iff f).mp hn) hf
  | some n =>
    cases hc : st.wholeCG.find f with
    | none => exact absurd ((h.state.find_eq_none_iff f).mp hc) hf
    | some c =>
      rw [hn, hc, Option.map_some, Option.map_some, Option.some.injEq] at hcalls
      rw [hn, hc, Option.map_some, Option.map_some, Option.some.injEq] at hcarried
      obtain ⟨m, hm, hrec⟩ := (h.state.entry f c hc).loopCallDepth
      obtain ⟨v, hv, hglobal⟩ := (h.state.entry f c hc).globalLoopDepth
      refine ⟨n, m, rfl, hcalls.trans hm, hrec, fun hno => ⟨v, hv, (hcarried ?_).trans hglobal⟩⟩
      rw [h.state.flag, h.pointers]
      exact hno

theorem occurs_perm {files order : List InputFile} (hp : order.Perm files) {f : String}
    (hf : occurrences (graphs files) f ≠ []) : occurrences (graphs order) f ≠ [] := by
  intro hnil
  have hperm := occurrences_perm (hp.map InputFile.cg) f
  rw [hnil] at hperm
  exact hf hperm.symm.eq_nil

/-! ## Orders with a result -/

theorem Returns.run {files order : List InputFile} (h : Returns files) (hp : order.Perm files) :
    ∃ w fuel r, mergeFileFormatTwo w fuel order = .ok r := by
  obtain ⟨fuel, hall⟩ := h order hp
  exact ⟨⟨id, fun l => List.Perm.refl l⟩, fuel, hall _⟩

theorem occurs_perm_iff {files order : List InputFile} (hp : order.Perm files) (f : String) :
    occurrences (graphs order) f ≠ [] ↔ occurrences (graphs files) f ≠ [] :=
  ⟨occurs_perm hp.symm, occurs_perm hp⟩

/-- Without pointer data an order has a result exactly if what it counts fits. -/
theorem mergeFileFormatTwo_counted {files order : List InputFile} (hfiles : ∀ file ∈ files, Looped file.cg)
    (hdata : Pointerless files) (hp : order.Perm files) (w : Walk) (fuel : ℕ) :
    (∃ r, mergeFileFormatTwo w fuel order = .ok r) ↔ (Opened (graphs order) → occurrences (graphs files) "main" ≠ [] →
      Fits (CountedCalls (graphs order)) (LeadingLoops (graphs order)) (fun f => occurrences (graphs files) f ≠ []) ∅ "main") := by
  have hcgs := looped_graphs (looped_perm hfiles hp)
  have hflag : (mergeGraphs (graphs order)).hasLoopInfo = true ↔ Opened (graphs order) := (loopState_mergeGraphs hcgs).flag
  rw [mergeFileFormatTwo_returns w fuel (hdata.perm hp) hcgs, hflag, calls_mergedGraph hcgs, loops_mergedGraph hcgs]
  simp only [occurs_perm_iff hp]

/-- Files with pointer data have a result where this data can be merged. -/
theorem mergeFileFormatTwo_pointers {files order : List InputFile} (hfiles : ∀ file ∈ files, Looped file.cg)
    (hdata : ¬ Pointerless files) (hp : order.Perm files) (w : Walk) (fuel : ℕ) :
    (∃ r, mergeFileFormatTwo w fuel order = .ok r) ↔ ∃ st, order.foldlM (mergeFile fuel) .initial = .ok st := by
  rw [mergeFileFormatTwo]
  constructor
  · rintro ⟨r, hr⟩
    obtain ⟨st, hst, -⟩ := bind_eq_ok.mp hr
    exact ⟨st, hst⟩
  · rintro ⟨st, hst⟩
    have hpointers : st.hasAAInfo = true := by
      rw [(loopState_mergeFiles (looped_perm hfiles hp) hst).2]
      by_contra hno
      simp only [not_exists, not_and, Bool.not_eq_true, Option.isSome_eq_false_iff, Option.isNone_iff_eq_none] at hno
      exact hdata fun file hfile => hno file (hp.mem_iff.mpr hfile)
    rw [hst, ok_bind, finish, hpointers, Bool.not_true, Bool.and_false, if_neg Bool.false_ne_true]
    exact ⟨_, rfl⟩

theorem returns_iff {files : List InputFile} (hfiles : ∀ file ∈ files, Looped file.cg) : Returns files ↔ CountedFits files := by
  constructor
  · intro h
    refine ⟨fun hdata order hp => ?_, fun hdata order hp => ?_⟩
    · obtain ⟨w, fuel, hr⟩ := h.run hp
      exact (mergeFileFormatTwo_counted hfiles hdata hp w fuel).mp hr
    · obtain ⟨w, fuel, hr⟩ := h.run hp
      exact ⟨fuel, (mergeFileFormatTwo_pointers hfiles hdata hp w fuel).mp hr⟩
  · intro h order hp
    by_cases hdata : Pointerless files
    · exact ⟨0, fun w => (mergeFileFormatTwo_counted hfiles hdata hp w 0).mpr (h.nests hdata order hp)⟩
    · obtain ⟨fuel, hst⟩ := h.pointers hdata order hp
      exact ⟨fuel, fun w => (mergeFileFormatTwo_pointers hfiles hdata hp w fuel).mpr hst⟩

/-! ## Orders that agree -/

section
variable {files order order' : List InputFile}

end

/-! ## What agreeing orders imply -/

/-- Every occurrence is the first one in some order. -/
theorem exists_order_first {files : List InputFile} {f : String} {v : Node} (hv : v ∈ occurrences (graphs files) f) :
    ∃ order, order.Perm files ∧ Counted (graphs order) f v ∧ (occurrences (graphs order) f).head? = some v := by
  obtain ⟨cg, hcg, hfind⟩ := mem_occurrences.mp hv
  obtain ⟨file, hfile, rfl⟩ := List.mem_map.mp hcg
  obtain ⟨l, l', rfl⟩ := List.append_of_mem hfile
  refine ⟨file :: (l ++ l'), List.perm_middle.symm, ⟨[], file.cg, graphs (l ++ l'), rfl, hfind, .inl rfl⟩, ?_⟩
  simp [occurrences, hfind]

section
variable {files : List InputFile}

theorem OrderFree.calls (h : OrderFree files) (hreturns : Returns files) (hfiles : ∀ file ∈ files, Looped file.cg)
    {order : List InputFile} (hp : order.Perm files) {f : String} {v : Node} (hv : v ∈ occurrences (graphs order) f) {g : String}
    {d : ℤ} (hd : v.Lists g d) : ∃ u e, Counted (graphs order) f u ∧ u.Lists g e ∧ d ≤ e := by
  have hocc := (occurrences_perm (hp.map InputFile.cg) f).mem_iff.mp hv
  obtain ⟨order', hp', hcounted, -⟩ := exists_order_first hocc
  obtain ⟨w, fuel, r, hrun⟩ := hreturns.run hp
  obtain ⟨w', fuel', r', hrun'⟩ := hreturns.run hp'
  obtain ⟨st, -, hr⟩ := fromState (looped_perm hfiles hp) hrun
  obtain ⟨st', -, hr'⟩ := fromState (looped_perm hfiles hp') hrun'
  have hne : occurrences (graphs files) f ≠ [] := List.ne_nil_of_mem hocc
  obtain ⟨n, m, hn, hm, hrec, -⟩ := hr.exists_find (occurs_perm hp hne)
  obtain ⟨n', m', hn', hm', hrec', -⟩ := hr'.exists_find (occurs_perm hp' hne)
  have hsame := congrFun (h.same order order' hp hp' w w' fuel fuel' r r' hrun hrun') f
  simp only [loopData, hn, hn', Option.map_some, Option.some.injEq, Prod.mk.injEq, hm, hm'] at hsame
  obtain ⟨e, he, hde⟩ := hrec'.found g d ⟨v, hcounted, hd⟩
  rw [← hsame.1] at he
  obtain ⟨u, hu, hlists⟩ := (hrec.source g e he).resolve_left (by simp)
  exact ⟨u, e, hu, hlists, hde⟩

theorem OrderFree.opened (h : OrderFree files) (hreturns : Returns files) (hfiles : ∀ file ∈ files, Looped file.cg)
    (hdata : Pointerless files) {order : List InputFile} (hp : order.Perm files) {f : String}
    (hf : occurrences (graphs files) f ≠ []) : Opened (graphs order) := by
  obtain ⟨w, fuel, r, hrun⟩ := hreturns.run hp
  obtain ⟨st, hst, hr⟩ := fromState (looped_perm hfiles hp) hrun
  obtain ⟨n, -, hn, -⟩ := hr.exists_find (occurs_perm hp hf)
  obtain ⟨st', hst', hflag, -⟩ := h.computed hdata order hp w fuel r hrun f (by rw [hn]; rfl)
  rw [hst] at hst'
  cases hst'
  exact hr.state.flag.mp hflag

theorem OrderFree.nests (h : OrderFree files) (hreturns : Returns files) (hfiles : ∀ file ∈ files, Looped file.cg)
    (hdata : Pointerless files) {order order' : List InputFile} (hp : order.Perm files) (hp' : order'.Perm files) {f : String}
    (hf : occurrences (graphs files) f ≠ []) {x : ℤ} (hx : CountedNest (graphs order) f x) :
    ∃ y, CountedNest (graphs order') f y ∧ x ≤ y := by
  obtain ⟨w, fuel, r, hrun⟩ := hreturns.run hp
  obtain ⟨w', fuel', r', hrun'⟩ := hreturns.run hp'
  obtain ⟨st, -, hr⟩ := fromState (looped_perm hfiles hp) hrun
  obtain ⟨st', -, hr'⟩ := fromState (looped_perm hfiles hp') hrun'
  obtain ⟨n, m, hn, -⟩ := hr.exists_find (occurs_perm hp hf)
  obtain ⟨n', m', hn', -⟩ := hr'.exists_find (occurs_perm hp' hf)
  obtain ⟨y, hy, hgreatest⟩ := globalLoopDepth_result (looped_perm hfiles hp) (hdata.perm hp)
    (h.opened hreturns hfiles hdata hp hf) hrun hn
  obtain ⟨y', hy', hgreatest'⟩ := globalLoopDepth_result (looped_perm hfiles hp') (hdata.perm hp')
    (h.opened hreturns hfiles hdata hp' hf) hrun' hn'
  have hsame := congrFun (h.same order order' hp hp' w w' fuel fuel' r r' hrun hrun') f
  simp only [loopData, hn, hn', Option.map_some, Option.some.injEq, Prod.mk.injEq, hy, hy'] at hsame
  refine ⟨y', hgreatest'.1, ?_⟩
  rw [← hsame.2]
  exact hgreatest.2 hx

theorem OrderFree.carried (h : OrderFree files) (hreturns : Returns files) (hfiles : ∀ file ∈ files, Looped file.cg)
    (hdata : ¬ Pointerless files) {f : String} {u v : Node} (hu : u ∈ occurrences (graphs files) f)
    (hv : v ∈ occurrences (graphs files) f) : u.info.globalLoopDepth = v.info.globalLoopDepth := by
  have hne : occurrences (graphs files) f ≠ [] := List.ne_nil_of_mem hu
  have hfirst : ∀ {x : Node}, x ∈ occurrences (graphs files) f → ∃ order w fuel r, order.Perm files ∧
      mergeFileFormatTwo w fuel order = .ok r ∧ (loopData r.cg f).map Prod.snd = some x.info.globalLoopDepth := by
    intro x hx
    obtain ⟨order, hp, -, hhead⟩ := exists_order_first hx
    obtain ⟨w, fuel, r, hrun⟩ := hreturns.run hp
    obtain ⟨st, -, hr⟩ := fromState (looped_perm hfiles hp) hrun
    obtain ⟨n, m, hn, -, -, hcarried⟩ := hr.exists_find (occurs_perm hp hne)
    obtain ⟨y, hy, hny⟩ := hcarried fun hd => hdata (hd.2.perm hp.symm)
    rw [hhead] at hy
    cases hy
    exact ⟨order, w, fuel, r, hp, hrun, by rw [loopData, hn, Option.map_some, Option.map_some, hny]⟩
  obtain ⟨order, w, fuel, r, hp, hrun, hru⟩ := hfirst hu
  obtain ⟨order', w', fuel', r', hp', hrun', hrv⟩ := hfirst hv
  rw [h.same order order' hp hp' w w' fuel fuel' r r' hrun hrun', hrv] at hru
  exact (Option.some.inj hru).symm

end

/-! ## Bodies that agree -/

theorem leading_leads {l : List Node} {v : Node} (h : leading l = some v) : Leads l v := by
  refine ⟨leading_mem h, ?_⟩
  rcases Option.or_eq_some_iff.mp h with h | ⟨h, -⟩
  · exact .inl (List.find?_some h)
  · right
    simpa using h

theorem Leads.perm {l l' : List Node} {v : Node} (h : Leads l v) (hp : l.Perm l') : Leads l' v :=
  ⟨hp.mem_iff.mp h.1, h.2.imp_right fun hall x hx => hall x (hp.mem_iff.mpr hx)⟩

theorem leading_isSome {l : List Node} (h : l ≠ []) : ∃ v, leading l = some v := by
  obtain ⟨u, l, rfl⟩ := List.exists_cons_of_ne_nil h
  unfold leading
  cases (u :: l).find? Node.hasBody with
  | none => exact ⟨u, rfl⟩
  | some v => exact ⟨v, rfl⟩

section
variable {files order order' : List InputFile}

theorem BodiesAgree.loops (h : BodiesAgree (graphs files)) (hp : order.Perm files) (hp' : order'.Perm files) {f : String} {d : ℤ}
    (hd : LeadingLoops (graphs order) f d) : LeadingLoops (graphs order') f d := by
  obtain ⟨v, hv, hdepth⟩ := hd
  have hperm := occurrences_perm (hp.map InputFile.cg) f
  have hperm' := occurrences_perm (hp'.map InputFile.cg) f
  have hmem := hperm.mem_iff.mp (leading_mem hv)
  obtain ⟨v', hv'⟩ := leading_isSome (List.ne_nil_of_mem (hperm'.mem_iff.mpr hmem))
  refine ⟨v', hv', ?_⟩
  rw [h.bodies f v' v ((leading_leads hv').perm hperm') ((leading_leads hv).perm hperm)]
  exact hdepth

/-- Where only bodies have callees, the callees that are counted are those of all occurrences. -/
theorem BodiesAgree.callees (h : BodiesAgree (graphs files)) (hp : order.Perm files) (f c : String) :
    ((∃ v ∈ occurrences (graphs order) f, v.hasBody = true ∧ c ∈ v.callees) ∨
      ∃ v ∈ (occurrences (graphs order) f).head?, c ∈ v.callees) ↔ ∃ v ∈ occurrences (graphs files) f, c ∈ v.callees := by
  have hperm := occurrences_perm (hp.map InputFile.cg) f
  constructor
  · rintro (⟨v, hv, -, hc⟩ | ⟨v, hv, hc⟩)
    · exact ⟨v, hperm.mem_iff.mp hv, hc⟩
    · exact ⟨v, hperm.mem_iff.mp (List.mem_of_mem_head? hv), hc⟩
  · rintro ⟨v, hv, hc⟩
    refine .inl ⟨v, hperm.mem_iff.mpr hv, ?_, hc⟩
    by_contra hno
    rw [h.bodiless f v hv (Bool.not_eq_true _ ▸ hno)] at hc
    exact Finset.notMem_empty c hc

end

/-! ## Orders of the files -/

end MetaCG.FormatTwo
