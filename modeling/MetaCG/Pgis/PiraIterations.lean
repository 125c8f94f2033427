import MetaCG.Pgis.AttachResults
import MetaCG.Pgis.Restart

/-! Running PGIS again and again (`PGISMain.cpp`).

A process reads the call graph that the process before it wrote, reads a profile, attaches the results, selects functions and
stores the selection. Here these are steps that may come in any order. What the phases that select functions do is left open,
as long as they leave profiles and results alone. A restart may number the functions anew, so statements follow a function by
its name. Visits and times add up as in `CubeReader.lean`, without rounding. -/
namespace MetaCG.Pgis.Profile
open Foundations Analysis
set_option autoImplicit false
set_option maxHeartbeats 250000
set_option maxRecDepth 120000

inductive Event where
  | readCube (cube : Cube)
  | attach
  | select
  | store
  | restart

/-- The phases that select functions leave profiles and results alone. -/
structure Selects (d d' : NodeData) : Prop where
  baseProfile : d'.baseProfile = d.baseProfile
  instrumentationResult : d'.instrumentationResult = d.instrumentationResult
  comesFromCube : d'.comesFromCube = d.comesFromCube

inductive Step : Event → Profiled → Profiled → Prop where
  | readCube {st st' : Profiled} (cube : Cube) (h : buildFromCube cube st = .ok st') : Step (.readCube cube) st st'
  | attach {g : Callgraph} {md md' : Store} {order : List ℕ → List ℕ} (hord : ∀ l, (order l).Perm l)
      (h : attachInstrumentationResults order g md = .ok md') : Step .attach ⟨g, md⟩ ⟨g, md'⟩
  | select {g : Callgraph} {md md' : Store} (h : ∀ n, Selects (md n) (md' n)) : Step .select ⟨g, md⟩ ⟨g, md'⟩
  | store {g : Callgraph} {md md' : Store} (h : storeInstrumentationDecisions g md = .ok md') : Step .store ⟨g, md⟩ ⟨g, md'⟩
  | restart {st st' : Profiled} (h : Restarted st st') : Step .restart st st'

/-- A run whose steps are all allowed by `ok`. -/
inductive Run (ok : Event → Profiled → Prop) : List Event → Profiled → Profiled → Prop where
  | nil (st : Profiled) : Run ok [] st st
  | snoc {st st' st'' : Profiled} {es : List Event} {e : Event} (h : Run ok es st st') (hok : ok e st') (hstep : Step e st' st'') :
      Run ok (es ++ [e]) st st''

/-- The metadata of a function. -/
def Has (st : Profiled) (f : String) (d : NodeData) : Prop := ∃ i, st.graph.nameOf i = some f ∧ st.md i = d

/-! ## One step -/

/-- The metadata of a function after its instrumentation is stored. -/
def NodeData.stored (d : NodeData) : NodeData :=
  { d with instrumentationResult :=
      if d.isAnyInstrumented then some { d.instrumentationResult.getD .create with shouldBeInstrumented := true }
      else d.instrumentationResult.map fun r => { r with shouldBeInstrumented := false } }

/-- What the paths of the function add to a profile. -/
structure Grows (cube : Cube) (f : String) (bpd bpd' : BaseProfileData) : Prop where
  numCalls : bpd'.numCalls = bpd.numCalls + ((cube.pathsOf cube.cnodes.length f).map cube.visits).sum
  timeInSeconds : bpd'.timeInSeconds = bpd.timeInSeconds + ((cube.pathsOf cube.cnodes.length f).map cube.time).sum
  inclTimeInSeconds : bpd'.inclTimeInSeconds =
    bpd.inclTimeInSeconds + ((cube.pathsOf cube.cnodes.length f).map cube.inclusiveTime).sum

/-- What a step does to the metadata of a function. -/
def Changes (f : String) (d d' : NodeData) : Event → Prop
  | .readCube cube => d'.instrumentation = d.instrumentation ∧ d'.instrumentationResult = d.instrumentationResult ∧
      d'.piraOne = (if cube.pathsOf cube.cnodes.length f = [] then d.piraOne else (setComesFromCube d).piraOne) ∧
      ∀ bpd, d.baseProfile = some bpd → ∃ bpd', d'.baseProfile = some bpd' ∧ Grows cube f bpd bpd'
  | .attach => d' = { d.withPiraOne with instrumentationResult := d'.instrumentationResult } ∧
      (d.comesFromCube = false → d'.instrumentationResult =
        d.instrumentationResult.map fun r => if r.shouldBeInstrumented then neverRan r else r) ∧
      (d.comesFromCube = true → ∃ bpd callsFromParents sum isExclusive, d.baseProfile = some bpd ∧
        d'.instrumentationResult = some (setInclusive bpd callsFromParents sum
          (if d.instrumentationResult.any (·.isExclusiveRuntime) then d.instrumentationResult.getD .create
           else setOwnRuntime bpd isExclusive (d.instrumentationResult.getD .create))))
  | .select => Selects d d'
  | .store => d' = d.stored
  | .restart => d.reload = .ok d'

section
variable {g : Callgraph} {md md' : Store}

theorem storeInstrumentationDecisions_spec (h : storeInstrumentationDecisions g md = .ok md') (n : ℕ) :
    md' n = if n < g.nodes.length then (md n).stored else md n := by
  have hinv := foldlM_range_ok_inv (J := fun k t => ∀ n, t n = if n < k then (md n).stored else md n)
    (fun n => (if_neg (Nat.not_lt_zero n)).symm) (fun k _ t t' hJ hround n => ?_) h
  · exact hinv n
  · obtain ⟨_, _, hret⟩ := bind_eq_ok.mp hround
    cases hret
    rw [update_apply, hJ n, hJ k]
    by_cases hn : n = k
    · subst hn
      rw [if_pos rfl, if_neg (Nat.lt_irrefl n), if_pos (Nat.lt_succ_self n)]
      rfl
    · rw [if_neg hn]
      have hiff : n < k + 1 ↔ n < k := by omega
      simp only [hiff]

theorem Step.sound {e : Event} {st st' : Profiled} (h : Step e st st') (hst : Sound st) : Sound st' := by
  cases h with
  | readCube cube h =>
    have himport := (Cube.Imported.of_build hst.wf hst.single h).1.graph
    exact ⟨himport.wf, hst.single.extends himport⟩
  | attach hord h => exact ⟨hst.wf, hst.single⟩
  | select h => exact ⟨hst.wf, hst.single⟩
  | store h => exact ⟨hst.wf, hst.single⟩
  | restart h => exact ⟨h.wf, h.single⟩

/-- A function that is in the graph stays in it, and each kind of step changes its metadata in its own way. -/
theorem Step.changes {e : Event} {st st' : Profiled} (h : Step e st st') (hst : Sound st) {f : String} {d : NodeData}
    (hd : Has st f d) : ∃ d', Has st' f d' ∧ Changes f d d' e := by
  obtain ⟨i, hi, rfl⟩ := hd
  cases h with
  | readCube cube h =>
    have himport := (Cube.Imported.of_build hst.wf hst.single h).1
    have hname := himport.graph.kept i f hi
    have hfills := himport.data i f hname
    rw [Cube.start, if_pos (Callgraph.hasNode_of_nameOf hi)] at hfills
    refine ⟨_, ⟨i, hname, rfl⟩, hfills.instrumentation, hfills.instrumentationResult, hfills.piraOne, fun bpd hbpd => ?_⟩
    obtain ⟨bpd', hbpd', hadds⟩ := hfills.baseProfile bpd hbpd
    exact ⟨bpd', hbpd', hadds.numCalls, hadds.timeInSeconds, hadds.inclTimeInSeconds⟩
  | attach hord h =>
    rename_i g md md' order
    have hspec := ((Progress.of_attach hst.wf hord h).1.done i
      (Callgraph.hasNode_lt (Callgraph.hasNode_of_nameOf hi))).2
    refine ⟨md' i, ⟨i, hi, rfl⟩, hspec.others, hspec.missing, fun hcube => ?_⟩
    obtain ⟨bpd, calls, sum, isExclusive, hbpd, -, -, -, hresult⟩ := hspec.profiled hcube
    exact ⟨bpd, calls, sum, isExclusive, hbpd, hresult⟩
  | select h => exact ⟨_, ⟨i, hi, rfl⟩, h i⟩
  | store h =>
    refine ⟨_, ⟨i, hi, rfl⟩, ?_⟩
    have hspec := storeInstrumentationDecisions_spec h i
    rw [if_pos (Callgraph.hasNode_lt (Callgraph.hasNode_of_nameOf hi))] at hspec
    exact hspec
  | restart h =>
    obtain ⟨j, hj⟩ := (h.names f).mpr ⟨i, hi⟩
    exact ⟨_, ⟨j, hj, rfl⟩, h.data f i j hi hj⟩

theorem Run.sound {ok : Event → Profiled → Prop} {es : List Event} {st st' : Profiled} (h : Run ok es st st') (hst : Sound st) :
    Sound st' := by
  induction h with
  | nil => exact hst
  | snoc _ _ hstep ih => exact hstep.sound (ih hst)

/-- A property of the metadata of a function that every step keeps. -/
theorem Run.keeps {ok : Event → Profiled → Prop} {es : List Event} {st st' : Profiled} {f : String}
    {P : NodeData → Prop} (h : Run ok es st st') (hst : Sound st)
    (hstep : ∀ e s d d', ok e s → Has s f d → Changes f d d' e → P d → P d') {d : NodeData} (hd : Has st f d) (hP : P d) :
    ∃ d', Has st' f d' ∧ P d' := by
  induction h with
  | nil => exact ⟨d, hd, hP⟩
  | snoc hrun hok hs ih =>
    obtain ⟨d₁, hd₁, hP₁⟩ := ih hst hd
    obtain ⟨d₂, hd₂, hchange⟩ := hs.changes (hrun.sound hst) hd₁
    exact ⟨d₂, hd₂, hstep _ _ d₁ d₂ hok hd₁ hchange hP₁⟩

end

/-! ## One iteration of a program of two functions -/

/-- The functions `helper` and `main`; that one calls the other is only seen in a profile. -/
def bothFunctions : Callgraph := (Callgraph.empty.insertNode "helper" none false true).insertNode "main" none false true

/-- `main` calls `helper`. -/
def bothCalled : Callgraph := (bothFunctions.addEdgeInternal 1 0).2

theorem bothFunctions_wf : bothFunctions.Wf :=
  (Callgraph.Wf.empty.insertNode "helper" none false true (by decide)).insertNode "main" none false true (by decide)

theorem bothFunctions_sound (md : Store) : Sound ⟨bothFunctions, md⟩ := by
  refine ⟨bothFunctions_wf, fun name => ?_⟩
  change (bothFunctions.getNodesNamed name).length ≤ 1
  rw [bothFunctions, Callgraph.getNodesNamed_insertNode, Callgraph.getNodesNamed_insertNode, Callgraph.getNodesNamed_insertNode]
  split_ifs with hmain hmainHelper hhelper
  · exact absurd hmainHelper (by decide)
  · decide
  · decide
  · exact Nat.zero_le 1

theorem bothCalled_wf : bothCalled.Wf := by
  have h := (bothFunctions_wf.addEdgeRef_extends 0 (u := 1) (v := 0) rfl rfl).wf
  exact h

def mainPath : Cnode := ⟨"main", some 0, fun _ => 1, fun _ => 2, fun _ => 3⟩

def helperPath : Cnode := ⟨"helper", some 1, fun _ => 5, fun _ => 1, fun _ => 1⟩

/-- A node after a path of `twoCalls`. -/
def afterPath (cnode : Cnode) (pn : Option ℕ) (bpd : BaseProfileData) (d : NodeData) : NodeData :=
  { setComesFromCube d with baseProfile := some (withPath Cube.twoCalls cnode pn bpd) }

/-- The metadata of the two functions once `twoCalls` is read. -/
def readTwoCalls (d : NodeData) (bpd : BaseProfileData) : Store := fun n =>
  if n = 0 then afterPath helperPath (some 1) bpd d else if n = 1 then afterPath mainPath none bpd d else d

theorem bothFunctions_read {d : NodeData} {bpd : BaseProfileData} (hbpd : d.baseProfile = some bpd) :
    buildFromCube Cube.twoCalls ⟨bothFunctions, fun _ => d⟩ = .ok ⟨bothCalled, readTwoCalls d bpd⟩ := by
  have hpath : ∀ cnode pn, cnode = mainPath ∨ cnode = helperPath →
      applyOne Cube.twoCalls cnode pn d = .ok (afterPath cnode pn bpd d) := by
    rintro cnode pn (rfl | rfl)
    · rw [applyOne_profiled hbpd, if_neg, if_neg]
      · rfl
      · simp [Cube.twoCalls, Cube.inclusiveTime, mainPath]
      · simp [Cube.twoCalls, Cube.time, mainPath]
    · rw [applyOne_profiled hbpd, if_neg, if_neg]
      · rfl
      · simp [Cube.twoCalls, Cube.inclusiveTime, helperPath]
      · simp [Cube.twoCalls, Cube.time, helperPath]
  have hmain : readCnode Cube.twoCalls ⟨bothFunctions, fun _ => d⟩ mainPath =
      (do return ⟨bothFunctions, Function.update (fun _ => d) 1 (← applyOne Cube.twoCalls mainPath none d)⟩) := rfl
  have hhelper : ∀ d₁, readCnode Cube.twoCalls ⟨bothFunctions, Function.update (fun _ => d) 1 d₁⟩ helperPath =
      (do return ⟨bothCalled, Function.update (Function.update (fun _ => d) 1 d₁) 0
        (← applyOne Cube.twoCalls helperPath (some 1) d)⟩) := fun _ => rfl
  have hread : readCnode Cube.twoCalls ⟨bothFunctions, fun _ => d⟩ mainPath =
      .ok ⟨bothFunctions, Function.update (fun _ => d) 1 (afterPath mainPath none bpd d)⟩ := by
    rw [hmain, hpath _ _ (.inl rfl)]
    rfl
  have hlast : readCnode Cube.twoCalls ⟨bothFunctions, Function.update (fun _ => d) 1 (afterPath mainPath none bpd d)⟩ helperPath =
      .ok ⟨bothCalled, readTwoCalls d bpd⟩ := by
    rw [hhelper, hpath _ _ (.inr rfl), ok_bind]
    refine congrArg (fun md => Except.ok (⟨bothCalled, md⟩ : Profiled)) (funext fun n => ?_)
    rw [Function.update_apply, Function.update_apply]
    rfl
  change (readCnode Cube.twoCalls ⟨bothFunctions, fun _ => d⟩ mainPath >>= fun st =>
    readCnode Cube.twoCalls st helperPath >>= pure) = _
  rw [hread, ok_bind, hlast]
  rfl

theorem bothFunctions_written : bothFunctions.MetaKeyed ∧
    ∃ file, VersionTwo.write ⟨"MetaCG", 0, 9, ""⟩ ⟨"MetaCG", 0, 9, ""⟩ false bothFunctions = .ok file ∧
      VersionTwo.read file = .ok bothFunctions :=
  ⟨by decide, _, rfl, rfl⟩

/-- The base profile that a process finds in the file. -/
def fileProfile (d : NodeData) : BaseProfileData := { d.baseProfile.getD .create with callFrom := ∅, cgLoc := [] }

theorem InstrumentationResultMetaData.finite_stored {d : NodeData}
    (h : d.instrumentationResult.all InstrumentationResultMetaData.finite = true) :
    d.stored.instrumentationResult.all InstrumentationResultMetaData.finite = true := by
  unfold NodeData.stored
  dsimp only
  cases hr : d.instrumentationResult with
  | none => split_ifs <;> rfl
  | some r =>
    rw [hr] at h
    split_ifs
    · exact h
    · exact h

def storedBoth (d : NodeData) : Store := Store.update (Store.update (fun _ => d) 0 NodeData.stored) 1 NodeData.stored

/-- The selection is stored, the next process reads the cube, in which `main` calls `helper`, and attaches the results. -/
theorem bothFunctions_iteration {d : NodeData}
    (hfinite : d.instrumentationResult.all InstrumentationResultMetaData.finite = true) : ∃ s₁ s₂ s₃ s₄,
      Step .store ⟨bothFunctions, fun _ => d⟩ s₁ ∧ Step .restart s₁ s₂ ∧ Step (.readCube Cube.twoCalls) s₂ s₃ ∧
        Step .attach s₃ s₄ ∧ s₃ = ⟨bothCalled, readTwoCalls d.stored.reloaded (fileProfile d)⟩ := by
  have hstore : Step .store ⟨bothFunctions, fun _ => d⟩
      ⟨bothFunctions, storedBoth d⟩ := .store rfl
  have hfile : ThroughFile ⟨bothFunctions, storedBoth d⟩
      ⟨bothFunctions, fun _ => d.stored.reloaded⟩ := by
    refine ⟨⟨_, _, _, bothFunctions_written.2⟩, fun f i j hi hj => ?_⟩
    have hlt : i < 2 := Callgraph.hasNode_lt (Callgraph.hasNode_of_nameOf hi)
    have hstored : storedBoth d i = d.stored := by
      rcases (by omega : i = 0 ∨ i = 1) with rfl | rfl <;> rfl
    change (storedBoth d i).reload = _
    rw [hstored, NodeData.reload_eq, if_pos (InstrumentationResultMetaData.finite_stored hfinite)]
  have hread : Step (.readCube Cube.twoCalls) ⟨bothFunctions, fun _ => d.stored.reloaded⟩
      ⟨bothCalled, readTwoCalls d.stored.reloaded (fileProfile d)⟩ := .readCube _ (bothFunctions_read rfl)
  have hlive : ∀ i < bothCalled.nodes.length, bothCalled.hasNode i = true := by decide
  have hcomplete : ∀ n, bothCalled.hasNode n = true → (readTwoCalls d.stored.reloaded (fileProfile d) n).comesFromCube = true →
      Complete bothCalled (readTwoCalls d.stored.reloaded (fileProfile d)) n := by
    intro n _ _
    refine ⟨fun m _ => ?_, fun bpd hbpd u hu => ?_⟩
    · unfold readTwoCalls
      split_ifs <;> rfl
    · unfold readTwoCalls at hbpd
      split_ifs at hbpd <;> cases hbpd
      · have hu' : some u ∈ (∅ : UMap (Option ℕ) UInt64).insert (some 1) 5 := hu
        rw [AList.mem_insert] at hu'
        obtain rfl : u = 1 := by simpa using hu'
        decide
      · have hu' : some u ∈ (∅ : UMap (Option ℕ) UInt64).insert none 1 := hu
        rw [AList.mem_insert] at hu'
        exact absurd hu' (by simp)
      · exact absurd hu (AList.notMem_empty _)
  obtain ⟨md', hattach⟩ := (attachInstrumentationResults_spec bothCalled_wf (fun l => .refl l) _).1.mpr ⟨hlive, hcomplete⟩
  exact ⟨_, _, _, ⟨bothCalled, md'⟩, hstore,
    .restart (hfile.restarted (bothFunctions_sound _) bothFunctions_written.1), hread, .attach (fun l => .refl l) hattach, rfl⟩

/-! ## Exclusive results -/

/-- What is measured of the function itself. -/
def measure (r : InstrumentationResultMetaData) : UInt64 × ℚ × Option ℚ := (r.callCount, r.runtime, r.timePerCall)

/-- The function has an exclusive result with this measurement. -/
def Measured (m : UInt64 × ℚ × Option ℚ) (d : NodeData) : Prop :=
  ∃ r, d.instrumentationResult = some r ∧ r.isExclusiveRuntime = true ∧ measure r = m

/-- The function was to be instrumented and is not in the profile when the results are attached. -/
def Misses (f : String) (e : Event) (st : Profiled) : Prop :=
  e = .attach ∧ ∃ d r, Has st f d ∧ d.instrumentationResult = some r ∧ r.shouldBeInstrumented = true ∧ d.comesFromCube = false

section
variable {f : String} {d d' : NodeData} {m : UInt64 × ℚ × Option ℚ}

theorem Measured.of_result (h : Measured m d) (hr : d'.instrumentationResult = d.instrumentationResult) : Measured m d' := by
  obtain ⟨r, hr₀, hrest⟩ := h
  exact ⟨r, hr.trans hr₀, hrest⟩

theorem Measured.stored (h : Measured m d) : Measured m d.stored := by
  obtain ⟨r, hr, hexclusive, hm⟩ := h
  unfold Measured NodeData.stored
  rw [hr]
  dsimp only
  split_ifs
  · exact ⟨_, rfl, hexclusive, hm⟩
  · exact ⟨_, rfl, hexclusive, hm⟩

theorem NodeData.any_stored (d : NodeData) : d.stored.instrumentationResult.any (·.isExclusiveRuntime) =
    d.instrumentationResult.any (·.isExclusiveRuntime) := by
  unfold NodeData.stored
  dsimp only
  split_ifs
  · cases d.instrumentationResult <;> rfl
  · rw [Option.any_map]

theorem NodeData.getD_stored (d : NodeData) : d.stored.instrumentationResult.getD .create =
    { d.instrumentationResult.getD .create with shouldBeInstrumented := d.isAnyInstrumented } := by
  unfold NodeData.stored
  dsimp only
  split_ifs with hany
  · rw [hany]
    rfl
  · rw [Bool.eq_false_iff.mpr hany]
    cases d.instrumentationResult <;> rfl

theorem Measured.reload (h : Measured m d) (hload : d.reload = .ok d') : Measured m d' := by
  rw [NodeData.reload_eq] at hload
  split_ifs at hload
  cases hload
  exact h.of_result rfl

/-- Attaching keeps an exclusive measurement unless the function is missed, which sets it to zero. -/
theorem Measured.attach (h : Measured m d) (hchange : Changes f d d' .attach) :
    (Measured m d' ∨ Measured (0, 0, some 0) d') ∧
      ((∀ r, d.instrumentationResult = some r → r.shouldBeInstrumented = true → d.comesFromCube = true) → Measured m d') := by
  obtain ⟨r, hr, hexclusive, hm⟩ := h
  obtain ⟨-, hmissing, hprofiled⟩ := hchange
  by_cases hcube : d.comesFromCube = true
  · have hkept : Measured m d' := by
      obtain ⟨bpd, calls, sum, isExclusive, -, hresult⟩ := hprofiled hcube
      rw [hr, Option.any_some, if_pos hexclusive, Option.getD_some] at hresult
      exact ⟨_, hresult, hexclusive, hm⟩
    exact ⟨.inl hkept, fun _ => hkept⟩
  · have hresult := hmissing (Bool.not_eq_true _ ▸ hcube)
    rw [hr, Option.map_some] at hresult
    split_ifs at hresult with hdue
    · exact ⟨.inr ⟨_, hresult, rfl, rfl⟩, fun hall => absurd (hall r hr hdue) hcube⟩
    · have hkept : Measured m d' := ⟨r, hresult, hexclusive, hm⟩
      exact ⟨.inl hkept, fun _ => hkept⟩

/-- Once a result is exclusive it stays so over all iterations, and its measurement is only ever replaced by zero. It is not
replaced at all unless an attaching misses the function. -/
theorem exclusive_kept {ok : Event → Profiled → Prop} {es : List Event} {st st' : Profiled} (hst : Sound st)
    (hrun : Run ok es st st') (hd : Has st f d) (hm : Measured m d) :
    (∃ d', Has st' f d' ∧ (Measured m d' ∨ Measured (0, 0, some 0) d')) ∧
      ((∀ e s, ok e s → ¬Misses f e s) → ∃ d', Has st' f d' ∧ Measured m d') := by
  -- all steps but attaching keep every exclusive measurement
  have hother : ∀ e d d', e ≠ .attach → Changes f d d' e → ∀ m', Measured m' d → Measured m' d' := by
    intro e d d' he hchange m' hmeasured
    cases e with
    | readCube cube => exact hmeasured.of_result hchange.2.1
    | attach => exact absurd rfl he
    | select => exact hmeasured.of_result hchange.instrumentationResult
    | store => exact hchange ▸ hmeasured.stored
    | restart => exact hmeasured.reload hchange
  constructor
  · refine hrun.keeps (P := fun d => Measured m d ∨ Measured (0, 0, some 0) d) hst (fun e s d d' _ _ hchange hP => ?_) hd (.inl hm)
    by_cases he : e = .attach
    · subst he
      rcases hP with hP | hP
      · exact (hP.attach hchange).1
      · exact .inr ((hP.attach hchange).1.elim id id)
    · exact hP.imp (hother e d d' he hchange m) (hother e d d' he hchange _)
  · intro hok
    refine hrun.keeps (P := Measured m) hst (fun e s d d' hoks hds hchange hP => ?_) hd hm
    by_cases he : e = .attach
    · subst he
      refine (hP.attach hchange).2 fun r hr hdue => ?_
      by_contra hcube
      exact hok _ _ hoks ⟨rfl, d, r, hds, hr, hdue, Bool.not_eq_true _ ▸ hcube⟩
    · exact hother e d d' he hchange m hP

/-- An exclusive result of `main` that was measured before. -/
def measuredBefore : NodeData :=
  { NodeData.create.attachMetaData with
    instrumentationResult := some { InstrumentationResultMetaData.create with
      callCount := 5, runtime := 2, timePerCall := some (2 / 5), isExclusiveRuntime := true, shouldBeInstrumented := true } }

theorem onlyMain_sound (md : Store) : Sound ⟨Cube.onlyMain, md⟩ :=
  ⟨Callgraph.Wf.empty.insertNode "main" none false true (by decide), Cube.onlyMain_singleNames⟩

/-- The measurement is kept by an iteration whose profile has `main` again. -/
theorem exclusive_kept_main : ∃ st' d', Run (fun e s => ¬Misses "main" e s)
    [.store, .restart, .readCube Cube.twoCalls, .attach] ⟨bothFunctions, fun _ => measuredBefore⟩ st' ∧
      Has st' "main" d' ∧ Measured (5, 2, some (2 / 5)) d' := by
  obtain ⟨s₁, s₂, s₃, s₄, hstore, hrestart, hread, hattach, rfl⟩ := bothFunctions_iteration (d := measuredBefore) rfl
  have hother : ∀ {e : Event} {s : Profiled}, e ≠ .attach → ¬Misses "main" e s := fun he hmiss => he hmiss.1
  have hseen : ¬Misses "main" .attach ⟨bothCalled, readTwoCalls measuredBefore.stored.reloaded (fileProfile measuredBefore)⟩ := by
    rintro ⟨-, d, r, ⟨i, hi, rfl⟩, -, -, hcube⟩
    have hlt : i < 2 := Callgraph.hasNode_lt (Callgraph.hasNode_of_nameOf hi)
    rcases (by omega : i = 0 ∨ i = 1) with rfl | rfl <;> cases hcube
  have hrun : Run (fun e s => ¬Misses "main" e s) ([] ++ [.store] ++ [.restart] ++ [.readCube Cube.twoCalls] ++ [.attach])
      ⟨bothFunctions, fun _ => measuredBefore⟩ s₄ :=
    .snoc (.snoc (.snoc (.snoc (.nil _) (hother (by simp)) hstore) (hother (by simp)) hrestart) (hother (by simp)) hread) hseen
      hattach
  obtain ⟨d', hd', hmeasured⟩ := (exclusive_kept (bothFunctions_sound _) hrun (f := "main") (d := measuredBefore) ⟨1, rfl, rfl⟩
    ⟨_, rfl, rfl, rfl⟩).2 fun e s hok => hok
  exact ⟨s₄, d', hrun, hd', hmeasured⟩

end

/-! ## Profiles -/

/-- The visits of a function that the event brings in. -/
def Event.visits (f : String) : Event → UInt64
  | .readCube cube => ((cube.pathsOf cube.cnodes.length f).map cube.visits).sum
  | _ => 0

def Event.time (f : String) : Event → ℚ
  | .readCube cube => ((cube.pathsOf cube.cnodes.length f).map cube.time).sum
  | _ => 0

def Event.inclusiveTime (f : String) : Event → ℚ
  | .readCube cube => ((cube.pathsOf cube.cnodes.length f).map cube.inclusiveTime).sum
  | _ => 0

/-- The profile has grown by what the events bring in. -/
structure Accumulated (f : String) (es : List Event) (bpd bpd' : BaseProfileData) : Prop where
  numCalls : bpd'.numCalls = bpd.numCalls + (es.map (Event.visits f)).sum
  timeInSeconds : bpd'.timeInSeconds = bpd.timeInSeconds + (es.map (Event.time f)).sum
  inclTimeInSeconds : bpd'.inclTimeInSeconds = bpd.inclTimeInSeconds + (es.map (Event.inclusiveTime f)).sum

section
variable {f : String} {d d' : NodeData} {bpd bpd' bpd'' : BaseProfileData}

theorem Accumulated.of_eq {e : Event} (hcalls : bpd'.numCalls = bpd.numCalls) (htime : bpd'.timeInSeconds = bpd.timeInSeconds)
    (hincl : bpd'.inclTimeInSeconds = bpd.inclTimeInSeconds) (he : e.visits f = 0 ∧ e.time f = 0 ∧ e.inclusiveTime f = 0) :
    Accumulated f [e] bpd bpd' := by
  refine ⟨?_, ?_, ?_⟩
  · rw [hcalls, List.map_singleton, List.sum_singleton, he.1, add_zero]
  · rw [htime, List.map_singleton, List.sum_singleton, he.2.1, add_zero]
  · rw [hincl, List.map_singleton, List.sum_singleton, he.2.2, add_zero]

theorem Accumulated.trans {es es' : List Event} (h : Accumulated f es bpd bpd') (h' : Accumulated f es' bpd' bpd'') :
    Accumulated f (es ++ es') bpd bpd'' := by
  refine ⟨?_, ?_, ?_⟩
  · rw [h'.numCalls, h.numCalls, List.map_append, List.sum_append, add_assoc]
  · rw [h'.timeInSeconds, h.timeInSeconds, List.map_append, List.sum_append, add_assoc]
  · rw [h'.inclTimeInSeconds, h.inclTimeInSeconds, List.map_append, List.sum_append, add_assoc]

theorem Changes.accumulated {e : Event} (h : Changes f d d' e) (hbpd : d.baseProfile = some bpd) :
    ∃ bpd', d'.baseProfile = some bpd' ∧ Accumulated f [e] bpd bpd' := by
  cases e with
  | readCube cube =>
    obtain ⟨bpd', hbpd', hgrows⟩ := h.2.2.2 bpd hbpd
    refine ⟨bpd', hbpd', ?_, ?_, ?_⟩
    · rw [List.map_singleton, List.sum_singleton]
      exact hgrows.numCalls
    · rw [List.map_singleton, List.sum_singleton]
      exact hgrows.timeInSeconds
    · rw [List.map_singleton, List.sum_singleton]
      exact hgrows.inclTimeInSeconds
  | attach => exact ⟨bpd, by rw [h.1]; exact hbpd, .of_eq rfl rfl rfl ⟨rfl, rfl, rfl⟩⟩
  | select => exact ⟨bpd, h.baseProfile.trans hbpd, .of_eq rfl rfl rfl ⟨rfl, rfl, rfl⟩⟩
  | store => exact ⟨bpd, by rw [h]; exact hbpd, .of_eq rfl rfl rfl ⟨rfl, rfl, rfl⟩⟩
  | restart =>
    have hload : d.reload = .ok d' := h
    rw [NodeData.reload_eq] at hload
    split_ifs at hload
    cases hload
    refine ⟨_, rfl, ?_⟩
    rw [hbpd]
    exact .of_eq rfl rfl rfl ⟨rfl, rfl, rfl⟩

/-- The profile of a function adds up all profiles that are read, over restarts too; nothing sets it back. -/
theorem profile_accumulates {ok : Event → Profiled → Prop} {es : List Event} {st st' : Profiled} (hst : Sound st)
    (hrun : Run ok es st st') (hd : Has st f d) (hbpd : d.baseProfile = some bpd) :
    ∃ d' bpd', Has st' f d' ∧ d'.baseProfile = some bpd' ∧ Accumulated f es bpd bpd' := by
  induction hrun with
  | nil => exact ⟨d, bpd, hd, hbpd, (add_zero _).symm, (add_zero _).symm, (add_zero _).symm⟩
  | snoc hrun _ hstep ih =>
    obtain ⟨d₁, bpd₁, hd₁, hbpd₁, hacc⟩ := ih hst hd
    obtain ⟨d₂, hd₂, hchange⟩ := hstep.changes (hrun.sound hst) hd₁
    obtain ⟨bpd₂, hbpd₂, hacc'⟩ := hchange.accumulated hbpd₁
    exact ⟨d₂, bpd₂, hd₂, hbpd₂, hacc.trans hacc'⟩

theorem twoCalls_read : ∃ st', Step (.readCube Cube.twoCalls) ⟨Cube.onlyMain, fun _ => NodeData.create.attachMetaData⟩ st' := by
  have haccepted : ∀ cnode ∈ Cube.twoCalls.cnodes,
      Cube.twoCalls.Accepted Cube.onlyMain (fun _ => NodeData.create.attachMetaData) cnode := by
    simp [Cube.twoCalls, Cube.Accepted, Cube.time, Cube.inclusiveTime]
  obtain ⟨st', hst'⟩ := Cube.Imported.total (onlyMain_sound _).wf (onlyMain_sound fun _ => .create).single haccepted
  exact ⟨st', .readCube _ hst'⟩

/-- `main` is visited once in the profile. -/
theorem profile_accumulates_main : ∃ st' d' bpd', Has st' "main" d' ∧ d'.baseProfile = some bpd' ∧ bpd'.numCalls = 1 := by
  obtain ⟨st', hread⟩ := twoCalls_read
  have hrun : Run (fun _ _ => True) ([] ++ [.readCube Cube.twoCalls]) _ st' := .snoc (.nil _) trivial hread
  obtain ⟨d', bpd', hd', hbpd', hacc⟩ := profile_accumulates (onlyMain_sound _) hrun (f := "main") ⟨0, rfl, rfl⟩ rfl
  exact ⟨st', d', bpd', hd', hbpd', hacc.numCalls⟩

end

/-! ## One iteration -/

/-- What an iteration makes of the result of a function: the selection is stored, the next process reads a profile and attaches
the results. A function that was selected and does not show up in the profile is recorded as one that never runs. -/
theorem iteration_result {f : String} {d : NodeData} {cube : Cube} {st s₁ s₂ s₃ s₄ : Profiled} (hst : Sound st)
    (hstore : Step .store st s₁) (hrestart : Step .restart s₁ s₂) (hread : Step (.readCube cube) s₂ s₃)
    (hattach : Step .attach s₃ s₄) (hd : Has st f d) :
    ∃ d', Has s₄ f d' ∧
      (cube.pathsOf cube.cnodes.length f = [] → d'.instrumentationResult =
        if d.isAnyInstrumented then some (neverRan .create)
        else d.instrumentationResult.map fun r => { r with shouldBeInstrumented := false }) ∧
      (cube.pathsOf cube.cnodes.length f ≠ [] → ∃ r bpd, d'.instrumentationResult = some r ∧
        d'.baseProfile = some bpd ∧ Grows cube f (d.baseProfile.getD .create) bpd ∧
        r.shouldBeInstrumented = d.isAnyInstrumented ∧ r.inclusiveRunTimeCube = bpd.inclTimeInSeconds ∧
        if d.instrumentationResult.any (·.isExclusiveRuntime) then
          r.isExclusiveRuntime = true ∧ measure r = measure (d.instrumentationResult.getD .create)
        else measure r = (bpd.numCalls, bpd.timeInSeconds, perCall bpd.timeInSeconds bpd.numCalls)) := by
  have hst₁ := hstore.sound hst
  have hst₂ := hrestart.sound hst₁
  have hst₃ := hread.sound hst₂
  obtain ⟨d₁, hd₁, rfl⟩ := hstore.changes hst hd
  obtain ⟨d₂, hd₂, hload⟩ := hrestart.changes hst₁ hd₁
  obtain ⟨d₃, hd₃, hread₃⟩ := hread.changes hst₂ hd₂
  obtain ⟨d₄, hd₄, hattach₄⟩ := hattach.changes hst₃ hd₃
  have hreload : d.stored.reload = .ok d₂ := hload
  rw [NodeData.reload_eq] at hreload
  split_ifs at hreload
  cases hreload
  obtain ⟨-, hresult₃, hpira₃, hbase₃⟩ := hread₃
  obtain ⟨hothers, hmissing, hprofiled⟩ := hattach₄
  refine ⟨d₄, hd₄, fun hnone => ?_, fun hsome => ?_⟩
  · rw [if_pos hnone] at hpira₃
    have hcube : d₃.comesFromCube = false := by
      rw [NodeData.comesFromCube, hpira₃]
      rfl
    rw [hmissing hcube, hresult₃]
    change (d.stored.instrumentationResult).map _ = _
    unfold NodeData.stored
    dsimp only
    split_ifs with hany
    · rfl
    · cases d.instrumentationResult <;> rfl
  · rw [if_neg hsome] at hpira₃
    have hcube : d₃.comesFromCube = true := by
      rw [NodeData.comesFromCube, hpira₃]
      rfl
    obtain ⟨bpd₃, hbpd₃, hgrows⟩ := hbase₃ _ rfl
    obtain ⟨bpd, calls, sum, isExclusive, hbpd, hresult⟩ := hprofiled hcube
    have hbase₄ : d₄.baseProfile = some bpd := by
      rw [hothers]
      exact hbpd
    have hsame : bpd₃ = bpd := Option.some.inj (hbpd₃.symm.trans hbpd)
    have hkept : d₃.instrumentationResult = d.stored.instrumentationResult := hresult₃
    rw [hkept, NodeData.any_stored, NodeData.getD_stored] at hresult
    refine ⟨_, bpd, hresult, hbase₄, hsame ▸ ⟨hgrows.numCalls, hgrows.timeInSeconds, hgrows.inclTimeInSeconds⟩, ?_⟩
    split_ifs with hexclusive
    · obtain ⟨r, hr⟩ := Option.isSome_iff_exists.mp (Option.isSome_of_any hexclusive)
      rw [hr, Option.any_some] at hexclusive
      rw [hr]
      exact ⟨rfl, rfl, hexclusive, rfl⟩
    · exact ⟨rfl, rfl, rfl⟩

/-- The metadata of a function that a phase has just selected. -/
def selectedFirst : NodeData := { NodeData.create with instrumentation := .instrumented }

/-- `main` is selected and was called once in two seconds. -/
theorem iteration_result_main : ∃ st' d' r, Has st' "main" d' ∧ d'.instrumentationResult = some r ∧ r.callCount = 1 ∧
    r.runtime = 2 ∧ r.shouldBeInstrumented = true := by
  obtain ⟨s₁, s₂, s₃, s₄, hstore, hrestart, hread, hattach, -⟩ := bothFunctions_iteration (d := selectedFirst) rfl
  obtain ⟨d', hd', -, hprofiled⟩ := iteration_result (bothFunctions_sound _) hstore hrestart hread hattach
    (f := "main") (d := selectedFirst) ⟨1, rfl, rfl⟩
  obtain ⟨r, bpd, hr, -, hgrows, hshould, -, hmeasure⟩ := hprofiled (by decide)
  have hmeasured : measure r = (bpd.numCalls, bpd.timeInSeconds, perCall bpd.timeInSeconds bpd.numCalls) := hmeasure
  refine ⟨s₄, d', r, hd', hr, ?_, ?_, hshould⟩
  · exact (Prod.ext_iff.mp hmeasured).1.trans hgrows.numCalls
  · refine (Prod.ext_iff.mp (Prod.ext_iff.mp hmeasured).2).1.trans (hgrows.timeInSeconds.trans ?_)
    change (0 : ℚ) + ((2 + 0) + 0) = 2
    rw [zero_add, add_zero, add_zero]

end MetaCG.Pgis.Profile
