import MetaCG.Graph.Renumber
import MetaCG.Pgis.LIEstimatorPhase

/-! `LIEstimatorPhase::modifyGraph` (`LIEstimatorPhase.cpp`) on one graph with several numberings.

The loop over the functions goes by id. It flags functions as irrelevant and reads the flag of the children, so whether a child
is instrumented may depend on which of two functions has the smaller id. -/
namespace MetaCG.Pgis
open Foundations Analysis
set_option autoImplicit false
set_option maxHeartbeats 250000
set_option maxRecDepth 120000

/-- The profile of the same functions under other ids. -/
def LIProfile.renumber {g : Callgraph} (profile : LIProfile) (σ : Numbering g) : LIProfile where
  relevant := fun n => profile.relevant (σ.perm.symm n)
  imbalanced := fun n => profile.imbalanced (σ.perm.symm n)
  assessment := fun n => profile.assessment (σ.perm.symm n)

/-- The phase on the graph with another numbering; the metadata follows the nodes. -/
def modifyRenumbered (order : List ℕ → List ℕ) (g : Callgraph) (config : LIConfig) (profile : LIProfile) (mainMethod : ℕ)
    (md : MetaStore) (li : LIStore) (σ : Numbering g) : Except Exn (MetaStore × LIStore) :=
  LIEstimatorPhase.modifyGraph order (g.renumber σ) config (profile.renumber σ) (σ.perm mainMethod) (fun n => md (σ.perm.symm n))
    fun n => li (σ.perm.symm n)

/-! ## The model under another numbering -/

section
variable {g : Callgraph} (σ : Numbering g) {config : LIConfig} {profile : LIProfile} {main m n p : ℕ} {md : MetaStore}
  {li : LIStore}

theorem calls_renumber : Calls (g.renumber σ) = fun u v => Calls g (σ.perm.symm u) (σ.perm.symm v) := by
  funext u v
  exact propext (Callgraph.mem_edges_renumber σ u v)

theorem reaches_renumber (u v : ℕ) : Relation.ReflTransGen (Calls (g.renumber σ)) u v ↔
    Relation.ReflTransGen (Calls g) (σ.perm.symm u) (σ.perm.symm v) := by
  rw [calls_renumber]
  exact reflTransGen_relabel σ.perm.symm (Calls g) u v

theorem toMain_renumber : ToMain (g.renumber σ) (σ.perm main) m n ↔ ToMain g main (σ.perm.symm m) (σ.perm.symm n) := by
  unfold ToMain
  rw [reaches_renumber, reaches_renumber, σ.perm.symm_apply_apply, Equiv.symm_apply_eq]

theorem childOf_renumber :
    ChildOf (g.renumber σ) (fun n => li (σ.perm.symm n)) p n ↔ ChildOf g li (σ.perm.symm p) (σ.perm.symm n) := by
  have himpl : Implements (g.renumber σ) (fun n => li (σ.perm.symm n)) =
      fun u v => Implements g li (σ.perm.symm u) (σ.perm.symm v) := by
    unfold Implements
    rw [calls_renumber]
  unfold ChildOf
  rw [himpl, calls_renumber]
  simp only [reflTransGen_relabel σ.perm.symm (Implements g li)]
  exact (σ.perm.symm.surjective.exists (p := fun c => Calls g (σ.perm.symm p) c ∧
    Relation.ReflTransGen (Implements g li) c (σ.perm.symm n))).symm

theorem statementThreshold_renumber :
    statementThreshold config (fun n => li (σ.perm.symm n)) (σ.perm main) n =
      statementThreshold config li main (σ.perm.symm n) := by
  unfold statementThreshold
  simp only [σ.perm.symm_apply_apply]

theorem eligible_renumber : Eligible (g.renumber σ) config (profile.renumber σ) (σ.perm main) (fun n => md (σ.perm.symm n))
      (fun n => li (σ.perm.symm n)) p n ↔ Eligible g config profile main md li (σ.perm.symm p) (σ.perm.symm n) := by
  unfold Eligible
  rw [childOf_renumber, statementThreshold_renumber]
  exact Iff.rfl

theorem inContext_renumber (visited : ℕ → Prop) :
    InContext (g.renumber σ) config (fun n => visited (σ.perm.symm n)) (σ.perm main) m n ↔
      InContext g config visited main (σ.perm.symm m) (σ.perm.symm n) := by
  unfold InContext
  cases config.contextStrategy with
  | none => exact Iff.rfl
  | findSynchronizationPoints => exact Iff.rfl
  | allPathsToMain => exact toMain_renumber σ
  | majorPathsToMain => exact and_congr_left' (toMain_renumber σ)
  | majorParentSteps =>
    refine and_congr (and_congr_left' (toMain_renumber σ)) (exists_congr fun k => and_congr_right' ?_)
    rw [calls_renumber]
    exact pathOf_relabel σ.perm.symm (Calls g) k n m

theorem inSomeContext_renumber :
    InSomeContext (g.renumber σ) config (profile.renumber σ) (σ.perm main) (fun n => md (σ.perm.symm n))
        (fun n => li (σ.perm.symm n)) n ↔
      InSomeContext g config profile main md li (σ.perm.symm n) := by
  unfold InSomeContext
  rw [Callgraph.length_renumber]
  refine Iff.trans (exists_congr fun m => ?_) σ.perm.symm.surjective.exists.symm
  exact and_congr (Callgraph.bound_symm σ m).symm (and_congr Iff.rfl
    (inContext_renumber σ fun x => (li x).visited = true ∨ Processed md li x))

theorem selected_renumber : Selected (g.renumber σ) config (profile.renumber σ) (σ.perm main) (fun n => md (σ.perm.symm n))
      (fun n => li (σ.perm.symm n)) id (σ.perm n) ↔ Selected g config profile main md li σ.perm n := by
  unfold Selected
  rw [inSomeContext_renumber, σ.perm.symm_apply_apply]
  refine or_congr σ.perm.apply_eq_iff_eq (or_congr ?_ (or_congr_left ?_))
  · change FoundImbalanced profile md li (σ.perm.symm (σ.perm n)) ↔ _
    rw [σ.perm.symm_apply_apply]
  · refine σ.perm.surjective.exists.trans (exists_congr fun p => ?_)
    rw [eligible_renumber, σ.perm.symm_apply_apply, σ.perm.symm_apply_apply]
    refine and_congr_right' (not_congr (and_congr_right' ?_))
    change BecomesIrrelevant profile md li (σ.perm.symm (σ.perm n)) ↔ _
    rw [σ.perm.symm_apply_apply]

theorem after_renumber (size : ℕ) (hsize : ∀ i, σ.perm i < size ↔ i < size) :
    LIStore.after (profile.renumber σ) (fun n => md (σ.perm.symm n)) (fun n => li (σ.perm.symm n)) size (σ.perm n) =
      li.after profile md size n := by
  classical
  unfold LIStore.after
  have hcond : σ.perm n < size ∧ Processed (fun n => md (σ.perm.symm n)) (fun n => li (σ.perm.symm n)) (σ.perm n) ↔
      n < size ∧ Processed md li n := by
    refine and_congr (hsize n) ?_
    change Processed md li (σ.perm.symm (σ.perm n)) ↔ _
    rw [σ.perm.symm_apply_apply]
  have hsettle : settle (profile.renumber σ) (σ.perm n) = settle profile n := by
    funext l
    change settle profile (σ.perm.symm (σ.perm n)) l = _
    rw [σ.perm.symm_apply_apply]
  simp only [hcond, hsettle, σ.perm.symm_apply_apply]

end

/-! ## Runs under two numberings -/

/-- The flags that the phase sets. -/
def SameFlags (l l' : LIMetaData) : Prop := l.visited = l'.visited ∧ l.irrelevant = l'.irrelevant ∧ l.imbalanced = l'.imbalanced

/-- Both runs fail alike, or the same functions are instrumented and have the same flags. -/
def SameSelection {g : Callgraph} (σ τ : Numbering g) (r r' : Except Exn (MetaStore × LIStore)) : Prop :=
  match r, r' with
  | .ok s, .ok s' => ∀ n < g.nodes.length,
      isAnyInstrumented s.1 (σ.perm n) = isAnyInstrumented s'.1 (τ.perm n) ∧ SameFlags (s.2 (σ.perm n)) (s'.2 (τ.perm n))
  | .error e, .error e' => e = e'
  | _, _ => False

/-- The phase does the same under any two numberings, and however the sets are iterated. -/
def IgnoresNumbering (g : Callgraph) (config : LIConfig) (profile : LIProfile) (mainMethod : ℕ) (md : MetaStore)
    (li : LIStore) : Prop :=
  ∀ (σ τ : Numbering g) (order order' : List ℕ → List ℕ), (∀ l, (order l).Perm l) → (∀ l, (order' l).Perm l) →
    SameSelection σ τ (modifyRenumbered order g config profile mainMethod md li σ)
      (modifyRenumbered order' g config profile mainMethod md li τ)

/-- `n` is instrumented for another reason than being a child of another function. -/
def SelectedAnyway (g : Callgraph) (config : LIConfig) (profile : LIProfile) (mainMethod : ℕ) (md : MetaStore) (li : LIStore)
    (n : ℕ) : Prop :=
  n = mainMethod ∨ Eligible g config profile mainMethod md li n n ∨ InSomeContext g config profile mainMethod md li n

section
variable {order : List ℕ → List ℕ} {g : Callgraph} {config : LIConfig} {profile : LIProfile} {main n p : ℕ} {md : MetaStore}
  {li : LIStore}

/-- The run under a numbering: the new ids are the order in which the functions are taken. -/
theorem modifyRenumbered_selects (h : g.Wf) (hord : ∀ l, (order l).Perm l) (hmain : g.mainNode = some main)
    (hall : ∀ i < g.nodes.length, g.hasNode i = true) (σ : Numbering g) :
    ∃ md' li', modifyRenumbered order g config profile main md li σ = .ok (md', li') ∧
      ∀ n < g.nodes.length, (isAnyInstrumented md' (σ.perm n) = true ↔ Selected g config profile main md li σ.perm n) ∧
        li' (σ.perm n) = li.after profile md g.nodes.length n := by
  have hmain' : (g.renumber σ).mainNode = some (σ.perm main) := congrArg (Option.map σ.perm) hmain
  have hall' : ∀ i < (g.renumber σ).nodes.length, (g.renumber σ).hasNode i = true := by
    intro i hi
    rw [Callgraph.length_renumber] at hi
    rw [Callgraph.hasNode_renumber]
    exact hall _ ((Callgraph.bound_symm σ i).mpr hi)
  obtain ⟨md', hok, hsel⟩ := modifyGraph_selects (Callgraph.Wf.renumber σ h) hord hmain' hall'
  refine ⟨md', _, hok, fun n hn => ⟨?_, ?_⟩⟩
  · rw [hsel _ (by rw [Callgraph.length_renumber]; exact (σ.bound n).mpr hn), selected_renumber]
  · rw [Callgraph.length_renumber]
    exact after_renumber σ _ σ.bound

theorem modifyRenumbered_erased (h : g.Wf) (hmain : g.mainNode = some main) (hdead : ∃ i < g.nodes.length, g.hasNode i = false)
    (σ : Numbering g) : modifyRenumbered order g config profile main md li σ = .error .nullDereference := by
  have hmain' : (g.renumber σ).mainNode = some (σ.perm main) := congrArg (Option.map σ.perm) hmain
  obtain ⟨i, hi, hnone⟩ := hdead
  refine modifyGraph_erased (i := σ.perm i) (Callgraph.Wf.renumber σ h) hmain' ?_ ?_
  · rw [Callgraph.length_renumber]
    exact (σ.bound i).mpr hi
  · rw [Callgraph.hasNode_renumber, σ.perm.symm_apply_apply]
    exact hnone

/-- If the flags of a run hide no child that is not instrumented anyway, then the order is of no consequence. -/
theorem selected_iff (hharmless : ∀ p n, Eligible g config profile main md li p n → BecomesIrrelevant profile md li n →
    SelectedAnyway g config profile main md li n) (rank : ℕ → ℕ) :
    Selected g config profile main md li rank n ↔ n = main ∨ FoundImbalanced profile md li n ∨
      (∃ p, Eligible g config profile main md li p n) ∨ InSomeContext g config profile main md li n := by
  unfold Selected
  constructor
  · rintro (hmain | hfound | ⟨p, helig, -⟩ | hcontext)
    · exact .inl hmain
    · exact .inr (.inl hfound)
    · exact .inr (.inr (.inl ⟨p, helig⟩))
    · exact .inr (.inr (.inr hcontext))
  · rintro (hmain | hfound | ⟨p, helig⟩ | hcontext)
    · exact .inl hmain
    · exact .inr (.inl hfound)
    · by_cases hirr : BecomesIrrelevant profile md li n
      · rcases hharmless p n helig hirr with hmain | hself | hcontext
        · exact .inl hmain
        · exact .inr (.inr (.inl ⟨n, hself, fun hlt => lt_irrefl _ hlt.1⟩))
        · exact .inr (.inr (.inr hcontext))
      · exact .inr (.inr (.inl ⟨p, helig, fun hlt => hirr hlt.2⟩))
    · exact .inr (.inr (.inr hcontext))

/-- A function that becomes irrelevant is left out where it comes first. -/
theorem not_selected_first (hirr : BecomesIrrelevant profile md li n) (hanyway : ¬SelectedAnyway g config profile main md li n)
    (hn : n < g.nodes.length) : ¬Selected g config profile main md li (Numbering.first n hn).perm n := by
  rintro (hmain | hfound | ⟨q, helig, hlate⟩ | hcontext)
  · exact hanyway (.inl hmain)
  · exact hirr.2 hfound.2
  · have hne : q ≠ n := fun he => hanyway (.inr (.inl (he ▸ helig)))
    have hfirst : (Numbering.first n hn).perm n = 0 := Equiv.swap_apply_left n 0
    have hrest : (Numbering.first n hn).perm q ≠ 0 := fun hz => hne ((Numbering.first n hn).perm.injective (hz.trans hfirst.symm))
    exact hlate ⟨by omega, hirr⟩
  · exact hanyway (.inr (.inr hcontext))

/-- It is instrumented where a caller comes first. -/
theorem selected_first (helig : Eligible g config profile main md li p n) (hp : p < g.nodes.length) :
    Selected g config profile main md li (Numbering.first p hp).perm n := by
  have hfirst : (Numbering.first p hp).perm p = 0 := Equiv.swap_apply_left p 0
  exact .inr (.inr (.inl ⟨p, helig, fun hlt => Nat.not_lt_zero _ (hfirst ▸ hlt.1)⟩))

/-- A function that is instrumented only for its callers, and becomes irrelevant, makes the numbering matter. -/
theorem not_ignoresNumbering (h : g.Wf) (hmain : g.mainNode = some main) (hall : ∀ i < g.nodes.length, g.hasNode i = true)
    (helig : Eligible g config profile main md li p n) (hirr : BecomesIrrelevant profile md li n)
    (hanyway : ¬SelectedAnyway g config profile main md li n) : ¬IgnoresNumbering g config profile main md li := by
  have hlive := helig.2.2.1.live h
  have hp : p < g.nodes.length := Callgraph.hasNode_lt hlive.1
  have hn : n < g.nodes.length := Callgraph.hasNode_lt hlive.2
  intro hsame
  have hord : ∀ l : List ℕ, (id l).Perm l := fun l => List.Perm.refl l
  obtain ⟨md₁, li₁, hok₁, hrun₁⟩ := modifyRenumbered_selects h hord hmain hall (Numbering.first n hn)
  obtain ⟨md₂, li₂, hok₂, hrun₂⟩ := modifyRenumbered_selects h hord hmain hall (Numbering.first p hp)
  have hagree := hsame (.first n hn) (.first p hp) id id hord hord
  rw [hok₁, hok₂] at hagree
  refine not_selected_first hirr hanyway hn ((hrun₁ n hn).1.mp ?_)
  rw [(hagree n hn).1]
  exact (hrun₂ n hn).1.mpr (selected_first helig hp)

/-- The phase ignores the numbering if and only if every run fails, or no child of an important function that becomes irrelevant is
instrumented for its callers alone. -/
theorem modifyGraph_ignoresNumbering_iff (h : g.Wf) (hmain : g.mainNode = some main) (config : LIConfig) (profile : LIProfile)
    (md : MetaStore) (li : LIStore) :
    IgnoresNumbering g config profile main md li ↔ (∃ i < g.nodes.length, g.hasNode i = false) ∨
      ∀ p n, Eligible g config profile main md li p n → BecomesIrrelevant profile md li n →
        SelectedAnyway g config profile main md li n := by
  by_cases hdead : ∃ i < g.nodes.length, g.hasNode i = false
  · refine iff_of_true (fun σ τ order order' _ _ => ?_) (.inl hdead)
    rw [modifyRenumbered_erased h hmain hdead, modifyRenumbered_erased h hmain hdead]
    rfl
  · have hall : ∀ i < g.nodes.length, g.hasNode i = true := by
      intro i hi
      by_contra hnone
      exact hdead ⟨i, hi, Bool.eq_false_iff.mpr hnone⟩
    rw [or_iff_right hdead]
    constructor
    · intro hsame p n helig hirr
      by_contra hanyway
      exact not_ignoresNumbering h hmain hall helig hirr hanyway hsame
    · intro hharmless σ τ order order' hord hord'
      obtain ⟨md₁, li₁, hok₁, hrun₁⟩ := modifyRenumbered_selects h hord hmain hall σ
      obtain ⟨md₂, li₂, hok₂, hrun₂⟩ := modifyRenumbered_selects h hord' hmain hall τ
      rw [hok₁, hok₂]
      intro n hn
      constructor
      · rw [Bool.eq_iff_iff, (hrun₁ n hn).1, (hrun₂ n hn).1, selected_iff hharmless, selected_iff hharmless]
      · change SameFlags (li₁ (σ.perm n)) (li₂ (τ.perm n))
        rw [(hrun₁ n hn).2, (hrun₂ n hn).2]
        exact ⟨rfl, rfl, rfl⟩

end

/-! ## A child that becomes irrelevant

`main` calls `f`. Both have been profiled, `main` is important and imbalanced, and `f` is unimportant. -/

def oneCall : Callgraph :=
  Callgraph.run 0 [.insert "main" none false true, .insert "f" none false true, .addEdge 0 1, .getMain false]

def instrumentAll : LIConfig := ⟨.none, 0, .all, 0, fun _ => 0⟩

def onlyMainImportant : LIProfile := ⟨fun n => decide (n = 0), fun n => decide (n = 0), fun _ => 0⟩

def profiled : MetaStore := fun _ => { NodeMetaData.create with piraOne := ⟨true, 0⟩ }

theorem not_ignoresNumbering_oneCall :
    ¬IgnoresNumbering oneCall instrumentAll onlyMainImportant 0 profiled fun _ => .create := by
  have hchild : ChildOf oneCall (fun _ => .create) 0 1 := ⟨1, by decide, .refl⟩
  refine not_ignoresNumbering (p := 0) (n := 1) (Callgraph.run_wf 0 _) (by decide) (by decide)
    ⟨⟨rfl, rfl⟩, rfl, hchild, by decide, rfl⟩ ⟨⟨rfl, rfl⟩, fun hboth => absurd hboth.1 (by decide)⟩ ?_
  rintro (hmain | hself | ⟨m, -, -, hcontext⟩)
  · exact absurd hmain (by decide)
  · exact absurd hself.2.1 (by decide)
  · exact hcontext

theorem modifyGraph_ignoresNumbering_oneCall :
    IgnoresNumbering oneCall instrumentAll onlyMainImportant 0 profiled (fun _ => .create) ↔
      (∃ i < oneCall.nodes.length, oneCall.hasNode i = false) ∨ ∀ p n,
        Eligible oneCall instrumentAll onlyMainImportant 0 profiled (fun _ => .create) p n →
        BecomesIrrelevant onlyMainImportant profiled (fun _ => .create) n →
          SelectedAnyway oneCall instrumentAll onlyMainImportant 0 profiled (fun _ => .create) n :=
  modifyGraph_ignoresNumbering_iff (Callgraph.run_wf 0 _) (by decide) instrumentAll onlyMainImportant profiled fun _ => .create

end MetaCG.Pgis
