import Mathlib.Logic.Relation
import MetaCG.Tools.LoopNests

/-! The recursive equation of the global depths.

Without cycles other than direct self calls, the chain on which a function is reached does not restrict the
nests at it: a mark on the chain is on a proper ancestor, which no call leads back to. -/
namespace MetaCG.FormatTwo
open Foundations Relation
set_option autoImplicit false
set_option maxHeartbeats 250000
set_option maxRecDepth 120000

/-! ## Nests without cycles -/

section
variable (calls : String → String → ℤ → Prop)

/-- The calls of other functions. -/
def CallsOther (f c : String) : Prop := c ≠ f ∧ ∃ d, calls f c d

/-- There is no cycle other than direct self calls. -/
def Acyclic : Prop := ∀ f, ¬ TransGen (CallsOther calls) f f

/-- No function in `visited` can be called from `f`, directly or through others. -/
def Above (visited : Finset String) (f : String) : Prop := ∀ v ∈ visited, ¬ TransGen (CallsOther calls) f v

end

section
variable {calls : String → String → ℤ → Prop} {loops : String → ℤ → Prop}

theorem above_empty (f : String) : Above calls ∅ f := fun v hv => absurd hv (Finset.notMem_empty v)

theorem Above.child {visited : Finset String} {f c : String} (hacyclic : Acyclic calls) (h : Above calls visited f)
    (hc : CallsOther calls f c) : c ∉ insert f visited ∧ Above calls (insert f visited) c := by
  constructor
  · intro hmem
    rcases Finset.mem_insert.mp hmem with heq | hv
    · exact hc.1 heq
    · exact h c hv (.single hc)
  · intro v hv hpath
    have hfrom : TransGen (CallsOther calls) f v := .head hc hpath
    rcases Finset.mem_insert.mp hv with heq | hv
    · rw [heq] at hfrom
      exact hacyclic f hfrom
    · exact h v hv hfrom

/-- Marks on functions above the entry do not matter. -/
theorem Nest.above {visited visited' : Finset String} {entry : String} {x : ℤ} (hacyclic : Acyclic calls)
    (h : Nest calls loops visited entry x) (habove : Above calls visited' entry) : Nest calls loops visited' entry x := by
  induction h generalizing visited' with
  | flat => exact .flat visited' _
  | loop h => exact .loop h
  | @call visited entry child d x h hchild _ ih =>
    have hother : CallsOther calls entry child := ⟨fun heq => hchild (by rw [heq]; exact Finset.mem_insert_self ..), d, h⟩
    obtain ⟨hunmarked, hbelow⟩ := habove.child hacyclic hother
    exact .call h hunmarked (ih hbelow)

theorem Chain.path {visited marked : Finset String} {entry last : String} (h : Chain calls visited entry marked last) :
    ReflTransGen (CallsOther calls) entry last := by
  induction h with
  | refl => exact .refl
  | @call visited marked entry child last d h hchild _ ih =>
    exact .head ⟨fun heq => hchild (by rw [heq]; exact Finset.mem_insert_self ..), d, h⟩ ih

theorem Chain.above {visited marked : Finset String} {entry last : String} (hacyclic : Acyclic calls)
    (h : Chain calls visited entry marked last) (habove : Above calls visited entry) : Above calls marked last := by
  induction h with
  | refl => exact habove
  | @call visited marked entry child last d h hchild _ ih =>
    have hother : CallsOther calls entry child := ⟨fun heq => hchild (by rw [heq]; exact Finset.mem_insert_self ..), d, h⟩
    exact ih (habove.child hacyclic hother).2

theorem exists_chain {visited : Finset String} {entry last : String} (hacyclic : Acyclic calls)
    (h : ReflTransGen (CallsOther calls) entry last) (habove : Above calls visited entry) :
    ∃ marked, Chain calls visited entry marked last := by
  induction h using ReflTransGen.head_induction_on generalizing visited with
  | refl => exact ⟨visited, .refl visited last⟩
  | @head entry child hother _ ih =>
    obtain ⟨hunmarked, hbelow⟩ := habove.child hacyclic hother
    obtain ⟨marked, hchain⟩ := ih hbelow
    obtain ⟨-, d, hd⟩ := hother
    exact ⟨marked, .call hd hunmarked hchain⟩

/-- Without cycles the nests on a chain are the nests of its last function. -/
theorem nestOn_iff_path {entry last : String} {x : ℤ} (hacyclic : Acyclic calls) : NestOn calls loops ∅ entry last x ↔
    ReflTransGen (CallsOther calls) entry last ∧ Nest calls loops ∅ last x := by
  constructor
  · rintro ⟨marked, hchain, hx⟩
    exact ⟨hchain.path, hx.subset (Finset.empty_subset marked)⟩
  · rintro ⟨hpath, hx⟩
    obtain ⟨marked, hchain⟩ := exists_chain hacyclic hpath (above_empty entry)
    exact ⟨marked, hchain, hx.above hacyclic (hchain.above hacyclic (above_empty entry))⟩

theorem nest_iff_children {f : String} {x : ℤ} (hacyclic : Acyclic calls) : Nest calls loops ∅ f x ↔
    x = 0 ∨ loops f x ∨ ∃ c d y, c ≠ f ∧ calls f c d ∧ Nest calls loops ∅ c y ∧ x = d + y := by
  rw [nest_iff]
  refine or_congr_right (or_congr_right (exists_congr fun c => exists_congr fun d => exists_congr fun y => ?_))
  constructor
  · rintro ⟨hd, hc, hy, hx⟩
    have hne : c ≠ f := fun heq => hc (by rw [heq]; exact Finset.mem_insert_self ..)
    exact ⟨hne, hd, hy.subset (Finset.empty_subset _), hx⟩
  · rintro ⟨hne, hd, hy, hx⟩
    obtain ⟨hunmarked, hbelow⟩ := (above_empty f).child hacyclic ⟨hne, d, hd⟩
    exact ⟨hd, hunmarked, hy.above hacyclic hbelow, hx⟩

/-- The depths of the called functions determine the depth of the caller. -/
theorem isGreatest_children {depth : String → ℤ} {f : String} {loopDepth : ℤ} (hacyclic : Acyclic calls)
    (hloop : loops f loopDepth) (hnonneg : 0 ≤ loopDepth)
    (hchild : ∀ c d, c ≠ f → calls f c d → IsGreatest {y | Nest calls loops ∅ c y} (depth c))
    (hf : IsGreatest {x | Nest calls loops ∅ f x} (depth f)) :
    IsGreatest {x | loops f x ∨ ∃ c d, c ≠ f ∧ calls f c d ∧ x = d + depth c} (depth f) := by
  constructor
  · rcases (nest_iff_children hacyclic).mp hf.1 with hzero | hx | ⟨c, d, y, hne, hd, hy, hx⟩
    · have hle : loopDepth ≤ depth f := hf.2 (.loop hloop)
      have heq : depth f = loopDepth := by omega
      rw [heq]
      exact .inl hloop
    · exact .inl hx
    · have hcall : Nest calls loops ∅ f (d + depth c) :=
        (nest_iff_children hacyclic).mpr (.inr (.inr ⟨c, d, depth c, hne, hd, (hchild c d hne hd).1, rfl⟩))
      have hle : d + depth c ≤ depth f := hf.2 hcall
      have hyle : y ≤ depth c := (hchild c d hne hd).2 hy
      exact .inr ⟨c, d, hne, hd, by omega⟩
  · rintro x (hx | ⟨c, d, hne, hd, rfl⟩)
    · exact hf.2 (.loop hx)
    · exact hf.2 ((nest_iff_children hacyclic).mpr (.inr (.inr ⟨c, d, depth c, hne, hd, (hchild c d hne hd).1, rfl⟩)))

end

/-! ## Graphs of format two -/

/-- A graph with depths that are not negative, whose callees and `"loopCallDepth"` keys are functions of it. -/
structure DepthGraph (cg : CG) : Prop where
  measured : ∀ f val, cg.find f = some val → val.Measured
  named : ∀ f val, cg.find f = some val → ∀ c, val.Names c → (cg.find c).isSome = true
  nonneg : ∀ f loopDepth, Loops cg f loopDepth → 0 ≤ loopDepth

/-- No nest of loops on a chain of calls from an entry point is deeper than an `int`. -/
def DepthsFit (cg : CG) (useOnlyMainEntry : Bool) : Prop :=
  ∀ e f x, Entry cg useOnlyMainEntry e → NestOn (Calls cg) (Loops cg) ∅ e f x → x ≤ 2147483647

/-- There are calls that lead from an entry point to `f`. -/
def Reached (cg : CG) (useOnlyMainEntry : Bool) (f : String) : Prop :=
  ∃ e, Entry cg useOnlyMainEntry e ∧ ReflTransGen (fun f c => ∃ d, Calls cg f c d) e f

/-- The graph with a `"globalLoopDepth"` at each function. -/
def CG.withGlobalDepths (cg : CG) (depth : String → ℤ) : CG :=
  cg.mapValues fun f val => { val with info := { val.info with globalLoopDepth := some (depth f) } }

section
variable {cg : CG} {b : Bool}

theorem Reached.call {f c : String} {d : ℤ} (h : Reached cg b f) (hd : Calls cg f c d) : Reached cg b c := by
  obtain ⟨e, he, hpath⟩ := h
  exact ⟨e, he, hpath.tail ⟨d, hd⟩⟩

theorem reached_iff {f : String} : Reached cg b f ↔ ∃ e, Entry cg b e ∧ ReflTransGen (CallsOther (Calls cg)) e f := by
  refine exists_congr fun e => and_congr_right fun _ => ⟨fun h => ?_, fun h =>
    ReflTransGen.mono (r := CallsOther (Calls cg)) (fun _ _ hother => hother.2) _ _ h⟩
  induction h with
  | refl => exact .refl
  | @tail f c _ hd ih =>
    by_cases hc : c = f
    · rw [hc]
      exact ih
    · exact ih.tail ⟨hc, hd⟩

/-- The depths are computed exactly if they fit. -/
theorem DepthGraph.returns_iff (h : DepthGraph cg) (w : Walk) (b : Bool) :
    (∃ cg', calculateGlobalCallDepth w cg b = .ok cg') ↔ DepthsFit cg b := by
  rw [calculateGlobalCallDepth_returns h.measured]
  constructor
  · exact fun hfits e f x he hx => (hfits e he f x hx).2
  · exact fun hfit e he => (fits_iff h.named he.1).mpr fun f x hx => hfit e f x he hx

theorem DepthGraph.reached_loops (h : DepthGraph cg) {f : String} (hf : Reached cg b f) : ∃ loopDepth, Loops cg f loopDepth := by
  obtain ⟨e, he, hpath⟩ := hf
  have hkey : (cg.find f).isSome = true := by
    induction hpath with
    | refl => exact he.1
    | tail _ hd _ =>
      obtain ⟨d, hd⟩ := hd
      obtain ⟨val, hval, hc⟩ := hd.names
      exact h.named _ val hval _ hc
  obtain ⟨val, hval⟩ := Option.isSome_iff_exists.mp hkey
  obtain ⟨loopDepth, -, hloop, -⟩ := h.measured f val hval
  exact ⟨loopDepth, val, hval, hloop⟩

theorem Loops.unique {f : String} {x y : ℤ} (hx : Loops cg f x) (hy : Loops cg f y) : x = y := by
  obtain ⟨val, hval, hx⟩ := hx
  obtain ⟨val', hval', hy⟩ := hy
  rw [hval] at hval'
  cases hval'
  rw [hx] at hy
  cases hy
  rfl

/-- The depths are written over the whole graph, the same for every walk. -/
theorem DepthGraph.exists_depth (h : DepthGraph cg) {b : Bool} (hfit : DepthsFit cg b) : ∃ depth : String → ℤ,
    (∀ w, calculateGlobalCallDepth w cg b = .ok (cg.withGlobalDepths depth)) ∧
      ∀ f loopDepth, Loops cg f loopDepth → IsGreatest {x | x = 0 ∨ x = loopDepth ∨
        ∃ e, Entry cg b e ∧ NestOn (Calls cg) (Loops cg) ∅ e f x} (depth f) := by
  obtain ⟨cg₀, h₀⟩ := (h.returns_iff ⟨id, fun l => List.Perm.refl l⟩ b).mpr hfit
  obtain ⟨depths, -, hrec, -⟩ := calculateGlobalCallDepth_records h₀
  have hdepth : ∀ f, ∃ x, ∀ loopDepth, Loops cg f loopDepth → x = max ((depths.find f).getD 0) loopDepth := by
    intro f
    by_cases hf : ∃ loopDepth, Loops cg f loopDepth
    · obtain ⟨loopDepth, hloop⟩ := hf
      exact ⟨max ((depths.find f).getD 0) loopDepth, fun y hy => by rw [hloop.unique hy]⟩
    · exact ⟨0, fun y hy => absurd ⟨y, hy⟩ hf⟩
  choose depth hdepth using hdepth
  refine ⟨depth, fun w => ?_, fun f loopDepth hloop => ?_⟩
  · obtain ⟨cg', hw⟩ := (h.returns_iff w b).mpr hfit
    obtain ⟨depths', rfl, hrec', -⟩ := calculateGlobalCallDepth_records hw
    have hsame : depths' = depths := hrec'.unique hrec (fun k x hx => ⟨x, hx, le_rfl⟩) fun k x hx => ⟨x, hx, le_rfl⟩
    rw [hw, hsame]
    refine congrArg Except.ok (OMap.ext_find fun f => ?_)
    rw [CG.withGlobalDepths, OMap.find_mapValues, OMap.find_mapValues]
    cases hf : cg.find f with
    | none => rfl
    | some val =>
      obtain ⟨loopDepth, -, hloop, -⟩ := h.measured f val hf
      rw [Option.map_some, Option.map_some, globalLoopDepth, hloop, hdepth f loopDepth ⟨val, hf, hloop⟩]
  · rw [hdepth f loopDepth hloop]
    refine isGreatest_recorded hrec f loopDepth ?_
    rintro x ⟨e, he, marked, hchain, -⟩
    exact ⟨e, he, marked, hchain, .flat marked f⟩

/-- The depth of a function that is reached is that of the deepest nest at it. -/
theorem isGreatest_of_reached (hacyclic : Acyclic (Calls cg)) {f : String} (hf : Reached cg b f) {x loopDepth : ℤ}
    (hloop : Loops cg f loopDepth) (hx : IsGreatest {x | x = 0 ∨ x = loopDepth ∨
      ∃ e, Entry cg b e ∧ NestOn (Calls cg) (Loops cg) ∅ e f x} x) : IsGreatest {x | Nest (Calls cg) (Loops cg) ∅ f x} x := by
  have hset : {x | Nest (Calls cg) (Loops cg) ∅ f x} = {x | x = 0 ∨ x = loopDepth ∨
      ∃ e, Entry cg b e ∧ NestOn (Calls cg) (Loops cg) ∅ e f x} := by
    refine Set.ext fun x => ⟨fun hnest => ?_, ?_⟩
    · obtain ⟨e, he, hpath⟩ := reached_iff.mp hf
      exact .inr (.inr ⟨e, he, (nestOn_iff_path hacyclic).mpr ⟨hpath, hnest⟩⟩)
    · rintro (rfl | rfl | ⟨e, -, hnest⟩)
      · exact .flat ∅ f
      · exact .loop hloop
      · exact ((nestOn_iff_path hacyclic).mp hnest).2
  rw [hset]
  exact hx

/-- Depths that fit are found whatever the recursion and the walk; without cycles other than direct self calls
they satisfy the recursive equation, and functions that are not reached keep their own depth. -/
theorem calculateGlobalCallDepth_equation (h : DepthGraph cg) (b : Bool) (hfit : DepthsFit cg b) : ∃ depth : String → ℤ,
    (∀ w, calculateGlobalCallDepth w cg b = .ok (cg.withGlobalDepths depth)) ∧
      (Acyclic (Calls cg) → ∀ f, Reached cg b f →
        IsGreatest {x | Loops cg f x ∨ ∃ c d, c ≠ f ∧ Calls cg f c d ∧ x = d + depth c} (depth f)) ∧
      ∀ f, ¬ Reached cg b f → ∀ loopDepth, Loops cg f loopDepth → depth f = loopDepth := by
  obtain ⟨depth, hw, hgreatest⟩ := h.exists_depth hfit
  refine ⟨depth, hw, fun hacyclic f hf => ?_, fun f hf loopDepth hloop => ?_⟩
  · have hnest : ∀ c, Reached cg b c → IsGreatest {x | Nest (Calls cg) (Loops cg) ∅ c x} (depth c) := by
      intro c hc
      obtain ⟨loopDepth, hloop⟩ := h.reached_loops hc
      exact isGreatest_of_reached hacyclic hc hloop (hgreatest c loopDepth hloop)
    obtain ⟨loopDepth, hloop⟩ := h.reached_loops hf
    exact isGreatest_children hacyclic hloop (h.nonneg f loopDepth hloop) (fun c d _ hd => hnest c (hf.call hd)) (hnest f hf)
  · have hmax := hgreatest f loopDepth hloop
    have hnonneg := h.nonneg f loopDepth hloop
    have hle : loopDepth ≤ depth f := hmax.2 (.inr (.inl rfl))
    rcases hmax.1 with hzero | hown | ⟨e, he, marked, hchain, -⟩
    · omega
    · exact hown
    · exact absurd (reached_iff.mpr ⟨e, he, hchain.path⟩) hf

end

/-- `main`, in one loop, calls `f` in `depth` loops; `f`, in one loop, calls itself. -/
def mainCallsF (depth : ℤ) : CG := (OMap.empty.insert "main"
  ⟨{"f"}, ∅, ∅, ∅, false, false, true, ⟨0, ⟨"", false⟩, .missing, .missing, .missing, .value 1,
    some (OMap.empty.insert "f" depth), none, none⟩⟩).insert "f"
  ⟨{"f"}, {"main"}, ∅, ∅, false, false, true, ⟨0, ⟨"", false⟩, .missing, .missing, .missing, .value 1, some .empty, none, none⟩⟩

theorem mainCallsF_find {depth : ℤ} {f : String} {val : Node} (h : (mainCallsF depth).find f = some val) :
    (f = "main" ∨ f = "f") ∧ val.callees = {"f"} ∧ val.info.loopDepth = .value 1 ∧
      ∃ m, val.info.loopCallDepth = some m ∧ ∀ c d, m.find c = some d → f = "main" ∧ c = "f" ∧ d = depth := by
  unfold mainCallsF at h
  rw [OMap.find_insert, OMap.find_insert, OMap.find_empty] at h
  split_ifs at h with hf hmain
  · cases h
    exact ⟨.inr hf, rfl, rfl, _, rfl, fun c d hd => by cases hd⟩
  · cases h
    refine ⟨.inl hmain, rfl, rfl, _, rfl, fun c d hd => ?_⟩
    rw [OMap.find_insert] at hd
    split_ifs at hd with hc
    · cases hd
      exact ⟨hmain, hc, rfl⟩
    · cases hd

theorem mainCallsF_depthGraph {depth : ℤ} (hdepth : InInt depth) : DepthGraph (mainCallsF depth) where
  measured := by
    intro f val hval
    obtain ⟨-, -, hloop, m, hm, hkeys⟩ := mainCallsF_find hval
    refine ⟨1, m, hloop, hm, by decide, fun c d hd => ?_⟩
    rw [(hkeys c d hd).2.2]
    exact hdepth
  named := by
    intro f val hval c hc
    obtain ⟨-, hcallees, -, m, hm, hkeys⟩ := mainCallsF_find hval
    have hcf : c = "f" := by
      rcases hc with hc | ⟨m', d, hm', hd⟩
      · rw [hcallees] at hc
        exact Finset.mem_singleton.mp hc
      · rw [hm] at hm'
        cases hm'
        exact (hkeys c d hd).2.1
    rw [hcf, mainCallsF, OMap.find_insert, if_pos rfl]
    rfl
  nonneg := by
    rintro f loopDepth ⟨val, hval, hloop⟩
    obtain ⟨-, -, hone, -⟩ := mainCallsF_find hval
    rw [hone] at hloop
    cases hloop
    decide

theorem mainCallsF_calls {depth : ℤ} {f c : String} {d : ℤ} (h : Calls (mainCallsF depth) f c d) :
    c = "f" ∧ (d = 0 ∨ d = depth) := by
  obtain ⟨val, m, hval, hm, hd⟩ := h
  obtain ⟨-, hcallees, -, m', hm', hkeys⟩ := mainCallsF_find hval
  rw [hm] at hm'
  cases hm'
  rcases hd with hd | ⟨-, hc, rfl⟩
  · exact (hkeys c d hd).2.imp_right .inr
  · rw [hcallees] at hc
    exact ⟨Finset.mem_singleton.mp hc, .inl rfl⟩

theorem mainCallsF_acyclic (depth : ℤ) : Acyclic (Calls (mainCallsF depth)) := by
  intro f hf
  obtain ⟨c, hc, -⟩ := TransGen.head'_iff.mp hf
  obtain ⟨c', -, hlast⟩ := TransGen.tail'_iff.mp hf
  obtain ⟨hne, d, hd⟩ := hc
  obtain ⟨-, d', hd'⟩ := hlast
  exact hne ((mainCallsF_calls hd).1.trans (mainCallsF_calls hd').1.symm)

/-- A nest has at most the loops of the call and one loop of a function. -/
theorem mainCallsF_nest {depth : ℤ} (hdepth : 0 ≤ depth) {visited : Finset String} {f : String} {x : ℤ}
    (h : Nest (Calls (mainCallsF depth)) (Loops (mainCallsF depth)) visited f x) : x ≤ depth + 1 := by
  have hle := h.le_bound (fun f => if f = "f" then 1 else depth + 1) (fun f => by split_ifs <;> omega)
    (fun f d hd => by
      obtain ⟨val, hval, hd⟩ := hd
      rw [(mainCallsF_find hval).2.2.1] at hd
      cases hd
      split_ifs <;> omega)
    fun f c d hd hne => by
      obtain ⟨rfl, hd⟩ := mainCallsF_calls hd
      rw [if_pos rfl, if_neg hne.symm]
      omega
  split_ifs at hle <;> omega

theorem calculateGlobalCallDepth_equation_mainCallsF : ∃ depth : String → ℤ,
    (∀ w, calculateGlobalCallDepth w (mainCallsF 2) true = .ok ((mainCallsF 2).withGlobalDepths depth)) ∧
      IsGreatest {x | Loops (mainCallsF 2) "main" x ∨ ∃ c d, c ≠ "main" ∧ Calls (mainCallsF 2) "main" c d ∧ x = d + depth c}
        (depth "main") := by
  have hfit : DepthsFit (mainCallsF 2) true := by
    rintro e f x - ⟨marked, -, hx⟩
    have hle := mainCallsF_nest (by decide) hx
    omega
  obtain ⟨depth, hw, hequation, -⟩ := calculateGlobalCallDepth_equation (mainCallsF_depthGraph (by decide)) true hfit
  exact ⟨depth, hw, hequation (mainCallsF_acyclic 2) "main" ⟨"main", ⟨by decide, rfl⟩, .refl⟩⟩

/-- The greatest `int` around the call and the loop of `f` have no sum. -/
theorem calculateGlobalCallDepth_overflow : DepthGraph (mainCallsF 2147483647) ∧ Acyclic (Calls (mainCallsF 2147483647)) ∧
    ∀ w b cg', calculateGlobalCallDepth w (mainCallsF 2147483647) b ≠ .ok cg' := by
  have hgraph : DepthGraph (mainCallsF 2147483647) := mainCallsF_depthGraph (by decide)
  refine ⟨hgraph, mainCallsF_acyclic _, fun w b cg' hrun => ?_⟩
  have hfit := (hgraph.returns_iff w b).mp ⟨cg', hrun⟩
  have hentry : Entry (mainCallsF 2147483647) b "main" := by
    refine ⟨by decide, ?_⟩
    split_ifs
    · rfl
    · exact fun k d hd => absurd (mainCallsF_calls hd).1 (by decide)
  have hcall : Calls (mainCallsF 2147483647) "main" "f" 2147483647 := ⟨_, _, rfl, rfl, .inl rfl⟩
  have hloop : Loops (mainCallsF 2147483647) "f" 1 := ⟨_, rfl, rfl⟩
  have hsum := hfit "main" "main" (2147483647 + 1) hentry ⟨∅, .refl ∅ "main", .call hcall (by decide) (.loop hloop)⟩
  omega

end MetaCG.FormatTwo
