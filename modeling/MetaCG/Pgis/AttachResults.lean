import Mathlib.Algebra.BigOperators.Group.Finset.Basic
import MetaCG.Foundations.Search
import MetaCG.Graph.History
import MetaCG.Pgis.ProfileData

/-! `AttachInstrumentationResultsEstimatorPhase` and `StoreInstrumentationDecisionsPhase` (`IPCGEstimatorPhase.cpp`).

The first turns the profile of a run into results that later runs keep, the second notes which functions the next run has to
profile. A result is exclusive if all callees were profiled too, and stays as it is from then on. Times are rational numbers, so
a sum of them does not depend on its order. -/
namespace MetaCG.Pgis.Profile
open Foundations Analysis
set_option autoImplicit false
set_option maxHeartbeats 250000
set_option maxRecDepth 120000

/-- A time divided by a number of calls. -/
def perCall (time : ℚ) (calls : UInt64) : Option ℚ := if calls = 0 then none else some (time / calls.toNat)

def Store.update (md : Store) (node : ℕ) (f : NodeData → NodeData) : Store := Function.update md node (f (md node))

/-- `std::none_of` over the callees; it stops at the first one that was not profiled, and makes `PiraOneData` on its way. -/
def noneMissing (md : Store) : List ℕ → Bool × Store
  | [] => (true, md)
  | child :: childs =>
    let md := md.update child NodeData.withPiraOne
    if (md child).comesFromCube then noneMissing md childs else (false, md)

/-- The loop over `workQueue`, which adds up the runtimes of the functions that are reached. -/
def sumRuntimes (order : List ℕ → List ℕ) (g : Callgraph) (md : Store) (inclusiveRuntimeSum : ℚ) (visitedNodes : Finset ℕ)
    (workQueue : List ℕ) : Except Exn ℚ :=
  match workQueue with
  | [] => .ok inclusiveRuntimeSum
  | workNode :: workQueue =>
    if _hnew : workNode ∈ visitedNodes then sumRuntimes order g md inclusiveRuntimeSum visitedNodes workQueue
    else
      match (md workNode).baseProfile with
      | none => .error .nullDereference
      | some bpd =>
        match _hcallees : getCallees order g workNode with
        | .error e => .error e
        | .ok callees =>
          sumRuntimes order g md (inclusiveRuntimeSum + bpd.timeInSeconds) (insert workNode visitedNodes) (workQueue ++ callees)
termination_by Search.pending (Finset.range g.nodes.length) visitedNodes workQueue
decreasing_by
  · exact Search.pending_skip _ le_rfl
  · exact Search.pending_visit (Finset.mem_range.mpr (Callgraph.hasNode_lt (live_of_neighbours _hcallees))) _hnew ..

/-- The result of a function that was to be instrumented and is not in the profile. -/
def neverRan (instResult : InstrumentationResultMetaData) : InstrumentationResultMetaData :=
  { instResult with
    isExclusiveRuntime := true
    shouldBeInstrumented := false
    callCount := 0
    callsFromParents := OMap.empty
    runtime := 0
    timePerCall := some 0
    inclusiveRunTimeCube := 0
    inclusiveRunTimeSum := 0
    inclusiveTimePerCallCube := some 0
    inclusiveTimePerCallSum := some 0 }

/-- The values that are only set while there is no exclusive result. -/
def setOwnRuntime (bpd : BaseProfileData) (isExclusive : Bool) (md : InstrumentationResultMetaData) :
    InstrumentationResultMetaData :=
  { md with
    runtime := bpd.timeInSeconds
    callCount := bpd.numCalls
    isExclusiveRuntime := isExclusive
    timePerCall := perCall bpd.timeInSeconds bpd.numCalls }

def setInclusive (bpd : BaseProfileData) (callsFromParents : OMap String UInt64) (inclusiveRuntimeSum : ℚ)
    (md : InstrumentationResultMetaData) : InstrumentationResultMetaData :=
  { md with
    callsFromParents := callsFromParents
    inclusiveRunTimeCube := bpd.inclTimeInSeconds
    inclusiveTimePerCallCube := perCall bpd.inclTimeInSeconds bpd.numCalls
    inclusiveRunTimeSum := inclusiveRuntimeSum
    inclusiveTimePerCallSum := perCall inclusiveRuntimeSum bpd.numCalls }

/-- What happens to a function that is in the profile. -/
def attachProfile (order : List ℕ → List ℕ) (g : Callgraph) (md : Store) (node : ℕ) : Except Exn Store := do
  let instResult := (md node).instrumentationResult
  let hasPrevExclusive := instResult.any (·.isExclusiveRuntime)
  match (md node).baseProfile with
  | none => throw .nullDereference
  | some bpd =>
    let callsFromParents ← bpd.getCallsFromParents g
    let childs ← getCallees order g node
    let (isExclusive, md) := noneMissing md childs
    let inclusiveRuntimeSum ← sumRuntimes order g md 0 ∅ [node]
    let r := instResult.getD .create
    let r := if hasPrevExclusive then r else setOwnRuntime bpd isExclusive r
    return md.update node fun d =>
      { d with instrumentationResult := some (setInclusive bpd callsFromParents inclusiveRuntimeSum r) }

/-- One round of the loop of `AttachInstrumentationResultsEstimatorPhase::modifyGraph`. -/
def attachNode (order : List ℕ → List ℕ) (g : Callgraph) (md : Store) (node : ℕ) : Except Exn Store := do
  let _ ← deref g node
  let md := md.update node NodeData.withPiraOne
  let instResult := (md node).instrumentationResult
  if instResult.any (·.shouldBeInstrumented) && !(md node).comesFromCube then
    return md.update node fun d => { d with instrumentationResult := instResult.map neverRan }
  else if (md node).comesFromCube then attachProfile order g md node
  else return md

def attachInstrumentationResults (order : List ℕ → List ℕ) (g : Callgraph) (md : Store) : Except Exn Store :=
  (List.range g.nodes.length).foldlM (attachNode order g) md

/-- One round of the loop of `StoreInstrumentationDecisionsPhase::modifyGraph`. -/
def storeNode (g : Callgraph) (md : Store) (node : ℕ) : Except Exn Store := do
  let _ ← deref g node
  return md.update node fun d =>
    { d with instrumentationResult :=
        if d.isAnyInstrumented then some { d.instrumentationResult.getD .create with shouldBeInstrumented := true }
        else d.instrumentationResult.map fun r => { r with shouldBeInstrumented := false } }

def storeInstrumentationDecisions (g : Callgraph) (md : Store) : Except Exn Store :=
  (List.range g.nodes.length).foldlM (storeNode g) md

/-! ## What the phases compute -/

/-- The function reaches only functions with a profile, and its callers are in the graph. -/
structure Complete (g : Callgraph) (md : Store) (n : ℕ) : Prop where
  profiled : ∀ m, Relation.ReflTransGen (Calls g) n m → (md m).baseProfile.isSome = true
  callers : ∀ bpd, (md n).baseProfile = some bpd → ∀ u, some u ∈ bpd.callFrom → g.hasNode u = true

/-- The runtime of a function in the profile. -/
def runtimeOf (md : Store) (n : ℕ) : ℚ := (md n).baseProfile.elim 0 BaseProfileData.timeInSeconds

/-- The runtimes of all functions that `n` reaches add up to `sum`. -/
def SumsTo (g : Callgraph) (md : Store) (n : ℕ) (sum : ℚ) : Prop :=
  ∃ R : Finset ℕ, (∀ m, m ∈ R ↔ Relation.ReflTransGen (Calls g) n m) ∧ sum = ∑ m ∈ R, runtimeOf md m

/-- All callees of the function were profiled. -/
def AllProfiled (g : Callgraph) (md : Store) (n : ℕ) : Prop := ∀ v, Calls g n v → (md v).comesFromCube = true

/-- What becomes of the result of the function. -/
structure Attached (g : Callgraph) (md : Store) (n : ℕ) (d' : NodeData) : Prop where
  others : d' = { (md n).withPiraOne with instrumentationResult := d'.instrumentationResult }
  missing : (md n).comesFromCube = false → d'.instrumentationResult =
    (md n).instrumentationResult.map fun r => if r.shouldBeInstrumented then neverRan r else r
  profiled : (md n).comesFromCube = true → ∃ bpd callsFromParents sum isExclusive,
    (md n).baseProfile = some bpd ∧ bpd.getCallsFromParents g = .ok callsFromParents ∧ SumsTo g md n sum ∧
    (isExclusive = true ↔ AllProfiled g md n) ∧
    d'.instrumentationResult = some (setInclusive bpd callsFromParents sum
      (if (md n).instrumentationResult.any (·.isExclusiveRuntime) then (md n).instrumentationResult.getD .create
       else setOwnRuntime bpd isExclusive ((md n).instrumentationResult.getD .create)))

/-! ## The parts of a round -/

section
variable {g : Callgraph} {order : List ℕ → List ℕ} {md t : Store}

theorem update_apply (md : Store) (node n : ℕ) (f : NodeData → NodeData) :
    md.update node f n = if n = node then f (md node) else md n := by
  unfold Store.update
  split_ifs with hn
  · rw [hn, Function.update_self]
  · rw [Function.update_of_ne hn]

/-- The stores agree up to results and to `PiraOneData` that is made. -/
def SameProfile (md t : Store) : Prop :=
  ∀ n, (t n).withPiraOne = { (md n).withPiraOne with instrumentationResult := (t n).instrumentationResult }

theorem SameProfile.refl (md : Store) : SameProfile md md := fun _ => rfl

theorem SameProfile.comesFromCube (h : SameProfile md t) (n : ℕ) : (t n).comesFromCube = (md n).comesFromCube := by
  have hsame := congrArg NodeData.comesFromCube (h n)
  exact hsame

theorem SameProfile.baseProfile (h : SameProfile md t) (n : ℕ) : (t n).baseProfile = (md n).baseProfile := by
  have hsame := congrArg NodeData.baseProfile (h n)
  exact hsame

theorem SameProfile.withPiraOne (h : SameProfile md t) (node : ℕ) : SameProfile md (t.update node NodeData.withPiraOne) := by
  intro n
  rw [update_apply]
  split_ifs with hn
  · subst hn
    exact h n
  · exact h n

theorem SameProfile.setResult (h : SameProfile md t) (node : ℕ) (r : Option InstrumentationResultMetaData) :
    SameProfile md (t.update node fun d => { d with instrumentationResult := r }) := by
  intro n
  rw [update_apply]
  split_ifs with hn
  · subst hn
    have hsame := congrArg (fun d => { d with instrumentationResult := r }) (h n)
    exact hsame
  · exact h n

/-- Making `PiraOneData` at some nodes. -/
def Created (t t' : Store) : Prop := ∀ n, t' n = t n ∨ t' n = (t n).withPiraOne

theorem noneMissing_spec (l : List ℕ) (t : Store) :
    ((noneMissing t l).1 = true ↔ ∀ v ∈ l, (t v).comesFromCube = true) ∧ Created t (noneMissing t l).2 ∧
      ∀ n, n ∉ l → (noneMissing t l).2 n = t n := by
  induction l generalizing t with
  | nil => exact ⟨by simp [noneMissing], fun n => .inl rfl, fun n _ => rfl⟩
  | cons c l ih =>
    have hcreated : Created t (t.update c NodeData.withPiraOne) := by
      intro n
      rw [update_apply]
      split_ifs with hn
      · exact .inr (by rw [hn])
      · exact .inl rfl
    have hcube : ∀ n, (t.update c NodeData.withPiraOne n).comesFromCube = (t n).comesFromCube := by
      intro n
      rcases hcreated n with hn | hn <;> rw [hn]
      rfl
    have hother : ∀ n, n ∉ c :: l → t.update c NodeData.withPiraOne n = t n := by
      intro n hn
      rw [update_apply, if_neg]
      rintro rfl
      exact hn (List.mem_cons_self ..)
    obtain ⟨hall, hmade, hrest⟩ := ih (t.update c NodeData.withPiraOne)
    unfold noneMissing
    simp only [hcube]
    split_ifs with hc
    · refine ⟨?_, fun n => ?_, fun n hn => ?_⟩
      · rw [hall, List.forall_mem_cons, and_iff_right hc]
        simp only [hcube]
      · rcases hmade n with hn | hn <;> rcases hcreated n with hn' | hn' <;> rw [hn, hn']
        · exact .inl rfl
        · exact .inr rfl
        · exact .inr rfl
        · exact .inr rfl
      · rw [hrest n fun hmem => hn (List.mem_cons_of_mem c hmem), hother n hn]
    · refine ⟨?_, hcreated, hother⟩
      rw [List.forall_mem_cons]
      exact iff_of_false id fun h => hc h.1

theorem reaches_live (h : g.Wf) {s n : ℕ} (hs : g.hasNode s = true) (hn : Relation.ReflTransGen (Calls g) s n) :
    g.hasNode n = true := by
  cases hn with
  | refl => exact hs
  | tail _ he => exact (h.edge_live _ _ he).2

theorem getCallsFromParents_ok_iff (g : Callgraph) (bpd : BaseProfileData) :
    (∃ m, bpd.getCallsFromParents g = .ok m) ↔ ∀ u, some u ∈ bpd.callFrom → g.hasNode u = true := by
  have hkeys : ∀ k : Option ℕ, k ∈ bpd.callFrom ↔ ∃ calls, (k, calls) ∈ UMap.toPairs bpd.callFrom := by
    intro k
    simp only [UMap.mem_iff_lookup, UMap.mem_toPairs]
  unfold BaseProfileData.getCallsFromParents
  constructor
  · rintro ⟨m, hm⟩ u hu
    obtain ⟨calls, hcalls⟩ := (hkeys _).mp hu
    obtain ⟨_, _, hround⟩ := foldlM_ok_mem hm _ hcalls
    dsimp only at hround
    obtain ⟨n, hn, -⟩ := bind_eq_ok.mp hround
    exact hasNode_of_deref hn
  · intro hlive
    refine (foldlM_total (J := fun _ _ => True) trivial fun pre p m hpre _ => ?_).imp fun _ h => h.1
    have hp : p ∈ UMap.toPairs bpd.callFrom := hpre.subset (List.mem_append_right _ (List.mem_singleton_self p))
    obtain ⟨k, calls⟩ := p
    cases k with
    | none => exact ⟨m, rfl, trivial⟩
    | some u =>
      obtain ⟨n, hn⟩ := deref_ok (hlive u ((hkeys _).mpr ⟨calls, hp⟩))
      dsimp only
      rw [hn]
      exact ⟨_, rfl, trivial⟩

/-- The walk over the callees adds each function that is reached once. -/
theorem sumRuntimes_spec (h : g.Wf) (hord : ∀ l, (order l).Perm l) {s : ℕ} (hs : g.hasNode s = true) {sum : ℚ} {V : Finset ℕ}
    {Q : List ℕ} (hf : Search.Frontier (Calls g) s V Q) (hV : ∀ m ∈ V, (t m).baseProfile.isSome = true)
    (hsum : sum = ∑ m ∈ V, runtimeOf t m) :
    (∀ r, sumRuntimes order g t sum V Q = .ok r → SumsTo g t s r ∧
        ∀ m, Relation.ReflTransGen (Calls g) s m → (t m).baseProfile.isSome = true) ∧
      ((∀ m, Relation.ReflTransGen (Calls g) s m → (t m).baseProfile.isSome = true) →
        ∃ r, sumRuntimes order g t sum V Q = .ok r) := by
  fun_induction sumRuntimes order g t sum V Q with
  | case1 sum V =>
    refine ⟨fun r hr => ?_, fun _ => ⟨sum, rfl⟩⟩
    cases hr
    exact ⟨⟨V, hf.done, hsum⟩, fun m hm => hV m ((hf.done m).mpr hm)⟩
  | case2 sum V u Q hu ih => exact ih (hf.skip hu) hV hsum
  | case3 sum V u Q hu hnone =>
    refine ⟨fun r hr => (by cases hr), fun hall => ?_⟩
    have hsome := hall u (hf.reached u (.inr (List.mem_cons_self ..)))
    rw [hnone] at hsome
    cases hsome
  | case4 sum V u Q hu bpd hbpd e he =>
    obtain ⟨callees, hok, -⟩ := getCallees_ok h hord (reaches_live h hs (hf.reached u (.inr (List.mem_cons_self ..))))
    rw [he] at hok
    cases hok
  | case5 sum V u Q hu bpd hbpd callees hcallees ih =>
    refine ih (hf.visitAll (mem_getCallees h hord hcallees)) (fun m hm => ?_) ?_
    · rcases Finset.mem_insert.mp hm with rfl | hm
      · rw [hbpd]
        rfl
      · exact hV m hm
    · rw [Finset.sum_insert hu, hsum, add_comm]
      congr 1
      rw [runtimeOf, hbpd]
      rfl

/-! ## One round -/

theorem withPiraOne_of_isSome {d : NodeData} (h : d.piraOne.isSome = true) : d.withPiraOne = d := by
  obtain ⟨p, hp⟩ := Option.isSome_iff_exists.mp h
  cases d
  simp only at hp
  rw [hp]
  rfl

theorem Created.piraOne {t t' : Store} (h : Created t t') {n : ℕ} (hn : (t n).piraOne.isSome = true) : t' n = t n := by
  rcases h n with he | he
  · exact he
  · rw [he, withPiraOne_of_isSome hn]

theorem SameProfile.created {t' : Store} (h : SameProfile md t) (hc : Created t t') : SameProfile md t' := by
  intro n
  rcases hc n with hn | hn
  · rw [hn]
    exact h n
  · rw [hn]
    exact h n

theorem SameProfile.sumsTo (h : SameProfile md t) {n : ℕ} {sum : ℚ} : SumsTo g t n sum ↔ SumsTo g md n sum := by
  have hruntime : runtimeOf t = runtimeOf md := funext fun m => by rw [runtimeOf, h.baseProfile m, ← runtimeOf]
  rw [SumsTo, SumsTo, hruntime]

/-- What holds after `k` rounds. -/
structure Progress (g : Callgraph) (md : Store) (k : ℕ) (t : Store) : Prop where
  same : SameProfile md t
  done : ∀ n < k, (t n).piraOne.isSome = true ∧ Attached g md n (t n)
  rest : ∀ n, k ≤ n → (t n).instrumentationResult = (md n).instrumentationResult
  outside : ∀ n, g.hasNode n = false → t n = md n

theorem Progress.start (g : Callgraph) (md : Store) : Progress g md 0 md :=
  ⟨.refl md, fun n hn => absurd hn (Nat.not_lt_zero n), fun _ _ => rfl, fun _ _ => rfl⟩

/-- A round that makes `PiraOneData` at live nodes and sets the result of one node. -/
theorem Progress.advance {k : ℕ} (h : Progress g md k t) (hk : g.hasNode k = true) {t₁ : Store}
    (hcreated : Created (t.update k NodeData.withPiraOne) t₁)
    (hlive : ∀ n, g.hasNode n = false → t₁ n = t.update k NodeData.withPiraOne n)
    (r : Option InstrumentationResultMetaData)
    (hmissing : (md k).comesFromCube = false →
      r = (md k).instrumentationResult.map fun r => if r.shouldBeInstrumented then neverRan r else r)
    (hprofiled : (md k).comesFromCube = true → ∃ bpd callsFromParents sum isExclusive,
      (md k).baseProfile = some bpd ∧ bpd.getCallsFromParents g = .ok callsFromParents ∧ SumsTo g md k sum ∧
      (isExclusive = true ↔ AllProfiled g md k) ∧ r = some (setInclusive bpd callsFromParents sum
        (if (md k).instrumentationResult.any (·.isExclusiveRuntime) then (md k).instrumentationResult.getD .create
         else setOwnRuntime bpd isExclusive ((md k).instrumentationResult.getD .create)))) :
    Progress g md (k + 1) (t₁.update k fun d => { d with instrumentationResult := r }) := by
  have hsome : (t.update k NodeData.withPiraOne k).piraOne.isSome = true := by
    rw [update_apply, if_pos rfl]
    rfl
  have hsame := ((h.same.withPiraOne k).created hcreated).setResult k r
  refine ⟨hsame, fun n hn => ?_, fun n hn => ?_, fun n hn => ?_⟩
  · rcases Nat.lt_succ_iff_lt_or_eq.mp hn with hlt | rfl
    · obtain ⟨hpira, hatt⟩ := h.done n hlt
      have hpira' : (t.update k NodeData.withPiraOne n).piraOne.isSome = true := by
        rw [update_apply, if_neg (Nat.ne_of_lt hlt)]
        exact hpira
      have hkeep : (t₁.update k fun d => { d with instrumentationResult := r }) n = t n := by
        rw [update_apply, if_neg (Nat.ne_of_lt hlt), hcreated.piraOne hpira', update_apply, if_neg (Nat.ne_of_lt hlt)]
      rw [hkeep]
      exact ⟨hpira, hatt⟩
    · have hn₁ := hcreated.piraOne hsome
      have hself := hsame n
      rw [update_apply, if_pos rfl] at hself ⊢
      have hpira : (t₁ n).piraOne.isSome = true := by
        rw [hn₁]
        exact hsome
      have hset : ({ t₁ n with instrumentationResult := r } : NodeData).withPiraOne = { t₁ n with instrumentationResult := r } :=
        withPiraOne_of_isSome hpira
      exact ⟨hpira, hset.symm.trans hself, hmissing, hprofiled⟩
  · have hne : n ≠ k := by omega
    rw [update_apply, if_neg hne, ← h.rest n (by omega)]
    rcases hcreated n with he | he <;> rw [he, update_apply, if_neg hne]
    rfl
  · have hne : n ≠ k := by
      rintro rfl
      rw [hk] at hn
      cases hn
    rw [update_apply, if_neg hne, hlive n hn, update_apply, if_neg hne]
    exact h.outside n hn

theorem attachProfile_eq_ok {k : ℕ} {t t' : Store} : attachProfile order g t k = .ok t' ↔
    ∃ bpd callsFromParents childs sum, (t k).baseProfile = some bpd ∧ bpd.getCallsFromParents g = .ok callsFromParents ∧
      getCallees order g k = .ok childs ∧ sumRuntimes order g (noneMissing t childs).2 0 ∅ [k] = .ok sum ∧
      t' = (noneMissing t childs).2.update k fun d => { d with instrumentationResult := some (setInclusive bpd callsFromParents sum
        (if (t k).instrumentationResult.any (·.isExclusiveRuntime) then (t k).instrumentationResult.getD .create
         else setOwnRuntime bpd (noneMissing t childs).1 ((t k).instrumentationResult.getD .create))) } := by
  unfold attachProfile
  dsimp only
  cases (t k).baseProfile with
  | none =>
    refine iff_of_false (fun h => (by cases h)) ?_
    rintro ⟨bpd, _, _, _, hbpd, -⟩
    cases hbpd
  | some bpd =>
    constructor
    · intro h
      obtain ⟨callsFromParents, hcalls, h⟩ := bind_eq_ok.mp h
      obtain ⟨childs, hchilds, h⟩ := bind_eq_ok.mp h
      obtain ⟨sum, hsum, h⟩ := bind_eq_ok.mp h
      cases h
      exact ⟨bpd, callsFromParents, childs, sum, rfl, hcalls, hchilds, hsum, rfl⟩
    · rintro ⟨b, callsFromParents, childs, sum, hb, hcalls, hchilds, hsum, rfl⟩
      cases hb
      simp only [hcalls, ok_bind, hchilds, hsum]
      rfl

theorem attachProfile_spec (h : g.Wf) (hord : ∀ l, (order l).Perm l) {k : ℕ} (hk : g.hasNode k = true) (t : Store) :
    ((∃ t', attachProfile order g t k = .ok t') ↔ Complete g t k) ∧
      ∀ t', attachProfile order g t k = .ok t' → ∃ t₁ bpd callsFromParents sum isExclusive, Created t t₁ ∧
        (∀ n, g.hasNode n = false → t₁ n = t n) ∧ (t k).baseProfile = some bpd ∧
        bpd.getCallsFromParents g = .ok callsFromParents ∧ SumsTo g t k sum ∧ (isExclusive = true ↔ AllProfiled g t k) ∧
        t' = t₁.update k fun d => { d with instrumentationResult := some (setInclusive bpd callsFromParents sum
          (if (t k).instrumentationResult.any (·.isExclusiveRuntime) then (t k).instrumentationResult.getD .create
           else setOwnRuntime bpd isExclusive ((t k).instrumentationResult.getD .create))) } := by
  obtain ⟨childs, hchilds, -, hmem⟩ := getCallees_ok h hord hk
  obtain ⟨hexclusive, hcreated, hother⟩ := noneMissing_spec childs t
  have hsame : SameProfile t (noneMissing t childs).2 := (SameProfile.refl t).created hcreated
  have hlive : ∀ n, g.hasNode n = false → (noneMissing t childs).2 n = t n := by
    intro n hn
    refine hother n fun hin => ?_
    rw [(h.edge_live k n ((hmem n).mp hin)).2] at hn
    cases hn
  have hall : (noneMissing t childs).1 = true ↔ AllProfiled g t k := by
    rw [hexclusive]
    exact forall_congr' fun v => by rw [hmem]
  obtain ⟨hsound, htotal⟩ := sumRuntimes_spec (t := (noneMissing t childs).2) h hord hk .initial
    (fun m hm => absurd hm (Finset.notMem_empty m)) Finset.sum_empty.symm
  simp only [hsame.sumsTo, hsame.baseProfile] at hsound htotal
  simp only [attachProfile_eq_ok, hchilds, Except.ok.injEq]
  refine ⟨⟨?_, fun hcomplete => ?_⟩, ?_⟩
  · rintro ⟨_, bpd, calls, _, sum, hbpd, hcalls, rfl, hsum, -⟩
    refine ⟨(hsound sum hsum).2, fun b hb => ?_⟩
    rw [hbpd] at hb
    cases hb
    exact (getCallsFromParents_ok_iff g bpd).mp ⟨calls, hcalls⟩
  · obtain ⟨bpd, hbpd⟩ := Option.isSome_iff_exists.mp (hcomplete.profiled k .refl)
    obtain ⟨calls, hcalls⟩ := (getCallsFromParents_ok_iff g bpd).mpr (hcomplete.callers bpd hbpd)
    obtain ⟨sum, hsum⟩ := htotal hcomplete.profiled
    exact ⟨_, bpd, calls, childs, sum, hbpd, hcalls, rfl, hsum, rfl⟩
  · rintro t' ⟨bpd, calls, _, sum, hbpd, hcalls, rfl, hsum, rfl⟩
    exact ⟨_, bpd, calls, sum, _, hcreated, hlive, hbpd, hcalls, (hsound sum hsum).1, hall, rfl⟩

theorem SameProfile.complete (h : SameProfile md t) {n : ℕ} : Complete g t n ↔ Complete g md n := by
  constructor
  · intro hc
    refine ⟨fun m hm => ?_, fun bpd hbpd => hc.callers bpd ((h.baseProfile n).trans hbpd)⟩
    rw [← h.baseProfile m]
    exact hc.profiled m hm
  · intro hc
    refine ⟨fun m hm => ?_, fun bpd hbpd => hc.callers bpd ((h.baseProfile n).symm.trans hbpd)⟩
    rw [h.baseProfile m]
    exact hc.profiled m hm

/-- One round: it succeeds unless the function was profiled and reaches one that has no profile. -/
theorem Progress.round (hg : g.Wf) (hord : ∀ l, (order l).Perm l) {k : ℕ} (hk : g.hasNode k = true) (h : Progress g md k t) :
    ((∃ t', attachNode order g t k = .ok t') ↔ ((md k).comesFromCube = true → Complete g md k)) ∧
      ∀ t', attachNode order g t k = .ok t' → Progress g md (k + 1) t' := by
  obtain ⟨n, hn⟩ := deref_ok hk
  have hresult : (t.update k NodeData.withPiraOne k).instrumentationResult = (md k).instrumentationResult := by
    rw [update_apply, if_pos rfl, NodeData.instrumentationResult_withPiraOne, h.rest k le_rfl]
  have hsame := h.same.withPiraOne k
  have hcube := hsame.comesFromCube k
  unfold attachNode
  rw [hn, ok_bind]
  dsimp only
  rw [hresult, hcube]
  by_cases hprofiled : (md k).comesFromCube = true
  · -- the profile of the function is attached
    obtain ⟨hiff, hspec⟩ := attachProfile_spec hg hord hk (t.update k NodeData.withPiraOne)
    rw [hprofiled]
    simp only [Bool.not_true, Bool.and_false, Bool.false_eq_true, if_false, if_true, true_imp_iff]
    rw [hiff, hsame.complete]
    refine ⟨Iff.rfl, fun t' ht' => ?_⟩
    obtain ⟨t₁, bpd, calls, sum, isExclusive, hcreated, hlive, hbpd, hcalls, hsum, hexclusive, rfl⟩ := hspec t' ht'
    rw [hsame.baseProfile] at hbpd
    rw [hsame.sumsTo] at hsum
    simp only [AllProfiled, hsame.comesFromCube] at hexclusive
    rw [hresult]
    refine h.advance hk hcreated hlive _ (fun hnot => ?_) fun _ =>
      ⟨bpd, calls, sum, isExclusive, hbpd, hcalls, hsum, hexclusive, rfl⟩
    rw [hprofiled] at hnot
    cases hnot
  · have hnot : (md k).comesFromCube = false := by rwa [Bool.not_eq_true] at hprofiled
    have hkeep : Created (t.update k NodeData.withPiraOne) (t.update k NodeData.withPiraOne) := fun _ => .inl rfl
    have hnone : ∀ {P : Prop}, (md k).comesFromCube = true → P := fun hcontra => absurd hcontra hprofiled
    rw [hnot]
    simp only [Bool.not_false, Bool.and_true, Bool.false_eq_true, if_false, false_imp_iff, iff_true]
    split_ifs with hdue
    · refine ⟨⟨_, rfl⟩, fun t' ht' => ?_⟩
      cases ht'
      refine h.advance hk hkeep (fun _ _ => rfl) _ (fun _ => ?_) fun hc => hnone hc
      obtain ⟨r, hr⟩ := Option.isSome_iff_exists.mp (Option.isSome_of_any hdue)
      rw [hr, Option.any_some] at hdue
      rw [hr, Option.map_some, Option.map_some, if_pos hdue]
    · refine ⟨⟨_, rfl⟩, fun t' ht' => ?_⟩
      cases ht'
      have hset : t.update k NodeData.withPiraOne =
          (t.update k NodeData.withPiraOne).update k fun d => { d with instrumentationResult := (md k).instrumentationResult } := by
        funext m
        rw [update_apply (t.update k NodeData.withPiraOne)]
        split_ifs with hm
        · rw [hm, ← hresult]
        · rfl
      rw [hset]
      refine h.advance hk hkeep (fun _ _ => rfl) _ (fun _ => ?_) fun hc => hnone hc
      cases hr : (md k).instrumentationResult with
      | none => rfl
      | some r =>
        rw [hr, Option.any_some] at hdue
        rw [Option.map_some, if_neg hdue]

/-- The phase has come by every node. -/
theorem live_of_attach {md' : Store} (h : attachInstrumentationResults order g md = .ok md') :
    ∀ i < g.nodes.length, g.hasNode i = true := by
  intro i hi
  obtain ⟨_, _, hround⟩ := foldlM_ok_mem h i (List.mem_range.mpr hi)
  obtain ⟨n, hn, -⟩ := bind_eq_ok.mp hround
  exact hasNode_of_deref hn

/-- What a run of the phase leaves behind. -/
theorem Progress.of_attach (hg : g.Wf) (hord : ∀ l, (order l).Perm l) {md' : Store}
    (h : attachInstrumentationResults order g md = .ok md') :
    Progress g md g.nodes.length md' ∧ ∀ n < g.nodes.length, (md n).comesFromCube = true → Complete g md n := by
  refine foldlM_range_ok_inv (J := fun k t => Progress g md k t ∧ ∀ n < k, (md n).comesFromCube = true → Complete g md n)
    ⟨.start g md, fun n hn => absurd hn (Nat.not_lt_zero n)⟩ (fun k hk t t' hJ hround => ?_) h
  obtain ⟨hiff, hstep⟩ := hJ.1.round hg hord (live_of_attach h k hk)
  refine ⟨hstep t' hround, fun n hn => ?_⟩
  rcases Nat.lt_succ_iff_lt_or_eq.mp hn with hn | rfl
  · exact hJ.2 n hn
  · exact hiff.mp ⟨t', hround⟩

theorem Progress.total (hg : g.Wf) (hlive : ∀ i < g.nodes.length, g.hasNode i = true) (hord : ∀ l, (order l).Perm l)
    (hall : ∀ n, g.hasNode n = true → (md n).comesFromCube = true → Complete g md n) :
    ∃ md', attachInstrumentationResults order g md = .ok md' := by
  have hloop := foldlM_range_total (f := attachNode order g) (J := Progress g md) (n := g.nodes.length) (.start g md)
    fun k hk t hJ => ?_
  · obtain ⟨md', hmd', -⟩ := hloop
    exact ⟨md', hmd'⟩
  · obtain ⟨hiff, hstep⟩ := hJ.round hg hord (hlive k hk)
    obtain ⟨t', ht'⟩ := hiff.mpr (hall k (hlive k hk))
    exact ⟨t', ht', hstep t' ht'⟩

/-- The phase succeeds if no node is erased and every profiled function reaches only functions with a profile. It then replaces
the result of each function as `Attached` says, whatever the order in which the callees come. -/
theorem attachInstrumentationResults_spec (hg : g.Wf) (hord : ∀ l, (order l).Perm l) (md : Store) :
    ((∃ md', attachInstrumentationResults order g md = .ok md') ↔
        (∀ i < g.nodes.length, g.hasNode i = true) ∧
          ∀ n, g.hasNode n = true → (md n).comesFromCube = true → Complete g md n) ∧
      ∀ md', attachInstrumentationResults order g md = .ok md' →
        ∀ n, if g.hasNode n then Attached g md n (md' n) else md' n = md n := by
  refine ⟨⟨fun ⟨md', h⟩ => ⟨live_of_attach h, fun n hn => (Progress.of_attach hg hord h).2 n (Callgraph.hasNode_lt hn)⟩,
    fun ⟨hlive, hall⟩ => Progress.total hg hlive hord hall⟩, fun md' h n => ?_⟩
  have hprogress := (Progress.of_attach hg hord h).1
  split_ifs with hn
  · exact (hprogress.done n (Callgraph.hasNode_lt hn)).2
  · exact hprogress.outside n (Bool.not_eq_true _ ▸ hn)

/-- `main` calls `helper`. -/
def callPair : Callgraph :=
  Callgraph.run 0 [.insert "helper" none false true, .insert "main" none false true, .addEdge 1 0]

/-- Both functions are in the profile; `helper` takes one second in five calls, `main` two seconds. -/
def pairProfiled : Store := fun n =>
  { NodeData.create with
    piraOne := some { PiraOneData.create with wasInPreviousProfile := true }
    baseProfile := some (if n = 0 then ⟨5, 1, 1, (∅ : UMap (Option ℕ) UInt64).insert (some 1) 5, []⟩ else ⟨1, 2, 3, ∅, []⟩) }

theorem callPair_reaches {m : ℕ} : Relation.ReflTransGen (Calls callPair) 1 m ↔ m = 0 ∨ m = 1 := by
  have hwf : callPair.Wf := Callgraph.run_wf 0 _
  constructor
  · intro hm
    have hlt : m < 2 := Callgraph.hasNode_lt (reaches_live hwf (by decide) hm)
    omega
  · rintro (rfl | rfl)
    · exact .single (by decide)
    · exact .refl

/-- Both callers and callees were profiled, so the result of `main` is exclusive and its sum has the time of `helper`. -/
theorem attachInstrumentationResults_spec_callPair : ∃ md' r, attachInstrumentationResults id callPair pairProfiled = .ok md' ∧
    (md' 1).instrumentationResult = some r ∧ r.isExclusiveRuntime = true ∧ r.runtime = 2 ∧ r.inclusiveRunTimeSum = 3 := by
  have hwf : callPair.Wf := Callgraph.run_wf 0 _
  obtain ⟨hreturns, hspec⟩ := attachInstrumentationResults_spec hwf (fun l => .refl l) pairProfiled
  have hcallers : ∀ n bpd, (pairProfiled n).baseProfile = some bpd → ∀ u, some u ∈ bpd.callFrom → callPair.hasNode u = true := by
    intro n bpd hbpd u hu
    cases hbpd
    split_ifs at hu with hn
    · rw [AList.mem_insert] at hu
      obtain rfl : u = 1 := by simpa using hu
      decide
    · exact absurd hu (AList.notMem_empty _)
  obtain ⟨md', hmd'⟩ := hreturns.mpr ⟨by decide, fun n _ _ => ⟨fun _ _ => rfl, hcallers n⟩⟩
  have hattached : Attached callPair pairProfiled 1 (md' 1) := hspec md' hmd' 1
  obtain ⟨bpd, calls, sum, isExclusive, hbpd, -, ⟨R, hR, hsum⟩, hexclusive, hresult⟩ := hattached.profiled rfl
  cases hbpd
  refine ⟨md', _, hmd', hresult, hexclusive.mpr fun _ _ => rfl, rfl, ?_⟩
  have hnodes : R = {0, 1} := by
    ext m
    rw [hR, callPair_reaches, Finset.mem_insert, Finset.mem_singleton]
  change sum = 3
  rw [hsum, hnodes, Finset.sum_pair Nat.zero_ne_one]
  exact (Nat.cast_add 1 2).symm

end
end MetaCG.Pgis.Profile
