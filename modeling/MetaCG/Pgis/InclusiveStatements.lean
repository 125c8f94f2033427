import Mathlib.Algebra.Order.BigOperators.Group.List
import MetaCG.Foundations.DepthFirst
import MetaCG.Pgis.CallEstimateRecursion

/-! The inclusive statement counts (`CgHelper.cpp`, `LIMetaData.h`).

The recursion only writes the counts, so they are its state and the rest of the load imbalance metadata is fixed. The
callees are a set, so the check against processing one twice is left out. -/
namespace MetaCG.Pgis
open Foundations Analysis
set_option autoImplicit false
set_option maxHeartbeats 250000
set_option maxRecDepth 120000

/-- `LIMetaData`, with one member for every key of `flags`. -/
structure LIMetaData where
  inclusiveStatements : ℕ
  isVirtualFunction : Bool
  visited : Bool
  irrelevant : Bool
  imbalanced : Bool
  assessment : Option ℚ
deriving DecidableEq

def LIMetaData.create : LIMetaData := ⟨0, false, false, false, false, none⟩

abbrev LIStore := ℕ → LIMetaData

/-- The conversion of `getNumberOfStatements()` to `Statements`. -/
def numberOfStatements (md : MetaStore) (node : ℕ) : ℕ := toUnsigned (md node).piraOne.numStmts

/-- An abstract function is virtual and has no statements. -/
def isAbstract (md : MetaStore) (li : LIStore) (node : ℕ) : Bool :=
  (li node).isVirtualFunction && decide ((md node).piraOne.numStmts = 0)

-- An abstract function counts as much as the greatest of its potential call targets.
def addChildCount (md : MetaStore) (li : LIStore) (node inclusiveStatements count : ℕ) : ℕ :=
  if isAbstract md li node then max inclusiveStatements count else toUnsigned (inclusiveStatements + count)

structure Counting where
  visitedNodes : Finset ℕ
  inclusiveStatements : ℕ → ℕ

/-- One round of the loop over the callees of `node`. -/
def countChild (visit : ℕ → Counting → Except Stop (ℕ × Counting)) (md : MetaStore) (li : LIStore) (node : ℕ)
    (st : ℕ × Counting) (childNode : ℕ) : Except Stop (ℕ × Counting) := do
  let (count, counting) ← visit childNode st.2
  return (addChildCount md li node st.1 count, counting)

def visitNodeForInclusiveStatements (order : List ℕ → List ℕ) (g : Callgraph) (md : MetaStore) (li : LIStore) :
    ℕ → ℕ → Counting → Except Stop (ℕ × Counting)
  | 0, _, _ => .error .fuel
  | fuel + 1, node, st =>
    if node ∈ st.visitedNodes then .ok (st.inclusiveStatements node, st)
    else do
      let callees ← lift (getCallees order g node)
      let (inclusiveStatements, st) ← callees.foldlM
        (countChild (visitNodeForInclusiveStatements order g md li fuel) md li node)
        (numberOfStatements md node, { st with visitedNodes := insert node st.visitedNodes })
      return (inclusiveStatements,
        { st with inclusiveStatements := Function.update st.inclusiveStatements node inclusiveStatements })

/-- The metadata with other counts. -/
def LIStore.withCounts (li : LIStore) (inclusiveStatements : ℕ → ℕ) : LIStore :=
  fun n => { li n with inclusiveStatements := inclusiveStatements n }

def calculateInclusiveStatementCounts (order : List ℕ → List ℕ) (g : Callgraph) (md : MetaStore) (fuel mainNode : ℕ)
    (li : LIStore) : Except Stop LIStore := do
  let (_, counting) ← visitNodeForInclusiveStatements order g md li fuel mainNode ⟨∅, fun n => (li n).inclusiveStatements⟩
  return li.withCounts counting.inclusiveStatements

/-! ## The recursion as a depth-first search -/

/-- The callees of a node; none if there is no such node. -/
def calleesOf (order : List ℕ → List ℕ) (g : Callgraph) (node : ℕ) : List ℕ := (getCallees order g node).toOption.getD []

section
variable {order : List ℕ → List ℕ} {g : Callgraph} {md : MetaStore} {li : LIStore} {n : ℕ}

theorem getCallees_calleesOf (h : g.Wf) (hord : ∀ l, (order l).Perm l) (hlive : g.hasNode n = true) :
    getCallees order g n = .ok (calleesOf order g n) := by
  obtain ⟨callees, hc, -, -⟩ := getCallees_ok h hord hlive
  rw [calleesOf, hc]
  rfl

theorem mem_calleesOf (h : g.Wf) (hord : ∀ l, (order l).Perm l) {v : ℕ} : v ∈ calleesOf order g n ↔ Calls g n v := by
  by_cases hlive : g.hasNode n = true
  · exact mem_getCallees h hord (getCallees_calleesOf h hord hlive) v
  · refine ⟨fun hv => ?_, fun hcall => absurd (h.edge_live n v hcall).1 hlive⟩
    cases hc : getCallees order g n with
    | error e =>
      rw [calleesOf, hc] at hv
      exact absurd hv List.not_mem_nil
    | ok callees => exact absurd (live_of_neighbours hc) hlive

theorem edge_eq_calls (h : g.Wf) (hord : ∀ l, (order l).Perm l) : DepthFirst.Edge (calleesOf order g) = Calls g := by
  funext u v
  exact propext (mem_calleesOf h hord)

theorem countChild_ok {visit : ℕ → Counting → Except Stop (ℕ × Counting)} {c count acc : ℕ} {st st' : Counting}
    (hvisit : visit c st = .ok (count, st')) :
    countChild visit md li n (acc, st) c = .ok (addChildCount md li n acc count, st') := by
  unfold countChild
  rw [show ((acc, st) : ℕ × Counting).2 = st from rfl, hvisit]
  rfl

theorem visit_seen {c : ℕ} {V : Finset ℕ} {S : ℕ → ℕ} (hc : c ∈ V) (fuel : ℕ) :
    visitNodeForInclusiveStatements order g md li (fuel + 1) c ⟨V, S⟩ = .ok (S c, ⟨V, S⟩) := by
  unfold visitNodeForInclusiveStatements
  exact if_pos hc

theorem visit_fresh {c w fuel : ℕ} {callees : List ℕ} {V V' : Finset ℕ} {S S' : ℕ → ℕ} (hc : c ∉ V)
    (hcallees : getCallees order g c = .ok callees)
    (hloop : callees.foldlM (countChild (visitNodeForInclusiveStatements order g md li fuel) md li c)
      (numberOfStatements md c, ⟨insert c V, S⟩) = .ok (w, ⟨V', S'⟩)) :
    visitNodeForInclusiveStatements order g md li (fuel + 1) c ⟨V, S⟩ = .ok (w, ⟨V', Function.update S' c w⟩) := by
  unfold visitNodeForInclusiveStatements
  rw [if_neg hc, hcallees]
  simp only [lift, Except.mapError, bind, Except.bind, hloop]
  rfl

/-- The loop over the callees returns what the search returns. -/
theorem loop_settles (h : g.Wf) (hord : ∀ l, (order l).Perm l) {cs : List ℕ} {acc v : ℕ} {V V' : Finset ℕ} {S S' : ℕ → ℕ}
    (hloop : DepthFirst.Loop (calleesOf order g) (numberOfStatements md) (addChildCount md li) n cs acc V S v V' S')
    (hlive : ∀ c ∈ cs, g.hasNode c = true) :
    Settles (fun fuel => cs.foldlM (countChild (visitNodeForInclusiveStatements order g md li fuel) md li n) (acc, ⟨V, S⟩))
      (.ok (v, ⟨V', S'⟩)) := by
  induction hloop with
  | nil => exact .const _
  | @seen n c cs acc v V V' S S' hc rest ih =>
    obtain ⟨bound, hrest⟩ := ih fun d hd => hlive d (List.mem_cons_of_mem _ hd)
    refine Settles.succ ⟨bound, fun fuel hfuel => ?_⟩
    change (c :: cs).foldlM _ _ = _
    rw [List.foldlM_cons, countChild_ok (visit_seen hc fuel)]
    exact hrest (fuel + 1) (Nat.le_succ_of_le hfuel)
  | @fresh n c cs acc v w V V₁ V' S S₁ S' hc inner rest ih₁ ih₂ =>
    have hcallees := getCallees_calleesOf (n := c) h hord (hlive c (List.mem_cons_self ..))
    obtain ⟨bound₁, hinner⟩ := ih₁ fun y hy => (h.edge_live c y ((mem_calleesOf h hord).mp hy)).2
    obtain ⟨bound₂, hrest⟩ := ih₂ fun d hd => hlive d (List.mem_cons_of_mem _ hd)
    refine Settles.succ ⟨max bound₁ bound₂, fun fuel hfuel => ?_⟩
    change (c :: cs).foldlM _ _ = _
    rw [List.foldlM_cons, countChild_ok (visit_fresh hc hcallees (hinner fuel ((le_max_left ..).trans hfuel)))]
    exact hrest (fuel + 1) (Nat.le_succ_of_le ((le_max_right ..).trans hfuel))

/-- A run of the counting is a run of the search. -/
theorem calculate_settles (li : LIStore) (h : g.Wf) (hord : ∀ l, (order l).Perm l) {mainNode : ℕ}
    (hmain : g.hasNode mainNode = true) {V : Finset ℕ} {S' : ℕ → ℕ}
    (hrun : DepthFirst.Run (calleesOf order g) (numberOfStatements md) (addChildCount md li) mainNode
      (fun n => (li n).inclusiveStatements) V S') :
    Settles (fun fuel => calculateInclusiveStatementCounts order g md fuel mainNode li) (.ok (li.withCounts S')) := by
  obtain ⟨v, hloop⟩ := hrun
  cases hloop with
  | seen hc => exact absurd hc (Finset.notMem_empty _)
  | @fresh _ _ _ _ _ w _ V₁ _ _ S₁ _ hc inner rest =>
    cases rest
    have hcallees := getCallees_calleesOf (n := mainNode) h hord hmain
    obtain ⟨bound, hinner⟩ := loop_settles h hord inner fun y hy => (h.edge_live mainNode y ((mem_calleesOf h hord).mp hy)).2
    refine Settles.succ ⟨bound, fun fuel hfuel => ?_⟩
    change calculateInclusiveStatementCounts order g md (fuel + 1) mainNode li = _
    unfold calculateInclusiveStatementCounts
    rw [visit_fresh hc hcallees (hinner fuel hfuel)]
    rfl

/-- The counting comes to an end. -/
theorem exists_run (md : MetaStore) (li : LIStore) (h : g.Wf) (hord : ∀ l, (order l).Perm l) {mainNode : ℕ}
    (hmain : g.hasNode mainNode = true) (S : ℕ → ℕ) :
    ∃ V S', DepthFirst.Run (calleesOf order g) (numberOfStatements md) (addChildCount md li) mainNode S V S' := by
  have hclosed : ∀ x ∈ Finset.range g.nodes.length, ∀ y ∈ calleesOf order g x, y ∈ Finset.range g.nodes.length := fun x _ y hy =>
    Finset.mem_range.mpr (h.edge_lt ((mem_calleesOf h hord).mp hy)).2
  have hreturns : ∃ v V S', DepthFirst.Loop (calleesOf order g) (numberOfStatements md) (addChildCount md li) mainNode [mainNode]
      (numberOfStatements md mainNode) ∅ S v V S' := DepthFirst.Loop.returns hclosed mainNode [mainNode]
    (fun c hc => Finset.mem_range.mpr (Callgraph.hasNode_lt (List.mem_singleton.mp hc ▸ hmain))) (numberOfStatements md mainNode) ∅
    S
  obtain ⟨v, V, S', hloop⟩ := hreturns
  exact ⟨V, S', v, hloop⟩

end

/-! ## Counting twice -/

/-- A second run of the counting gives every node the count that the first gave it. -/
def CountsRepeat (order : List ℕ → List ℕ) (g : Callgraph) (md : MetaStore) (mainNode : ℕ) (li : LIStore) : Prop :=
  ∃ li₁ li₂, Settles (fun fuel => calculateInclusiveStatementCounts order g md fuel mainNode li) (.ok li₁) ∧
    Settles (fun fuel => calculateInclusiveStatementCounts order g md fuel mainNode li₁) (.ok li₂) ∧
    ∀ n, (li₂ n).inclusiveStatements = (li₁ n).inclusiveStatements

/-- No function that a recursive function reaches has statements. -/
def RecursionWithoutStatements (g : Callgraph) (md : MetaStore) (mainNode : ℕ) : Prop :=
  ∀ n x, Relation.ReflTransGen (Calls g) mainNode n → Relation.TransGen (Calls g) n n → Relation.ReflTransGen (Calls g) n x →
    numberOfStatements md x = 0

/-- No sum of the counts of `li` wraps. -/
def SumsFit (order : List ℕ → List ℕ) (g : Callgraph) (md : MetaStore) (mainNode : ℕ) (li : LIStore) : Prop :=
  ∀ n, Relation.ReflTransGen (Calls g) mainNode n →
    numberOfStatements md n + ((calleesOf order g n).map fun c => (li c).inclusiveStatements).sum < 2 ^ 64

section
variable {order : List ℕ → List ℕ} {g : Callgraph} {md : MetaStore} {li : LIStore} {mainNode : ℕ}

theorem toUnsigned_of_lt {n : ℕ} (h : n < 2 ^ 64) : toUnsigned n = n := by
  unfold toUnsigned
  rw [Int.emod_eq_of_lt (Int.natCast_nonneg n) (by exact_mod_cast h), Int.toNat_natCast]

theorem addChildCount_zero (n : ℕ) : addChildCount md li n 0 0 = 0 := by
  unfold addChildCount
  split_ifs
  · rfl
  · rfl

/-- Where nothing has statements, the counts of zero are a solution. -/
theorem solves_zero {z : ℕ} (hz : numberOfStatements md z = 0) :
    DepthFirst.Solves (calleesOf order g) (numberOfStatements md) (addChildCount md li) (fun _ => 0) z := by
  have hfold : ∀ l : List ℕ, l.foldl (fun acc _ => addChildCount md li z acc 0) 0 = 0 := by
    intro l
    induction l with
    | nil => rfl
    | cons c l ih => rw [List.foldl_cons, addChildCount_zero, ih]
  unfold DepthFirst.Solves
  rw [hz, hfold]

/-- The counts of a recursion without statements do not change any more. -/
theorem countsRepeat_of_recursionWithoutStatements (h : g.Wf) (hord : ∀ l, (order l).Perm l)
    (hmain : g.hasNode mainNode = true) (hfresh : ∀ n, (li n).inclusiveStatements = 0)
    (hrec : RecursionWithoutStatements g md mainNode) : CountsRepeat order g md mainNode li := by
  have hstart : (fun n => (li n).inclusiveStatements) = fun _ => 0 := funext hfresh
  obtain ⟨V₁, S₁, hrun₁⟩ := exists_run md li h hord hmain fun _ => 0
  obtain ⟨V₂, S₂, hrun₂⟩ := exists_run md li h hord hmain S₁
  have hsettle₁ := calculate_settles li h hord hmain (hstart ▸ hrun₁)
  have hsettle₂ := calculate_settles (li.withCounts S₁) h hord hmain hrun₂
  refine ⟨_, _, hsettle₁, hsettle₂, fun n => ?_⟩
  have hedge : DepthFirst.Edge (calleesOf order g) = Calls g := edge_eq_calls h hord
  -- what is on or behind a cycle
  let Z : Set ℕ := {x | ∃ n, Relation.ReflTransGen (Calls g) mainNode n ∧ Relation.TransGen (Calls g) n n ∧
    Relation.ReflTransGen (Calls g) n x}
  have hsame : S₂ = S₁ := by
    refine hrun₁.repeats hrun₂ (Z := Z) ?_ ?_ ?_
    · rintro z ⟨n, hn, hcycle, hz⟩ y hy
      exact ⟨n, hn, hcycle, hz.tail ((mem_calleesOf h hord).mp hy)⟩
    · rw [hedge]
      exact fun x hx hcycle => ⟨x, hx, hcycle, .refl⟩
    · rintro z ⟨n, hn, hcycle, hz⟩
      exact solves_zero (hrec n z hn hcycle hz)
  exact congrFun hsame n

/-! ### Counts that repeat -/

/-- The equation of a function that is not abstract. -/
theorem solves_sum {S : ℕ → ℕ} {n : ℕ} (hn : isAbstract md li n = false)
    (hfit : numberOfStatements md n + ((calleesOf order g n).map S).sum < 2 ^ 64)
    (hsol : DepthFirst.Solves (calleesOf order g) (numberOfStatements md) (addChildCount md li) S n) :
    S n = numberOfStatements md n + ((calleesOf order g n).map S).sum := by
  have hfold : ∀ (l : List ℕ) (acc : ℕ), acc + (l.map S).sum < 2 ^ 64 →
      l.foldl (fun acc c => addChildCount md li n acc (S c)) acc = acc + (l.map S).sum := by
    intro l
    induction l with
    | nil => exact fun acc _ => rfl
    | cons c l ih =>
      intro acc hacc
      rw [List.map_cons, List.sum_cons, ← add_assoc] at hacc ⊢
      have hc : addChildCount md li n acc (S c) = acc + S c := by
        rw [addChildCount, hn, if_neg Bool.false_ne_true]
        exact toUnsigned_of_lt (by push_cast; omega)
      rw [List.foldl_cons, hc, ih _ hacc]
  exact hsol.trans (hfold _ _ hfit)

/-- The equation of an abstract function. -/
theorem solves_max {S : ℕ → ℕ} {n : ℕ} (hn : isAbstract md li n = true)
    (hsol : DepthFirst.Solves (calleesOf order g) (numberOfStatements md) (addChildCount md li) S n) :
    numberOfStatements md n ≤ S n ∧ ∀ c ∈ calleesOf order g n, S c ≤ S n := by
  have hfold : ∀ (l : List ℕ) (acc : ℕ), acc ≤ l.foldl (fun acc c => addChildCount md li n acc (S c)) acc ∧
      ∀ c ∈ l, S c ≤ l.foldl (fun acc c => addChildCount md li n acc (S c)) acc := by
    intro l
    induction l with
    | nil => exact fun acc => ⟨le_rfl, fun c hc => absurd hc List.not_mem_nil⟩
    | cons c l ih =>
      intro acc
      have hc : addChildCount md li n acc (S c) = max acc (S c) := by rw [addChildCount, hn, if_pos rfl]
      obtain ⟨hacc, hl⟩ := ih (max acc (S c))
      rw [List.foldl_cons, hc]
      refine ⟨(le_max_left ..).trans hacc, fun d hd => ?_⟩
      rcases List.mem_cons.mp hd with rfl | hd
      · exact (le_max_right ..).trans hacc
      · exact hl d hd
  have hsol : S n = _ := hsol
  rw [hsol]
  exact hfold _ _

/-- A function counts at least as much as it has statements and as each of its callees counts. -/
theorem solves_le {S : ℕ → ℕ} {n : ℕ} (hfit : numberOfStatements md n + ((calleesOf order g n).map S).sum < 2 ^ 64)
    (hsol : DepthFirst.Solves (calleesOf order g) (numberOfStatements md) (addChildCount md li) S n) :
    numberOfStatements md n ≤ S n ∧ ∀ c ∈ calleesOf order g n, S c ≤ S n := by
  cases hn : isAbstract md li n with
  | true => exact solves_max hn hsol
  | false =>
    rw [solves_sum hn hfit hsol]
    refine ⟨Nat.le_add_right .., fun c hc => ?_⟩
    exact (List.le_sum_of_mem (List.mem_map_of_mem hc)).trans (Nat.le_add_left ..)

/-- What a cycle counts it counts through its next function alone. -/
theorem solves_cycle {S : ℕ → ℕ} {n y : ℕ} (hn : isAbstract md li n = false)
    (hfit : numberOfStatements md n + ((calleesOf order g n).map S).sum < 2 ^ 64)
    (hsol : DepthFirst.Solves (calleesOf order g) (numberOfStatements md) (addChildCount md li) S n) (hy : y ∈ calleesOf order g n)
    (hle : S n ≤ S y) : numberOfStatements md n = 0 ∧ ∀ c ∈ calleesOf order g n, c ≠ y → S c = 0 := by
  have hsum := solves_sum hn hfit hsol
  have herase := List.sum_map_erase S hy
  refine ⟨by omega, fun c hc hcy => ?_⟩
  have hmem : c ∈ (calleesOf order g n).erase y := (List.mem_erase_of_ne hcy).mpr hc
  have hc : S c ≤ (((calleesOf order g n).erase y).map S).sum := List.le_sum_of_mem (List.mem_map_of_mem hmem)
  omega

/-- If the counts repeat and neither an abstract function on a cycle nor a sum that wraps hides it, no function that a
recursive function reaches has statements. -/
theorem recursionWithoutStatements_of_solves {S : ℕ → ℕ} (h : g.Wf) (hord : ∀ l, (order l).Perm l)
    (hplain : ∀ n, Relation.ReflTransGen (Calls g) mainNode n → Relation.TransGen (Calls g) n n → isAbstract md li n = false)
    (hfit : SumsFit order g md mainNode (li.withCounts S))
    (hsol : ∀ n, Relation.ReflTransGen (Calls g) mainNode n →
      DepthFirst.Solves (calleesOf order g) (numberOfStatements md) (addChildCount md li) S n) :
    RecursionWithoutStatements g md mainNode := by
  have hfit : ∀ n, Relation.ReflTransGen (Calls g) mainNode n →
      numberOfStatements md n + ((calleesOf order g n).map S).sum < 2 ^ 64 := hfit
  have hle : ∀ n, Relation.ReflTransGen (Calls g) mainNode n → ∀ x, Relation.ReflTransGen (Calls g) n x → S x ≤ S n := by
    intro n hn x hx
    induction hx with
    | refl => exact le_rfl
    | @tail y x hny hyx ih =>
      exact ((solves_le (hfit y (hn.trans hny)) (hsol y (hn.trans hny))).2 x ((mem_calleesOf h hord).mpr hyx)).trans ih
  -- behind a cycle a function is on a cycle too or counts nothing
  have hbehind : ∀ n x, Relation.ReflTransGen (Calls g) mainNode n → Relation.TransGen (Calls g) n n →
      Relation.ReflTransGen (Calls g) n x → Relation.TransGen (Calls g) x x ∨ S x = 0 := by
    intro n x hn hcycle hx
    induction hx with
    | refl => exact .inl hcycle
    | @tail x y hnx hxy ih =>
      have hx := hn.trans hnx
      have hyx : y ∈ calleesOf order g x := (mem_calleesOf h hord).mpr hxy
      rcases ih with hxcycle | hzero
      · obtain ⟨z, hxz, hzx⟩ := Relation.TransGen.head'_iff.mp hxcycle
        by_cases hyz : y = z
        · subst hyz
          exact .inl (.tail' hzx hxy)
        · have hcall := (solves_cycle (hplain x hx hxcycle) (hfit x hx) (hsol x hx) ((mem_calleesOf h hord).mpr hxz)
            (hle z (hx.tail hxz) x hzx)).2
          exact .inr (hcall y hyx hyz)
      · have hy := (solves_le (hfit x hx) (hsol x hx)).2 y hyx
        rw [hzero] at hy
        exact .inr (Nat.le_zero.mp hy)
  intro n x hn hcycle hnx
  have hx := hn.trans hnx
  rcases hbehind n x hn hcycle hnx with hxcycle | hzero
  · obtain ⟨z, hxz, hzx⟩ := Relation.TransGen.head'_iff.mp hxcycle
    exact (solves_cycle (hplain x hx hxcycle) (hfit x hx) (hsol x hx) ((mem_calleesOf h hord).mpr hxz)
      (hle z (hx.tail hxz) x hzx)).1
  · have hown := (solves_le (hfit x hx) (hsol x hx)).1
    rw [hzero] at hown
    exact Nat.le_zero.mp hown

/-- The counts repeat if no function that a recursive function reaches has statements. They do not repeat otherwise, unless the
maximum of an abstract function on a cycle or a sum that wraps hides what a cycle adds. -/
theorem inclusiveStatements_repeat_iff (h : g.Wf) (hord : ∀ l, (order l).Perm l) (hmain : g.hasNode mainNode = true)
    (hfresh : ∀ n, (li n).inclusiveStatements = 0) :
    (RecursionWithoutStatements g md mainNode → CountsRepeat order g md mainNode li) ∧
    ((∀ n, Relation.ReflTransGen (Calls g) mainNode n → Relation.TransGen (Calls g) n n → isAbstract md li n = false) →
      (∀ li₁, Settles (fun fuel => calculateInclusiveStatementCounts order g md fuel mainNode li) (.ok li₁) →
        SumsFit order g md mainNode li₁) →
      (CountsRepeat order g md mainNode li ↔ RecursionWithoutStatements g md mainNode)) := by
  refine ⟨countsRepeat_of_recursionWithoutStatements h hord hmain hfresh, fun hplain hfit => ?_⟩
  refine ⟨fun hrepeat => ?_, countsRepeat_of_recursionWithoutStatements h hord hmain hfresh⟩
  obtain ⟨li₁, li₂, hsettle₁, hsettle₂, hsame⟩ := hrepeat
  obtain ⟨V₁, S₁, hrun₁⟩ := exists_run md li h hord hmain fun n => (li n).inclusiveStatements
  cases hsettle₁.unique (calculate_settles li h hord hmain hrun₁)
  obtain ⟨V₂, S₂, hrun₂⟩ := exists_run md li h hord hmain S₁
  cases hsettle₂.unique (calculate_settles (li.withCounts S₁) h hord hmain hrun₂)
  have hunchanged : S₂ = S₁ := funext hsame
  subst hunchanged
  refine recursionWithoutStatements_of_solves h hord hplain (hfit _ hsettle₁) fun n hn => ?_
  exact hrun₂.solves_of_repeats (by rwa [edge_eq_calls h hord])

end

/-- Only main, which calls the recursion, has statements. -/
def mainStatements : MetaStore := fun node => { NodeMetaData.create with piraOne := ⟨false, if node = 0 then 2 else 0⟩ }

theorem inclusiveStatements_repeat_iff_mutualRecursion : CountsRepeat id mutualRecursion mainStatements 0 fun _ => .create := by
  have hedges : ∀ e ∈ mutualRecursion.edges, e.2 ≠ 0 := by decide
  have hcalled : ∀ u v, Calls mutualRecursion u v → numberOfStatements mainStatements v = 0 := fun u v hcall => by
    have hv : v ≠ 0 := hedges (u, v) hcall
    unfold numberOfStatements mainStatements
    rw [if_neg hv]
    rfl
  refine (inclusiveStatements_repeat_iff (Callgraph.run_wf 0 _ : mutualRecursion.Wf) (fun l => List.Perm.refl l) (by decide)
    fun _ => rfl).1 fun n x _ hcycle hx => ?_
  cases hx with
  | refl => exact (Relation.TransGen.tail'_iff.mp hcycle).elim fun u hu => hcalled u n hu.2
  | tail _ hcall => exact hcalled _ x hcall

/-- The first function of the recursion has a statement. -/
def oneStatement : MetaStore := fun node => { NodeMetaData.create with piraOne := ⟨false, if node = 1 then 1 else 0⟩ }

/-- The second function of the recursion counts what is stored at the first. -/
theorem run_mutualRecursion (S : ℕ → ℕ) :
    ∃ V S', DepthFirst.Run (calleesOf id mutualRecursion) (numberOfStatements oneStatement)
      (addChildCount oneStatement fun _ => .create) 0 S V S' ∧ S' 2 = toUnsigned (0 + S 1) ∧
        S' 1 = toUnsigned (1 + toUnsigned (0 + S 1)) := by
  have hmain : calleesOf id mutualRecursion 0 = [1] := by decide
  have hf : calleesOf id mutualRecursion 1 = [2] := by decide
  have hg : calleesOf id mutualRecursion 2 = [1] := by decide
  have hloop₂ : DepthFirst.Loop (calleesOf id mutualRecursion) (numberOfStatements oneStatement)
      (addChildCount oneStatement fun _ => .create) 2 (calleesOf id mutualRecursion 2) 0 {2, 1, 0} S
      (toUnsigned (0 + S 1)) {2, 1, 0} S := by
    rw [hg]
    exact .seen (by decide) .nil
  have hloop₁ : DepthFirst.Loop (calleesOf id mutualRecursion) (numberOfStatements oneStatement)
      (addChildCount oneStatement fun _ => .create) 1 (calleesOf id mutualRecursion 1) 1 {1, 0} S
      (toUnsigned (1 + toUnsigned (0 + S 1))) {2, 1, 0} (Function.update S 2 (toUnsigned (0 + S 1))) := by
    rw [hf]
    exact .fresh (by decide) hloop₂ .nil
  obtain ⟨w, hloop₀⟩ : ∃ w, DepthFirst.Loop (calleesOf id mutualRecursion) (numberOfStatements oneStatement)
      (addChildCount oneStatement fun _ => .create) 0 (calleesOf id mutualRecursion 0) 0 {0} S w {2, 1, 0}
      (Function.update (Function.update S 2 (toUnsigned (0 + S 1))) 1 (toUnsigned (1 + toUnsigned (0 + S 1)))) := by
    rw [hmain]
    exact ⟨_, .fresh (by decide) hloop₁ .nil⟩
  exact ⟨_, _, ⟨_, .fresh (Finset.notMem_empty 0) hloop₀ .nil⟩, rfl, rfl⟩

theorem not_inclusiveStatements_repeat_mutualRecursion : ¬CountsRepeat id mutualRecursion oneStatement 0 fun _ => .create := by
  rintro ⟨li₁, li₂, hsettle₁, hsettle₂, hsame⟩
  have hwf : mutualRecursion.Wf := Callgraph.run_wf 0 _
  have hord : ∀ l : List ℕ, (id l).Perm l := fun l => List.Perm.refl l
  obtain ⟨V₁, S₁, hrun₁, hg₁, hf₁⟩ := run_mutualRecursion fun _ => 0
  cases hsettle₁.unique (calculate_settles (fun _ => .create) hwf hord (by decide) hrun₁)
  obtain ⟨V₂, S₂, hrun₂, hg₂, -⟩ := run_mutualRecursion S₁
  cases hsettle₂.unique (calculate_settles (LIStore.withCounts (fun _ => .create) S₁) hwf hord (by decide) hrun₂)
  have hchanged : S₂ 2 = S₁ 2 := hsame 2
  rw [hg₂, hg₁, hf₁] at hchanged
  exact absurd hchanged (by decide)

end MetaCG.Pgis
