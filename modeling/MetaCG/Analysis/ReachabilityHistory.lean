import MetaCG.Graph.History
import MetaCG.Analysis.ReachabilityAnalysis

/-! Histories of a `ReachabilityAnalysis` whose graph keeps growing.

The cached set of a source lies between what the source reached when it was last searched from and
what it reaches now: insertions only add calls, and a search returns exactly what is reached. -/
namespace MetaCG.Analysis
open Foundations
set_option autoImplicit false
set_option maxHeartbeats 250000
set_option maxRecDepth 120000

/-- The insertions of nodes and edges. -/
inductive Insertion where
  | insert (function : String) (origin : Option String) (isVirtual hasBody : Bool)
  | getOrInsertNode (function : String) (origin : Option String) (isVirtual hasBody : Bool)
  | addEdge (parentID childID : ℕ)
  | addEdgeRef (parentNode childNode : NodeRef)
  | addEdgeNamed (callerName calleeName : String)

def Insertion.op : Insertion → Callgraph.Op
  | .insert f o v b => .insert f o v b
  | .getOrInsertNode f o v b => .getOrInsertNode f o v b
  | .addEdge p c => .addEdge p c
  | .addEdgeRef p c => .addEdgeRef p c
  | .addEdgeNamed p c => .addEdgeNamed p c

inductive Event where
  | insertion (a : Insertion)
  | computeReachableFromMain
  | isReachableFromMain (node : ℕ) (forceUpdate : Bool)
  | existsPathBetween (src dest : ℕ) (forceUpdate : Bool)
  | getReachableNodesFrom (node : ℕ) (forceUpdate : Bool)

namespace ReachabilityAnalysis

/-- The analysis after a query that fails is the one before. -/
def orKeep {β : Type} (ra : ReachabilityAnalysis) (x : Except Exn β) (after : β → ReachabilityAnalysis) :
    ReachabilityAnalysis :=
  match x with
  | .ok b => after b
  | .error _ => ra

/-- `self` is the identity of the graph. -/
def apply (order : List ℕ → List ℕ) (self : ℕ) (ra : ReachabilityAnalysis) : Event → ReachabilityAnalysis
  | .insertion a => { ra with cg := a.op.apply self ra.cg }
  | .computeReachableFromMain => ra.orKeep (ra.computeReachableFromMain order) id
  | .isReachableFromMain node force => ra.orKeep (ra.isReachableFromMain order node force) Prod.snd
  | .existsPathBetween src dest force => ra.orKeep (ra.existsPathBetween order src dest force) Prod.snd
  | .getReachableNodesFrom node force => ra.orKeep (ra.getReachableNodesFrom order node force) Prod.snd

/-- A history of a new analysis of the graph `g`. -/
def run (order : List ℕ → List ℕ) (self : ℕ) (g : Callgraph) (events : List Event) : ReachabilityAnalysis :=
  events.foldl (apply order self) (create g)

/-- The main node that the analysis finds. -/
def main (ra : ReachabilityAnalysis) : Option ℕ :=
  match ra.getMain with
  | .ok (mainNode, _) => mainNode
  | .error _ => none

end ReachabilityAnalysis

/-- The source of a query, and whether an update is forced. -/
def Event.source (ra : ReachabilityAnalysis) : Event → Option (ℕ × Bool)
  | .insertion _ => none
  | .computeReachableFromMain => ra.main.map fun m => (m, true)
  | .isReachableFromMain _ force => ra.main.map fun m => (m, force)
  | .existsPathBetween src _ force => some (src, force)
  | .getReachableNodesFrom node force => some (node, force)

/-- The event searches from the node `n` of the graph. -/
def Event.Computes (ra : ReachabilityAnalysis) (e : Event) (n : ℕ) : Prop :=
  ra.cg.hasNode n = true ∧ ∃ force, e.source ra = some (n, force) ∧ (force = true ∨ n ∉ ra.computedFor)

namespace ReachabilityAnalysis

section
variable {order : List ℕ → List ℕ} {ra ra' : ReachabilityAnalysis}

theorem addEdgeInternal_calls {g : Callgraph} {u v : ℕ} (h : Calls g u v) (p c : ℕ) :
    Calls (g.addEdgeInternal p c).2 u v := by
  by_cases he : (p, c) ∈ g.edges
  · rw [Callgraph.addEdgeInternal_of_mem he]
    exact h
  · rw [Callgraph.addEdgeInternal_of_notMem he]
    exact (AList.mem_insert _).mpr (.inr h)

theorem addEdge_calls {g : Callgraph} {u v : ℕ} (h : Calls g u v) (p c : ℕ) :
    Calls (g.orKeep (g.addEdge p c) Prod.snd) u v := by
  cases hr : g.addEdge p c with
  | error e => exact h
  | ok r =>
    rcases Callgraph.addEdge_cases hr with ⟨-, rfl⟩ | ⟨-, -, he⟩
    · exact h
    · have hg : g.orKeep (.ok r) Prod.snd = (g.addEdgeInternal p c).2 := congrArg Prod.snd he
      rw [hg]
      exact addEdgeInternal_calls h p c

theorem insert_calls {g : Callgraph} {u v : ℕ} (h : Calls g u v) (f : String) (o : Option String) (w b : Bool) :
    Calls (g.orKeep (g.insert f o w b) Prod.fst) u v := by
  unfold Callgraph.insert
  split_ifs <;> exact h

/-- Insertions only add calls. -/
theorem insertion_calls {g : Callgraph} {u v : ℕ} (self : ℕ) (h : Calls g u v) (a : Insertion) :
    Calls (a.op.apply self g) u v := by
  cases a with
  | insert f o w b => exact insert_calls h f o w b
  | getOrInsertNode f o w b =>
    change Calls (g.orKeep (g.getOrInsertNode f o w b) Prod.fst) u v
    unfold Callgraph.getOrInsertNode
    cases g.getFirstNode f with
    | error e => exact h
    | ok p =>
      cases p with
      | some node => exact h
      | none => exact insert_calls h f o w b
  | addEdge p c => exact addEdge_calls h p c
  | addEdgeRef p c =>
    change Calls (Callgraph.addEdgeRef self g p c).2 u v
    unfold Callgraph.addEdgeRef
    split_ifs
    · exact h
    · exact addEdgeInternal_calls h p.id c.id
  | addEdgeNamed p c =>
    change Calls (g.orKeep (g.addEdgeNamed p c) Prod.snd) u v
    unfold Callgraph.addEdgeNamed
    split
    · exact addEdge_calls h ..
    · exact h

theorem CacheInv.insertion (h : CacheInv ra) (self : ℕ) (a : Insertion) :
    CacheInv { ra with cg := a.op.apply self ra.cg } where
  wf := h.wf.apply self a.op
  cached := by
    intro n hn
    obtain ⟨R, hR, hsound⟩ := h.cached n hn
    exact ⟨R, hR, fun m hm => Relation.ReflTransGen.mono (fun u v he => insertion_calls self he a) n m (hsound m hm)⟩

theorem CacheInv.getMain (h : CacheInv ra) {p : Option ℕ} (hr : ra.getMain = .ok (p, ra')) : CacheInv ra' := by
  obtain ⟨hra, -, hcg⟩ := getMain_eq_ok hr
  refine ⟨?_, fun n hn => ?_⟩
  · have hwf := h.wf.getMain false
    rw [hcg] at hwf
    exact hwf
  · rw [hra] at hn ⊢
    exact h.cached n hn

/-! ## What a query leaves -/

theorem Answers.cacheInv (h : CacheInv ra) {n : ℕ} {force : Bool} {R : Finset ℕ} (ha : Answers ra n force R ra') :
    CacheInv ra' := by
  cases ha with
  | cached hforce hn hR => exact h
  | computed hforce hR =>
    refine ⟨h.wf, fun k hk => ?_⟩
    by_cases hkn : k = n
    · subst hkn
      exact ⟨R, lookup_withResult ra k R, fun m hm => (hR m).mp hm⟩
    · obtain ⟨R₁, hR₁, hsound⟩ := h.cached k ((Finset.mem_insert.mp hk).resolve_left hkn)
      refine ⟨R₁, ?_, hsound⟩
      rw [withResult, AList.lookup_insert_ne hkn]
      exact hR₁

theorem Answers.calls {n : ℕ} {force : Bool} {R : Finset ℕ} (ha : Answers ra n force R ra') : ra'.cg = ra.cg := by
  cases ha <;> rfl

/-- The set that is cached for `n` has everything that `n` reaches over the calls `E`. -/
def Covers (E : ℕ → ℕ → Prop) (n : ℕ) (ra : ReachabilityAnalysis) : Prop :=
  n ∈ ra.computedFor ∧ ∃ R, ra.reachableNodes.lookup n = some R ∧ ∀ m, Relation.ReflTransGen E n m → m ∈ R

theorem Answers.covers {E : ℕ → ℕ → Prop} (hE : ∀ u v, E u v → Calls ra.cg u v) {k n : ℕ} {force : Bool} {R : Finset ℕ}
    (hk : Covers E k ra) (ha : Answers ra n force R ra') : Covers E k ra' := by
  cases ha with
  | cached hforce hn hR => exact hk
  | computed hforce hR =>
    refine ⟨Finset.mem_insert_of_mem hk.1, ?_⟩
    by_cases hkn : k = n
    · subst hkn
      exact ⟨R, lookup_withResult ra k R, fun m hm => (hR m).mpr (Relation.ReflTransGen.mono hE k m hm)⟩
    · obtain ⟨R₁, hR₁, hall⟩ := hk.2
      refine ⟨R₁, ?_, hall⟩
      rw [withResult, AList.lookup_insert_ne hkn]
      exact hR₁

/-- After a search for `n` everything that it reaches is cached. -/
theorem Answers.covers_self {n : ℕ} {force : Bool} {R : Finset ℕ} (ha : Answers ra n force R ra')
    (hc : force = true ∨ n ∉ ra.computedFor) : Covers (Calls ra.cg) n ra' := by
  cases ha with
  | cached hforce hn hR =>
    rcases hc with hc | hc
    · rw [hforce] at hc
      cases hc
    · exact absurd hn hc
  | computed hforce hR => exact ⟨Finset.mem_insert_self .., R, lookup_withResult ra n R, fun m hm => (hR m).mpr hm⟩

theorem main_eq_some {m : ℕ} : ra.main = some m ↔ ∃ ra', ra.getMain = .ok (some m, ra') := by
  unfold main
  cases ra.getMain with
  | error e => simp
  | ok r =>
    obtain ⟨p, ra₁⟩ := r
    simp

/-- A query about the nodes that `n` reaches returns, unless `n` is no node of the graph. -/
theorem getReachableNodesFrom_cases (h : CacheInv ra) (hord : ∀ l, (order l).Perm l) (n : ℕ) (force : Bool) :
    (∃ e, ra.getReachableNodesFrom order n force = .error e ∧ ra.cg.hasNode n = false) ∨
      ∃ R ra', ra.getReachableNodesFrom order n force = .ok (R, ra') ∧ Answers ra n force R ra' := by
  cases hr : ra.getReachableNodesFrom order n force with
  | ok r => exact .inr ⟨r.1, r.2, rfl, getReachableNodesFrom_spec h hord hr⟩
  | error e =>
    refine .inl ⟨e, rfl, ?_⟩
    by_contra hn
    obtain ⟨R, ra', hok⟩ := getReachableNodesFrom_returns h hord (Bool.not_eq_false _ ▸ hn) force
    rw [hr] at hok
    cases hok

/-- A query with a source answers from a set, unless the source is no node of the graph. -/
theorem query_spec (h : CacheInv ra) (hord : ∀ l, (order l).Perm l) (self : ℕ) {e : Event} {n : ℕ} {force : Bool}
    (hsrc : e.source ra = some (n, force)) :
    (ra.apply order self e = ra ∧ ra.cg.hasNode n = false) ∨
      ∃ p ra₁ R, ra₁ = { ra with cg := { ra.cg with mainNode := p } } ∧ CacheInv ra₁ ∧
        Answers ra₁ n force R (ra.apply order self e) := by
  -- what follows for an event that leaves what `getReachableNodesFrom` leaves
  have hleaves : ∀ ra₁, CacheInv ra₁ → (∃ p, ra₁ = { ra with cg := { ra.cg with mainNode := p } }) →
      (∀ x, ra₁.getReachableNodesFrom order n force = .error x → ra.apply order self e = ra) →
      (∀ R ra', ra₁.getReachableNodesFrom order n force = .ok (R, ra') → ra.apply order self e = ra') →
      (ra.apply order self e = ra ∧ ra.cg.hasNode n = false) ∨
        ∃ p ra₁ R, ra₁ = { ra with cg := { ra.cg with mainNode := p } } ∧ CacheInv ra₁ ∧
          Answers ra₁ n force R (ra.apply order self e) := by
    rintro ra₁ h₁ ⟨p, hp⟩ herr hok
    rcases getReachableNodesFrom_cases h₁ hord n force with ⟨x, hx, hnode⟩ | ⟨R, ra', hR, hans⟩
    · refine .inl ⟨herr x hx, ?_⟩
      rw [hp] at hnode
      exact hnode
    · refine .inr ⟨p, ra₁, R, hp, h₁, ?_⟩
      rw [hok R ra' hR]
      exact hans
  cases e with
  | insertion a => cases hsrc
  | getReachableNodesFrom node f =>
    cases hsrc
    refine hleaves ra h ⟨ra.cg.mainNode, rfl⟩ (fun x hx => ?_) fun R ra' hR => ?_
    · rw [apply, hx, orKeep]
    · rw [apply, hR, orKeep]
  | existsPathBetween src dest f =>
    cases hsrc
    refine hleaves ra h ⟨ra.cg.mainNode, rfl⟩ (fun x hx => ?_) fun R ra' hR => ?_
    · rw [apply, existsPathBetween_eq h, hx]
      rfl
    · rw [apply, existsPathBetween_eq h, hR]
      rfl
  | isReachableFromMain node f =>
    obtain ⟨m, hm, hsrc⟩ := Option.map_eq_some_iff.mp hsrc
    cases hsrc
    obtain ⟨ra₁, hra₁⟩ := main_eq_some.mp hm
    have h₁ := h.getMain hra₁
    refine hleaves ra₁ h₁ ⟨_, (getMain_eq_ok hra₁).1⟩ (fun x hx => ?_) fun R ra' hR => ?_
    · rw [apply, isReachableFromMain_eq h₁ hra₁, existsPathBetween_eq h₁, hx]
      rfl
    · rw [apply, isReachableFromMain_eq h₁ hra₁, existsPathBetween_eq h₁, hR]
      rfl
  | computeReachableFromMain =>
    obtain ⟨m, hm, hsrc⟩ := Option.map_eq_some_iff.mp hsrc
    cases hsrc
    obtain ⟨ra₁, hra₁⟩ := main_eq_some.mp hm
    refine hleaves ra₁ (h.getMain hra₁) ⟨_, (getMain_eq_ok hra₁).1⟩ (fun x hx => ?_) fun R ra' hR => ?_
    · rw [getReachableNodesFrom_computed (.inl rfl)] at hx
      rw [apply, computeReachableFromMain_eq hra₁]
      cases hs : search order ra₁.cg ∅ [n] with
      | error x => rfl
      | ok R => rw [hs] at hx; cases hx
    · rw [getReachableNodesFrom_computed (.inl rfl)] at hR
      rw [apply, computeReachableFromMain_eq hra₁]
      cases hs : search order ra₁.cg ∅ [n] with
      | error x => rw [hs] at hR; cases hR
      | ok R => rw [hs] at hR; cases hR; rfl

/-- Without a main node the queries about it leave everything as it is. -/
theorem apply_of_no_source (self : ℕ) {e : Event} (hsrc : e.source ra = none) :
    ra.apply order self e = ra ∨ ∃ a, e = .insertion a := by
  have hmain : ra.main = none → ∀ m ra', ra.getMain ≠ .ok (some m, ra') := by
    intro hnone m ra' hr
    rw [main_eq_some.mpr ⟨ra', hr⟩] at hnone
    cases hnone
  cases e with
  | insertion a => exact .inr ⟨a, rfl⟩
  | getReachableNodesFrom node f => cases hsrc
  | existsPathBetween src dest f => cases hsrc
  | isReachableFromMain node f =>
    obtain ⟨x, hx⟩ := isReachableFromMain_error (hmain (Option.map_eq_none_iff.mp hsrc)) node f
    left
    rw [apply, hx, orKeep]
  | computeReachableFromMain =>
    obtain ⟨x, hx⟩ := computeReachableFromMain_error (hmain (Option.map_eq_none_iff.mp hsrc))
    left
    rw [apply, hx, orKeep]

/-! ## Histories -/

theorem CacheInv.apply (h : CacheInv ra) (hord : ∀ l, (order l).Perm l) (self : ℕ) (e : Event) :
    CacheInv (ra.apply order self e) := by
  cases hsrc : e.source ra with
  | none =>
    rcases apply_of_no_source self hsrc with hsame | ⟨a, rfl⟩
    · rw [hsame]
      exact h
    · exact h.insertion self a
  | some r =>
    rcases query_spec h hord self hsrc with ⟨hsame, -⟩ | ⟨p, ra₁, R, -, h₁, hans⟩
    · rw [hsame]
      exact h
    · exact hans.cacheInv h₁

/-- No event takes a call away. -/
theorem CacheInv.apply_calls (h : CacheInv ra) (hord : ∀ l, (order l).Perm l) (self : ℕ) (e : Event) {u v : ℕ}
    (hc : Calls ra.cg u v) : Calls (ra.apply order self e).cg u v := by
  cases hsrc : e.source ra with
  | none =>
    rcases apply_of_no_source self hsrc with hsame | ⟨a, rfl⟩
    · rw [hsame]
      exact hc
    · exact insertion_calls self hc a
  | some r =>
    rcases query_spec h hord self hsrc with ⟨hsame, -⟩ | ⟨p, ra₁, R, rfl, h₁, hans⟩
    · rw [hsame]
      exact hc
    · rw [hans.calls]
      exact hc

theorem CacheInv.apply_covers (h : CacheInv ra) (hord : ∀ l, (order l).Perm l) (self : ℕ) (e : Event) {E : ℕ → ℕ → Prop}
    (hE : ∀ u v, E u v → Calls ra.cg u v) {k : ℕ} (hk : Covers E k ra) : Covers E k (ra.apply order self e) := by
  cases hsrc : e.source ra with
  | none =>
    rcases apply_of_no_source self hsrc with hsame | ⟨a, rfl⟩
    · rw [hsame]
      exact hk
    · exact hk
  | some r =>
    rcases query_spec h hord self hsrc with ⟨hsame, -⟩ | ⟨p, ra₁, R, hra₁, h₁, hans⟩
    · rw [hsame]
      exact hk
    · refine hans.covers (fun u v he => ?_) ?_
      · rw [hra₁]
        exact hE u v he
      · rw [hra₁]
        exact hk

/-- An event that searches from `n` leaves everything that `n` reaches in the cache. -/
theorem CacheInv.apply_computes (h : CacheInv ra) (hord : ∀ l, (order l).Perm l) (self : ℕ) {e : Event} {n : ℕ}
    (he : e.Computes ra n) : Covers (Calls ra.cg) n (ra.apply order self e) := by
  obtain ⟨hlive, force, hsrc, hc⟩ := he
  rcases query_spec h hord self hsrc with ⟨-, hdead⟩ | ⟨p, ra₁, R, rfl, h₁, hans⟩
  · rw [hlive] at hdead
    cases hdead
  · exact hans.covers_self hc

theorem CacheInv.foldl (h : CacheInv ra) (hord : ∀ l, (order l).Perm l) (self : ℕ) (events : List Event) :
    CacheInv (events.foldl (ReachabilityAnalysis.apply order self) ra) := by
  induction events generalizing ra with
  | nil => exact h
  | cons e events ih => exact ih (h.apply hord self e)

theorem CacheInv.foldl_covers (h : CacheInv ra) (hord : ∀ l, (order l).Perm l) (self : ℕ) (events : List Event)
    {E : ℕ → ℕ → Prop} (hE : ∀ u v, E u v → Calls ra.cg u v) {k : ℕ} (hk : Covers E k ra) :
    Covers E k (events.foldl (ReachabilityAnalysis.apply order self) ra) := by
  induction events generalizing ra with
  | nil => exact hk
  | cons e events ih =>
    exact ih (h.apply hord self e) (fun u v he => h.apply_calls hord self e (hE u v he)) (h.apply_covers hord self e hE hk)

/-- The last search from `n` was made with all the calls that the graph has now. -/
def UpToDate (order : List ℕ → List ℕ) (self : ℕ) (g : Callgraph) (events : List Event) (n : ℕ) : Prop :=
  ∃ pre e post, events = pre ++ e :: post ∧ e.Computes (run order self g pre) n ∧
    ∀ u v, Calls (run order self g events).cg u v → Calls (run order self g pre).cg u v

theorem UpToDate.covers {self : ℕ} {g : Callgraph} (hg : g.Wf) (hord : ∀ l, (order l).Perm l) {events : List Event}
    {n : ℕ} (hn : UpToDate order self g events n) :
    Covers (Calls (run order self g events).cg) n (run order self g events) := by
  obtain ⟨pre, e, post, hevents, hcomp, hcalls⟩ := hn
  have hpre : CacheInv (run order self g pre) := (CacheInv.create hg).foldl hord self pre
  have hsplit : run order self g events = post.foldl (ReachabilityAnalysis.apply order self)
      ((run order self g pre).apply order self e) := by
    rw [hevents, run, List.foldl_append, List.foldl_cons]
    rfl
  have hcover : Covers (Calls (run order self g pre).cg) n (run order self g events) := by
    rw [hsplit]
    exact (hpre.apply hord self e).foldl_covers hord self post (fun u v he => hpre.apply_calls hord self e he)
      (hpre.apply_computes hord self hcomp)
  obtain ⟨hmem, R, hR, hall⟩ := hcover
  exact ⟨hmem, R, hR, fun m hm => hall m (Relation.ReflTransGen.mono hcalls n m hm)⟩

/-- An answer is right if it was computed now or is up to date. -/
theorem Answers.exact (h : CacheInv ra) {n : ℕ} {force : Bool} {R : Finset ℕ} (ha : Answers ra n force R ra')
    (hfresh : force = true ∨ n ∉ ra.computedFor ∨ Covers (Calls ra.cg) n ra) (m : ℕ) :
    m ∈ R ↔ Relation.ReflTransGen (Calls ra.cg) n m := by
  cases ha with
  | computed hforce hR => exact hR m
  | cached hforce hn hR =>
    obtain ⟨R₁, hR₁, hsound⟩ := h.cached n hn
    rw [hR] at hR₁
    cases hR₁
    refine ⟨hsound m, fun hm => ?_⟩
    rcases hfresh with hf | hf | ⟨-, R₂, hR₂, hall⟩
    · rw [hforce] at hf
      cases hf
    · exact absurd hn hf
    · rw [hR] at hR₂
      cases hR₂
      exact hall m hm

/-- Two analyses that differ in the cached main node alone answer from the same set. -/
theorem Answers.unique {p : Option ℕ} {n : ℕ} {force : Bool} {R R₁ : Finset ℕ} {ra₁ : ReachabilityAnalysis}
    (h : Answers ra n force R ra') (h₁ : Answers { ra with cg := { ra.cg with mainNode := p } } n force R₁ ra₁) :
    R₁ = R := by
  cases h with
  | cached hforce hn hR =>
    cases h₁ with
    | cached hforce₁ hn₁ hR₁ =>
      change ra.reachableNodes.lookup n = some R₁ at hR₁
      rw [hR] at hR₁
      exact (Option.some.inj hR₁).symm
    | computed hforce₁ hR₁ =>
      rcases hforce₁ with hf | hf
      · rw [hforce] at hf
        cases hf
      · exact absurd hn hf
  | computed hforce hR =>
    cases h₁ with
    | cached hforce₁ hn₁ hR₁ =>
      rcases hforce with hf | hf
      · rw [hforce₁] at hf
        cases hf
      · exact absurd hn₁ hf
    | computed hforce₁ hR₁ => exact Finset.ext fun m => (hR₁ m).trans (hR m).symm

end

/-- All queries about a node of the graph return and answer from one set, which is what the node
reaches whenever the query searches or the last search is up to date. The main node is a node of the
graph, and without one the queries about it fail. -/
theorem run_answers {order : List ℕ → List ℕ} (hord : ∀ l, (order l).Perm l) {g : Callgraph} (hg : g.Wf) (self : ℕ)
    (events : List Event) {ra : ReachabilityAnalysis} (hra : run order self g events = ra) :
    (∀ n force, ra.cg.hasNode n = true → ∃ R,
      (∃ ra', ra.getReachableNodesFrom order n force = .ok (R, ra')) ∧
      (∀ dest, ∃ ra', ra.existsPathBetween order n dest force = .ok (decide (dest ∈ R), ra')) ∧
      (ra.main = some n → ∀ node, ∃ ra', ra.isReachableFromMain order node force = .ok (decide (node ∈ R), ra')) ∧
      (force = true ∨ n ∉ ra.computedFor ∨ UpToDate order self g events n →
        ∀ m, m ∈ R ↔ Relation.ReflTransGen (Calls ra.cg) n m)) ∧
    (∀ m, ra.main = some m → ra.cg.hasNode m = true) ∧
    (ra.main = none → ∀ node force, ∃ e, ra.isReachableFromMain order node force = .error e) := by
  have h : CacheInv ra := by
    rw [← hra]
    exact (CacheInv.create hg).foldl hord self events
  refine ⟨fun n force hn => ?_, fun m hm => ?_, fun hnone node force => ?_⟩
  · obtain ⟨R, ra', hR⟩ := getReachableNodesFrom_returns h hord hn force
    have hans := getReachableNodesFrom_spec h hord hR
    refine ⟨R, ⟨ra', hR⟩, fun dest => ⟨ra', ?_⟩, fun hmain node => ?_, fun hfresh => ?_⟩
    · rw [existsPathBetween_eq h, hR]
      rfl
    · obtain ⟨ra₁, hra₁⟩ := main_eq_some.mp hmain
      have h₁ := h.getMain hra₁
      have hra₁' := (getMain_eq_ok hra₁).1
      have hn₁ : ra₁.cg.hasNode n = true := by
        rw [hra₁']
        exact hn
      obtain ⟨R₁, ra₂, hR₁⟩ := getReachableNodesFrom_returns h₁ hord hn₁ force
      have hans₁ := getReachableNodesFrom_spec h₁ hord hR₁
      rw [hra₁'] at hans₁
      refine ⟨ra₂, ?_⟩
      rw [isReachableFromMain_eq h₁ hra₁, existsPathBetween_eq h₁, hR₁, hans.unique hans₁]
      rfl
    · refine hans.exact h (hfresh.imp_right (Or.imp_right fun hup => ?_))
      have hcover := hup.covers hg hord
      rw [hra] at hcover
      exact hcover
  · obtain ⟨ra₁, hra₁⟩ := main_eq_some.mp hm
    have hlive := (h.getMain hra₁).wf.main_live m (by rw [(getMain_eq_ok hra₁).1])
    rw [(getMain_eq_ok hra₁).1] at hlive
    exact hlive
  · refine isReachableFromMain_error (fun m ra' hr => ?_) node force
    rw [main_eq_some.mpr ⟨ra', hr⟩] at hnone
    cases hnone

theorem run_answers_oneCall :
    ∃ ra', (run id 0 Callgraph.empty [.insertion (.insert "main" none false true),
      .insertion (.insert "a" none false true), .insertion (.addEdge 0 1)]).existsPathBetween id 0 1 false =
      .ok (true, ra') := by
  obtain ⟨R, -, hpath, -, hexact⟩ := (run_answers (fun l => List.Perm.refl l) Callgraph.Wf.empty 0
    [.insertion (.insert "main" none false true), .insertion (.insert "a" none false true), .insertion (.addEdge 0 1)]
    rfl).1 0 false (by decide)
  obtain ⟨ra', hra'⟩ := hpath 1
  have hmem : 1 ∈ R := (hexact (.inr (.inl (by decide))) 1).mpr (Relation.ReflTransGen.single
    (show (0, 1) ∈ (_ : UMap (ℕ × ℕ) NamedMetadata) by decide))
  rw [decide_eq_true hmem] at hra'
  exact ⟨ra', hra'⟩

end ReachabilityAnalysis
end MetaCG.Analysis
