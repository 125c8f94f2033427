import MetaCG.Foundations.Dominance

/-! The dominator worklist as an abstract algorithm.

A state has the sets of the initialised nodes and a queue. A step takes a node from the queue,
recomputes its set from its initialised predecessors and, if that changes something, queues the
successors in any order. The start node is treated like any other. -/
namespace MetaCG.DominatorWorklist
open Foundations
set_option autoImplicit false
set_option maxHeartbeats 250000
set_option maxRecDepth 120000

variable {α : Type} [DecidableEq α]

structure State (α : Type) where
  doms : α → Option (Finset α)
  queue : List α

def initial (s : α) : State α := ⟨fun _ => none, [s]⟩

def recompute (pred : α → List α) (D : α → Option (Finset α)) (n : α) : Finset α :=
  insert n (meet ((pred n).filterMap D))

/-- The set of `q` is replaced by `A` and the new nodes `added` are queued. -/
def changed (st : State α) (q : α) (A : Finset α) (rest added : List α) : State α :=
  ⟨Function.update st.doms q (some A), rest ++ added⟩

@[simp] theorem changed_self (st : State α) (q : α) (A : Finset α) (rest added : List α) :
    (changed st q A rest added).doms q = some A := Function.update_self ..

theorem changed_of_ne (st : State α) {q n : α} (h : n ≠ q) (A : Finset α) (rest added : List α) :
    (changed st q A rest added).doms n = st.doms n := Function.update_of_ne h ..

inductive Step (pred succ : α → List α) (st : State α) : State α → Prop
  | same {q : α} {rest : List α} (hq : st.queue = q :: rest)
      (h : st.doms q = some (recompute pred st.doms q)) : Step pred succ st ⟨st.doms, rest⟩
  | change {q : α} {rest added : List α} (hq : st.queue = q :: rest)
      (h : st.doms q ≠ some (recompute pred st.doms q)) (hnodup : added.Nodup)
      (hadded : ∀ x, x ∈ added ↔ x ∈ succ q ∧ x ∉ rest) :
      Step pred succ st (changed st q (recompute pred st.doms q) rest added)

/-- A finite graph with a start node. -/
structure Graph (pred succ : α → List α) (nodes : Finset α) (s : α) : Prop where
  succ_iff : ∀ p n, n ∈ succ p ↔ p ∈ pred n
  start_mem : s ∈ nodes
  closed : ∀ p n, p ∈ nodes → n ∈ succ p → n ∈ nodes

/-- The traversal edges. -/
def Edge (pred : α → List α) (p n : α) : Prop := p ∈ pred n

section
variable {pred succ : α → List α} {nodes : Finset α} {s : α} {st st' : State α}

/-! ## What a recomputation does -/

theorem self_mem_recompute (D : α → Option (Finset α)) (n : α) : n ∈ recompute pred D n :=
  Finset.mem_insert_self ..

theorem recompute_eq_self {D : α → Option (Finset α)} {n : α} (h : ∀ p ∈ pred n, D p = none) :
    recompute pred D n = {n} := by
  have hnil : (pred n).filterMap D = [] := List.filterMap_eq_nil_iff.mpr h
  rw [recompute, hnil]
  rfl

theorem mem_recompute {D : α → Option (Finset α)} {n : α} (h : ∃ p ∈ pred n, (D p).isSome = true) (x : α) :
    x ∈ recompute pred D n ↔ x = n ∨ ∀ p ∈ pred n, ∀ A, D p = some A → x ∈ A := by
  have hne : (pred n).filterMap D ≠ [] := by
    obtain ⟨p, hp, hsome⟩ := h
    obtain ⟨A, hA⟩ := Option.isSome_iff_exists.mp hsome
    exact List.ne_nil_of_mem (List.mem_filterMap.mpr ⟨p, hp, hA⟩)
  rw [recompute, Finset.mem_insert, mem_meet hne]
  refine or_congr_right ⟨fun hall p hp A hA => hall A (List.mem_filterMap.mpr ⟨p, hp, hA⟩), fun hall A hA => ?_⟩
  obtain ⟨p, hp, hpA⟩ := List.mem_filterMap.mp hA
  exact hall p hp A hpA

theorem recompute_congr {D D' : α → Option (Finset α)} {n : α} (h : ∀ p ∈ pred n, D p = D' p) :
    recompute pred D n = recompute pred D' n := by
  rw [recompute, recompute, List.filterMap_congr h]

/-- The sets of `D'` are initialised at least where those of `D` are, and are smaller. -/
def Refines (D D' : α → Option (Finset α)) : Prop := ∀ p A, D p = some A → ∃ A', D' p = some A' ∧ A' ⊆ A

theorem recompute_anti {D D' : α → Option (Finset α)} (hr : Refines D D') {n : α}
    (h : ∃ p ∈ pred n, (D p).isSome = true) : recompute pred D' n ⊆ recompute pred D n := by
  have h' : ∃ p ∈ pred n, (D' p).isSome = true := by
    obtain ⟨p, hp, hsome⟩ := h
    obtain ⟨A, hA⟩ := Option.isSome_iff_exists.mp hsome
    obtain ⟨A', hA', -⟩ := hr p A hA
    exact ⟨p, hp, by rw [hA']; rfl⟩
  intro x hx
  rw [mem_recompute h'] at hx
  rw [mem_recompute h]
  refine hx.imp_right fun hall p hp A hA => ?_
  obtain ⟨A', hA', hsub⟩ := hr p A hA
  exact hsub (hall p hp A' hA')

/-! ## Invariants of every run -/

/-- A node that is queued or initialised is the start or follows an initialised node. -/
def Supported (pred : α → List α) (s : α) (D : α → Option (Finset α)) (n : α) : Prop :=
  n = s ∨ ∃ p ∈ pred n, (D p).isSome = true

theorem changed_isSome {q p : α} {A : Finset α} {rest added : List α} (h : (st.doms p).isSome = true) :
    ((changed st q A rest added).doms p).isSome = true := by
  by_cases hp : p = q
  · rw [hp, changed_self]
    rfl
  · rw [changed_of_ne st hp]
    exact h

/-- The changed sets are the new set of `q` and the old sets of the others. -/
theorem changed_cases {n q : α} {A B : Finset α} {rest added : List α} (h : (changed st q B rest added).doms n = some A) :
    n = q ∧ B = A ∨ st.doms n = some A := by
  by_cases hn : n = q
  · subst hn
    rw [changed_self, Option.some.injEq] at h
    exact .inl ⟨rfl, h⟩
  · rw [changed_of_ne st hn] at h
    exact .inr h

theorem Supported.changed {n q : α} {A : Finset α} {rest added : List α} (h : Supported pred s st.doms n) :
    Supported pred s (changed st q A rest added).doms n := by
  rcases h with h | ⟨p, hp, hsome⟩
  · exact .inl h
  · exact .inr ⟨p, hp, changed_isSome hsome⟩

/-- What holds in every state of every run. -/
structure Inv (pred : α → List α) (nodes : Finset α) (s : α) (st : State α) : Prop where
  queue_nodup : st.queue.Nodup
  queue_mem : ∀ n ∈ st.queue, n ∈ nodes
  queue_supported : ∀ n ∈ st.queue, Supported pred s st.doms n
  queue_reaches : ∀ n ∈ st.queue, Reaches (Edge pred) s n
  doms_reaches : ∀ n A, st.doms n = some A → Reaches (Edge pred) s n
  doms_mem : ∀ n A, st.doms n = some A → n ∈ nodes ∧ A ⊆ nodes ∧ n ∈ A
  doms_supported : ∀ n A, st.doms n = some A → Supported pred s st.doms n
  overApprox : ∀ n A, st.doms n = some A → ∀ m, Dominates (Edge pred) s m n → m ∈ A
  quiet : ∀ n, n ∉ st.queue → Supported pred s st.doms n → st.doms n = some (recompute pred st.doms n)
  first : (st.doms s).isSome = true ∨ st = MetaCG.DominatorWorklist.initial s

theorem Inv.initial (h : Graph pred succ nodes s) : Inv pred nodes s (initial s) where
  queue_nodup := List.nodup_singleton s
  queue_mem := fun n hn => by rw [List.mem_singleton.mp hn]; exact h.start_mem
  queue_supported := fun n hn => .inl (List.mem_singleton.mp hn)
  queue_reaches := fun n hn => by rw [List.mem_singleton.mp hn]; exact Reaches.start
  doms_reaches := fun n A hA => by cases hA
  doms_mem := fun n A hA => by cases hA
  doms_supported := fun n A hA => by cases hA
  overApprox := fun n A hA => by cases hA
  quiet := by
    intro n hn hsup
    rcases hsup with rfl | ⟨p, -, hp⟩
    · exact absurd (List.mem_singleton_self n) hn
    · cases hp
  first := .inr rfl

/-- The recomputed set of a queued node holds its dominators. -/
theorem Inv.overApprox_recompute (h : Inv pred nodes s st) {q : α} (hq : q ∈ st.queue) {m : α}
    (hm : Dominates (Edge pred) s m q) : m ∈ recompute pred st.doms q := by
  by_cases hmq : m = q
  · rw [hmq]
    exact self_mem_recompute ..
  · by_cases hpred : ∃ p ∈ pred q, (st.doms p).isSome = true
    · rw [mem_recompute hpred]
      exact .inr fun p hp A hA => h.overApprox p A hA m (dominates_of_edge hm hmq hp)
    · rcases h.queue_supported q hq with rfl | hsup
      · exact absurd (dominates_start hm) hmq
      · exact absurd hsup hpred

theorem Inv.recompute_subset (h : Inv pred nodes s st) {q : α} (hq : q ∈ nodes) :
    recompute pred st.doms q ⊆ nodes := by
  intro x hx
  by_cases hpred : ∃ p ∈ pred q, (st.doms p).isSome = true
  · rw [mem_recompute hpred] at hx
    rcases hx with rfl | hall
    · exact hq
    · obtain ⟨p, hp, hsome⟩ := hpred
      obtain ⟨A, hA⟩ := Option.isSome_iff_exists.mp hsome
      exact (h.doms_mem p A hA).2.1 (hall p hp A hA)
  · rw [recompute_eq_self (fun p hp => by
      by_contra hne
      exact hpred ⟨p, hp, Option.isSome_iff_ne_none.mpr hne⟩), Finset.mem_singleton] at hx
    rw [hx]
    exact hq

/-- A step that finds the set of the node unchanged. -/
theorem Inv.same (h : Inv pred nodes s st) {q : α} {rest : List α} (hq : st.queue = q :: rest)
    (heq : st.doms q = some (recompute pred st.doms q)) : Inv pred nodes s ⟨st.doms, rest⟩ := by
  have hnd := h.queue_nodup
  rw [hq, List.nodup_cons] at hnd
  have hrest : ∀ n ∈ rest, n ∈ st.queue := fun n hn => by rw [hq]; exact List.mem_cons_of_mem q hn
  exact {
    queue_nodup := hnd.2
    queue_mem := fun n hn => h.queue_mem n (hrest n hn)
    queue_supported := fun n hn => h.queue_supported n (hrest n hn)
    queue_reaches := fun n hn => h.queue_reaches n (hrest n hn)
    doms_reaches := h.doms_reaches
    doms_mem := h.doms_mem
    doms_supported := h.doms_supported
    overApprox := h.overApprox
    quiet := by
      intro n hn hsup
      by_cases hnq : n = q
      · rw [hnq]
        exact heq
      · refine h.quiet n ?_ hsup
        rw [hq]
        exact fun hmem => (List.mem_cons.mp hmem).elim hnq hn
    first := by
      rcases h.first with hsome | rfl
      · exact .inl hsome
      · cases heq }

/-- A step that stores a new set and queues the successors of the node. -/
theorem Inv.changed (hg : Graph pred succ nodes s) (h : Inv pred nodes s st) {q : α} {rest added : List α}
    (hq : st.queue = q :: rest) (hadd : added.Nodup) (hadded : ∀ n, n ∈ added ↔ n ∈ succ q ∧ n ∉ rest) :
    Inv pred nodes s (changed st q (recompute pred st.doms q) rest added) := by
  have hqmem : q ∈ st.queue := by rw [hq]; exact List.mem_cons_self ..
  have hrest : ∀ n ∈ rest, n ∈ st.queue := fun n hn => by rw [hq]; exact List.mem_cons_of_mem q hn
  have hqn : q ∈ nodes := h.queue_mem q hqmem
  have hnd := h.queue_nodup
  rw [hq, List.nodup_cons] at hnd
  have hself : ((DominatorWorklist.changed st q (recompute pred st.doms q) rest added).doms q).isSome = true := by
    rw [changed_self]
    rfl
  exact {
    queue_nodup := by
      refine List.Nodup.append hnd.2 hadd fun x hx hx' => ?_
      exact ((hadded x).mp hx').2 hx
    queue_mem := by
      intro n hn
      rcases List.mem_append.mp hn with hn | hn
      · exact h.queue_mem n (hrest n hn)
      · exact hg.closed q n hqn ((hadded n).mp hn).1
    queue_supported := by
      intro n hn
      rcases List.mem_append.mp hn with hn | hn
      · exact (h.queue_supported n (hrest n hn)).changed
      · exact .inr ⟨q, (hg.succ_iff q n).mp ((hadded n).mp hn).1, hself⟩
    queue_reaches := by
      intro n hn
      rcases List.mem_append.mp hn with hn | hn
      · exact h.queue_reaches n (hrest n hn)
      · exact (h.queue_reaches q hqmem).edge ((hg.succ_iff q n).mp ((hadded n).mp hn).1)
    doms_reaches := by
      intro n A hA
      rcases changed_cases hA with ⟨rfl, -⟩ | hA
      · exact h.queue_reaches n hqmem
      · exact h.doms_reaches n A hA
    doms_mem := by
      intro n A hA
      rcases changed_cases hA with ⟨rfl, rfl⟩ | hA
      · exact ⟨hqn, h.recompute_subset hqn, self_mem_recompute ..⟩
      · exact h.doms_mem n A hA
    doms_supported := by
      intro n A hA
      rcases changed_cases hA with ⟨rfl, -⟩ | hA
      · exact (h.queue_supported n hqmem).changed
      · exact (h.doms_supported n A hA).changed
    overApprox := by
      intro n A hA m hm
      rcases changed_cases hA with ⟨rfl, rfl⟩ | hA
      · exact h.overApprox_recompute hqmem hm
      · exact h.overApprox n A hA m hm
    quiet := by
      intro n hn hsup
      rw [show (DominatorWorklist.changed st q (recompute pred st.doms q) rest added).queue = rest ++ added from rfl,
        List.mem_append, not_or, hadded] at hn
      -- a node outside the queue is no successor of `q`, so its equation has not changed
      have hnsucc : q ∉ pred n := fun hp => hn.2 ⟨(hg.succ_iff q n).mpr hp, hn.1⟩
      have hsame : ∀ p ∈ pred n,
          (DominatorWorklist.changed st q (recompute pred st.doms q) rest added).doms p = st.doms p := by
        intro p hp
        have hpq : p ≠ q := fun he => hnsucc (he ▸ hp)
        exact changed_of_ne st hpq _ _ _
      rw [recompute_congr hsame]
      by_cases hnq : n = q
      · subst hnq
        rw [changed_self]
      · rw [changed_of_ne st hnq]
        refine h.quiet n ?_ ?_
        · rw [hq]
          exact fun hmem => (List.mem_cons.mp hmem).elim hnq hn.1
        · rcases hsup with hs | ⟨p, hp, hsome⟩
          · exact .inl hs
          · refine .inr ⟨p, hp, ?_⟩
            rw [hsame p hp] at hsome
            exact hsome
    first := by
      rcases h.first with hsome | rfl
      · exact .inl (changed_isSome hsome)
      · cases hq
        exact .inl hself }

theorem Inv.step (hg : Graph pred succ nodes s) (h : Inv pred nodes s st) (hs : Step pred succ st st') :
    Inv pred nodes s st' := by
  cases hs with
  | same hq heq => exact h.same hq heq
  | change hq _ hadd hadded => exact h.changed hg hq hadd hadded

/-! ## Runs that keep the start -/

/-- When the start is taken from the queue, its set is recomputed to the start alone. -/
def StartKept (pred : α → List α) (s : α) (st : State α) : Prop :=
  st.queue.head? = some s → recompute pred st.doms s = {s}

/-- What holds as long as every step keeps the start. -/
structure Pinned (pred : α → List α) (s : α) (st : State α) : Prop where
  start : ∀ A, st.doms s = some A → A = {s}
  shrinks : ∀ n A, n ≠ s → st.doms n = some A → recompute pred st.doms n ⊆ A

theorem Pinned.initial : Pinned pred s (initial s) where
  start := fun A hA => by cases hA
  shrinks := fun n A _ hA => by cases hA

/-- A change initialises a node or makes its set strictly smaller. -/
theorem Pinned.change (hp : Pinned pred s st) (hk : StartKept pred s st) {q : α} {rest : List α}
    (hq : st.queue = q :: rest) (hne : st.doms q ≠ some (recompute pred st.doms q)) :
    st.doms q = none ∨ ∃ A, st.doms q = some A ∧ recompute pred st.doms q ⊂ A := by
  cases hD : st.doms q with
  | none => exact .inl rfl
  | some A =>
    right
    refine ⟨A, rfl, ?_⟩
    rw [hD, ne_eq, Option.some.injEq] at hne
    by_cases hqs : q = s
    · subst hqs
      have hrec : recompute pred st.doms q = {q} := hk (by rw [hq]; rfl)
      exact absurd ((hp.start A hD).trans hrec.symm) hne
    · exact Finset.ssubset_iff_subset_ne.mpr ⟨hp.shrinks q A hqs hD, fun he => hne he.symm⟩

theorem Pinned.refines (hp : Pinned pred s st) (hk : StartKept pred s st) {q : α} {rest : List α}
    (hq : st.queue = q :: rest) (hne : st.doms q ≠ some (recompute pred st.doms q)) (added : List α) :
    Refines st.doms (changed st q (recompute pred st.doms q) rest added).doms := by
  intro p A hA
  by_cases hpq : p = q
  · subst hpq
    rcases hp.change hk hq hne with hnone | ⟨B, hB, hsub⟩
    · rw [hnone] at hA
      cases hA
    · rw [hB] at hA
      cases hA
      exact ⟨_, changed_self .., hsub.1⟩
  · exact ⟨A, by rw [changed_of_ne st hpq]; exact hA, Finset.Subset.refl A⟩

theorem Pinned.step (h : Inv pred nodes s st) (hp : Pinned pred s st) (hk : StartKept pred s st)
    (hs : Step pred succ st st') : Pinned pred s st' := by
  cases hs with
  | same hq heq => exact ⟨hp.start, hp.shrinks⟩
  | @change q rest added hq hne hadd hadded =>
    have hqmem : q ∈ st.queue := by rw [hq]; exact List.mem_cons_self ..
    have href := hp.refines hk hq hne added
    refine ⟨fun A hA => ?_, fun n A hn hA => ?_⟩
    · by_cases hqs : q = s
      · subst hqs
        rw [changed_self] at hA
        cases hA
        exact hk (by rw [hq]; rfl)
      · rw [changed_of_ne st (fun he => hqs he.symm)] at hA
        exact hp.start A hA
    · by_cases hnq : n = q
      · subst hnq
        rw [changed_self] at hA
        cases hA
        exact recompute_anti href (Or.resolve_left (h.queue_supported n hqmem) hn)
      · rw [changed_of_ne st hnq] at hA
        exact (recompute_anti href (Or.resolve_left (h.doms_supported n A hA) hn)).trans (hp.shrinks n A hn hA)

/-! ## The runs are bounded -/

/-- How much a node can still lose. -/
def weight (nodes : Finset α) (D : α → Option (Finset α)) (n : α) : ℕ :=
  match D n with
  | none => nodes.card + 1
  | some A => A.card

def potential (nodes : Finset α) (D : α → Option (Finset α)) : ℕ := ∑ n ∈ nodes, weight nodes D n

/-- Changes weigh more than a full queue. -/
def measure (nodes : Finset α) (st : State α) : ℕ := potential nodes st.doms * (nodes.card + 1) + st.queue.length

theorem Inv.queue_length (h : Inv pred nodes s st) : st.queue.length ≤ nodes.card := by
  rw [← List.toFinset_card_of_nodup h.queue_nodup]
  exact Finset.card_le_card fun n hn => h.queue_mem n (List.mem_toFinset.mp hn)

theorem potential_changed (h : Inv pred nodes s st) (hp : Pinned pred s st) (hk : StartKept pred s st) {q : α}
    {rest : List α} (hq : st.queue = q :: rest) (hne : st.doms q ≠ some (recompute pred st.doms q))
    (added : List α) :
    potential nodes (changed st q (recompute pred st.doms q) rest added).doms < potential nodes st.doms := by
  have hqn : q ∈ nodes := h.queue_mem q (by rw [hq]; exact List.mem_cons_self ..)
  have hself : weight nodes (changed st q (recompute pred st.doms q) rest added).doms q < weight nodes st.doms q := by
    have hnew : weight nodes (changed st q (recompute pred st.doms q) rest added).doms q =
        (recompute pred st.doms q).card := by rw [weight, changed_self]
    rw [hnew]
    rcases hp.change hk hq hne with hnone | ⟨A, hA, hsub⟩
    · have hle := Finset.card_le_card (h.recompute_subset hqn)
      rw [weight, hnone]
      exact Nat.lt_succ_of_le hle
    · rw [weight, hA]
      exact Finset.card_lt_card hsub
  refine Finset.sum_lt_sum (fun n hn => ?_) ⟨q, hqn, hself⟩
  by_cases hnq : n = q
  · rw [hnq]
    exact hself.le
  · rw [weight, weight, changed_of_ne st hnq]

theorem measure_step (hg : Graph pred succ nodes s) (h : Inv pred nodes s st) (hp : Pinned pred s st)
    (hk : StartKept pred s st) (hs : Step pred succ st st') : measure nodes st' < measure nodes st := by
  have hlen' := (h.step hg hs).queue_length
  cases hs with
  | @same q rest hq heq =>
    simp only [measure, hq, List.length_cons]
    omega
  | @change q rest added hq hne hadd hadded =>
    have hpot := potential_changed h hp hk hq hne added
    unfold measure
    calc potential nodes (changed st q (recompute pred st.doms q) rest added).doms * (nodes.card + 1) +
          (changed st q (recompute pred st.doms q) rest added).queue.length
        < (potential nodes (changed st q (recompute pred st.doms q) rest added).doms + 1) * (nodes.card + 1) := by
          rw [Nat.add_mul]
          omega
      _ ≤ potential nodes st.doms * (nodes.card + 1) := Nat.mul_le_mul_right _ hpot
      _ ≤ potential nodes st.doms * (nodes.card + 1) + st.queue.length := Nat.le_add_right ..

/-! ## The result -/

/-- With an empty queue exactly the reachable nodes are initialised. -/
theorem Inv.isSome_iff (h : Inv pred nodes s st) (hq : st.queue = []) (n : α) :
    (st.doms n).isSome = true ↔ Reaches (Edge pred) s n := by
  have hquiet : ∀ {n}, Supported pred s st.doms n → (st.doms n).isSome = true := by
    intro n hsup
    rw [h.quiet n (by rw [hq]; exact List.not_mem_nil) hsup]
    rfl
  constructor
  · intro hsome
    obtain ⟨A, hA⟩ := Option.isSome_iff_exists.mp hsome
    exact h.doms_reaches n A hA
  · exact fun hr => Reaches.invariant (P := fun n => (st.doms n).isSome = true) (hquiet (.inl rfl))
      (fun p n _ hp he => hquiet (.inr ⟨p, he, hp⟩)) hr

/-- With an empty queue and the start alone in its set, the sets are the dominators. -/
theorem Inv.mem_iff_dominates (h : Inv pred nodes s st) (hstart : ∀ A, st.doms s = some A → A = {s})
    (hq : st.queue = []) {n : α} {A : Finset α} (hA : st.doms n = some A) (m : α) : m ∈ A ↔ Dominates (Edge pred) s m n := by
  refine ⟨fun hm => ?_, fun hm => h.overApprox n A hA m hm⟩
  have hquiet : ∀ n, Supported pred s st.doms n → st.doms n = some (recompute pred st.doms n) :=
    fun n hsup => h.quiet n (by rw [hq]; exact List.not_mem_nil) hsup
  refine subset_of_equations (D := fun n => {m | ∀ A, st.doms n = some A → m ∈ A}) ?_ ?_ (fun B hB => ?_)
  · intro m hm
    have hs := hquiet s (.inl rfl)
    have hmem := hm _ hs
    rw [hstart _ hs, Finset.mem_singleton] at hmem
    exact hmem
  · intro p n hn hreach he m hm
    have hpsome := (h.isSome_iff hq p).mpr hreach
    have hex : ∃ p ∈ pred n, (st.doms p).isSome = true := ⟨p, he, hpsome⟩
    have hmem := hm _ (hquiet n (.inr hex))
    rw [mem_recompute hex] at hmem
    exact hmem.imp id (fun hall => hall p he)
  · rw [hA] at hB
    cases hB
    exact hm

end
end MetaCG.DominatorWorklist
